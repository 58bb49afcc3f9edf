import Conglobate.Lib.OrdMap

/- Publication of a staged layout (`output/mod.rs`).

   The layout is built in a private directory beside or inside the destination
   and exposed by renames that refuse to replace anything. A new directory takes
   one rename; an existing empty one receives the entries one by one, and a
   rename that fails sends those already moved back. The operating system may
   refuse any operation: `Operation` names them, and what it refuses is a
   parameter of the run.

   The emptied staging directory is removed last. When that fails, everything is
   already visible and the caller is told that publication failed, so
   `publish_all_or_nothing` holds exactly outside that case.

   Correspondence (Rust ↔ Lean):
     `self.parent`, by name        ↔ `Directory`
     `self.temporary` in it        ↔ a `Node.directory` under `temporary`
     dropping `self.temporary`     ↔ `dropStaging`
     `self.temporary.close()`      ↔ `Operation.close`
     `published`, newest first     ↔ the second argument of `moveEach` -/
namespace Conglobate.Output

abbrev Name := Bytes

/-- What a name stands for: an entry of some content, or a directory of such entries. -/
inductive Node (ν : Type) where
  | content (value : ν)
  | directory (entries : OrdMap Name ν)
  deriving DecidableEq

abbrev Directory (ν : Type) := OrdMap Name (Node ν)

/-- How staged content reaches the destination. -/
inductive PublishKind where
  /-- The destination must not exist; the staging directory is renamed to it. -/
  | renameDirectory (name : Name)
  /-- The destination exists and was empty; the entries are moved into it. -/
  | moveChildren
  deriving DecidableEq

/-- The operations a publication makes. -/
inductive Operation where
  | openBlobs
  | listBlobs
  | renameDirectory
  | openStaging
  | listStaging
  | publish (name : Name)
  | rollBack (name : Name)
  | close
  | drop
  deriving DecidableEq

/-- Private staging in the directory it was made in: `parent` is the destination itself
    when entries are moved, and the directory that holds it otherwise. -/
structure StagedDirectory (ν : Type) where
  temporary : Name
  kind : PublishKind
  parent : Directory ν
  entries : OrdMap Name ν
  /-- The names under `blobs/sha256`. -/
  blobs : List Name
  staged : parent.get? temporary = some (.directory entries)

def unfinishedBlob : IoError := ⟨.other, "unfinished or noncanonical output blob"⟩
def alreadyExists : IoError := ⟨.alreadyExists, "File exists (os error 17)"⟩
def notFound : IoError := ⟨.notFound, "No such file or directory (os error 2)"⟩

/-- 64 lowercase hexadecimal digits. -/
def canonicalBlob (name : Name) : Bool :=
  decide (name.length = 64) && name.all (fun b => decide (48 ≤ b ∧ b ≤ 57) ||
    decide (97 ≤ b ∧ b ≤ 102))

variable {ν : Type}

/-- An operation the operating system may refuse. -/
def attempt (refused : Option IoError) : Except IoError Unit :=
  match refused with
  | some e => .error e
  | none => .ok ()

/-- `renameat_with(.., NOREPLACE)` of an entry of staging to its name in the parent. -/
def renameIn (temporary : Name) (parent : Directory ν) (name : Name) :
    Except IoError (Directory ν) :=
  match parent.get? temporary with
  | some (.directory entries) =>
    match entries.get? name with
    | none => .error notFound
    | some value =>
      if parent.contains name then .error alreadyExists
      else
        .ok ((parent.insert name (.content value)).insert temporary
          (.directory (entries.erase name)))
  | _ => .error notFound

/-- `renameat` of an entry of the parent back into staging. -/
def renameBack (temporary : Name) (parent : Directory ν) (name : Name) :
    Except IoError (Directory ν) :=
  match parent.get? temporary, parent.get? name with
  | some (.directory entries), some (.content value) =>
    .ok ((parent.erase name).insert temporary (.directory (entries.insert name value)))
  | _, _ => .error notFound

/-- The entries already moved go back, newest first; a refusal is ignored. -/
def rollBack (refuses : Operation → Option IoError) (temporary : Name) :
    List Name → Directory ν → Directory ν
  | [], parent => parent
  | name :: published, parent =>
    match attempt (refuses (.rollBack name)), renameBack temporary parent name with
    | .ok (), .ok parent' => rollBack refuses temporary published parent'
    | _, _ => rollBack refuses temporary published parent

/-- The entries in order, up to the first that cannot be moved. -/
def moveEach (refuses : Operation → Option IoError) (temporary : Name) :
    List Name → List Name → Directory ν → Except IoError Unit × Directory ν
  | [], _, parent => (.ok (), parent)
  | name :: rest, published, parent =>
    match attempt (refuses (.publish name)) >>= fun _ => renameIn temporary parent name with
    | .ok parent' => moveEach refuses temporary rest (name :: published) parent'
    | .error e => (.error e, rollBack refuses temporary published parent)

namespace StagedDirectory

variable (staged : StagedDirectory ν) (refuses : Operation → Option IoError)

/-- The staging directory removed when its owner goes away; a refusal is ignored. -/
def dropStaging (parent : Directory ν) : Directory ν :=
  match refuses .drop with
  | none => parent.erase staged.temporary
  | some _ => parent

/-- `staged.blob_directory()` and the check of every name in it. -/
def checkBlobs : Except IoError Unit := do
  attempt (refuses .openBlobs)
  attempt (refuses .listBlobs)
  if staged.blobs.all canonicalBlob then .ok () else .error unfinishedBlob

/-- `publish_children`, before `self` is dropped. -/
def publishChildren : Except IoError Unit × Directory ν :=
  match attempt (refuses .openStaging) >>= fun _ => attempt (refuses .listStaging) with
  | .error e => (.error e, staged.dropStaging refuses staged.parent)
  | .ok () =>
    match moveEach refuses staged.temporary staged.entries.keys [] staged.parent with
    | (.error e, parent) => (.error e, staged.dropStaging refuses parent)
    | (.ok (), parent) =>
      match refuses .close with
      -- `close` forgets the directory whether or not it was removed
      | some e => (.error e, parent)
      | none => (.ok (), parent.erase staged.temporary)

/-- The rename of the whole staging directory. -/
def renameStaging (name : Name) : Except IoError (Directory ν) := do
  attempt (refuses .renameDirectory)
  if staged.parent.contains name then .error alreadyExists
  else .ok ((staged.parent.erase staged.temporary).insert name (.directory staged.entries))

/-- `publish`: its result, and the parent directory afterwards. -/
def publish : Except IoError Unit × Directory ν :=
  match staged.checkBlobs refuses with
  | .error e => (.error e, staged.dropStaging refuses staged.parent)
  | .ok () =>
    match staged.kind with
    | .moveChildren => staged.publishChildren refuses
    | .renameDirectory name =>
      match staged.renameStaging refuses name with
      | .ok parent => (.ok (), parent)
      | .error e => (.error e, staged.dropStaging refuses staged.parent)

/-! What the destination shows. -/

/-- The parent's names but staging's own. -/
def visible (parent : Directory ν) (name : Name) : Option (Node ν) :=
  if name = staged.temporary then none else parent.get? name

/-- The destination's entries: the parent's, or those of the directory the destination names. -/
def destination (parent : Directory ν) (entry : Name) : Option (Node ν) :=
  match staged.kind with
  | .moveChildren => staged.visible parent entry
  | .renameDirectory name =>
    match staged.visible parent name with
    | some (.directory entries) => (entries.get? entry).map Node.content
    | _ => none

/-- On an error the destination is as it was; on success it has every staged entry, and the
    staging directory is gone. -/
def AllOrNothing (result : Except IoError Unit × Directory ν) : Prop :=
  match result.1 with
  | .error _ => ∀ entry, staged.destination result.2 entry = staged.destination staged.parent entry
  | .ok () =>
    (∀ entry value, staged.entries.get? entry = some value →
      staged.destination result.2 entry = some (.content value)) ∧
    result.2.get? staged.temporary = none

/-- Nothing stands against moving the entries one by one: no operation before the removal
    of the staging directory is refused, and no entry's name is taken. -/
structure Movable : Prop where
  kind : staged.kind = .moveChildren
  openBlobs : refuses .openBlobs = none
  listBlobs : refuses .listBlobs = none
  blobs : staged.blobs.all canonicalBlob = true
  openStaging : refuses .openStaging = none
  listStaging : refuses .listStaging = none
  publish : ∀ name ∈ staged.entries.keys, refuses (.publish name) = none
  free : ∀ name ∈ staged.entries.keys, staged.parent.contains name = false

/-! Moving entries and moving them back. -/

/-- What is left in staging once the names in `front` are moved. -/
def left (front : List Name) : OrdMap Name ν :=
  staged.entries.filter (fun e => decide (e.1 ∉ front))

/-- The parent once the names in `front` are moved. -/
def Moved (front : List Name) (parent : Directory ν) : Prop :=
  ∀ name, parent.get? name =
    if name = staged.temporary then some (.directory (staged.left front))
    else if name ∈ front then (staged.entries.get? name).map Node.content
    else staged.parent.get? name

section Moved
variable {staged} {front : List Name} {parent : Directory ν} {name : Name} {value : ν}

theorem left_get? (front : List Name) (name : Name) :
    (staged.left front).get? name = if name ∈ front then none else staged.entries.get? name := by
  rw [left, OrdMap.get?_filter staged.entries (fun n => decide (n ∉ front))]
  by_cases h : name ∈ front <;> simp [h]

theorem left_nil : staged.left [] = staged.entries := by
  apply OrdMap.ext_get?
  intro name
  rw [left_get?, if_neg List.not_mem_nil]

theorem left_erase (front : List Name) (name : Name) :
    (staged.left front).erase name = staged.left (name :: front) := by
  apply OrdMap.ext_get?
  intro k
  rw [OrdMap.get?_erase, left_get?, left_get?]
  by_cases hk : k = name <;> simp [hk]

theorem left_insert (hfront : name ∉ front) (hvalue : staged.entries.get? name = some value) :
    (staged.left (name :: front)).insert name value = staged.left front := by
  apply OrdMap.ext_get?
  intro k
  rw [OrdMap.get?_insert, left_get?, left_get?]
  by_cases hk : k = name
  · rw [hk, if_pos rfl, if_neg hfront, hvalue]
  · rw [if_neg hk]
    simp [hk]

theorem moved_nil : staged.Moved [] staged.parent := by
  intro name
  split
  · rename_i h
    rw [h, staged.staged, left_nil]
  · rw [if_neg List.not_mem_nil]

/-- With nothing moved the parent is what it was. -/
theorem Moved.eq_parent (h : staged.Moved [] parent) : parent = staged.parent := by
  apply OrdMap.ext_get?
  intro name
  rw [h name, ← moved_nil name]

theorem Moved.staging (h : staged.Moved front parent) :
    parent.get? staged.temporary = some (.directory (staged.left front)) := by
  rw [h, if_pos rfl]

/-- Every name that is free is not staging's own. -/
theorem ne_temporary (hfree : staged.parent.contains name = false) : name ≠ staged.temporary := by
  intro h
  rw [h, OrdMap.contains, staged.staged] at hfree
  cases hfree

/-- **One move.** -/
theorem renameIn_moved (h : staged.Moved front parent) (hfront : name ∉ front)
    (hvalue : staged.entries.get? name = some value) (hfree : staged.parent.contains name = false) :
    ∃ parent', renameIn staged.temporary parent name = .ok parent' ∧
      staged.Moved (name :: front) parent' := by
  have hne := ne_temporary hfree
  have hparent : parent.contains name = false := by
    rw [OrdMap.contains_eq_false, h, if_neg hne, if_neg hfront, OrdMap.contains_eq_false.mp hfree]
  have hleft : (staged.left front).get? name = some value := by
    rw [left_get?, if_neg hfront, hvalue]
  refine ⟨_, by rw [renameIn, h.staging]; dsimp only; rw [hleft]; dsimp only; rw [if_neg (by simp [hparent])], ?_⟩
  intro k
  rw [OrdMap.get?_insert, left_erase]
  by_cases ht : k = staged.temporary
  · rw [if_pos ht, if_pos ht]
  · rw [if_neg ht, if_neg ht, OrdMap.get?_insert]
    by_cases hk : k = name
    · rw [if_pos hk, if_pos (hk ▸ List.mem_cons_self), hk, hvalue]
      rfl
    · rw [if_neg hk, h, if_neg ht]
      simp [hk]

/-- A name that is taken cannot be moved to. -/
theorem renameIn_taken (h : staged.Moved front parent) (hfront : name ∉ front)
    (htaken : staged.parent.contains name = true) :
    ∃ e, renameIn staged.temporary parent name = .error e := by
  have hparent : parent.contains name = true := by
    rw [OrdMap.contains, h, if_neg hfront]
    split
    · rfl
    · exact htaken
  rw [renameIn, h.staging]
  dsimp only
  cases (staged.left front).get? name with
  | none => exact ⟨_, rfl⟩
  | some value => exact ⟨_, if_pos hparent⟩

/-- **One move undone.** -/
theorem renameBack_moved (h : staged.Moved (name :: front) parent) (hfront : name ∉ front)
    (hvalue : staged.entries.get? name = some value) (hfree : staged.parent.contains name = false) :
    ∃ parent', renameBack staged.temporary parent name = .ok parent' ∧
      staged.Moved front parent' := by
  have hne := ne_temporary hfree
  have hparent : parent.get? name = some (.content value) := by
    rw [h, if_neg hne, if_pos List.mem_cons_self, hvalue]
    rfl
  refine ⟨_, by rw [renameBack, h.staging, hparent], ?_⟩
  intro k
  rw [OrdMap.get?_insert, left_insert hfront hvalue]
  by_cases ht : k = staged.temporary
  · rw [if_pos ht, if_pos ht]
  · rw [if_neg ht, if_neg ht, OrdMap.get?_erase]
    by_cases hk : k = name
    · rw [if_pos hk, hk, if_neg hfront, OrdMap.contains_eq_false.mp hfree]
    · rw [if_neg hk, h, if_neg ht]
      simp [hk]

/-- **Moving everything back restores the parent**, when no move back is refused. -/
theorem rollBack_moved {refuses : Operation → Option IoError}
    (hback : ∀ name, refuses (.rollBack name) = none) {published : List Name}
    (hnodup : published.Nodup) (hkeys : ∀ name ∈ published, name ∈ staged.entries.keys)
    (hfree : ∀ name ∈ published, staged.parent.contains name = false)
    (h : staged.Moved published parent) :
    rollBack refuses staged.temporary published parent = staged.parent := by
  induction published generalizing parent with
  | nil => exact h.eq_parent
  | cons name published ih =>
    rw [List.nodup_cons] at hnodup
    rw [List.forall_mem_cons] at hkeys hfree
    obtain ⟨value, hvalue⟩ := Option.isSome_iff_exists.mp (OrdMap.mem_keys.mp hkeys.1)
    obtain ⟨parent', hrename, h'⟩ := renameBack_moved h hnodup.1 hvalue hfree.1
    rw [rollBack, hback, attempt, hrename]
    exact ih hnodup.2 hkeys.2 hfree.2 h'

/-- **A run of moves.** Either every entry is moved, or the first that cannot be moved leaves
    the parent as it was before the run. -/
theorem moveEach_spec {refuses : Operation → Option IoError}
    (hback : ∀ name, refuses (.rollBack name) = none) {rest published : List Name}
    (hnodup : (rest ++ published).Nodup)
    (hkeys : ∀ name ∈ rest ++ published, name ∈ staged.entries.keys)
    (hfree : ∀ name ∈ published, staged.parent.contains name = false)
    (h : staged.Moved published parent) :
    (∃ parent', moveEach refuses staged.temporary rest published parent = (.ok (), parent') ∧
        staged.Moved (rest.reverse ++ published) parent' ∧
        ∀ name ∈ rest, refuses (.publish name) = none ∧ staged.parent.contains name = false) ∨
      (∃ e, moveEach refuses staged.temporary rest published parent = (.error e, staged.parent)) ∧
        ∃ name ∈ rest, ¬ (refuses (.publish name) = none ∧
          staged.parent.contains name = false) := by
  induction rest generalizing published parent with
  | nil => exact .inl ⟨parent, rfl, h, List.forall_mem_nil _⟩
  | cons name rest ih =>
    have hpublished : published.Nodup := (List.nodup_append.mp hnodup).2.1
    have hfront : name ∉ published :=
      fun hmem => (List.nodup_cons.mp hnodup).1 (List.mem_append_right _ hmem)
    have hrestore : rollBack refuses staged.temporary published parent = staged.parent :=
      rollBack_moved hback hpublished (fun n hn => hkeys n (List.mem_append_right _ hn)) hfree h
    rw [moveEach]
    by_cases hname : refuses (.publish name) = none ∧ staged.parent.contains name = false
    · -- the entry moves, and the run goes on with it among the published
      obtain ⟨value, hvalue⟩ :=
        Option.isSome_iff_exists.mp (OrdMap.mem_keys.mp (hkeys name List.mem_cons_self))
      obtain ⟨parent', hrename, h'⟩ := renameIn_moved h hfront hvalue hname.2
      have hperm : (rest ++ name :: published).Perm (name :: rest ++ published) := List.perm_middle
      have hrest := ih (hperm.nodup_iff.mpr hnodup) (fun n hn => hkeys n (hperm.mem_iff.mp hn))
        (List.forall_mem_cons.mpr ⟨hname.2, hfree⟩) h'
      rw [hname.1, attempt, except_ok_bind, hrename]
      dsimp only
      cases hrest with
      | inl hdone =>
        obtain ⟨all, hrun, hmoved, hall⟩ := hdone
        refine .inl ⟨all, hrun, ?_, List.forall_mem_cons.mpr ⟨hname, hall⟩⟩
        rwa [List.reverse_cons, List.append_assoc]
      | inr hfailed =>
        obtain ⟨hrun, n, hn, hstuck⟩ := hfailed
        exact .inr ⟨hrun, n, List.mem_cons_of_mem _ hn, hstuck⟩
    · refine .inr ⟨?_, name, List.mem_cons_self, hname⟩
      have hstep : ∃ e, (attempt (refuses (.publish name)) >>= fun _ =>
          renameIn staged.temporary parent name) =
          .error e := by
        cases hrefused : refuses (.publish name) with
        | some e => exact ⟨e, rfl⟩
        | none =>
          have htaken : staged.parent.contains name = true := by
            rw [← Bool.not_eq_false]
            exact fun hfalse => hname ⟨hrefused, hfalse⟩
          exact renameIn_taken h hfront htaken
      obtain ⟨e, hstep⟩ := hstep
      rw [hstep]
      dsimp only
      rw [hrestore]
      exact ⟨e, rfl⟩

end Moved

/-! The whole publication. -/

variable {staged refuses}

theorem attempt_eq_ok {refused : Option IoError} : attempt refused = .ok () ↔ refused = none := by
  cases refused <;> simp [attempt]

theorem attempt_bind_eq_ok {α : Type} {refused : Option IoError} {x : Except IoError α} {a : α} :
    (attempt refused >>= fun _ => x) = .ok a ↔ refused = none ∧ x = .ok a := by
  cases refused <;> simp [attempt, bind, Except.bind]

theorem checkBlobs_eq_ok : staged.checkBlobs refuses = .ok () ↔
    refuses .openBlobs = none ∧ refuses .listBlobs = none ∧
      staged.blobs.all canonicalBlob = true := by
  rw [checkBlobs, attempt_bind_eq_ok, attempt_bind_eq_ok]
  by_cases hblobs : staged.blobs.all canonicalBlob = true
  · rw [if_pos hblobs]
    simp [hblobs]
  · rw [if_neg hblobs]
    simp [hblobs]

theorem visible_dropStaging (parent : Directory ν) (name : Name) :
    staged.visible (staged.dropStaging refuses parent) name = staged.visible parent name := by
  unfold visible
  split
  · rfl
  · rename_i hne
    rw [dropStaging]
    split
    · rw [OrdMap.get?_erase, if_neg hne]
    · rfl

/-- An error that leaves the parent as it was, staging apart, shows nothing. -/
theorem allOrNothing_dropped (e : IoError) :
    staged.AllOrNothing (.error e, staged.dropStaging refuses staged.parent) := by
  intro entry
  show staged.destination (staged.dropStaging refuses staged.parent) entry = _
  simp only [destination, visible_dropStaging]

theorem keys_nodup_append : (staged.entries.keys ++ []).Nodup := by
  rw [List.append_nil]
  exact OrdMap.nodup_keys staged.entries

/-- **One rename of the directory is all or nothing.** -/
theorem allOrNothing_renameDirectory {name : Name} (hkind : staged.kind = .renameDirectory name) :
    staged.AllOrNothing (staged.publish refuses) := by
  rw [publish]
  split
  · exact allOrNothing_dropped _
  · rw [hkind]
    dsimp only
    split
    · rename_i parent hrename
      have hrename := (attempt_bind_eq_ok.mp hrename).2
      split at hrename
      · cases hrename
      · rename_i hfree
        cases hrename
        have hne : name ≠ staged.temporary := ne_temporary (by simpa using hfree)
        refine ⟨?_, ?_⟩
        · intro entry value hvalue
          simp only [destination, hkind, visible, if_neg hne, OrdMap.get?_insert, if_pos, hvalue,
            Option.map_some]
        · rw [OrdMap.get?_insert, if_neg (Ne.symm hne), OrdMap.get?_erase, if_pos rfl]
    · exact allOrNothing_dropped _

/-- **Moving the entries is all or nothing when something stands against a move.** -/
theorem allOrNothing_immovable (hback : ∀ name, refuses (.rollBack name) = none)
    (h : ¬ staged.Movable refuses) : staged.AllOrNothing (staged.publish refuses) := by
  cases hkind : staged.kind with
  | renameDirectory name => exact allOrNothing_renameDirectory hkind
  | moveChildren =>
    rw [publish]
    split
    · exact allOrNothing_dropped _
    · rename_i hblobs
      obtain ⟨hopen, hlist, hcanonical⟩ := checkBlobs_eq_ok.mp hblobs
      rw [hkind]
      dsimp only
      rw [publishChildren]
      split
      · exact allOrNothing_dropped _
      · rename_i hstaging
        obtain ⟨hopenStaging, hlistStaging⟩ := attempt_bind_eq_ok.mp hstaging
        cases moveEach_spec hback keys_nodup_append (fun name hname => by simpa using hname)
          (List.forall_mem_nil _) moved_nil with
        | inl hmoved =>
          obtain ⟨-, -, -, hall⟩ := hmoved
          exact absurd ⟨hkind, hopen, hlist, hcanonical, hopenStaging,
            attempt_eq_ok.mp hlistStaging, fun name hname => (hall name hname).1,
            fun name hname => (hall name hname).2⟩ h
        | inr hfailed =>
          obtain ⟨⟨e, hrun⟩, -⟩ := hfailed
          rw [hrun]
          exact allOrNothing_dropped e

/-- With nothing against the moves, only the removal of staging decides the result. -/
theorem publish_movable (hback : ∀ name, refuses (.rollBack name) = none)
    (h : staged.Movable refuses) :
    ∃ all, staged.Moved (staged.entries.keys.reverse ++ []) all ∧
      staged.publish refuses = match refuses .close with
        | some e => (.error e, all)
        | none => (.ok (), all.erase staged.temporary) := by
  have hblobs := checkBlobs_eq_ok.mpr ⟨h.openBlobs, h.listBlobs, h.blobs⟩
  cases moveEach_spec hback keys_nodup_append (fun name hname => by simpa using hname)
    (List.forall_mem_nil _) moved_nil with
  | inl hmoved =>
    obtain ⟨all, hrun, hall, -⟩ := hmoved
    refine ⟨all, hall, ?_⟩
    rw [publish, hblobs, h.kind]
    dsimp only
    rw [publishChildren, h.openStaging, h.listStaging, hrun]
    rfl
  | inr hfailed =>
    obtain ⟨-, name, hname, hstuck⟩ := hfailed
    exact absurd ⟨h.publish name hname, h.free name hname⟩ hstuck

/-- Once all is moved, each entry stands in the destination. -/
theorem destination_moved (h : staged.Movable refuses) {all : Directory ν}
    (hall : staged.Moved (staged.entries.keys.reverse ++ []) all) {entry : Name} {value : ν}
    (hvalue : staged.entries.get? entry = some value) :
    entry ≠ staged.temporary ∧ staged.destination all entry = some (.content value) := by
  have hkey : entry ∈ staged.entries.keys := OrdMap.mem_keys.mpr (by rw [hvalue]; rfl)
  have hne := ne_temporary (h.free entry hkey)
  refine ⟨hne, ?_⟩
  simp only [destination, h.kind, visible]
  rw [if_neg hne, hall, if_neg hne, if_pos (by simpa using hkey), hvalue]
  rfl

/-- **Publication is all or nothing, but for the last removal.** When no move back is refused,
    an error shows nothing and a success everything, exactly unless entries were staged, all
    of them could be moved, and the emptied staging directory cannot be removed. -/
theorem publish_all_or_nothing {ν : Type} (staged : StagedDirectory ν)
    (refuses : Operation → Option IoError) (hback : ∀ name, refuses (.rollBack name) = none) :
    staged.AllOrNothing (staged.publish refuses) ↔
      ¬ (staged.entries.keys ≠ [] ∧ staged.Movable refuses ∧ refuses .close ≠ none) := by
  by_cases h : staged.Movable refuses
  · obtain ⟨all, hall, hpublish⟩ := publish_movable hback h
    rw [hpublish]
    cases hclose : refuses .close with
    | none =>
      refine iff_of_true ⟨?_, ?_⟩ (fun hbad => hbad.2.2 rfl)
      · intro entry value hvalue
        obtain ⟨hne, hentry⟩ := destination_moved h hall hvalue
        simp only [destination, h.kind, visible, if_neg hne] at hentry ⊢
        rw [OrdMap.get?_erase, if_neg hne, hentry]
      · rw [OrdMap.get?_erase, if_pos rfl]
    | some e =>
      constructor
      · -- a staged entry is in the destination now and was not before
        intro hnothing hbad
        obtain ⟨entry, hentry⟩ := List.exists_mem_of_ne_nil _ hbad.1
        obtain ⟨value, hvalue⟩ := Option.isSome_iff_exists.mp (OrdMap.mem_keys.mp hentry)
        obtain ⟨hne, hmoved⟩ := destination_moved h hall hvalue
        have hbefore : staged.destination staged.parent entry = none := by
          simp only [destination, h.kind, visible, if_neg hne]
          exact OrdMap.contains_eq_false.mp (h.free entry hentry)
        have hsame := hnothing entry
        rw [hmoved, hbefore] at hsame
        cases hsame
      · intro hgood entry
        have hempty : staged.entries.keys = [] := by
          by_contra hne
          exact hgood ⟨hne, h, fun hnone => by cases hnone⟩
        rw [hempty] at hall
        show staged.destination all entry = staged.destination staged.parent entry
        rw [hall.eq_parent]
  · exact iff_of_true (allOrNothing_immovable hback h) (fun hbad => h hbad.2.1)

/-! An appliance mount that will not let go of the emptied directory. -/

/-- Only one operation is refused. -/
def refuseOnly (operation : Operation) (e : IoError) (o : Operation) : Option IoError :=
  if o = operation then some e else none

/-- `blobs` and `index.json` staged under `.conglobate-output-a` in an otherwise empty mount. -/
def sampleEntries : OrdMap Name Nat :=
  (OrdMap.empty.insert [98, 108, 111, 98, 115] 0).insert [105, 110, 100, 101, 120, 46, 106,
    115, 111, 110] 1

def sampleTemporary : Name :=
  [46, 99, 111, 110, 103, 108, 111, 98, 97, 116, 101, 45, 111, 117, 116, 112, 117, 116, 45, 97]

def sampleStaged : StagedDirectory Nat where
  temporary := sampleTemporary
  kind := .moveChildren
  parent := OrdMap.empty.insert sampleTemporary (.directory sampleEntries)
  entries := sampleEntries
  blobs := []
  staged := rfl

theorem publish_all_or_nothing_sample :
    sampleStaged.AllOrNothing (sampleStaged.publish
      (refuseOnly (.publish [98, 108, 111, 98, 115]) notFound)) ↔
      ¬ (sampleStaged.entries.keys ≠ [] ∧
        sampleStaged.Movable (refuseOnly (.publish [98, 108, 111, 98, 115]) notFound) ∧
        refuseOnly (.publish [98, 108, 111, 98, 115]) notFound .close ≠ none) :=
  publish_all_or_nothing sampleStaged _ (fun _ => rfl)

/-- With the removal of the staging directory refused, `index.json` stays published. -/
theorem publish_close_refused :
    ¬ ∀ (staged : StagedDirectory Nat) (operation : Operation) (e : IoError),
      (∀ name, operation ≠ .rollBack name) → staged.AllOrNothing (staged.publish
        (refuseOnly operation e)) := by
  intro h
  have hbusy : ∀ entry, sampleStaged.destination (sampleStaged.publish
      (refuseOnly .close notFound)).2 entry =
      sampleStaged.destination sampleStaged.parent entry :=
    h sampleStaged .close notFound (fun name heq => by cases heq)
  exact absurd (hbusy [105, 110, 100, 101, 120, 46, 106, 115, 111, 110]) (by decide)

end StagedDirectory

end Conglobate.Output
