import Conglobate.Copy.ImageProps

/- The two ways of COPY (`copy/destination/mod.rs`, `copy/destination/image.rs`).

   A captured directory and a stage's with the same entries are put as trees with the same
   members, so there is room for both or for none. They come to the same trees, but for the
   directories that were there: COPY from the context gives them to root, with the mode that
   all its directories have, and COPY from a stage leaves them as they were.

   What is proved:
     1. `found_leaf`, `found_directory`, `found_made`, `kept_found` — what a tree that is put
        comes to, place by place;
     2. `same_trees_iff` — when two trees with the same members come to the same;
     3. `copies_agree_iff` — when the two copies agree. -/
namespace Conglobate.Copy

open Context (Git CapturedContext Captured)

/-! What was put at a path. -/

section
variable {reset : Bool} {target : List Bytes} {l : List (EntryPath × Item)}

theorem mem_putsOf {p : List Bytes} {y : Put} :
    (p, y) ∈ putsOf reset target l ↔ ∃ e ∈ l, putOf reset e.2 = some y ∧ target ++ e.1 = p := by
  rw [putsOf, List.mem_filterMap]
  refine exists_congr fun e => and_congr_right fun _ => ?_
  rw [Option.map_eq_some_iff]
  constructor
  · intro h
    obtain ⟨x, hx, heq⟩ := h
    obtain ⟨rfl, rfl⟩ := Prod.mk.inj heq
    exact ⟨hx, rfl⟩
  · intro h
    exact ⟨y, h.1, by rw [h.2]⟩

theorem lastAt_putsOf (hnodup : (l.map Prod.fst).Nodup) {r : EntryPath} {x : Item}
    (he : (r, x) ∈ l) :
    lastAt (putsOf reset target l) (target ++ r) = putOf reset x := by
  cases hlast : lastAt (putsOf reset target l) (target ++ r) with
  | some y =>
    obtain ⟨e, hmem, hput, heq⟩ := mem_putsOf.mp (lastAt_mem hlast)
    obtain rfl : e = (r, x) := List.inj_on_of_nodup_map hnodup hmem he (List.append_cancel_left heq)
    exact hput.symm
  | none =>
    cases hput : putOf reset x with
    | none => rfl
    | some y =>
      exfalso
      apply lastAt_eq_none.mp hlast
      exact List.mem_map.mpr ⟨(target ++ r, y), mem_putsOf.mpr ⟨_, he, hput, rfl⟩, rfl⟩

theorem lastAt_putsOf_none {p : List Bytes} (h : ∀ e ∈ l, target ++ e.1 ≠ p) :
    lastAt (putsOf reset target l) p = none := by
  rw [lastAt_eq_none, List.mem_map]
  intro hmem
  obtain ⟨⟨q, y⟩, hy, rfl⟩ := hmem
  obtain ⟨e, he, -, heq⟩ := mem_putsOf.mp hy
  exact h e he heq

end

namespace Volume

/-! Place by place. -/

section
variable {v u : Volume} {reset : Bool} {target : List Bytes} {l : List (EntryPath × Item)}

/-- The paths that something was done at. -/
def Touched (target : List Bytes) (l : List (EntryPath × Item)) (p : List Bytes) : Prop :=
  (p ∈ fronts [] target ∨ MadeAll target l p) ∨ ∃ e ∈ l, target ++ e.1 = p

theorem Stands.found_leaf (h : v.Stands reset target l u) (hl : Proper target l) {r : EntryPath}
    {x : Option Object} (he : (r, .leaf x) ∈ l) :
    ∃ o i, x = some o ∧ u.inode (v.spot (target ++ r)) = some i ∧ u.object i = o ∧
      ∀ k, u.inode k = some i → k = v.spot (target ++ r) := by
  have hsome := h.readable _ he
  cases x with
  | none => exact absurd rfl hsome
  | some o =>
    obtain ⟨-, -, i, -, hi, hobject, hname⟩ :=
      h.written.leaf (target ++ r) o (lastAt_putsOf hl.nodup he)
    exact ⟨o, i, rfl, hi, hobject, hname⟩

/-- An object is another only where a directory was given root's metadata. -/
theorem Stands.object (h : v.Stands reset target l u) {k : Spot} {i : Nat} (hi : v.inode k = some i)
    (hne : u.object i ≠ v.object i) :
    reset = true ∧ ∃ r, (r, .directory) ∈ l ∧ k = v.spot (target ++ r) := by
  obtain ⟨p, hlast, hp⟩ := h.written.object i (v.known _ _ hi) hne
  obtain ⟨j, -, -, hold, -⟩ := h.written.directory p (.inl hlast)
  have hdir : (v.object i).content = .directory := by
    obtain hold | hnew := hold
    · rw [hp, Option.some.injEq] at hold
      rw [hold.1]
      exact hold.2
    · rw [hp] at hnew
      cases hnew.1
  -- a directory has one name
  obtain rfl := v.single _ _ _ hi hp hdir
  obtain ⟨e, he, hput, rfl⟩ := mem_putsOf.mp (lastAt_mem hlast)
  obtain ⟨r, x⟩ := e
  cases x with
  | directory =>
    refine ⟨?_, r, he, rfl⟩
    by_contra hreset
    rw [putOf, if_neg hreset] at hput
    cases hput
  | leaf o =>
    obtain ⟨o', -, hput⟩ := Option.map_eq_some_iff.mp hput
    cases hput

/-- What is made and nothing was put at is what was there, or a new directory. -/
theorem Stands.found_made (h : v.Stands reset target l u) {p : List Bytes}
    (hlast : lastAt (putsOf reset target l) p = none)
    (hmade : p ∈ fronts [] target ∨ MadeAll target l p)
    (hnone : reset = true → ∀ r, (r, .directory) ∈ l → target ++ r ≠ p) :
    u.isDirectory (v.spot p) = true ∧ u.found (v.spot p) =
      some ((v.found (v.spot p)).getD rootDirectory) := by
  obtain ⟨i, hi, hdir, hold, hroot⟩ := h.written.directory p (.inr ⟨hlast, hmade⟩)
  refine ⟨isDirectory_iff.mpr ⟨i, hi, hdir⟩, ?_⟩
  rw [found, hi, Option.map_some, found]
  obtain ⟨hsame, -⟩ | ⟨hfree, -⟩ := hold
  · rw [hsame, Option.map_some, Option.getD_some]
    by_contra hne
    obtain ⟨hreset, r, hr, hspot⟩ := h.object hsame fun heq => hne (by rw [heq])
    exact hnone hreset r hr (spot_inj hspot).symm
  · rw [hroot (.inr hfree), hfree]
    rfl

/-- **A directory that is put.** -/
theorem Stands.found_directory (h : v.Stands reset target l u) (hl : Proper target l)
    {r : EntryPath} (he : (r, .directory) ∈ l) :
    u.isDirectory (v.spot (target ++ r)) = true ∧
      u.found (v.spot (target ++ r)) = some (if reset then rootDirectory
        else (v.found (v.spot (target ++ r))).getD rootDirectory) := by
  cases reset with
  | false =>
    apply h.found_made (lastAt_putsOf hl.nodup he)
    · exact .inr ⟨_, he, .inr ⟨rfl, rfl⟩⟩
    · exact fun hreset => absurd hreset Bool.false_ne_true
  | true =>
    have hlast : lastAt (putsOf true target l) (target ++ r) = some .directory :=
      lastAt_putsOf hl.nodup he
    obtain ⟨i, hi, hdir, -, hroot⟩ := h.written.directory (target ++ r) (.inl hlast)
    refine ⟨isDirectory_iff.mpr ⟨i, hi, hdir⟩, ?_⟩
    rw [found, hi, Option.map_some, hroot (.inl hlast)]
    rfl

/-- Where nothing was done the same object is. -/
theorem Stands.kept (h : v.Stands reset target l u) {k : Spot}
    (hk : ∀ p, Touched target l p → v.spot p ≠ k) :
    u.inode k = v.inode k := by
  apply h.written.kept
  intro p hp
  apply hk p
  obtain hmade | hput := hp
  · exact .inl hmade
  · obtain ⟨⟨q, y⟩, hy, rfl⟩ := List.mem_map.mp hput
    obtain ⟨e, he, -, heq⟩ := mem_putsOf.mp hy
    exact .inr ⟨e, he, heq⟩

/-- **And it is as it was.** -/
theorem Stands.kept_found (h : v.Stands reset target l u) {k : Spot}
    (hk : ∀ p, Touched target l p → v.spot p ≠ k) :
    u.found k = v.found k := by
  rw [found, found, h.kept hk]
  cases hi : v.inode k with
  | none => rfl
  | some i =>
    rw [Option.map_some, Option.map_some]
    by_contra hne
    obtain ⟨-, r, hr, rfl⟩ := h.object hi fun heq => hne (by rw [heq])
    exact hk _ (.inr ⟨_, hr, rfl⟩) rfl

/-- What was touched is a leaf with one name, or a directory. -/
theorem Stands.touched (h : v.Stands reset target l u) (hl : Proper target l) {p : List Bytes}
    (hp : Touched target l p) :
    (∃ i, u.inode (v.spot p) = some i ∧ ∀ k, u.inode k = some i → k = v.spot p) ∨
      u.isDirectory (v.spot p) = true := by
  by_cases hentry : ∃ e ∈ l, target ++ e.1 = p
  · obtain ⟨⟨r, x⟩, he, rfl⟩ := hentry
    cases x with
    | directory => exact .inr (h.found_directory hl he).1
    | leaf o =>
      obtain ⟨o, i, -, hi, -, hname⟩ := h.found_leaf hl he
      exact .inl ⟨i, hi, hname⟩
  · have hnone : ∀ e ∈ l, target ++ e.1 ≠ p := fun e he heq => hentry ⟨e, he, heq⟩
    exact .inr (h.found_made (lastAt_putsOf_none hnone) (hp.resolve_right hentry) fun _ r hr =>
      hnone _ hr).1

end

/-! Two trees with the same members. -/

/-- The same objects at the same names; two names are of one object in both or in none. -/
structure SameTrees (a b : Volume) : Prop where
  found : ∀ k, a.found k = b.found k
  shared : ∀ k k', (∃ i, a.inode k = some i ∧ a.inode k' = some i) ↔ ∃ i, b.inode k = some i ∧
    b.inode k' = some i

section
variable {v a b : Volume} {reset reset' : Bool} {target : List Bytes}
    {l l' : List (EntryPath × Item)}

theorem madeAll_congr (hsame : ∀ e, e ∈ l ↔ e ∈ l') {p : List Bytes} :
    MadeAll target l p ↔ MadeAll target l' p :=
  exists_congr fun e => and_congr_left fun _ => hsame e

theorem touched_congr (hsame : ∀ e, e ∈ l ↔ e ∈ l') {p : List Bytes} :
    Touched target l p ↔ Touched target l' p :=
  or_congr (or_congr_right (madeAll_congr hsame)) (exists_congr fun e =>
    and_congr_left fun _ => hsame e)

/-- **They come to the same** but at the directories put. -/
theorem Stands.found_same (ha : v.Stands reset target l a) (hb : v.Stands reset' target l' b)
    (hl : Proper target l) (hl' : Proper target l') (hsame : ∀ e, e ∈ l ↔ e ∈ l') {k : Spot}
    (hk : ∀ r, (r, .directory) ∈ l → v.spot (target ++ r) ≠ k) :
    a.found k = b.found k := by
  by_cases htouched : ∃ p, Touched target l p ∧ v.spot p = k
  · obtain ⟨p, hp, rfl⟩ := htouched
    by_cases hentry : ∃ e ∈ l, target ++ e.1 = p
    · obtain ⟨⟨r, x⟩, he, rfl⟩ := hentry
      cases x with
      | directory => exact absurd rfl (hk r he)
      | leaf x =>
        obtain ⟨o, i, ho, hi, hobject, -⟩ := ha.found_leaf hl he
        obtain ⟨o', i', ho', hi', hobject', -⟩ := hb.found_leaf hl' ((hsame _).mp he)
        rw [found, found, hi, hi', Option.map_some, Option.map_some, hobject, hobject', ← ho, ho']
    · have hnone : ∀ e ∈ l, target ++ e.1 ≠ p := fun e he heq => hentry ⟨e, he, heq⟩
      have hnone' : ∀ e ∈ l', target ++ e.1 ≠ p := fun e he => hnone e ((hsame e).mpr he)
      have hmade := hp.resolve_right hentry
      rw [(ha.found_made (lastAt_putsOf_none hnone) hmade fun _ r hr => hnone _ hr).2,
        (hb.found_made (lastAt_putsOf_none hnone')
          (hmade.imp_right (madeAll_congr hsame).mp) fun _ r hr => hnone' _ hr).2]
  · have huntouched : ∀ p, Touched target l p → v.spot p ≠ k :=
      fun p hp heq => htouched ⟨p, hp, heq⟩
    rw [ha.kept_found huntouched, hb.kept_found fun p hp => huntouched p
      ((touched_congr hsame).mpr hp)]

/-- Two names of one object are what they were before. -/
theorem Stands.shared (ha : v.Stands reset target l a) (hb : v.Stands reset' target l' b)
    (hl : Proper target l) (hsame : ∀ e, e ∈ l ↔ e ∈ l') {k k' : Spot} (hne : k ≠ k')
    (h : ∃ i, a.inode k = some i ∧ a.inode k' = some i) :
    ∃ i, b.inode k = some i ∧ b.inode k' = some i := by
  obtain ⟨i, hi, hi'⟩ := h
  have huntouched : ∀ {k k' : Spot}, k ≠ k' → a.inode k = some i → a.inode k' = some i →
      ∀ p, Touched target l p → v.spot p ≠ k := by
    intro k k' hne hi hi' p hp heq
    subst heq
    obtain ⟨j, hj, hname⟩ | hdir := ha.touched hl hp
    · rw [hi, Option.some.injEq] at hj
      subst hj
      exact hne (hname k' hi').symm
    · obtain ⟨j, hj, hcontent⟩ := isDirectory_iff.mp hdir
      rw [hi, Option.some.injEq] at hj
      subst hj
      exact hne (a.single _ _ _ hi hi' hcontent)
  have hsame' : ∀ {k k' : Spot}, k ≠ k' → a.inode k = some i → a.inode k' = some i →
      b.inode k = some i := by
    intro k k' hne hi hi'
    have hnot := huntouched hne hi hi'
    rw [hb.kept fun p hp => hnot p ((touched_congr hsame).mpr hp), ← ha.kept hnot, hi]
  exact ⟨i, hsame' hne hi hi', hsame' hne.symm hi' hi⟩

theorem found_eq_none {u : Volume} {k : Spot} :
    u.found k = none ↔ u.inode k = none := Option.map_eq_none_iff

/-- **Two trees with the same members come to the same** exactly where the directories that
    were there are root's already. -/
theorem same_trees_iff (ha : v.Stands true target l a) (hb : v.Stands false target l' b)
    (hl : Proper target l) (hl' : Proper target l') (hsame : ∀ e, e ∈ l ↔ e ∈ l') :
    SameTrees a b ↔ ∀ r, (r, .directory) ∈ l → ∀ o, v.atPath (target ++ r) = some o →
      o = rootDirectory := by
  constructor
  · intro h r hr o ho
    have hfound := h.found (v.spot (target ++ r))
    rw [(ha.found_directory hl hr).2, (hb.found_directory hl' ((hsame _).mp hr)).2] at hfound
    have hobject : v.found (v.spot (target ++ r)) = some o := ho
    rw [hobject] at hfound
    exact (Option.some.inj hfound).symm
  · intro h
    have hfound : ∀ k, a.found k = b.found k := by
      intro k
      by_cases hk : ∃ r, (r, .directory) ∈ l ∧ v.spot (target ++ r) = k
      · obtain ⟨r, hr, rfl⟩ := hk
        rw [(ha.found_directory hl hr).2, (hb.found_directory hl' ((hsame _).mp hr)).2, if_pos rfl,
          if_neg Bool.false_ne_true]
        cases hobject : v.found (v.spot (target ++ r)) with
        | none => rfl
        | some o => rw [Option.getD_some, h r hr o hobject]
      · exact ha.found_same hb hl hl' hsame fun r hr heq => hk ⟨r, hr, heq⟩
    refine ⟨hfound, fun k k' => ?_⟩
    by_cases hne : k = k'
    · subst hne
      have hthere : ∀ u : Volume, (∃ i, u.inode k = some i ∧ u.inode k = some i) ↔
          u.found k ≠ none := by
        intro u
        rw [Ne, found_eq_none, ← Ne, Option.ne_none_iff_exists']
        exact exists_congr fun i => and_self_iff
      rw [hthere a, hthere b, hfound k]
    · exact ⟨ha.shared hb hl hsame hne, hb.shared ha hl' (fun e => (hsame e).symm) hne⟩

end

end Volume

/-! The two copies. -/

section
variable {ρ : Type} (g : Git ρ) (c : CapturedContext ρ)

/-- A captured entry, and what is the same in a stage. -/
inductive SameEntry : ContextEntry → Node → Prop where
  | directory (entries : List (Bytes × Node)) : SameEntry .directory (.directory entries)
  | file {store : Nat} {executable : Bool} {oid : ObjectId} {bytes : Bytes} {mode : Nat} :
      c.blob g store oid = .ok bytes →
      (executable = true ↔ mode &&& 0o111 ≠ 0) → SameEntry (.file store executable oid)
        (.file bytes mode)
  | symlink (target : Bytes) : SameEntry (.symlink target) (.symlink target)

/-- A stage's directory holds the tree that a captured directory is. -/
def SameSource (s : CopySource) (entries : List (Bytes × Node)) : Prop :=
  ∀ r, r ≠ [] → Option.Rel (SameEntry g c) (c.entries.get? (s.resolved ++ r)) (lookup entries r)

/-- Both copies can be made or none, and they leave the same trees. -/
def CopiesAgree (d : CopyDirective) (path : Bytes) (entries : List (Bytes × Node)) (v : Volume) :
    Prop :=
  ((∃ a, copy g c d v = .ok a) ↔ ∃ b, image (.ok (.directory entries)) path d v = .ok b) ∧
    ∀ a b, copy g c d v = .ok a → image (.ok (.directory entries)) path d v = .ok b →
      Volume.SameTrees a b

end

section
variable {ρ : Type} {g : Git ρ} {c : CapturedContext ρ}

/-- They are put as the same. -/
theorem SameEntry.item {e : ContextEntry} {n : Node} (h : SameEntry g c e n) :
    n.item = itemOf g c e := by
  cases h with
  | directory entries => rfl
  | symlink target => rfl
  | @file store executable oid bytes mode hblob hexecutable =>
    have hmode : (if mode &&& 0o111 ≠ 0 then 0o755 else 0o644) = if executable then 0o755
        else 0o644 := by
      cases executable with
      | true => rw [if_pos (hexecutable.mp rfl), if_pos rfl]
      | false =>
        rw [if_neg fun hbit => Bool.false_ne_true (hexecutable.mpr hbit), if_neg Bool.false_ne_true]
    show Item.leaf (some ⟨.file bytes, 0, 0, if mode &&& 0o111 ≠ 0 then 0o755 else 0o644⟩) = _
    rw [hmode, itemOf_leaf ContextEntry.noConfusion, entryObject, hblob]
    rfl

theorem SameSource.mem {s : CopySource} {entries : List (Bytes × Node)}
    (h : SameSource g c s entries) (hdirectory : s.isDirectory c.entries = true)
    (hnamed : WellNamed entries) (e : EntryPath × Item) :
    e ∈ treeOf g c s ↔ e ∈ flatten [] entries := by
  obtain ⟨r, x⟩ := e
  rw [mem_flatten hnamed, treeOf, List.mem_map]
  constructor
  · intro hmem
    obtain ⟨⟨r', e⟩, he, heq⟩ := hmem
    obtain ⟨rfl, rfl⟩ := Prod.mk.inj heq
    obtain ⟨-, hne, hget⟩ := CopySource.mem_descendants.mp he
    have hrel := h r' hne
    rw [hget] at hrel
    cases hlookup : lookup entries r' with
    | none =>
      rw [hlookup] at hrel
      cases hrel
    | some n =>
      rw [hlookup] at hrel
      cases hrel with
      | some hsame => exact ⟨r', n, rfl, hlookup, hsame.item⟩
  · intro hmem
    obtain ⟨r, n, rfl, hlookup, rfl⟩ := hmem
    have hne : r ≠ [] := by
      rintro rfl
      cases hlookup
    have hrel := h r hne
    rw [hlookup] at hrel
    cases hget : c.entries.get? (s.resolved ++ r) with
    | none =>
      rw [hget] at hrel
      cases hrel
    | some e =>
      rw [hget] at hrel
      cases hrel with
      | some hsame =>
        exact ⟨(r, e), CopySource.mem_descendants.mpr ⟨hdirectory, hne, hget⟩, by rw [hsame.item]⟩

theorem room_congr {v : Volume} {target : List Bytes} {l l' : List (EntryPath × Item)}
    (hsame : ∀ e, e ∈ l ↔ e ∈ l') :
    Room v target l ↔ Room v target l' :=
  and_congr_right fun _ => forall_congr' fun e => imp_congr_left (hsame e)

/-- **Two trees with the same members** can both be put or neither, and come to the same
    exactly where the directories that were there are root's. -/
theorem trees_agree_iff {d : CopyDirective} {l l' : List (EntryPath × Item)} {v : Volume}
    (hl : ∀ target, (∀ name ∈ target, Destination.Entered name) → Volume.Proper target l)
    (hl' : ∀ target, (∀ name ∈ target, Destination.Entered name) → Volume.Proper target l')
    (hsame : ∀ e, e ∈ l ↔ e ∈ l') :
    (((∃ a, putTree true d l v = .ok a) ↔ ∃ b, putTree false d l' v = .ok b) ∧
      ∀ a b, putTree true d l v = .ok a → putTree false d l' v = .ok b → Volume.SameTrees a b) ↔
    ∀ target, v.destination.resolve d.destination true = .ok target → Room v target l →
      ∀ r, (r, .directory) ∈ l → ∀ o, v.atPath (target ++ r) = some o → o = rootDirectory := by
  have hboth : (∃ a, putTree true d l v = .ok a) ↔ ∃ b, putTree false d l' v = .ok b := by
    rw [putTree_total hl, putTree_total hl']
    exact exists_congr fun target => and_congr_right fun _ => room_congr hsame
  have hsame_iff : ∀ target a b, v.destination.resolve d.destination true = .ok target →
      putTree true d l v = .ok a → putTree false d l' v = .ok b → (Volume.SameTrees a b ↔
        ∀ r, (r, .directory) ∈ l → ∀ o, v.atPath (target ++ r) = some o → o = rootDirectory) := by
    intro target a b hresolve ha hb
    have htarget := Volume.resolve_entered (fun name hname =>
      absurd hname List.not_mem_nil) hresolve
    obtain ⟨target', hresolve', hstanding⟩ := putTree_standing hl ha
    rw [hresolve, Except.ok.injEq] at hresolve'
    subst hresolve'
    obtain ⟨target', hresolve', hstanding'⟩ := putTree_standing hl' hb
    rw [hresolve, Except.ok.injEq] at hresolve'
    subst hresolve'
    exact Volume.same_trees_iff hstanding hstanding' (hl _ htarget) (hl' _ htarget) hsame
  constructor
  · intro h target hresolve hroom
    obtain ⟨a, ha⟩ := (@putTree_total _ true _ _ hl).mpr ⟨target, hresolve, hroom⟩
    obtain ⟨b, hb⟩ := hboth.mp ⟨a, ha⟩
    exact (hsame_iff target a b hresolve ha hb).mp (h.2 a b ha hb)
  · intro h
    refine ⟨hboth, fun a b ha hb => ?_⟩
    obtain ⟨target, hresolve, hroom⟩ := (@putTree_total _ true _ _ hl).mp ⟨a, ha⟩
    exact (hsame_iff target a b hresolve ha hb).mpr (h target hresolve hroom)

theorem mem_flatten_directory {entries : List (Bytes × Node)} (hnamed : WellNamed entries)
    {r : EntryPath} :
    (r, .directory) ∈ flatten [] entries ↔ ∃ inside, lookup entries r =
      some (.directory inside) := by
  rw [mem_flatten hnamed]
  constructor
  · intro h
    obtain ⟨r', n, rfl, hlookup, hitem⟩ := h
    cases n with
    | directory inside => exact ⟨inside, hlookup⟩
    | file _ _ => cases hitem
    | symlink _ => cases hitem
    | special => cases hitem
  · intro h
    obtain ⟨inside, hlookup⟩ := h
    exact ⟨r, _, rfl, hlookup, rfl⟩

/-- **The two copies agree** exactly when, wherever there is room for the source, the
    directories already at its directories' places are root's. -/
theorem copies_agree_iff (hcaptured : Captured c.entries) {d : CopyDirective} {s : CopySource}
    (hselect : select c.entries d.sources = .ok [s]) (hdirectory : s.isDirectory c.entries = true)
    {entries : List (Bytes × Node)} (hnamed : WellNamed entries)
    (hsource : SameSource g c s entries) (path : Bytes) (v : Volume) :
    CopiesAgree g c d path entries v ↔
      ∀ target, v.destination.resolve d.destination true = .ok target →
        Room v target (flatten [] entries) →
        ∀ r inside, lookup entries r = some (.directory inside) → ∀ o, v.atPath (target ++ r) =
          some o → o = rootDirectory := by
  have hsame := hsource.mem hdirectory hnamed
  have htrees := trees_agree_iff (v := v) (d := d) (fun target htarget =>
    descendants_proper hcaptured s htarget)
    (fun target htarget => flatten_proper hnamed htarget) hsame
  simp only [CopiesAgree, copy_eq_ok hselect hdirectory, image_eq_ok hnamed]
  refine htrees.trans (forall₂_congr fun target _ => ?_)
  refine imp_congr (room_congr hsame) (forall_congr' fun r => ?_)
  exact (imp_congr_left ((hsame _).trans (mem_flatten_directory hnamed))).trans exists_imp

end

/-! A directory of somebody's, at "/n/d". -/

open Context (oneContext emptyBlobGit emptyBlob)

/-- "d/f" in a stage. -/
def oneStage : List (Bytes × Node) := [([100], .directory [([102], .file [] 0o644)])]

theorem oneStage_named : WellNamed oneStage := by
  have hentered : ∀ name : Bytes, name ≠ [slash] → name ≠ dotName → name ≠ dotdotName →
      Destination.Entered name :=
    fun name hslash hdot hdotdot => ⟨hslash, hdot, hdotdot⟩
  have hempty : WellNamed [] := .mk List.nodup_nil (fun e he => absurd he List.not_mem_nil)
    (fun e he => absurd he List.not_mem_nil)
  have hinside : WellNamed [([102], .file [] 0o644)] := by
    refine .mk (List.nodup_singleton _) (fun e he => ?_) (fun e he => ?_)
    · rw [List.mem_singleton.mp he]
      exact hentered _ (by decide) (by decide) (by decide)
    · rw [List.mem_singleton.mp he]
      exact hempty
  refine .mk (List.nodup_singleton _) (fun e he => ?_) (fun e he => ?_)
  · rw [List.mem_singleton.mp he]
    exact hentered _ (by decide) (by decide) (by decide)
  · rw [List.mem_singleton.mp he]
    exact hinside

theorem oneContext_same : SameSource emptyBlobGit oneContext ⟨[], []⟩ oneStage := by
  intro r hr
  have hentries : oneContext.entries.entries = [([[100]], .directory),
    ([[100], [102]], .file 0 false emptyBlob)] := by decide
  have hblob : oneContext.blob emptyBlobGit 0 emptyBlob = .ok [] := by rfl
  rw [List.nil_append]
  by_cases hd : r = [[100]]
  · have hget : oneContext.entries.get? r = some .directory := by
      rw [OrdMap.get?_eq_some, hentries, hd]; simp
    have hlookup : lookup oneStage r = some (.directory [([102], .file [] 0o644)]) := by
      rw [hd, oneStage, lookup_cons, if_pos rfl, if_pos rfl]
    rw [hget, hlookup]
    exact .some (.directory _)
  by_cases hf : r = [[100], [102]]
  · have hget : oneContext.entries.get? r = some (.file 0 false emptyBlob) := by
      rw [OrdMap.get?_eq_some, hentries, hf]; simp
    have hlookup : lookup oneStage r = some (.file [] 0o644) := by
      rw [hf, oneStage, lookup_cons, if_pos rfl, if_neg (by decide), Node.entries, lookup_cons,
        if_pos rfl, if_pos rfl]
    rw [hget, hlookup]
    exact .some (.file hblob (by decide))
  have hget : oneContext.entries.get? r = none := by
    rw [OrdMap.get?_eq_none, hentries]
    intro e he
    obtain rfl | he := List.mem_cons.mp he
    · exact Ne.symm hd
    · rw [List.mem_singleton.mp he]
      exact Ne.symm hf
  have hlookup : lookup oneStage r = none := by
    obtain ⟨name, t, rfl⟩ := List.exists_cons_of_ne_nil hr
    rw [oneStage, lookup_cons]
    by_cases hname : name = [100]
    · rw [if_pos hname]
      by_cases ht : t = []
      · exact absurd (by rw [hname, ht]) hd
      rw [if_neg ht]
      obtain ⟨name', t', rfl⟩ := List.exists_cons_of_ne_nil ht
      rw [Node.entries, lookup_cons]
      by_cases hname' : name' = [102]
      · rw [if_pos hname']
        by_cases ht' : t' = []
        · exact absurd (by rw [hname, hname', ht']) hf
        rw [if_neg ht']
        obtain ⟨name'', t'', rfl⟩ := List.exists_cons_of_ne_nil ht'
        rfl
      · rw [if_neg hname']
        rfl
    · rw [if_neg hname]
      rfl
  rw [hget, hlookup]
  exact .none

/-- The two copies of "d/f" to "/n" agree where there is nothing. -/
theorem bare_copies_agree : CopiesAgree emptyBlobGit oneContext wholeTo
    [slash] oneStage bareVolume :=
  (copies_agree_iff oneContext_captured (wholeTo_selects
    (by decide)) rfl oneStage_named oneContext_same [slash] bareVolume).mpr
    (fun target hresolve hroom r inside hlookup o ho => by
      have hne : target ++ r ≠ [] := by
        have hr : r ≠ [] := by
          rintro rfl
          cases hlookup
        exact List.append_ne_nil_of_right_ne_nil target hr
      rw [Volume.atPath, Volume.found, bareVolume_free hne] at ho
      cases ho)

/-- Somebody's directory. -/
def someDirectory : Object := ⟨.directory, 1000, 1000, 0o700⟩

/-- "/n/d" is somebody's. -/
def someVolume : Volume :=
  ((bareVolume.attach ⟨.root, []⟩ [110] rootDirectory (by decide) (by decide)).attach
    ⟨.root, [[110]]⟩ [100] someDirectory
    (by decide) (by decide))

theorem someVolume_resolves : someVolume.destination.resolve wholeTo.destination true =
    .ok [[110]] := by
  show someVolume.destination.resolveFrom true 0 [] [[slash], [110]] = _
  have hobserve : someVolume.destination.observe [[110]] = .ok (some .directory) := by rfl
  rw [Destination.resolveFrom_slash, Destination.resolveFrom_directory
    ⟨by decide, by decide, by decide⟩ hobserve, Destination.resolveFrom]
  rfl

theorem someVolume_room : Room someVolume [[110]] (flatten [] oneStage) := by
  have hunrefused : ∀ names, someVolume.Unrefused [] names := fun names front _ _ => rfl
  refine ⟨fun q hne hq => .inr ?_, fun e he => ?_⟩
  · obtain rfl : q = [[110]] := by
      obtain ⟨name, t, rfl⟩ := List.exists_cons_of_ne_nil hne
      obtain ⟨rfl, ht⟩ := List.cons_prefix_cons.mp hq
      rw [List.prefix_nil.mp ht]
    decide
  · have hflatten : flatten [] oneStage = [([[100]], .directory),
        ([[100], [102]], .leaf (some ⟨.file [], 0, 0, 0o644⟩))] := by
      simp [oneStage, flatten, Node.entries, Node.item, Node.object]
    rw [hflatten] at he
    obtain rfl | he := List.mem_cons.mp he
    · exact ⟨hunrefused _, fun _ => .inr (by decide), fun o ho => Item.noConfusion ho⟩
    · rw [List.mem_singleton.mp he]
      refine ⟨hunrefused _, Item.noConfusion, fun o ho => ⟨by decide, ?_⟩⟩
      obtain rfl := Item.leaf.inj ho
      exact Option.some_ne_none _

/-- **The two copies disagree** about it: one gives it to root, the other leaves it. -/
theorem copies_disagree : select oneContext.entries wholeTo.sources = .ok [⟨[], []⟩] ∧
    WellNamed oneStage ∧
    SameSource emptyBlobGit oneContext ⟨[], []⟩ oneStage ∧ someVolume.atPath [[110], [100]] =
      some someDirectory ∧
    ∃ a b, copy emptyBlobGit oneContext wholeTo someVolume = .ok a ∧
      image (.ok (.directory oneStage)) [slash] wholeTo someVolume = .ok b ∧
      a.atPath [[110], [100]] = some rootDirectory ∧ b.atPath [[110], [100]] =
        some someDirectory := by
  have hselect : select oneContext.entries wholeTo.sources = .ok [⟨[], []⟩] :=
    wholeTo_selects (by decide)
  have hdirectory : CopySource.isDirectory oneContext.entries ⟨[], []⟩ = true := rfl
  have hsame := oneContext_same.mem hdirectory oneStage_named
  have hl : ∀ target, (∀ name ∈ target, Destination.Entered name) →
      Volume.Proper target (treeOf emptyBlobGit oneContext ⟨[], []⟩) :=
    fun target htarget => descendants_proper oneContext_captured ⟨[], []⟩ htarget
  have hl' : ∀ target, (∀ name ∈ target, Destination.Entered name) →
      Volume.Proper target (flatten [] oneStage) :=
    fun target htarget => flatten_proper oneStage_named htarget
  have hthere : someVolume.atPath [[110], [100]] = some someDirectory := by decide
  have hd : ([[100]], .directory) ∈ flatten [] oneStage := by
    rw [mem_flatten_directory oneStage_named]
    exact ⟨[([102], .file [] 0o644)], by rw [oneStage, lookup_cons, if_pos rfl, if_pos rfl]⟩
  obtain ⟨a, ha⟩ := (@putTree_total _ true wholeTo _ hl).mpr
    ⟨[[110]], someVolume_resolves, (room_congr hsame).mpr someVolume_room⟩
  obtain ⟨b, hb⟩ := (@putTree_total _ false wholeTo _ hl').mpr
    ⟨[[110]], someVolume_resolves, someVolume_room⟩
  obtain ⟨target, hresolve, hstanding⟩ := putTree_standing hl ha
  obtain ⟨target', hresolve', hstanding'⟩ := putTree_standing hl' hb
  rw [someVolume_resolves] at hresolve hresolve'
  cases hresolve
  cases hresolve'
  have htarget : ∀ name ∈ [[110]], Destination.Entered name := by
    intro name hname
    rw [List.mem_singleton.mp hname]
    exact ⟨by decide, by decide, by decide⟩
  have hfound := (hstanding.found_directory (hl _ htarget) ((hsame _).mpr hd)).2
  have hfound' := (hstanding'.found_directory (hl' _ htarget) hd).2
  refine ⟨hselect, oneStage_named, oneContext_same, hthere, a, b,
    (copy_eq_ok hselect hdirectory).mpr ha, (image_eq_ok oneStage_named [slash]).mpr hb, ?_, ?_⟩
  · rw [Volume.atPath, Volume.spot_congr hstanding.written.bootstrap]
    exact hfound
  · rw [Volume.atPath, Volume.spot_congr hstanding'.written.bootstrap]
    refine Eq.trans hfound' ?_
    rw [if_neg Bool.false_ne_true]
    exact congrArg (fun o : Option Object => some (o.getD rootDirectory)) hthere

end Conglobate.Copy
