import Conglobate.Copy.Volume

/- What COPY has written, against the trees before.

   Paths get a directory where there was none (`made`), and directories and leaves are put
   at paths one after the other (`written`): the last one at a path counts. All other names
   are as they were, and all objects but the directories put where there was one
   (`Written`).

   What is proved:
     1. `Written.keep`, `Written.make`, `Written.set`, `Written.leaf_put` — what one call adds;
     2. `Written.directory` — what opening a directory adds, and `directory_total`, when it
        can be opened;
     3. `Written.replace` — what putting an object in place adds, and `replace_total`. -/
namespace Conglobate.Copy

/-- What is put at a path. -/
inductive Put where
  | directory
  | leaf (o : Object)

abbrev Puts := List (List Bytes × Put)

/-- The last one put at a path. -/
def lastAt {α : Type} (written : List (List Bytes × α)) (path : List Bytes) : Option α :=
  written.foldl (fun last e => if e.1 = path then some e.2 else last) none

section
variable {α : Type} {written : List (List Bytes × α)} {path : List Bytes}

theorem lastAt_snoc (written : List (List Bytes × α)) (p : List Bytes) (x : α) (path : List Bytes) :
    lastAt (written ++ [(p, x)]) path = if p = path then some x else lastAt written path := by
  rw [lastAt, List.foldl_append]
  rfl

theorem lastAt_eq_none : lastAt written path = none ↔ path ∉ written.map Prod.fst := by
  induction written using List.reverseRecOn with
  | nil => exact iff_of_true rfl List.not_mem_nil
  | append_singleton written e ih =>
    rw [lastAt_snoc, List.map_append, List.mem_append, not_or, List.map_singleton,
      List.mem_singleton]
    by_cases heq : e.1 = path
    · rw [if_pos heq]
      exact iff_of_false (by simp) (fun h => h.2 heq.symm)
    · rw [if_neg heq, ih]
      exact (and_iff_left (Ne.symm heq)).symm

theorem lastAt_mem {x : α} (h : lastAt written path = some x) : (path, x) ∈ written := by
  induction written using List.reverseRecOn with
  | nil => cases h
  | append_singleton written e ih =>
    rw [lastAt_snoc] at h
    split at h
    · rename_i heq
      rw [← heq, ← Option.some.inj h]
      exact List.mem_append_right _ (List.mem_singleton_self e)
    · exact List.mem_append_left _ (ih h)

end

namespace Volume

variable {v : Volume}

/-! Paths and spots. -/

theorem spot_congr {w : Volume} (h : w.bootstrap = v.bootstrap) (path : List Bytes) :
    w.spot path = v.spot path := by
  rw [spot, spot, h]

theorem spot_mnt (h : v.bootstrap = true) (rest : List Bytes) :
    v.spot (mntName :: rest) = ⟨.output, rest⟩ := by
  rw [spot, if_pos ⟨h, rfl⟩]
  rfl

theorem spot_root {path : List Bytes} (h : ¬ (v.bootstrap = true ∧ path.head? = some mntName)) :
    v.spot path = ⟨.root, path⟩ := by
  rw [spot, if_neg h]

theorem spot_nil : v.spot [] = ⟨.root, []⟩ := spot_root (by simp)

/-- A path is in one place. -/
theorem spot_inj {p q : List Bytes} (h : v.spot p = v.spot q) : p = q := by
  by_cases hp : v.bootstrap = true ∧ p.head? = some mntName
  · obtain ⟨rest, rfl⟩ : ∃ rest, p = mntName :: rest := ⟨p.tail, List.eq_cons_of_mem_head? hp.2⟩
    by_cases hq : v.bootstrap = true ∧ q.head? = some mntName
    · obtain ⟨rest', rfl⟩ : ∃ rest, q = mntName :: rest := ⟨q.tail, List.eq_cons_of_mem_head? hq.2⟩
      rw [spot_mnt hp.1, spot_mnt hp.1] at h
      rw [(Spot.mk.inj h).2]
    · rw [spot_mnt hp.1, spot_root hq] at h
      cases (Spot.mk.inj h).1
  · by_cases hq : v.bootstrap = true ∧ q.head? = some mntName
    · obtain ⟨rest', rfl⟩ : ∃ rest, q = mntName :: rest := ⟨q.tail, List.eq_cons_of_mem_head? hq.2⟩
      rw [spot_root hp, spot_mnt hq.1] at h
      cases (Spot.mk.inj h).1
    · rw [spot_root hp, spot_root hq] at h
      exact (Spot.mk.inj h).2

/-- A name is in the directory above, except that of the output's tree. -/
theorem spot_child {here : List Bytes} {name : Bytes}
    (h : ¬ (v.bootstrap = true ∧ here ++ [name] = [mntName])) :
    v.spot (here ++ [name]) = (v.spot here).child name := by
  by_cases hhere : v.bootstrap = true ∧ here.head? = some mntName
  · obtain ⟨rest, rfl⟩ : ∃ rest, here = mntName :: rest :=
      ⟨here.tail, List.eq_cons_of_mem_head? hhere.2⟩
    rw [List.cons_append, spot_mnt hhere.1, spot_mnt hhere.1]
    rfl
  · rw [spot_root hhere, spot_root]
    · rfl
    · intro hmnt
      apply hhere
      refine ⟨hmnt.1, ?_⟩
      cases here with
      | nil =>
        refine absurd ⟨hmnt.1, ?_⟩ h
        rw [List.nil_append]
        exact congrArg (fun n => [n]) (Option.some.inj hmnt.2)
      | cons first rest => exact hmnt.2

/-- Above a directory there are directories. -/
theorem isDirectory_above {path : List Bytes} {name : Bytes}
    (h : v.isDirectory (v.spot (path ++ [name])) = true) :
    v.isDirectory (v.spot path) = true := by
  by_cases hmnt : v.bootstrap = true ∧ path ++ [name] = [mntName]
  · obtain ⟨rfl, -⟩ := List.append_eq_singleton_iff.mp hmnt.2 |>.resolve_right
      (fun h => by simp at h)
    rw [spot_nil]
    exact v.isDirectory_top .root
  · rw [spot_child hmnt] at h
    obtain ⟨i, hi, -⟩ := isDirectory_iff.mp h
    apply isDirectory_parent
    rw [hi]
    exact Option.some_ne_none i

theorem isDirectory_front {path rest : List Bytes}
    (h : v.isDirectory (v.spot (path ++ rest)) = true) :
    v.isDirectory (v.spot path) = true := by
  induction rest using List.reverseRecOn with
  | nil => rwa [List.append_nil] at h
  | append_singleton rest name ih =>
    apply ih
    rw [← List.append_assoc] at h
    exact isDirectory_above h

/-- There is a new object at `k`, and nothing else is new. -/
structure Grew (v : Volume) (k : Spot) (o : Object) (v' : Volume) : Prop where
  bootstrap : v'.bootstrap = v.bootstrap
  refused : v'.refused = v.refused
  next : v'.next = v.next + 1
  inode : ∀ l, v'.inode l = if l = k then some v.next else v.inode l
  object : ∀ i, v'.object i = if i = v.next then o else v.object i

/-- How the trees `after` differ from those before. -/
structure Written (before : Volume) (made : List Bytes → Prop) (written : Puts) (after : Volume) :
    Prop where
  bootstrap : after.bootstrap = before.bootstrap
  refused : after.refused = before.refused
  next : before.next ≤ after.next
  /-- All other names are as they were. -/
  kept : ∀ k, (∀ p, made p ∨ p ∈ written.map Prod.fst → before.spot p ≠ k) →
    after.inode k = before.inode k
  /-- A leaf is a new object with one name. -/
  leaf : ∀ p o, lastAt written p = some (.leaf o) →
    before.isDirectory (before.spot p) = false ∧ o.content ≠ .directory ∧
      ∃ i, before.next ≤ i ∧ after.inode (before.spot p) = some i ∧ after.object i = o ∧
        ∀ k, after.inode k = some i → k = before.spot p
  /-- A directory is the one that was there, or a new one; put there, it is root's. -/
  directory : ∀ p, lastAt written p = some .directory ∨ lastAt written p = none ∧ made p →
    ∃ i, after.inode (before.spot p) = some i ∧ (after.object i).content = .directory ∧
      (before.inode (before.spot p) = some i ∧ (before.object i).content = .directory ∨
        before.inode (before.spot p) = none ∧ before.next ≤ i) ∧
      (lastAt written p = some .directory ∨ before.inode (before.spot p) = none →
        after.object i = rootDirectory)
  /-- All other objects are as they were. -/
  object : ∀ i < before.next, after.object i ≠ before.object i →
    ∃ p, lastAt written p = some .directory ∧ before.inode (before.spot p) = some i

variable {b : Volume} {made : List Bytes → Prop} {written : Puts} {v' : Volume}

theorem Written.refl (v : Volume) : Written v (fun _ => False) [] v where
  bootstrap := rfl
  refused := rfl
  next := le_refl _
  kept k _ := rfl
  leaf p o h := by cases h
  directory p h := by
    obtain h | h := h
    · cases h
    · exact absurd h.2 id
  object i _ h := absurd rfl h

/-- What is neither made nor written is the same object's name. -/
theorem Written.untouched (h : Written b made written v) {p : List Bytes} (hmade : ¬ made p)
    (hlast : lastAt written p = none) :
    v.inode (b.spot p) = b.inode (b.spot p) := by
  apply h.kept
  intro q hq heq
  obtain rfl := spot_inj heq
  obtain hq | hq := hq
  · exact hmade hq
  · exact lastAt_eq_none.mp hlast hq

/-- An object's kind stays. -/
theorem Written.content (h : Written b made written v) {i : Nat} (hi : i < b.next) :
    (v.object i).content = (b.object i).content := by
  by_cases hsame : v.object i = b.object i
  · rw [hsame]
  · obtain ⟨p, hlast, hp⟩ := h.object i hi hsame
    obtain ⟨j, hj, hdir, hold, -⟩ := h.directory p (.inl hlast)
    obtain hold | hnew := hold
    · rw [hp, Option.some.injEq] at hold
      rw [hold.1, hdir, hold.2]
    · rw [hp] at hnew
      cases hnew.1

/-- Directories stay. -/
theorem Written.isDirectory (h : Written b made written v) {k : Spot}
    (hk : b.isDirectory k = true) : v.isDirectory k = true := by
  obtain ⟨i, hi, hdir⟩ := isDirectory_iff.mp hk
  by_cases htouched : ∃ p, (made p ∨ p ∈ written.map Prod.fst) ∧ b.spot p = k
  · obtain ⟨p, hp, rfl⟩ := htouched
    cases hlast : lastAt written p with
    | none =>
      obtain ⟨j, hj, hjdir, -⟩ :=
        h.directory p (.inr ⟨hlast, hp.resolve_right (lastAt_eq_none.mp hlast)⟩)
      exact isDirectory_iff.mpr ⟨j, hj, hjdir⟩
    | some x =>
      cases x with
      | directory =>
        obtain ⟨j, hj, hjdir, -⟩ := h.directory p (.inl hlast)
        exact isDirectory_iff.mpr ⟨j, hj, hjdir⟩
      | leaf o =>
        rw [(h.leaf p o hlast).1] at hk
        cases hk
  · have hsame : v.inode k = b.inode k := h.kept k fun p hp heq => htouched ⟨p, hp, heq⟩
    refine isDirectory_iff.mpr ⟨i, hsame.trans hi, ?_⟩
    rw [h.content (b.known _ _ hi), hdir]

/-- A path that is free now, or no directory, was. -/
theorem Written.not_directory (h : Written b made written v) {k : Spot}
    (hk : v.isDirectory k = false) : b.isDirectory k = false := by
  rw [← Bool.not_eq_true] at hk ⊢
  exact fun hb => hk (h.isDirectory hb)

/-! One call. -/

/-- A directory that is there is made. -/
theorem Written.keep (h : Written b made written v) {p : List Bytes}
    (hdir : v.isDirectory (b.spot p) = true) :
    Written b (fun q => made q ∨ q = p) written v where
  bootstrap := h.bootstrap
  refused := h.refused
  next := h.next
  kept k hk := h.kept k fun q hq => hk q (hq.imp_left .inl)
  leaf := h.leaf
  object := h.object
  directory q hq := by
    by_cases hold : lastAt written q = some .directory ∨ lastAt written q = none ∧ made q
    · exact h.directory q hold
    · -- it was neither made nor put there, so it is what was there before
      obtain ⟨hput, hmade⟩ := not_or.mp hold
      obtain ⟨hlast, hq⟩ := hq.resolve_left hput
      have hnot : ¬ made q := fun hm => hmade ⟨hlast, hm⟩
      obtain rfl := hq.resolve_left hnot
      obtain ⟨i, hi, hcontent⟩ := isDirectory_iff.mp hdir
      have hbefore : b.inode (b.spot q) = some i := (h.untouched hnot hlast).symm.trans hi
      refine ⟨i, hi, hcontent, .inl ⟨hbefore, ?_⟩, fun hroot => ?_⟩
      · rw [← h.content (b.known _ _ hbefore), hcontent]
      · obtain hroot | hroot := hroot
        · exact absurd hroot hput
        · rw [hbefore] at hroot
          cases hroot

theorem Grew.other (hgrew : Grew v (b.spot p) o v') {q : List Bytes} (hne : q ≠ p) :
    v'.inode (b.spot q) = v.inode (b.spot q) := by
  rw [hgrew.inode, if_neg fun heq => hne (spot_inj heq)]

theorem Grew.old {k l : Spot} {o : Object} (hgrew : Grew v k o v') {i : Nat}
    (hi : v.inode l = some i) : v'.object i = v.object i := by
  rw [hgrew.object, if_neg (Nat.ne_of_lt (v.known _ _ hi))]

theorem Grew.names {k l : Spot} {o : Object} (hgrew : Grew v k o v') {i : Nat} (hi : i ≠ v.next)
    (hl : v'.inode l = some i) :
    v.inode l = some i := by
  rw [hgrew.inode] at hl
  split at hl
  · exact absurd (Option.some.inj hl).symm hi
  · exact hl

theorem Grew.new {k l : Spot} {o : Object} (hgrew : Grew v k o v') (hl : v'.inode l = some v.next) :
    l = k := by
  by_contra hne
  rw [hgrew.inode, if_neg hne] at hl
  exact lt_irrefl _ (v.known l _ hl)

/-- A leaf put earlier is as it was. -/
theorem Written.leaf_kept (h : Written b made written v) {p : List Bytes} {o : Object}
    (hgrew : Grew v (b.spot p) o v') {q : List Bytes} (hne : q ≠ p) {o' : Object}
    (hlast : lastAt written q = some (.leaf o')) :
    b.isDirectory (b.spot q) = false ∧ o'.content ≠ .directory ∧
      ∃ i, b.next ≤ i ∧ v'.inode (b.spot q) = some i ∧ v'.object i = o' ∧ ∀ k, v'.inode k = some i →
        k = b.spot q := by
  obtain ⟨hfile, hcontent, i, hnew, hi, ho, hname⟩ := h.leaf q o' hlast
  refine ⟨hfile, hcontent, i, hnew, (hgrew.other hne).trans hi, (hgrew.old hi).trans ho,
    fun k hk => ?_⟩
  exact hname k (hgrew.names (Nat.ne_of_lt (v.known _ _ hi)) hk)

/-- So is a directory. -/
theorem Written.directory_kept (h : Written b made written v) {p : List Bytes} {o : Object}
    (hgrew : Grew v (b.spot p) o v') {q : List Bytes} (hne : q ≠ p)
    (hq : lastAt written q = some .directory ∨ lastAt written q = none ∧ made q) :
    ∃ i, v'.inode (b.spot q) = some i ∧ (v'.object i).content = .directory ∧
      (b.inode (b.spot q) = some i ∧ (b.object i).content = .directory ∨ b.inode (b.spot q) = none ∧
        b.next ≤ i) ∧
      (lastAt written q = some .directory ∨ b.inode (b.spot q) = none →
        v'.object i = rootDirectory) := by
  obtain ⟨i, hi, hdir, hold, hroot⟩ := h.directory q hq
  refine ⟨i, (hgrew.other hne).trans hi, ?_, hold, fun hput => ?_⟩
  · rw [hgrew.old hi, hdir]
  · rw [hgrew.old hi, hroot hput]

theorem Written.object_kept (h : Written b made written v) {k : Spot} {o : Object}
    (hgrew : Grew v k o v') {i : Nat} (hi : i < b.next) (hne : v'.object i ≠ b.object i) :
    ∃ p, lastAt written p = some .directory ∧ b.inode (b.spot p) = some i := by
  apply h.object i hi
  rwa [hgrew.object, if_neg (Nat.ne_of_lt (lt_of_lt_of_le hi h.next))] at hne

/-- A directory is made where nothing is. -/
theorem Written.make (h : Written b made written v) {p : List Bytes}
    (hfree : v.inode (b.spot p) = none) (hgrew : Grew v (b.spot p) rootDirectory v') :
    Written b (fun q => made q ∨ q = p) written v' where
  bootstrap := hgrew.bootstrap.trans h.bootstrap
  refused := hgrew.refused.trans h.refused
  next := by
    rw [hgrew.next]
    exact Nat.le_succ_of_le h.next
  kept k hk := by
    rw [hgrew.inode, if_neg (hk p (.inl (.inr rfl))).symm]
    exact h.kept k fun q hq => hk q (hq.imp_left .inl)
  leaf q o hlast := by
    have hne : q ≠ p := by
      rintro rfl
      obtain ⟨-, -, i, -, hi, -⟩ := h.leaf q o hlast
      rw [hfree] at hi
      cases hi
    exact h.leaf_kept hgrew hne hlast
  object i hi hne := h.object_kept hgrew hi hne
  directory q hq := by
    by_cases hold : lastAt written q = some .directory ∨ lastAt written q = none ∧ made q
    · have hne : q ≠ p := by
        rintro rfl
        obtain ⟨i, hi, -⟩ := h.directory q hold
        rw [hfree] at hi
        cases hi
      exact h.directory_kept hgrew hne hold
    · obtain ⟨hput, hmade⟩ := not_or.mp hold
      obtain ⟨hlast, hq⟩ := hq.resolve_left hput
      have hnot : ¬ made q := fun hm => hmade ⟨hlast, hm⟩
      obtain rfl := hq.resolve_left hnot
      have hbefore : b.inode (b.spot q) = none := (h.untouched hnot hlast).symm.trans hfree
      have hobject : v'.object v.next = rootDirectory := by rw [hgrew.object, if_pos rfl]
      refine ⟨v.next, ?_, ?_, .inr ⟨hbefore, h.next⟩, fun _ => hobject⟩
      · rw [hgrew.inode, if_pos rfl]
      · rw [hobject]
        rfl

/-- A leaf is put where no directory is. -/
theorem Written.leaf_put (h : Written b made written v) {p : List Bytes} {o : Object}
    (hfile : v.isDirectory (b.spot p) = false) (hleaf : o.content ≠ .directory)
    (hgrew : Grew v (b.spot p) o v') : Written b made (written ++ [(p, .leaf o)]) v' where
  bootstrap := hgrew.bootstrap.trans h.bootstrap
  refused := hgrew.refused.trans h.refused
  next := by
    rw [hgrew.next]
    exact Nat.le_succ_of_le h.next
  kept k hk := by
    rw [hgrew.inode, if_neg (hk p (.inr (by simp))).symm]
    refine h.kept k fun q hq => hk q (hq.imp_right fun hmem => ?_)
    rw [List.map_append]
    exact List.mem_append_left _ hmem
  leaf q o' hlast := by
    rw [lastAt_snoc] at hlast
    split at hlast
    · rename_i heq
      subst heq
      obtain rfl := Put.leaf.inj (Option.some.inj hlast)
      refine ⟨h.not_directory hfile, hleaf, v.next, h.next, ?_, ?_, fun k hk => hgrew.new hk⟩
      · rw [hgrew.inode, if_pos rfl]
      · rw [hgrew.object, if_pos rfl]
    · rename_i hne
      exact h.leaf_kept hgrew (Ne.symm hne) hlast
  directory q hq := by
    have hne : q ≠ p := by
      rintro rfl
      rw [lastAt_snoc, if_pos rfl] at hq
      obtain hq | hq := hq
      · cases hq
      · cases hq.1
    rw [lastAt_snoc, if_neg (Ne.symm hne)] at hq ⊢
    exact h.directory_kept hgrew hne hq
  object i hi hne := by
    obtain ⟨q, hlast, hq⟩ := h.object_kept hgrew hi hne
    refine ⟨q, ?_, hq⟩
    rw [lastAt_snoc, if_neg, hlast]
    rintro rfl
    obtain ⟨j, hj, hdir, -⟩ := h.directory p (.inl hlast)
    rw [isDirectory_iff.mpr ⟨j, hj, hdir⟩] at hfile
    cases hfile

theorem fileMetadata_isDirectory (k l : Spot) (mode : Nat) :
    (v.fileMetadata k mode).isDirectory l = v.isDirectory l := by
  rw [Bool.eq_iff_iff, isDirectory_iff, isDirectory_iff]
  have hcontent : ∀ i, ((v.fileMetadata k mode).object i).content = (v.object i).content := by
    intro i
    show (if v.inode k = some i then (⟨(v.object i).content, 0, 0, mode⟩ : Object)
      else v.object i).content = _
    split
    · rfl
    · rfl
  simp only [hcontent]
  exact Iff.rfl

/-- A directory is put where there is one. -/
theorem Written.set (h : Written b made written v) {p : List Bytes} (hmade : made p)
    (hdir : v.isDirectory (b.spot p) = true) :
    Written b made (written ++ [(p, .directory)]) (v.fileMetadata (b.spot p) 0o755) := by
  obtain ⟨i, hi, hcontent⟩ := isDirectory_iff.mp hdir
  have hnoleaf : ∀ o, lastAt written p ≠ some (.leaf o) := by
    intro o hlast
    obtain ⟨-, hleaf, j, -, hj, ho, -⟩ := h.leaf p o hlast
    rw [hi, Option.some.injEq] at hj
    exact hleaf (by rw [← ho, ← hj, hcontent])
  have hold : lastAt written p = some .directory ∨ lastAt written p = none ∧ made p := by
    cases hlast : lastAt written p with
    | none => exact .inr ⟨rfl, hmade⟩
    | some x =>
      cases x with
      | directory => exact .inl rfl
      | leaf o => exact absurd hlast (hnoleaf o)
  have hobject : ∀ j, (v.fileMetadata (b.spot p) 0o755).object j = if j = i then rootDirectory
      else v.object j := by
    intro j
    show (if v.inode (b.spot p) = some j then (⟨(v.object j).content, 0, 0, 0o755⟩ : Object)
      else v.object j) = _
    by_cases heq : j = i
    · rw [heq, if_pos hi, if_pos rfl, hcontent]
      rfl
    · rw [if_neg heq, if_neg]
      intro hj
      rw [hi, Option.some.injEq] at hj
      exact heq hj.symm
  exact
    { bootstrap := h.bootstrap
      refused := h.refused
      next := h.next
      kept := fun k hk => by
        apply h.kept k
        intro q hq
        apply hk q (hq.imp_right fun hmem => ?_)
        rw [List.map_append]
        exact List.mem_append_left _ hmem
      leaf := fun q o hlast => by
        rw [lastAt_snoc] at hlast
        split at hlast
        · cases hlast
        · obtain ⟨hfile, hleaf, j, hnew, hj, ho, hname⟩ := h.leaf q o hlast
          refine ⟨hfile, hleaf, j, hnew, hj, ?_, hname⟩
          have hne : j ≠ i := by
            rintro rfl
            exact hleaf (by rw [← ho, hcontent])
          rw [hobject, if_neg hne, ho]
      directory := fun q hq => by
        have hq' : lastAt written q = some .directory ∨ lastAt written q = none ∧ made q := by
          by_cases heq : p = q
          · exact heq ▸ hold
          · rwa [lastAt_snoc, if_neg heq] at hq
        obtain ⟨j, hj, hjdir, hbefore, hroot⟩ := h.directory q hq'
        by_cases hji : j = i
        · refine ⟨j, hj, ?_, hbefore, fun _ => ?_⟩
          · rw [hobject, if_pos hji]
            rfl
          · rw [hobject, if_pos hji]
        · have hne : p ≠ q := by
            rintro rfl
            have hj : v.inode (b.spot p) = some j := hj
            rw [hi, Option.some.injEq] at hj
            exact hji hj.symm
          refine ⟨j, hj, ?_, hbefore, fun hput => ?_⟩
          · rw [hobject, if_neg hji, hjdir]
          · rw [lastAt_snoc, if_neg hne] at hput
            rw [hobject, if_neg hji, hroot hput]
      object := fun j hj hne => by
        rw [hobject] at hne
        by_cases hji : j = i
        · refine ⟨p, ?_, ?_⟩
          · rw [lastAt_snoc, if_pos rfl]
          · obtain ⟨l, hl, -, hbefore, -⟩ := h.directory p hold
            rw [hi, Option.some.injEq] at hl
            obtain hbefore | hnew := hbefore
            · rw [hbefore.1, hji, hl]
            · exact absurd hj (by omega)
        · rw [if_neg hji] at hne
          obtain ⟨q, hlast, hq⟩ := h.object j hj hne
          refine ⟨q, ?_, hq⟩
          rw [lastAt_snoc]
          split
          · rfl
          · exact hlast }

/-! Opening a directory. -/

/-- The paths below `here` on the way of these names. -/
def fronts (here : List Bytes) : List Bytes → List (List Bytes)
  | [] => []
  | name :: rest => (here ++ [name]) :: fronts (here ++ [name]) rest

theorem mem_fronts {here rest q : List Bytes} :
    q ∈ fronts here rest ↔ ∃ t, t ≠ [] ∧ t <+: rest ∧ q = here ++ t := by
  induction rest generalizing here with
  | nil =>
    refine iff_of_false List.not_mem_nil fun h => ?_
    obtain ⟨t, hne, ht, -⟩ := h
    exact hne (List.prefix_nil.mp ht)
  | cons name rest ih =>
    rw [fronts, List.mem_cons, ih]
    constructor
    · intro h
      obtain rfl | ⟨t, hne, ht, rfl⟩ := h
      · exact ⟨[name], List.cons_ne_nil _ _, List.prefix_append [name] rest, rfl⟩
      · refine ⟨name :: t, List.cons_ne_nil _ _, (List.prefix_cons_inj name).mpr ht, ?_⟩
        rw [List.append_assoc]
        rfl
    · intro h
      obtain ⟨t, hne, ht, rfl⟩ := h
      obtain ⟨first, t, rfl⟩ := List.exists_cons_of_ne_nil hne
      obtain ⟨rfl, hrest⟩ := List.cons_prefix_cons.mp ht
      by_cases hnil : t = []
      · exact .inl (by rw [hnil])
      · refine .inr ⟨t, hnil, hrest, ?_⟩
        rw [List.append_assoc]
        rfl

/-- The ways into a directory: they are paths to it. -/
theorem mem_fronts_nil {path q : List Bytes} : q ∈ fronts [] path ↔ q ≠ [] ∧ q <+: path := by
  rw [mem_fronts]
  constructor
  · intro h
    obtain ⟨t, hne, ht, rfl⟩ := h
    exact ⟨hne, ht⟩
  · intro h
    exact ⟨q, h.1, h.2, rfl⟩

/-- Where something is put, it makes no difference whether it was made. -/
theorem Written.congr {made' : List Bytes → Prop} (h : Written b made written v)
    (hmade : ∀ q, lastAt written q = none → (made q ↔ made' q)) : Written b made' written v where
  bootstrap := h.bootstrap
  refused := h.refused
  next := h.next
  leaf := h.leaf
  object := h.object
  kept k hk := by
    apply h.kept k
    intro q hq
    apply hk q
    by_cases hlast : lastAt written q = none
    · exact hq.imp_left (hmade q hlast).mp
    · exact .inr (by_contra fun hmem => hlast (lastAt_eq_none.mpr hmem))
  directory q hq := h.directory q (hq.imp_right fun hnone =>
    ⟨hnone.1, (hmade q hnone.1).mpr hnone.2⟩)

/-- One name of `directory`: it is there, or a new directory's. -/
theorem mkdirat_step {here : List Bytes} {name : Bytes} {r : Bool × Volume}
    (hmkdir : v.mkdirat (v.spot here) name = .ok r)
    (hopen : r.2.openDirectory ((v.spot here).child name) = .ok ()) {next : Volume}
    (hnext : next = if r.1 then r.2.fileMetadata ((v.spot here).child name) 0o755 else r.2) :
    (v.isDirectory ((v.spot here).child name) = true ∧ next = v) ∨
      (v.inode ((v.spot here).child name) = none ∧
        Grew v ((v.spot here).child name) rootDirectory next) := by
  rw [mkdirat] at hmkdir
  split at hmkdir
  swap
  · cases hmkdir
  rename_i hparent
  split at hmkdir
  · rename_i hfree
    cases hmkdir
    right
    refine ⟨hfree, ?_⟩
    have hchild : ∀ i, (if (v.spot here).child name = (v.spot here).child name then some v.next
        else v.inode ((v.spot here).child name)) = some i ↔ i = v.next := by
      intro i
      rw [if_pos rfl, Option.some.injEq]
      exact eq_comm
    subst hnext
    exact
      { bootstrap := rfl
        refused := rfl
        next := rfl
        inode := fun l => rfl
        object := fun i => by
          show (if (if (v.spot here).child name = (v.spot here).child name then some v.next
              else v.inode ((v.spot here).child name)) = some i then
                (⟨(if i = v.next then (⟨.directory, 0, 0, 0o700⟩ : Object) else v.object i).content,
                  0, 0, 0o755⟩ : Object)
              else if i = v.next then ⟨.directory, 0, 0, 0o700⟩ else v.object i) = _
          by_cases hi : i = v.next
          · rw [if_pos ((hchild i).mpr hi), if_pos hi, if_pos hi]
            rfl
          · rw [if_neg fun heq => hi ((hchild i).mp heq), if_neg hi, if_neg hi] }
  · cases hmkdir
    left
    rw [openDirectory] at hopen
    split at hopen
    · rename_i hdir
      exact ⟨hdir, hnext⟩
    · cases hopen

theorem Grew.isDirectory {k : Spot} (hgrew : Grew v k rootDirectory v') :
    v'.isDirectory k = true := by
  refine isDirectory_iff.mpr ⟨v.next, ?_, ?_⟩
  · rw [hgrew.inode, if_pos rfl]
  · rw [hgrew.object, if_pos rfl]
    rfl

/-- **Opening a directory** makes the ones on the way that are missing. -/
theorem Written.directoryFrom (h : Written b made written v) {here rest : List Bytes}
    (hhere : v.isDirectory (b.spot here) = true) (hrun : v.directoryFrom here rest = .ok v') :
    Written b (fun q => made q ∨ q ∈ fronts here rest) written v' ∧
      v'.isDirectory (b.spot (here ++ rest)) = true := by
  induction rest generalizing here v made with
  | nil =>
    cases hrun
    refine ⟨h.congr fun q _ => (or_iff_left List.not_mem_nil).symm, ?_⟩
    rwa [List.append_nil]
  | cons name rest ih =>
    rw [Volume.directoryFrom] at hrun
    have hnext : ∀ {next : Volume}, Written b (fun q => made q ∨ q = here ++ [name]) written next →
        next.isDirectory (b.spot (here ++ [name])) = true → next.directoryFrom (here ++ [name]) rest = .ok v' →
        Written b (fun q => made q ∨ q ∈ fronts here (name :: rest)) written v' ∧
          v'.isDirectory (b.spot (here ++ name :: rest)) = true := by
      intro next hwritten hdir hrest
      obtain ⟨hend, hopened⟩ := ih hwritten hdir hrest
      refine ⟨hend.congr fun q _ => ?_, ?_⟩
      · rw [fronts, List.mem_cons, or_assoc]
      · rwa [List.append_assoc] at hopened
    by_cases hmnt : v.bootstrap = true ∧ here ++ [name] = [mntName]
    · -- the output's tree is there
      rw [if_pos hmnt] at hrun
      obtain ⟨u, hopen, hrest⟩ := except_bind_eq_ok.mp hrun
      have hdir : v.isDirectory (b.spot (here ++ [name])) = true := by
        rw [hmnt.2, ← spot_congr h.bootstrap, spot_mnt hmnt.1]
        exact v.isDirectory_top .output
      exact hnext (h.keep hdir) hdir hrest
    · rw [if_neg hmnt] at hrun
      obtain ⟨r, hmkdir, hrun⟩ := except_bind_eq_ok.mp hrun
      obtain ⟨u, hopen, hrest⟩ := except_bind_eq_ok.mp hrun
      have hchild : (v.spot here).child name = b.spot (here ++ [name]) := by
        rw [← spot_child hmnt, spot_congr h.bootstrap]
      obtain ⟨hdir, hsame⟩ | ⟨hfree, hgrew⟩ := mkdirat_step hmkdir hopen rfl
      · rw [hsame] at hrest
        rw [hchild] at hdir
        exact hnext (h.keep hdir) hdir hrest
      · rw [hchild] at hfree hgrew hrest
        exact hnext (h.make hfree hgrew) hgrew.isDirectory hrest

theorem Written.directory_opened (h : Written b made written v) {path : List Bytes}
    (hrun : v.directory path = .ok v') :
    Written b (fun q => made q ∨ q ∈ fronts [] path) written v' ∧
      v'.isDirectory (b.spot path) = true := by
  refine h.directoryFrom ?_ hrun
  rw [spot_nil]
  exact v.isDirectory_top .root

/-- Directories can be made on this way. -/
def Clear (v : Volume) (path : List Bytes) : Prop :=
  ∀ q, q ≠ [] → q <+: path → v.inode (v.spot q) = none ∨ v.isDirectory (v.spot q) = true

theorem mkdirat_total {k : Spot} {name : Bytes} (hparent : v.isDirectory k = true)
    (hclear : v.inode (k.child name) = none ∨ v.isDirectory (k.child name) = true) :
    ∃ r, v.mkdirat k name = .ok r ∧ r.2.openDirectory (k.child name) = .ok () := by
  by_cases hfree : v.inode (k.child name) = none
  · refine ⟨(true, v.attach k name ⟨.directory, 0, 0, 0o700⟩ hparent hfree), ?_, ?_⟩
    · rw [mkdirat, dif_pos hparent, dif_pos hfree]
    · rw [openDirectory, if_pos]
      refine isDirectory_iff.mpr ⟨v.next, if_pos rfl, ?_⟩
      show (if v.next = v.next then (⟨.directory, 0, 0, 0o700⟩ : Object)
        else v.object v.next).content = _
      rw [if_pos rfl]
  · refine ⟨(false, v), ?_, ?_⟩
    · rw [mkdirat, dif_pos hparent, dif_neg hfree]
    · rw [openDirectory, if_pos (hclear.resolve_left hfree)]

theorem directoryFrom_total {here rest : List Bytes} (hhere : v.isDirectory (v.spot here) = true)
    (hclear : ∀ q ∈ fronts here rest, v.inode (v.spot q) = none ∨ v.isDirectory (v.spot q) = true) :
    ∃ v', v.directoryFrom here rest = .ok v' := by
  induction rest generalizing here v with
  | nil => exact ⟨v, rfl⟩
  | cons name rest ih =>
    rw [directoryFrom]
    have hfirst := hclear (here ++ [name]) List.mem_cons_self
    have hrest : ∀ q ∈ fronts (here ++ [name]) rest, v.inode (v.spot q) = none ∨
        v.isDirectory (v.spot q) = true :=
      fun q hq => hclear q (List.mem_cons_of_mem _ hq)
    by_cases hmnt : v.bootstrap = true ∧ here ++ [name] = [mntName]
    · rw [if_pos hmnt]
      have hdir : v.isDirectory (v.spot (here ++ [name])) = true := by
        rw [hmnt.2, spot_mnt hmnt.1]
        exact v.isDirectory_top .output
      rw [openDirectory, if_pos hdir]
      exact ih hdir hrest
    · rw [if_neg hmnt]
      have hchild := spot_child hmnt
      rw [hchild] at hfirst
      obtain ⟨r, hmkdir, hopen⟩ := mkdirat_total hhere hfirst
      rw [hmkdir, except_ok_bind, hopen, except_ok_bind]
      generalize hnext : (if r.1 = true then r.2.fileMetadata ((v.spot here).child name) 0o755
        else r.2) = next
      obtain ⟨hdir, rfl⟩ | ⟨hfree, hgrew⟩ := mkdirat_step hmkdir hopen hnext.symm
      · exact ih (hchild ▸ hdir) hrest
      · rw [← hchild] at hfree hgrew
        have hwritten := (Written.refl v).make hfree hgrew
        apply ih
        · rw [spot_congr hgrew.bootstrap]
          exact hgrew.isDirectory
        · intro q hq
          rw [spot_congr hgrew.bootstrap]
          obtain hnone | hdir := hrest q hq
          · -- deeper names are not the one that was made
            refine .inl ((hwritten.untouched ?_ rfl).trans hnone)
            intro hmade
            obtain ⟨t, hne, -, heq⟩ := mem_fronts.mp hq
            apply hne
            rw [hmade.resolve_left id] at heq
            exact List.append_right_eq_self.mp heq.symm
          · exact .inr (hwritten.isDirectory hdir)

/-- **A directory can be opened** exactly where nothing is in its way. -/
theorem directory_total {path : List Bytes} : (∃ v', v.directory path = .ok v') ↔ Clear v path := by
  constructor
  · intro h q hne hq
    obtain ⟨v', hrun⟩ := h
    obtain ⟨hwritten, -⟩ := (Written.refl v).directory_opened hrun
    obtain ⟨i, -, -, hold, -⟩ :=
      hwritten.directory q (.inr ⟨rfl, .inr (mem_fronts_nil.mpr ⟨hne, hq⟩)⟩)
    exact hold.symm.imp And.left fun hdir => isDirectory_iff.mpr ⟨i, hdir⟩
  · intro h
    apply directoryFrom_total
    · rw [spot_nil]
      exact v.isDirectory_top .root
    · intro q hq
      obtain ⟨hne, hq⟩ := mem_fronts_nil.mp hq
      exact h q hne hq

/-! Putting an object in place. -/

theorem unlinkat_eq_ok {k : Spot} {name : Bytes} :
    v.unlinkat k name = .ok v' ↔ ∃ h : v.isDirectory (k.child name) = false, v' =
      v.detach (k.child name) h := by
  rw [unlinkat]
  split
  · rename_i hfile
    rw [Except.ok.injEq, eq_comm]
    exact ⟨fun h => ⟨hfile, h⟩, fun h => h.2⟩
  · rename_i hdir
    exact iff_of_false (fun h => by cases h) (fun h => hdir h.1)

theorem create_eq_ok {k : Spot} {name : Bytes} {o : Object} :
    v.create k name o = .ok v' ↔ ∃ (hparent : v.isDirectory k = true) (hfree : v.inode
      (k.child name) = none), v' = v.attach k name o hparent hfree := by
  rw [create]
  split
  · rename_i hparent
    split
    · rename_i hfree
      rw [Except.ok.injEq, eq_comm]
      exact ⟨fun h => ⟨hparent, hfree, h⟩, fun h => h.2.2⟩
    · rename_i hthere
      exact iff_of_false (fun h => by cases h) (fun h => hthere h.2.1)
  · rename_i hfile
    exact iff_of_false (fun h => by cases h) (fun h => hfile h.1)

/-- What is put in place is a new object. -/
theorem swap_grew {k : Spot} {name : Bytes} {o : Object} {u : Volume}
    (hunlink : v.unlinkat k name = .ok u) (hcreate : u.create k name o = .ok v') :
    v.isDirectory (k.child name) = false ∧ Grew v (k.child name) o v' := by
  obtain ⟨hfile, rfl⟩ := unlinkat_eq_ok.mp hunlink
  obtain ⟨hparent, hfree, rfl⟩ := create_eq_ok.mp hcreate
  refine ⟨hfile, ⟨rfl, rfl, rfl, fun l => ?_, fun i => rfl⟩⟩
  show (if l = k.child name then some v.next else if l = k.child name then none else v.inode l) = _
  by_cases hl : l = k.child name
  · rw [if_pos hl, if_pos hl]
  · rw [if_neg hl, if_neg hl, if_neg hl]

/-- **An object is put in place**, below directories that are made where they are missing. -/
theorem Written.replace (h : Written b made written v) {parent : List Bytes} {name : Bytes}
    {x : Except WriteError Object} (hmnt : ¬ (b.bootstrap = true ∧ parent ++ [name] = [mntName]))
    (hleaf : ∀ o, x = .ok o → o.content ≠ .directory) (hrun : v.replace parent name x = .ok v') :
    ∃ o, x = .ok o ∧ Written b (fun q => made q ∨ q ∈ fronts [] parent)
      (written ++ [(parent ++ [name], .leaf o)]) v' := by
  rw [Volume.replace] at hrun
  obtain ⟨v1, hdirectory, hrun⟩ := except_bind_eq_ok.mp hrun
  obtain ⟨v2, hunlink, hrun⟩ := except_bind_eq_ok.mp hrun
  obtain ⟨o, hx, hcreate⟩ := except_bind_eq_ok.mp hrun
  obtain ⟨hopened, hparent⟩ := h.directory_opened hdirectory
  have hspot : (v1.spot parent).child name = b.spot (parent ++ [name]) := by
    rw [spot_congr hopened.bootstrap, spot_child hmnt]
  have hsame : v2.spot parent = v1.spot parent := by
    obtain ⟨hfile, rfl⟩ := unlinkat_eq_ok.mp hunlink
    exact spot_congr rfl parent
  rw [hsame] at hcreate
  obtain ⟨hfile, hgrew⟩ := swap_grew hunlink hcreate
  rw [hspot] at hfile hgrew
  exact ⟨o, hx, hopened.leaf_put hfile (hleaf o hx) hgrew⟩

/-- **An object can be put in place** where its directory can be opened and it is none. -/
theorem replace_total {parent : List Bytes} {name : Bytes} {o : Object}
    (hmnt : ¬ (v.bootstrap = true ∧ parent ++ [name] = [mntName])) (hclear : Clear v parent)
    (hfile : v.isDirectory (v.spot (parent ++ [name])) = false) :
    ∃ v', v.replace parent name (.ok o) = .ok v' := by
  obtain ⟨v1, hdirectory⟩ := directory_total.mpr hclear
  obtain ⟨hopened, hparent⟩ := (Written.refl v).directory_opened hdirectory
  have hspot : (v1.spot parent).child name = v.spot (parent ++ [name]) := by
    rw [spot_congr hopened.bootstrap, spot_child hmnt]
  -- opening the directory has made none at the name
  have hfile1 : v1.isDirectory ((v1.spot parent).child name) = false := by
    rw [hspot, ← Bool.not_eq_true]
    intro hdir
    obtain ⟨i, hi, hcontent⟩ := isDirectory_iff.mp hdir
    have hsame : v1.inode (v.spot (parent ++ [name])) = v.inode (v.spot (parent ++ [name])) := by
      apply hopened.untouched
      · intro hmade
        obtain ⟨-, hfront⟩ := mem_fronts_nil.mp (hmade.resolve_left id)
        have hlength := hfront.length_le
        rw [List.length_append, List.length_singleton] at hlength
        exact absurd hlength (Nat.not_succ_le_self _)
      · rfl
    rw [hsame] at hi
    rw [hopened.content (v.known _ _ hi)] at hcontent
    rw [isDirectory_iff.mpr ⟨i, hi, hcontent⟩] at hfile
    cases hfile
  rw [Volume.replace, hdirectory, except_ok_bind, unlinkat_eq_ok.mpr ⟨hfile1, rfl⟩, except_ok_bind,
    except_ok_bind]
  have hsame : (v1.detach ((v1.spot parent).child name) hfile1).spot parent = v1.spot parent :=
    spot_congr rfl parent
  rw [hsame]
  have hne : v1.spot parent ≠ (v1.spot parent).child name := by
    intro heq
    have hpath := congrArg Spot.path heq
    exact List.cons_ne_nil name [] (List.append_right_eq_self.mp hpath.symm)
  have hparent2 : (v1.detach ((v1.spot parent).child name) hfile1).isDirectory
      (v1.spot parent) = true := by
    rw [← spot_congr hopened.bootstrap] at hparent
    obtain ⟨i, hi, hcontent⟩ := isDirectory_iff.mp hparent
    exact isDirectory_iff.mpr ⟨i, (if_neg hne).trans hi, hcontent⟩
  exact ⟨_, create_eq_ok.mpr ⟨hparent2, if_pos rfl, rfl⟩⟩

end Volume

end Conglobate.Copy
