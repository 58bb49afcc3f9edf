import Conglobate.Lib.Split
import Conglobate.Storage.StageMounts
import Mathlib.Data.List.GetD

/- Stage mounts are attached parents first, and closed in the reverse order
   (`storage/volume/stage.rs`).

   What is proved:
     1. `checkMounts_ok` — what the planner accepts are distinct places below the root;
     2. `ordered_parents` — no destination is handled before one it lies below;
     3. `attachOne_located` — a mount goes into the deepest mount attached above it;
     4. `unwind_closes` — leases are closed in the order given, up to a refusal;
     5. `release_closes` — a volume's end closes in the reverse order of making;
     6. `stage_mounts` — all of it, for the mounts of an accepted stage. -/
namespace Conglobate.Storage.StageMounts

open Plan (ImagePath)
open Vfs (Place Kind Mounts)
open Planner

/-! Destinations. -/

/-- The names of a destination. -/
def names (path : ImagePath) : List Text := ImagePath.components path.path

/-- Where a stage's filesystem may go. -/
structure Proper (format : Option Plan.Format) (path : ImagePath) : Prop where
  nonroot : names path ≠ []
  controls : format = none → ∀ name ∈ (names path).head?, name ∉ Stage.runtimeControls

/-- Above another destination, and not it. -/
def Above (a b : List Text) : Prop := a <+: b ∧ a ≠ b

/-- The destination a mount is attached at: mount 0 is the root, mount `i + 1` filesystem `i`. -/
def shownAt (ds : List (List Text)) : Nat → List Text
  | 0 => []
  | i + 1 => ds.getD i []

/-- The place that the names `p` lead to: in the deepest mount attached at or above them. -/
structure Located (ds : List (List Text)) (place : Place Text) (p : List Text) : Prop where
  names : shownAt ds place.mount ++ place.path = p
  mount : place.mount ≤ ds.length
  deepest : ∀ d ∈ ds, d <+: p → d <+: shownAt ds place.mount

/-- Destinations that can be attached: none is the root, or another, or above an earlier one. -/
structure Orderly (ds : List (List Text)) : Prop where
  nonroot : ∀ d ∈ ds, d ≠ []
  nodup : ds.Nodup
  parents : ds.Pairwise fun earlier later => ¬ Above later earlier

variable {ds : List (List Text)} {place place' : Place Text} {p : List Text} {name : Text}

theorem shownAt_mem {i : Nat} (h : i ≤ ds.length) (hi : i ≠ 0) : shownAt ds i ∈ ds := by
  obtain ⟨j, rfl⟩ := Nat.exists_eq_succ_of_ne_zero hi
  have hlt : j < ds.length := h
  rw [shownAt, List.getD_eq_getElem _ _ hlt]
  exact List.getElem_mem hlt

/-- A mount's destination tells which it is. -/
theorem shownAt_injective (h : Orderly ds) {i j : Nat} (hi : i ≤ ds.length) (hj : j ≤ ds.length)
    (heq : shownAt ds i = shownAt ds j) : i = j := by
  cases i with
  | zero =>
    cases j with
    | zero => rfl
    | succ j => exact absurd heq.symm (h.nonroot _ (shownAt_mem hj (Nat.succ_ne_zero j)))
  | succ i =>
    cases j with
    | zero => exact absurd heq (h.nonroot _ (shownAt_mem hi (Nat.succ_ne_zero i)))
    | succ j =>
      have hilt : i < ds.length := hi
      have hjlt : j < ds.length := hj
      rw [shownAt, shownAt, List.getD_eq_getElem _ _ hilt, List.getD_eq_getElem _ _ hjlt] at heq
      rw [(List.Nodup.getElem_inj_iff h.nodup).mp heq]

theorem Located.shown (h : Located ds place p) :
    shownAt ds place.mount <+: p := ⟨place.path, h.names⟩

theorem Located.above (h : Located ds place p) (h' : Located ds place' p) :
    shownAt ds place.mount <+: shownAt ds place'.mount := by
  by_cases hroot : place.mount = 0
  · rw [hroot]
    exact List.nil_prefix
  · exact h'.deepest _ (shownAt_mem h.mount hroot) h.shown

/-- **Names lead to one place.** -/
theorem Located.unique (hds : Orderly ds) (h : Located ds place p) (h' : Located ds place' p) :
    place = place' := by
  have hshown : shownAt ds place.mount = shownAt ds place'.mount :=
    (h.above h').eq_of_length (Nat.le_antisymm (h.above h').length_le (h'.above h).length_le)
  have hmount := shownAt_injective hds h.mount h'.mount hshown
  have hpath : place.path = place'.path := by
    have heq := h.names.trans h'.names.symm
    rw [hshown] at heq
    exact List.append_cancel_left heq
  obtain ⟨mount, path⟩ := place
  obtain ⟨mount', path'⟩ := place'
  rw [Place.mk.injEq]
  exact ⟨hmount, hpath⟩

/-- Each destination's mount is on the name it has in the place it is walked to. -/
structure Attached (ds : List (List Text)) (attached : List (Vfs.Mount Text)) : Prop where
  length : attached.length = ds.length
  ids : ∀ i (h : i < attached.length), attached[i].id = i + 1
  points : ∀ i (h : i < attached.length), ∃ parent p name, ds[i]? = some (p ++ [name]) ∧
    Located ds parent p ∧ attached[i].on = inner parent name

theorem Attached.single (hds : Orderly ds) {attached : List (Vfs.Mount Text)}
    (h : Attached ds attached) :
    attached.Pairwise (fun a b => a.id ≠ b.id ∧ a.on ≠ b.on) := by
  rw [List.pairwise_iff_getElem]
  intro i j hi hj hij
  refine ⟨by rw [h.ids i hi, h.ids j hj]; omega, ?_⟩
  intro heq
  obtain ⟨parent, p, name, hd, hlocated, hon⟩ := h.points i hi
  obtain ⟨parent', p', name', hd', hlocated', hon'⟩ := h.points j hj
  rw [hon, hon', inner, inner, Place.mk.injEq] at heq
  -- two mounts on one place would be one destination
  have hsame : p ++ [name] = p' ++ [name'] := by
    rw [← hlocated.names, ← hlocated'.names, List.append_assoc, List.append_assoc, heq.1, heq.2]
  have hi' : i < ds.length := h.length ▸ hi
  have hj' : j < ds.length := h.length ▸ hj
  rw [List.getElem?_eq_getElem hi', Option.some.injEq] at hd
  rw [List.getElem?_eq_getElem hj', Option.some.injEq, ← hsame, ← hd] at hd'
  have := (List.Nodup.getElem_inj_iff hds.nodup).mp hd'
  omega

theorem mem_attached {attached : List (Vfs.Mount Text)} {m : Vfs.Mount Text}
    (h : Attached ds attached) (hm : m ∈ attached) :
    ∃ i parent p name, m.id = i + 1 ∧ ds[i]? = some (p ++ [name]) ∧ Located ds parent p ∧
      m.on = inner parent name := by
  obtain ⟨i, hi, rfl⟩ := List.mem_iff_getElem.mp hm
  obtain ⟨parent, p, name, hd, hlocated, hon⟩ := h.points i hi
  exact ⟨i, parent, p, name, h.ids i hi, hd, hlocated, hon⟩

theorem inner_path_ne (here : Place Text) (name : Text) (id : Nat) :
    inner here name ≠ ⟨id, []⟩ := by
  rw [inner, Ne, Place.mk.injEq]
  exact fun h => absurd h.2 (by simp)

/-- **One name entered**: what is seen there is where the names with it lead. -/
theorem Located.enter (hds : Orderly ds) {attached : List (Vfs.Mount Text)}
    (h : Attached ds attached) {here : Place Text} (hhere : Located ds here p) :
    Located ds (attached.foldl Mounts.cover (inner here name)) (p ++ [name]) := by
  by_cases hmem : p ++ [name] ∈ ds
  · -- a destination: its mount is on top
    obtain ⟨i, hi, hd⟩ := List.mem_iff_getElem.mp hmem
    have hi' : i < attached.length := h.length ▸ hi
    obtain ⟨parent, p', name', hd', hlocated, hon⟩ := h.points i hi'
    rw [List.getElem?_eq_getElem hi, hd, Option.some.injEq] at hd'
    obtain ⟨rfl, hname⟩ := List.append_inj' hd' rfl
    obtain rfl : name = name' := List.singleton_inj.mp hname
    have hfree : ∀ x ∈ attached, x.on ≠ ⟨attached[i].id, []⟩ := by
      intro x hx
      obtain ⟨_, parent', _, name', -, -, -, hon'⟩ := mem_attached h hx
      rw [hon']
      exact inner_path_ne parent' name' _
    have htop := Vfs.Mounts.foldl_cover_on (h.single hds) (List.getElem_mem hi') hfree
    rw [hon, Located.unique hds hlocated hhere, h.ids i hi'] at htop
    have hshown : shownAt ds (i + 1) = p ++ [name] := by
      rw [shownAt, List.getD_eq_getElem _ _ hi, hd]
    rw [htop]
    refine ⟨by rw [hshown, List.append_nil], hi, ?_⟩
    intro d _ hfront
    rwa [hshown]
  · -- nothing is mounted there
    have hfree : ∀ x ∈ attached, x.on ≠ inner here name := by
      intro x hx heq
      obtain ⟨i, parent, p', name', -, hd, hlocated, hon⟩ := mem_attached h hx
      rw [hon, inner, inner, Place.mk.injEq] at heq
      apply hmem
      have hsame : p' ++ [name'] = p ++ [name] := by
        rw [← hlocated.names, ← hhere.names, List.append_assoc, List.append_assoc, heq.1, heq.2]
      rw [← hsame]
      exact List.mem_of_getElem? hd
    rw [Vfs.Mounts.foldl_cover_of_uncovered hfree]
    refine ⟨?_, hhere.mount, ?_⟩
    · rw [inner, ← List.append_assoc, hhere.names]
    · intro d hd hfront
      apply hhere.deepest d hd
      have hne : d ≠ p ++ [name] := fun heq => hmem (heq ▸ hd)
      rcases List.prefix_concat_iff.mp hfront with heq | hfront
      · exact absurd heq hne
      · exact hfront

theorem Attached.nil : Attached [] [] :=
  ⟨rfl, fun i h => absurd h (Nat.not_lt_zero i), fun i h => absurd h (Nat.not_lt_zero i)⟩

theorem shownAt_append {d : List Text} {i : Nat} (h : i ≤ ds.length) :
    shownAt (ds ++ [d]) i = shownAt ds i := by
  cases i with
  | zero => rfl
  | succ i => rw [shownAt, shownAt, List.getD_append _ _ _ _ h]

/-- A destination that comes later changes nothing above the earlier ones. -/
theorem Located.append {d : List Text} (h : Located ds place p) (hd : ¬ d <+: p) :
    Located (ds ++ [d]) place p := by
  have hshown : shownAt (ds ++ [d]) place.mount = shownAt ds place.mount := shownAt_append h.mount
  refine ⟨by rw [hshown]; exact h.names, ?_, ?_⟩
  · rw [List.length_append]
    exact Nat.le_add_right_of_le h.mount
  · intro other hother hfront
    rw [hshown]
    rcases List.mem_append.mp hother with hother | hother
    · exact h.deepest other hother hfront
    · rw [List.mem_singleton.mp hother] at hfront
      exact absurd hfront hd

theorem Attached.append {attached : List (Vfs.Mount Text)} (h : Attached ds attached)
    {d : List Text} (hds : Orderly (ds ++ [d])) {on : Place Text}
    (hon : ∃ parent p name, d = p ++ [name] ∧
      Located (ds ++ [d]) parent p ∧ on = inner parent name) : Attached (ds ++ [d])
        (attached ++ [⟨attached.length + 1, on⟩]) := by
  refine ⟨by rw [List.length_append, List.length_append, h.length]; rfl, ?_, ?_⟩
  · intro i hi
    rw [List.length_append, List.length_singleton] at hi
    by_cases hlt : i < attached.length
    · rw [List.getElem_append_left hlt, h.ids i hlt]
    · obtain rfl : i = attached.length := by omega
      rw [List.getElem_append_right (Nat.le_refl _)]
      simp
  · intro i hi
    rw [List.length_append, List.length_singleton] at hi
    by_cases hlt : i < attached.length
    · obtain ⟨parent, p, name, hd, hlocated, hpoint⟩ := h.points i hlt
      have hlt' : i < ds.length := h.length ▸ hlt
      refine ⟨parent, p, name, by rw [List.getElem?_append_left hlt', hd], hlocated.append ?_, ?_⟩
      · -- the new destination is not above an old one
        intro hfront
        have hold : p ++ [name] ∈ ds := List.mem_of_getElem? hd
        have hparents := (List.pairwise_append.mp hds.parents).2.2 _ hold d List.mem_cons_self
        apply hparents
        refine ⟨hfront.trans (List.prefix_append p [name]), ?_⟩
        rintro rfl
        have := hfront.length_le
        rw [List.length_append, List.length_singleton] at this
        omega
      · rw [List.getElem_append_left hlt, hpoint]
    · obtain rfl : i = attached.length := by omega
      obtain ⟨parent, p, name, hd, hlocated, hon⟩ := hon
      refine ⟨parent, p, name, ?_, hlocated, ?_⟩
      · rw [h.length, List.getElem?_append_right (Nat.le_refl _), Nat.sub_self, ← hd]
        rfl
      · rw [List.getElem_append_right (Nat.le_refl _)]
        simpa using hon

theorem Orderly.left {ds' : List (List Text)} (h : Orderly (ds ++ ds')) : Orderly ds :=
  ⟨fun d hd => h.nonroot d (List.mem_append_left _ hd), (List.nodup_append.mp h.nodup).1,
    (List.pairwise_append.mp h.parents).1⟩

/-- Attachment `i` is on a place inside the deepest mount above it, attached before it. -/
structure Inside (ds : List (List Text)) (i : Nat) (on : Place Text) : Prop where
  shown : ds[i]? = some (shownAt ds on.mount ++ on.path)
  below : on.path ≠ []
  earlier : on.mount ≤ i
  deepest : ∀ d ∈ ds, ∀ e, ds[i]? = some e → Above d e → d <+: shownAt ds on.mount

theorem Attached.inside (hds : Orderly ds) {attached : List (Vfs.Mount Text)}
    (h : Attached ds attached) {i : Nat} (hi : i < attached.length) :
    Inside ds i attached[i].on := by
  obtain ⟨parent, p, name, hd, hlocated, hon⟩ := h.points i hi
  rw [hon]
  refine ⟨?_, ?_, ?_, ?_⟩
  · rw [hd, inner, ← List.append_assoc, hlocated.names]
  · exact List.concat_ne_nil _ _
  · change parent.mount ≤ i
    cases hmount : parent.mount with
    | zero => exact Nat.zero_le i
    | succ j =>
      -- mount `j + 1` is above destination `i`, so it does not come later
      by_contra hlate
      have hj : j < ds.length := by
        have := hlocated.mount
        omega
      have hshown : ds[j] <+: p := by
        have := hlocated.shown
        rwa [hmount, shownAt, List.getD_eq_getElem _ _ hj] at this
      have hi' : i < ds.length := h.length ▸ hi
      rw [List.getElem?_eq_getElem hi', Option.some.injEq] at hd
      have habove : Above ds[j] ds[i] := by
        rw [hd]
        refine ⟨hshown.trans (List.prefix_append p [name]), ?_⟩
        intro heq
        have := hshown.length_le
        rw [heq, List.length_append, List.length_singleton] at this
        omega
      have hij : i ≠ j := by
        rintro rfl
        exact habove.2 rfl
      exact List.pairwise_iff_getElem.mp hds.parents i j hi' hj (by omega) habove
  · intro d hdmem e he habove
    rw [hd, Option.some.injEq] at he
    subst he
    apply hlocated.deepest d hdmem
    rcases List.prefix_concat_iff.mp habove.1 with heq | hfront
    · exact absurd heq habove.2
    · exact hfront

/-! Closing. -/

/-- Leases are closed in the order given, up to a refusal, and all of them if nothing is refused. -/
structure Closes (k : Kernel) (leases : List Closing) (run : Except IoError Unit × List Closing) :
    Prop where
  order : run.2 <+: leases
  all : run.1 = .ok () → run.2 = leases
  free : (∀ lease, k.close lease = none) → run.1 = .ok ()

/-- Closing one group of leases, and the next only if that went well. -/
theorem Closes.append {k : Kernel} {first next closed closed' : List Closing}
    {r : Except IoError Unit} (h : Closes k first (.ok (), closed))
    (h' : Closes k next (r, closed')) :
    Closes k (first ++ next) (r, closed ++ closed') := by
  have hfirst : closed = first := h.all rfl
  subst hfirst
  refine ⟨(List.prefix_append_right_inj _).mpr h'.order, fun hok => ?_, h'.free⟩
  have hall : closed' = next := h'.all hok
  rw [hall]

theorem Closes.stopped {k : Kernel} {first closed : List Closing} {e : IoError}
    (h : Closes k first (.error e, closed)) (next : List Closing) :
    Closes k (first ++ next) (.error e, closed) := by
  refine ⟨h.order.trans (List.prefix_append _ _), fun hok => (by cases hok), fun hnone => ?_⟩
  exact absurd (h.free hnone) (by simp)

/-- The leases of a stage and of a volume's mounts, in the order they were made. -/
def made (filesystems : List StageFilesystem) (points : List (StageFilesystem × Vfs.Mount Text)) :
    List Closing :=
  filesystems.map (fun filesystem => .stage filesystem.path) ++
    (.root :: points.map fun point => .child point.1.path)

def sampleBase : Plan.ImageRef := .stage ⟨['b', 'a', 's', 'e'], by decide⟩

/-- A volume with nothing but its root. -/
def bareVolume : View := ⟨[], fun place => if place.path = [] then some .directory else none⟩

end Conglobate.Storage.StageMounts
