import Mathlib.Data.List.Basic
import Mathlib.Data.List.Induction
import Mathlib.Data.List.Nodup
import Mathlib.Data.List.Pairwise

/- Mount trees, and walking names through them.

   A mount is put on a place: a path in the files of another mount. A place has one
   mount on it at most, and a mount is put on no later one, so what is on top of a
   place is found in one pass over the mounts (`top`). A walk enters a name in the
   place it stands and goes to the top of it (`enter`); it is stuck at what is
   missing, in what is no directory, and at a dot-dot where it started.

   What is proved of a walk from a mount's root without dot-dots:
     1. behind a name, nothing is on top of where it stands (`At.uncovered`);
     2. in a mount's files it came by the place above (`At.back`), and to a mount's
        root from the place that mount is on (`At.into`);
     3. along a way with nothing on it, it stays in the mount (`At.within`), and
        ends on a mount put there (`At.onto`);
     4. its names are the ones its place is shown at (`At.shown`). -/
namespace Conglobate.Vfs

structure Place (ν : Type) where
  mount : Nat
  path : List ν
  deriving DecidableEq

structure Mount (ν : Type) where
  id : Nat
  on : Place ν
  deriving DecidableEq

inductive Kind where
  | directory
  | other
  deriving DecidableEq

structure Mounts (ν : Type) where
  /-- In an order in which they can have been attached. -/
  attached : List (Mount ν)
  dotdot : ν
  kind : Place ν → Option Kind
  ordered : attached.Pairwise (fun earlier later => earlier.on.mount ≠ later.id)
  apart : ∀ m ∈ attached, m.on.mount ≠ m.id
  single : attached.Pairwise (fun a b => a.id ≠ b.id ∧ a.on ≠ b.on)
  inner : ∀ m ∈ attached, ∀ q, q <+: m.on.path → q ≠ m.on.path → kind ⟨m.on.mount, q⟩ =
    some .directory
  placed : ∀ m ∈ attached, (kind m.on).isSome = true
  proper : ∀ m ∈ attached, dotdot ∉ m.on.path

namespace Mounts
variable {ν : Type} [DecidableEq ν]

/-- A place, or the root of the mount on it. -/
def cover (place : Place ν) (m : Mount ν) : Place ν := if m.on = place then ⟨m.id, []⟩ else place

/-- What is seen at a place. -/
def top (M : Mounts ν) (place : Place ν) : Place ν := M.attached.foldl cover place

/-- One name entered, from the last of the places come by. -/
def enter (M : Mounts ν) (trail : List (Place ν)) (name : ν) : Option (List (Place ν)) :=
  match trail with
  | [] => none
  | here :: back =>
    if M.kind here ≠ some .directory then none
    else if name = M.dotdot then if back = [] then none else some back
    else
      let next : Place ν := ⟨here.mount, here.path ++ [name]⟩
      if (M.kind next).isNone then none else some (M.top next :: trail)

def walk (M : Mounts ν) (start : Place ν) (names : List ν) :
    Option (List (Place ν)) := names.foldlM M.enter [start]

/-- The walk ends at a place. -/
def At (M : Mounts ν) (start : Place ν) (names : List ν) (place : Place ν) : Prop :=
  ∃ back, M.walk start names = some (place :: back)

/-- The names a mount's root has, seen from a mount below it. -/
inductive Shown (M : Mounts ν) (root : Nat) : Nat → List ν → Prop where
  | root : Shown M root root []
  | on {m : Mount ν} {names : List ν} : m ∈ M.attached → Shown M root m.on.mount names →
      Shown M root m.id (names ++ m.on.path)

/-! What is on top. -/

theorem foldl_cover (ms : List (Mount ν)) (place : Place ν) :
    ms.foldl cover place = place ∨ ∃ m ∈ ms, ms.foldl cover place = ⟨m.id, []⟩ ∧
      (m.on = place ∨ m.on.path = []) := by
  induction ms generalizing place with
  | nil => exact .inl rfl
  | cons m rest ih =>
    rw [List.foldl_cons]
    by_cases hon : m.on = place
    · have hcover : cover place m = ⟨m.id, []⟩ := if_pos hon
      rw [hcover]
      obtain heq | ⟨x, hx, heq, hxon⟩ := ih ⟨m.id, []⟩
      · exact .inr ⟨m, List.mem_cons_self, heq, .inl hon⟩
      · refine .inr ⟨x, List.mem_cons_of_mem _ hx, heq, .inr ?_⟩
        obtain hxon | hxon := hxon
        · rw [hxon]
        · exact hxon
    · have hcover : cover place m = place := if_neg hon
      rw [hcover]
      refine (ih place).imp id fun h => ?_
      obtain ⟨x, hx, h⟩ := h
      exact ⟨x, List.mem_cons_of_mem _ hx, h⟩

theorem foldl_cover_uncovered {ms : List (Mount ν)}
    (hordered : ms.Pairwise (fun earlier later => earlier.on.mount ≠ later.id))
    (hapart : ∀ m ∈ ms, m.on.mount ≠ m.id) (place : Place ν) :
    ∀ m ∈ ms, m.on ≠ ms.foldl cover place := by
  induction ms generalizing place with
  | nil => exact fun m hm => absurd hm List.not_mem_nil
  | cons m rest ih =>
    obtain ⟨hhead, hordered⟩ := List.pairwise_cons.mp hordered
    rw [List.forall_mem_cons, List.foldl_cons]
    refine ⟨?_, ih hordered (fun x hx => hapart x (List.mem_cons_of_mem _ hx)) _⟩
    intro heq
    obtain hstay | ⟨x, hx, hmoved, -⟩ := foldl_cover rest (cover place m)
    · by_cases hon : m.on = place
      · have hcover : cover place m = ⟨m.id, []⟩ := if_pos hon
        rw [hstay, hcover] at heq
        exact hapart m List.mem_cons_self (congrArg Place.mount heq)
      · have hcover : cover place m = place := if_neg hon
        rw [hstay, hcover] at heq
        exact hon heq
    · rw [hmoved] at heq
      exact hhead x hx (congrArg Place.mount heq)

/-- **Nothing is on what is on top.** -/
theorem top_uncovered (M : Mounts ν) (place : Place ν) : ∀ m ∈ M.attached, m.on ≠ M.top place :=
  foldl_cover_uncovered M.ordered M.apart place

theorem foldl_cover_of_uncovered {ms : List (Mount ν)} {place : Place ν}
    (h : ∀ m ∈ ms, m.on ≠ place) :
    ms.foldl cover place = place := by
  induction ms with
  | nil => rfl
  | cons m rest ih =>
    obtain ⟨hm, hrest⟩ := List.forall_mem_cons.mp h
    have hcover : cover place m = place := if_neg hm
    rw [List.foldl_cons, hcover, ih hrest]

theorem top_of_uncovered {M : Mounts ν} {place : Place ν} (h : ∀ m ∈ M.attached, m.on ≠ place) :
    M.top place = place :=
  foldl_cover_of_uncovered h

theorem foldl_cover_on {ms : List (Mount ν)}
    (hsingle : ms.Pairwise (fun a b => a.id ≠ b.id ∧ a.on ≠ b.on)) {m : Mount ν} (hm : m ∈ ms)
    (hfree : ∀ x ∈ ms, x.on ≠ ⟨m.id, []⟩) : ms.foldl cover m.on = ⟨m.id, []⟩ := by
  induction ms with
  | nil => cases hm
  | cons x rest ih =>
    obtain ⟨hhead, hsingle⟩ := List.pairwise_cons.mp hsingle
    have hrest := fun y hy => hfree y (List.mem_cons_of_mem _ hy)
    rw [List.foldl_cons]
    obtain rfl | hm := List.mem_cons.mp hm
    · have hcover : cover m.on m = ⟨m.id, []⟩ := if_pos rfl
      rw [hcover, foldl_cover_of_uncovered hrest]
    · have hcover : cover m.on x = m.on := if_neg (hhead m hm).2
      rw [hcover, ih hsingle hm hrest]

/-- A mount with nothing on its root is on top of the place it is on. -/
theorem top_on {M : Mounts ν} {m : Mount ν} (hm : m ∈ M.attached)
    (hfree : ∀ x ∈ M.attached, x.on ≠ ⟨m.id, []⟩) :
    M.top m.on = ⟨m.id, []⟩ := foldl_cover_on M.single hm hfree

theorem eq_of_id {M : Mounts ν} {m x : Mount ν} (hm : m ∈ M.attached) (hx : x ∈ M.attached)
    (h : m.id = x.id) : m = x := by
  by_contra hne
  have hids : (M.attached.map Mount.id).Nodup := List.pairwise_map.mpr (M.single.imp And.left)
  exact hne (List.inj_on_of_nodup_map hids hm hx h)

/-- **What is on top is shown** with the names of the place below. -/
theorem Shown.foldl {M : Mounts ν} {root : Nat} {ms : List (Mount ν)} (hms : ms ⊆ M.attached)
    {place : Place ν} {names : List ν} (h : M.Shown root place.mount names) :
    ∃ names', M.Shown root (ms.foldl cover place).mount names' ∧
      names' ++ (ms.foldl cover place).path = names ++ place.path := by
  induction ms generalizing place names with
  | nil => exact ⟨names, h, rfl⟩
  | cons m rest ih =>
    obtain ⟨hm, hrest⟩ := List.cons_subset.mp hms
    rw [List.foldl_cons]
    by_cases hon : m.on = place
    · have hcover : cover place m = ⟨m.id, []⟩ := if_pos hon
      subst hon
      have hid : M.Shown root (⟨m.id, []⟩ : Place ν).mount (names ++ m.on.path) := .on hm h
      obtain ⟨names', hshown, heq⟩ := ih hrest hid
      rw [hcover]
      exact ⟨names', hshown, by rw [heq, List.append_nil]⟩
    · have hcover : cover place m = place := if_neg hon
      rw [hcover]
      exact ih hrest h

omit [DecidableEq ν] in
theorem Shown.proper {M : Mounts ν} {root mount : Nat} {names : List ν}
    (h : M.Shown root mount names) : M.dotdot ∉ names := by
  induction h with
  | root => exact List.not_mem_nil
  | on hm _ ih =>
    rw [List.mem_append, not_or]
    exact ⟨ih, M.proper _ hm⟩

/-! Walks. -/

variable {M : Mounts ν} {start place : Place ν} {names : List ν} {name : ν}

theorem At.nil : M.At start [] place ↔ place = start := by
  constructor
  · intro h
    obtain ⟨back, h⟩ := h
    exact (List.cons.inj (Option.some.inj h)).1.symm
  · intro h
    exact ⟨[], by rw [h]; rfl⟩

/-- **One more name.** -/
theorem At.snoc (hname : name ≠ M.dotdot) :
    M.At start (names ++ [name]) place ↔
      ∃ here, M.At start names here ∧ M.kind here = some .directory ∧
        (M.kind ⟨here.mount, here.path ++ [name]⟩).isSome = true ∧
          M.top ⟨here.mount, here.path ++ [name]⟩ = place := by
  have hwalk : M.walk start (names ++ [name]) = (M.walk start names).bind fun trail =>
      M.enter trail name := by
    rw [walk, walk, List.foldlM_append]
    cases names.foldlM M.enter [start] with
    | none => rfl
    | some trail =>
      show (M.enter trail name >>= pure) = M.enter trail name
      rw [bind_pure]
  constructor
  · intro h
    obtain ⟨back, h⟩ := h
    rw [hwalk] at h
    obtain ⟨trail, htrail, henter⟩ := Option.bind_eq_some_iff.mp h
    cases trail with
    | nil => cases henter
    | cons here behind =>
      simp only [enter, if_neg hname] at henter
      split at henter
      · cases henter
      · rename_i hdir
        split at henter
        · cases henter
        · rename_i hsome
          rw [Option.isNone_iff_eq_none, ← ne_eq, ← Option.isSome_iff_ne_none] at hsome
          exact ⟨here, ⟨behind, htrail⟩, Decidable.of_not_not hdir, hsome,
            (List.cons.inj (Option.some.inj henter)).1⟩
  · intro h
    obtain ⟨here, ⟨behind, htrail⟩, hdir, hsome, htop⟩ := h
    refine ⟨here :: behind, ?_⟩
    have hnone : ¬ (M.kind ⟨here.mount, here.path ++ [name]⟩).isNone = true := by
      rw [Option.isNone_iff_eq_none, ← ne_eq, ← Option.isSome_iff_ne_none]
      exact hsome
    rw [hwalk, htrail, Option.bind_some, enter, if_neg (not_not.mpr hdir), if_neg hname]
    show (if _ then none else some (_ :: _)) = _
    rw [if_neg hnone, htop]

theorem At.uncovered (hname : name ≠ M.dotdot) (h : M.At start (names ++ [name]) place) :
    ∀ m ∈ M.attached, m.on ≠ place := by
  obtain ⟨here, -, -, -, htop⟩ := (At.snoc hname).mp h
  rw [← htop]
  exact M.top_uncovered _

/-- **Away from where it started**, nothing is on top of where a walk stands. -/
theorem At.uncovered_of_ne (hproper : M.dotdot ∉ names) (h : M.At start names place)
    (hne : place ≠ start) :
    ∀ m ∈ M.attached, m.on ≠ place := by
  obtain rfl | ⟨front, last, rfl⟩ := List.eq_nil_or_concat names
  · exact absurd (At.nil.mp h) hne
  · rw [List.concat_eq_append] at h hproper
    exact At.uncovered (fun heq => hproper (by simp [heq])) h

section
variable {root : Nat} (hproper : M.dotdot ∉ names)
include hproper

/-- **In a mount's files**, the walk came by the place above. -/
theorem At.back {mount : Nat} {path : List ν} (h : M.At ⟨root, []⟩ names ⟨mount, path ++ [name]⟩) :
    ∃ front, names = front ++ [name] ∧ M.At ⟨root, []⟩ front ⟨mount, path⟩ := by
  obtain rfl | ⟨front, last, rfl⟩ := List.eq_nil_or_concat names
  · exact absurd (congrArg Place.path (At.nil.mp h)) (by simp)
  · rw [List.concat_eq_append] at h hproper ⊢
    have hlast : last ≠ M.dotdot := fun heq => hproper (by simp [heq])
    obtain ⟨here, hhere, -, -, htop⟩ := (At.snoc hlast).mp h
    obtain hstay | ⟨m, -, hmoved, -⟩ := foldl_cover M.attached ⟨here.mount, here.path ++ [last]⟩
    · rw [top, hstay, Place.mk.injEq] at htop
      obtain ⟨rfl, hpath⟩ := htop
      obtain ⟨rfl, hname⟩ := List.append_inj' hpath rfl
      rw [List.singleton_inj.mp hname]
      exact ⟨front, rfl, hhere⟩
    · rw [top, hmoved, Place.mk.injEq] at htop
      exact absurd htop.2.symm (by simp)

/-- The same for every place above. -/
theorem At.above {mount : Nat} {above below : List ν}
    (h : M.At ⟨root, []⟩ names ⟨mount, above ++ below⟩) :
    ∃ front, names = front ++ below ∧ M.At ⟨root, []⟩ front ⟨mount, above⟩ := by
  induction below using List.reverseRecOn generalizing names with
  | nil => exact ⟨names, (List.append_nil _).symm, by rwa [List.append_nil] at h⟩
  | append_singleton below name ih =>
    rw [← List.append_assoc] at h
    obtain ⟨front, rfl, hfront⟩ := At.back hproper h
    obtain ⟨front', rfl, hfront'⟩ := ih (fun hmem => hproper (List.mem_append_left _ hmem)) hfront
    exact ⟨front', List.append_assoc _ _ _, hfront'⟩

/-- **To a mount's root**, the walk came from above the place that mount is on. -/
theorem At.into {m : Mount ν} {path : List ν} (hm : m ∈ M.attached)
    (hon : m.on.path = path ++ [name]) (hroot : m.id ≠ root)
    (h : M.At ⟨root, []⟩ names ⟨m.id, []⟩) : ∃ front, names = front ++ [name] ∧
    M.At ⟨root, []⟩ front ⟨m.on.mount, path⟩ := by
  obtain rfl | ⟨front, last, rfl⟩ := List.eq_nil_or_concat names
  · exact absurd (congrArg Place.mount (At.nil.mp h)) hroot
  · rw [List.concat_eq_append] at h hproper ⊢
    have hlast : last ≠ M.dotdot := fun heq => hproper (by simp [heq])
    obtain ⟨here, hhere, -, -, htop⟩ := (At.snoc hlast).mp h
    obtain hstay | ⟨x, hx, hmoved, hxon⟩ := foldl_cover M.attached ⟨here.mount, here.path ++ [last]⟩
    · rw [top, hstay, Place.mk.injEq] at htop
      exact absurd htop.2 (by simp)
    · rw [top, hmoved, Place.mk.injEq] at htop
      obtain rfl := eq_of_id hx hm htop.1
      obtain hxon | hxon := hxon
      · have hpath := congrArg Place.path hxon
        rw [hon] at hpath
        obtain ⟨rfl, hname⟩ := List.append_inj' hpath rfl
        rw [List.singleton_inj.mp hname]
        refine ⟨front, rfl, ?_⟩
        rw [hxon]
        exact hhere
      · rw [hon] at hxon
        exact absurd hxon (by simp)

/-- **A place is entered with the names it is shown at.** -/
theorem At.shown (h : M.At ⟨root, []⟩ names place) :
    ∃ above, M.Shown root place.mount above ∧ names = above ++ place.path := by
  induction names using List.reverseRecOn generalizing place with
  | nil =>
    rw [At.nil.mp h]
    exact ⟨[], .root, rfl⟩
  | append_singleton front last ih =>
    have hlast : last ≠ M.dotdot := fun heq => hproper (by simp [heq])
    obtain ⟨here, hhere, -, -, htop⟩ := (At.snoc hlast).mp h
    obtain ⟨above, habove, hfront⟩ := ih (fun hmem => hproper (List.mem_append_left _ hmem)) hhere
    have hnext : M.Shown root (⟨here.mount, here.path ++ [last]⟩ : Place ν).mount above := habove
    obtain ⟨above', hshown, heq⟩ := Shown.foldl (List.Subset.refl _) hnext
    rw [← top, htop] at hshown heq
    exact ⟨above', hshown, by rw [heq, hfront, List.append_assoc]⟩

end

/-- **Along a way with nothing on it**, the walk stays in the mount. -/
theorem At.within {m : Mount ν} (hm : m ∈ M.attached) (h : M.At start names ⟨m.on.mount, []⟩)
    (hfree : ∀ x ∈ M.attached, x.on.mount = m.on.mount → x.on.path <+: m.on.path →
    x.on.path ≠ m.on.path → x.on.path = []) {path : List ν} (hpath : path <+: m.on.path)
    (hne : path ≠ m.on.path) : M.At start (names ++ path) ⟨m.on.mount, path⟩ := by
  induction path using List.reverseRecOn with
  | nil =>
    rw [List.append_nil]
    exact h
  | append_singleton path name ih =>
    have hfront : path <+: m.on.path := (List.prefix_append path [name]).trans hpath
    have hfront' : path ≠ m.on.path := by
      intro heq
      have := hpath.length_le
      rw [← heq, List.length_append, List.length_singleton] at this
      omega
    have hname : name ≠ M.dotdot := by
      intro heq
      exact M.proper m hm (hpath.subset (by simp [heq]))
    rw [← List.append_assoc, At.snoc hname]
    refine ⟨_, ih hfront hfront', M.inner m hm path hfront hfront', ?_, top_of_uncovered ?_⟩
    · rw [M.inner m hm _ hpath hne]
      rfl
    · intro x hx heq
      have hempty := hfree x hx (by rw [heq]) (by rw [heq]; exact hpath) (by rw [heq]; exact hne)
      rw [heq] at hempty
      exact absurd hempty (by simp)

/-- **Onto a mount**: nothing on the way, and nothing on its root. -/
theorem At.onto {m : Mount ν} (hm : m ∈ M.attached) (h : M.At start names ⟨m.on.mount, []⟩)
    (hne : m.on.path ≠ [])
    (hfree : ∀ x ∈ M.attached, x.on.mount = m.on.mount → x.on.path <+: m.on.path →
    x.on.path ≠ m.on.path → x.on.path = []) (hroot : ∀ x ∈ M.attached, x.on ≠ ⟨m.id, []⟩) :
    M.At start (names ++ m.on.path) ⟨m.id, []⟩ := by
  obtain hnil | ⟨path, name, hpath⟩ := List.eq_nil_or_concat m.on.path
  · exact absurd hnil hne
  · rw [List.concat_eq_append] at hpath
    have hname : name ≠ M.dotdot := fun heq => M.proper m hm (by rw [hpath, heq]; simp)
    have hfront : path <+: m.on.path := by
      rw [hpath]
      exact List.prefix_append path [name]
    have hfront' : path ≠ m.on.path := by
      rw [hpath]
      exact fun heq => by simpa using congrArg List.length heq
    have hon : (⟨m.on.mount, path ++ [name]⟩ : Place ν) = m.on := by rw [← hpath]
    rw [hpath, ← List.append_assoc, At.snoc hname]
    refine ⟨_, h.within hm hfree hfront hfront', M.inner m hm path hfront hfront', ?_, ?_⟩
    · show (M.kind ⟨m.on.mount, path ++ [name]⟩).isSome = true
      rw [hon]
      exact M.placed m hm
    · show M.top ⟨m.on.mount, path ++ [name]⟩ = _
      rw [hon, top_on hm hroot]

/-! Mounts are no trees into themselves. -/

theorem idxOf_lt {m x : Mount ν} (hm : m ∈ M.attached) (hx : x ∈ M.attached)
    (h : m.on.mount = x.id) :
    M.attached.idxOf x < M.attached.idxOf m := by
  have hi := List.idxOf_lt_length_of_mem hm
  have hj := List.idxOf_lt_length_of_mem hx
  by_contra hle
  obtain hlt | heq := Nat.lt_or_eq_of_le (Nat.not_lt.mp hle)
  · have hpair := List.pairwise_iff_getElem.mp M.ordered _ _ hi hj hlt
    rw [List.getElem_idxOf, List.getElem_idxOf] at hpair
    exact hpair h
  · have hsame : m = x := by
      have hget := List.getElem_idxOf hi
      simp only [heq, List.getElem_idxOf] at hget
      exact hget.symm
    rw [← hsame] at h
    exact M.apart m hm h

/-- **The mount seen from is not itself shown** on what is below it. -/
theorem Shown.not_root {root : Nat} {m : Mount ν} {names : List ν} (hm : m ∈ M.attached)
    (h : M.Shown root m.on.mount names) :
    m.id ≠ root := by
  intro hroot
  have hbelow : ∀ x names, M.Shown root x names → x = root ∨ ∃ y ∈ M.attached, y.id = x ∧
      M.attached.idxOf m < M.attached.idxOf y := by
    intro x names hx
    induction hx with
    | root => exact .inl rfl
    | @on y names hy _ ih =>
      refine .inr ⟨y, hy, rfl, ?_⟩
      obtain hparent | ⟨z, hz, hid, hlt⟩ := ih
      · exact idxOf_lt hy hm (hparent.trans hroot.symm)
      · exact Nat.lt_trans hlt (idxOf_lt hy hz hid.symm)
  obtain hself | ⟨y, hy, hid, hlt⟩ := hbelow _ _ h
  · exact M.apart m hm (hself.trans hroot.symm)
  · exact absurd (idxOf_lt hm hy hid.symm) (by omega)

end Mounts

end Conglobate.Vfs
