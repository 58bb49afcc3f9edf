import Mathlib.Data.List.Basic

/- Splitting a sequence at a separator: at the first one, at the last one, or at
   every one. The two halves determine the sequence and where it is split, so a
   split is found by writing the sequence with its separator
   (`splitOnce_eq_some`, `rsplitOnce_eq_some`). -/
namespace Conglobate

variable {α : Type} [DecidableEq α]

/-- `split_once`: what is before and behind the first separator. -/
def splitOnce (sep : α) : List α → Option (List α × List α)
  | [] => none
  | c :: rest =>
    if c = sep then
      some ([], rest)
    else
      (splitOnce sep rest).map (fun p => (c :: p.1, p.2))

/-- `rsplit_once`: what is before and behind the last separator. -/
def rsplitOnce (sep : α) (l : List α) : Option (List α × List α) :=
  (splitOnce sep l.reverse).map (fun p => (p.2.reverse, p.1.reverse))

theorem splitOnce_eq_some {sep : α} {l a b : List α} :
    splitOnce sep l = some (a, b) ↔ l = a ++ sep :: b ∧ sep ∉ a := by
  induction l generalizing a b with
  | nil => simp [splitOnce]
  | cons c rest ih =>
    rw [splitOnce]
    by_cases hc : c = sep
    · rw [if_pos hc, hc]
      cases a with
      | nil => simp
      | cons d a =>
        simp only [Option.some.injEq, Prod.mk.injEq, List.cons_append, List.cons.injEq,
          List.mem_cons, not_or]
        refine iff_of_false (fun h => ?_) (fun h => h.2.1 h.1.1)
        cases h.1
    · rw [if_neg hc]
      cases a with
      | nil =>
        simp only [List.nil_append, List.cons.injEq, hc, false_and, iff_false]
        intro h
        obtain ⟨p, -, hp⟩ := Option.map_eq_some_iff.mp h
        cases hp
      | cons d a =>
        constructor
        · intro h
          obtain ⟨p, hp, heq⟩ := Option.map_eq_some_iff.mp h
          cases heq
          obtain ⟨hrest, hnot⟩ := ih.mp hp
          exact ⟨by rw [hrest]; rfl, by simp [hnot, Ne.symm hc]⟩
        · intro h
          obtain ⟨heq, hnot⟩ := h
          rw [List.cons_append, List.cons.injEq] at heq
          rw [List.mem_cons, not_or] at hnot
          rw [ih.mpr ⟨heq.2, hnot.2⟩, heq.1]
          rfl

theorem splitOnce_eq_none {sep : α} {l : List α} : splitOnce sep l = none ↔ sep ∉ l := by
  induction l with
  | nil => simp [splitOnce]
  | cons c rest ih =>
    rw [splitOnce]
    by_cases hc : c = sep
    · simp [hc]
    · rw [if_neg hc, Option.map_eq_none_iff, ih]
      simp [Ne.symm hc]

theorem rsplitOnce_eq_some {sep : α} {l a b : List α} :
    rsplitOnce sep l = some (a, b) ↔ l = a ++ sep :: b ∧ sep ∉ b := by
  have hsplit : rsplitOnce sep l = some (a, b) ↔ splitOnce sep l.reverse =
      some (b.reverse, a.reverse) := by
    rw [rsplitOnce]
    cases splitOnce sep l.reverse with
    | none => simp
    | some p => simp [Prod.ext_iff, List.reverse_eq_iff, and_comm]
  rw [hsplit, splitOnce_eq_some, List.mem_reverse, List.reverse_eq_iff]
  simp

theorem rsplitOnce_eq_none {sep : α} {l : List α} : rsplitOnce sep l = none ↔ sep ∉ l := by
  rw [rsplitOnce, Option.map_eq_none_iff, splitOnce_eq_none, List.mem_reverse]

/-- A separator in a first half is the first one of the whole. -/
theorem splitOnce_append {sep : α} {l a b : List α} (h : splitOnce sep l = some (a, b))
    (r : List α) :
    splitOnce sep (l ++ r) = some (a, b ++ r) := by
  obtain ⟨hl, hnot⟩ := splitOnce_eq_some.mp h
  refine splitOnce_eq_some.mpr ⟨?_, hnot⟩
  rw [hl, List.append_assoc, List.cons_append]

/-- What is before the last separator does not depend on a second half without one. -/
theorem rsplitOnce_append {sep : α} (l : List α) {r : List α} (hr : sep ∉ r) :
    rsplitOnce sep (l ++ r) = (rsplitOnce sep l).map (fun p => (p.1, p.2 ++ r)) := by
  cases h : rsplitOnce sep l with
  | none =>
    rw [Option.map_none, rsplitOnce_eq_none, List.mem_append, not_or]
    exact ⟨rsplitOnce_eq_none.mp h, hr⟩
  | some p =>
    obtain ⟨hl, hnot⟩ := rsplitOnce_eq_some.mp h
    refine rsplitOnce_eq_some.mpr ⟨?_, ?_⟩
    · rw [hl, List.append_assoc, List.cons_append]
    · rw [List.mem_append, not_or]
      exact ⟨hnot, hr⟩

/-- Behind the first separator, what is behind the last one is the end. -/
theorem rsplitOnce_suffix {sep : α} {a b x y : List α}
    (h : rsplitOnce sep (a ++ sep :: b) = some (x, y)) (ha : sep ∉ a) : ∃ c, b = c ++ y := by
  obtain ⟨hl, hy⟩ := rsplitOnce_eq_some.mp h
  rcases List.append_eq_append_iff.mp hl with ⟨c, -, hc⟩ | ⟨c, hc, hcb⟩
  · cases c with
    | nil => exact ⟨[], by simpa using hc⟩
    | cons d c => exact ⟨c ++ [sep], by simpa using (List.cons.inj hc).2⟩
  · cases c with
    | nil => exact ⟨[], by simpa using hcb.symm⟩
    | cons d c =>
      have hd : sep = d := (List.cons.inj hcb).1
      exact absurd (by simp [hc, hd]) ha

/-- What has no separator is put in front of the first part. -/
theorem splitOn_append_of_not_mem {sep : α} {l : List α} (h : sep ∉ l) (rest : List α) :
    ∃ head tail, rest.splitOn sep = head :: tail ∧ (l ++ rest).splitOn sep =
      (l ++ head) :: tail := by
  induction l with
  | nil =>
    obtain ⟨head, tail, hsplit⟩ := List.exists_cons_of_ne_nil (List.splitOn_ne_nil sep rest)
    exact ⟨head, tail, hsplit, hsplit⟩
  | cons c l ih =>
    rw [List.mem_cons, not_or] at h
    obtain ⟨head, tail, hsplit, hjoined⟩ := ih h.2
    refine ⟨head, tail, hsplit, ?_⟩
    rw [List.cons_append, List.splitOn_cons_eq_if_modifyHead,
      if_neg (by simpa using Ne.symm h.1), hjoined]
    rfl

/-- A part is of the sequence's elements, and has no separator. -/
theorem splitOn_part {sep : α} {l part : List α} (h : part ∈ l.splitOn sep) :
    sep ∉ part ∧ part ⊆ l := by
  induction l generalizing part with
  | nil =>
    rw [List.splitOn_nil, List.mem_singleton] at h
    rw [h]
    exact ⟨List.not_mem_nil, List.Subset.refl _⟩
  | cons c l ih =>
    rw [List.splitOn_cons_eq_if_modifyHead] at h
    split at h
    · obtain rfl | h := List.mem_cons.mp h
      · exact ⟨List.not_mem_nil, List.nil_subset _⟩
      · exact ⟨(ih h).1, List.subset_cons_of_subset c (ih h).2⟩
    · rename_i hc
      obtain ⟨head, tail, hsplit⟩ := List.exists_cons_of_ne_nil (List.splitOn_ne_nil sep l)
      rw [hsplit] at h ih
      obtain rfl | h := List.mem_cons.mp h
      · obtain ⟨hsep, hsub⟩ := ih List.mem_cons_self
        refine ⟨?_, List.cons_subset_cons c hsub⟩
        rw [List.mem_cons, not_or]
        exact ⟨fun heq => hc (by rw [heq, beq_self_eq_true]), hsep⟩
      · obtain ⟨hsep, hsub⟩ := ih (List.mem_cons_of_mem _ h)
        exact ⟨hsep, List.subset_cons_of_subset c hsub⟩

/-- Every element of a split sequence is the separator or in a part. -/
theorem mem_splitOn {c sep : α} {l : List α} (h : c ∈ l) :
    c = sep ∨ ∃ part ∈ l.splitOn sep, c ∈ part := by
  induction l with
  | nil => cases h
  | cons x l ih =>
    rw [List.splitOn, List.splitOnP_cons_eq_if_modifyHead]
    split
    · rename_i hx
      rcases List.mem_cons.mp h with rfl | h
      · exact .inl (by simpa using hx)
      · refine (ih h).imp id (fun hpart => ?_)
        obtain ⟨part, hp, hc⟩ := hpart
        exact ⟨part, List.mem_cons_of_mem _ hp, hc⟩
    · change _ ∨ ∃ part ∈ (l.splitOn sep).modifyHead (List.cons x), c ∈ part
      cases hsplit : l.splitOn sep with
      | nil => exact absurd hsplit (List.splitOnP_ne_nil _ _)
      | cons first parts =>
        rw [hsplit] at ih
        rw [List.modifyHead_cons]
        rcases List.mem_cons.mp h with rfl | h
        · exact .inr ⟨_, List.mem_cons_self, List.mem_cons_self⟩
        · rcases ih h with hc | ⟨part, hp, hc⟩
          · exact .inl hc
          · rcases List.mem_cons.mp hp with rfl | hp
            · exact .inr ⟨_, List.mem_cons_self, List.mem_cons_of_mem _ hc⟩
            · exact .inr ⟨part, List.mem_cons_of_mem _ hp, hc⟩

end Conglobate
