import Conglobate.Lib.OrdMap
import Mathlib.Data.Set.Function

/- Stores that keep each content under a name made from it.

   What such a store holds is a set of contents (`Holds`). Writing adds one to the
   set and removing by name takes one away, as long as the contents in question have
   distinct names (`insert`, `erase`): a content that is written twice is there once,
   and a removal takes it from everyone who had written it. -/
namespace Conglobate.ContentStore

variable {κ β : Type} [LinearOrder κ] {name : β → κ} {s : OrdMap κ β} {contents : Set β} {b : β}

/-- Exactly these contents, each under its name. -/
def Holds (name : β → κ) (s : OrdMap κ β) (contents : Set β) : Prop :=
  ∀ k v, s.get? k = some v ↔ v ∈ contents ∧ k = name v

namespace Holds

theorem empty : Holds name OrdMap.empty ∅ := by
  intro k v
  simp

/-- What is held is found under its name. -/
theorem get? (h : Holds name s contents) (hb : b ∈ contents) :
    s.get? (name b) = some b := (h _ _).mpr ⟨hb, rfl⟩

theorem contains (h : Holds name s contents)
    (hdistinct : Set.InjOn name (Insert.insert b contents)) :
    s.contains (name b) = true ↔ b ∈ contents := by
  rw [OrdMap.contains, Option.isSome_iff_exists]
  constructor
  · rintro ⟨v, hv⟩
    obtain ⟨hmem, hname⟩ := (h _ _).mp hv
    rwa [hdistinct (Set.mem_insert b _) (Set.mem_insert_of_mem b hmem) hname]
  · intro hb
    exact ⟨b, h.get? hb⟩

/-- **Writing a content** adds it. -/
theorem insert (h : Holds name s contents) (hdistinct : Set.InjOn name (Insert.insert b contents)) :
    Holds name (s.insert (name b) b) (Insert.insert b contents) := by
  intro k v
  rw [OrdMap.get?_insert, Set.mem_insert_iff]
  by_cases hk : k = name b
  · rw [if_pos hk, Option.some.injEq]
    constructor
    · rintro rfl
      exact ⟨.inl rfl, hk⟩
    · rintro ⟨hv, hname⟩
      exact hdistinct (Set.mem_insert b _) hv (hk.symm.trans hname)
  · rw [if_neg hk, h k v]
    constructor
    · rintro ⟨hv, hname⟩
      exact ⟨.inr hv, hname⟩
    · rintro ⟨hv, hname⟩
      refine ⟨hv.resolve_left (fun heq => ?_), hname⟩
      exact hk (heq ▸ hname)

/-- **Removing a content by its name** takes it away, and no other. -/
theorem erase (h : Holds name s contents) (hdistinct : Set.InjOn name (Insert.insert b contents)) :
    Holds name (s.erase (name b)) (contents \ {b}) := by
  intro k v
  rw [OrdMap.get?_erase, Set.mem_sdiff, Set.mem_singleton_iff]
  by_cases hk : k = name b
  · rw [if_pos hk]
    constructor
    · intro hnone
      cases hnone
    · rintro ⟨⟨hv, hother⟩, hname⟩
      exact absurd (hdistinct (Set.mem_insert_of_mem b hv) (Set.mem_insert b _)
        (hname.symm.trans hk)) hother
  · rw [if_neg hk, h k v]
    constructor
    · rintro ⟨hv, hname⟩
      refine ⟨⟨hv, fun heq => ?_⟩, hname⟩
      exact hk (heq ▸ hname)
    · rintro ⟨⟨hv, -⟩, hname⟩
      exact ⟨hv, hname⟩

theorem congr {other : Set β} (h : Holds name s contents) (hsame : contents = other) :
    Holds name s other := hsame ▸ h

end Holds

end Conglobate.ContentStore
