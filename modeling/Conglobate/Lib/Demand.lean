import Conglobate.Lib.Flow

/- Computations over data that is fetched on demand.

   A computation over data of which some is missing stops with an error that says what it
   lacks. It is as good as the computation over all of the data if it stops so, or has the
   same outcome (`Upto`). That is kept by whatever computations are built with, so it is
   shown of a program by showing it of each look at the data. -/
namespace Conglobate

section
variable {ε ε' α β σ : Type} {lacks : ε → Prop}

/-- The first computation lacks something, or has the outcome of the second. -/
def Upto (lacks : ε → Prop) (x y : Except ε α) : Prop := (∃ e, lacks e ∧ x = .error e) ∨ x = y

namespace Upto

theorem refl (x : Except ε α) : Upto lacks x x := .inr rfl

theorem lack {e : ε} (h : lacks e) (y : Except ε α) : Upto lacks (.error e) y := .inl ⟨e, h, rfl⟩

/-- A computation with a result lacks nothing. -/
theorem result {x y : Except ε α} (h : Upto lacks x y) {a : α} (hx : x = .ok a) : y = .ok a := by
  obtain ⟨e, -, he⟩ | heq := h
  · rw [hx] at he
    cases he
  · rw [← heq, hx]

theorem bind {x y : Except ε α} {f g : α → Except ε β} (h : Upto lacks x y)
    (hf : ∀ a, x = .ok a → Upto lacks (f a) (g a)) :
    Upto lacks (x >>= f) (y >>= g) := by
  obtain ⟨e, he, rfl⟩ | rfl := h
  · exact lack he _
  · cases x with
    | error e => exact refl _
    | ok a => exact hf a rfl

theorem map {x y : Except ε α} (f : α → β) (h : Upto lacks x y) :
    Upto lacks (f <$> x) (f <$> y) := by
  obtain ⟨e, he, rfl⟩ | rfl := h
  · exact lack he _
  · exact refl _

/-- **Folds step by step**, under an invariant of the first one's states. -/
theorem foldlM {f g : σ → α → Except ε σ} {l : List α} {s : σ} (Inv : σ → Prop) (hinit : Inv s)
    (hstep : ∀ a ∈ l, ∀ t, Inv t → Upto lacks (f t a) (g t a) ∧ ∀ t', f t a = .ok t' → Inv t') :
    Upto lacks (l.foldlM f s) (l.foldlM g s) ∧ ∀ t, l.foldlM f s = .ok t → Inv t := by
  induction l generalizing s with
  | nil =>
    refine ⟨refl _, fun t ht => ?_⟩
    cases ht
    exact hinit
  | cons a rest ih =>
    obtain ⟨hfirst, hkept⟩ := hstep a List.mem_cons_self s hinit
    have hrest : ∀ t, f s a = .ok t → _ :=
      fun t ht => ih (hkept t ht) fun b hb => hstep b (List.mem_cons_of_mem a hb)
    rw [List.foldlM_cons, List.foldlM_cons]
    refine ⟨hfirst.bind fun t ht => (hrest t ht).1, fun t ht => ?_⟩
    obtain ⟨mid, hmid, ht⟩ := except_bind_eq_ok.mp ht
    exact (hrest mid hmid).2 t ht

end Upto

end

end Conglobate
