import Mathlib.Init

/- Pre- and postconditions of programs that change a state and may fail on the way.

   A program runs from a state and ends in one, with a result or with an error; a failure
   does not undo what was done before it. `Triple P x Q E` says that from a state with `P`
   it ends in a result and a state with `Q`, or in an error and a state with `E`. What
   holds between the first state and the last is said with the first one fixed. -/
namespace Conglobate

abbrev Effect (σ ε α : Type) : Type := EStateM ε σ α

namespace Effect

variable {σ ε α β γ : Type}

def Triple (P : σ → Prop) (x : Effect σ ε α) (Q : α → σ → Prop) (E : ε → σ → Prop) : Prop :=
  ∀ s, P s → (∀ a s', x s = .ok a s' → Q a s') ∧ ∀ e s', x s = .error e s' → E e s'

/-- A result that was computed without the state. -/
def lift (r : Except ε α) : Effect σ ε α := fun s =>
  match r with
  | .ok a => .ok a s
  | .error e => .error e s

/-- How a run ends, as a value. -/
def attempt {ε' : Type} (x : Effect σ ε α) : Effect σ ε' (Except ε α) := fun s =>
  match x s with
  | .ok a s' => .ok (.ok a) s'
  | .error e s' => .ok (.error e) s'

/-- Whether a run ended in a result. -/
def succeeds : EStateM.Result ε σ α → Bool
  | .ok _ _ => true
  | .error _ _ => false

theorem exists_of_succeeds {r : EStateM.Result ε σ α} (h : succeeds r = true) :
    ∃ a s, r = .ok a s := by
  cases r with
  | ok a s => exact ⟨a, s, rfl⟩
  | error e s => cases h

theorem bind_eq_ok {x : Effect σ ε α} {f : α → Effect σ ε β} {b : β} {s s' : σ} :
    (x >>= f) s = .ok b s' ↔ ∃ a mid, x s = .ok a mid ∧ f a mid = .ok b s' := by
  show EStateM.bind x f s = .ok b s' ↔ _
  unfold EStateM.bind
  cases x s with
  | ok a mid =>
    refine ⟨fun h => ⟨a, mid, rfl, h⟩, fun h => ?_⟩
    obtain ⟨a', mid', heq, h⟩ := h
    cases heq
    exact h
  | error e mid =>
    refine iff_of_false (fun h => by cases h) (fun h => ?_)
    obtain ⟨a, mid', heq, -⟩ := h
    cases heq

theorem bind_of_ok {x : Effect σ ε α} {f : α → Effect σ ε β} {a : α} {s mid : σ}
    (h : x s = .ok a mid) :
    (x >>= f) s = f a mid := by
  show EStateM.bind x f s = _
  rw [EStateM.bind, h]

theorem get_bind {f : σ → Effect σ ε β} {s : σ} : (get >>= f) s = f s s := rfl

theorem modify_bind {g : σ → σ} {f : Unit → Effect σ ε β} {s : σ} :
    (modify g >>= f) s = f () (g s) := rfl

theorem lift_of_ok {r : Except ε α} {a : α} {s : σ} (h : r = .ok a) :
    (lift r : Effect σ ε α) s = .ok a s := by
  rw [h]
  rfl

theorem map_eq_ok {x : Effect σ ε α} {f : α → β} {b : β} {s s' : σ} :
    (f <$> x) s = .ok b s' ↔ ∃ a, x s = .ok a s' ∧ f a = b := by
  show EStateM.map f x s = .ok b s' ↔ _
  unfold EStateM.map
  cases x s with
  | ok a mid => simp [and_assoc, and_comm]
  | error e mid => simp

theorem bind_eq_error {x : Effect σ ε α} {f : α → Effect σ ε β} {e : ε} {s s' : σ} :
    (x >>= f) s = .error e s' ↔ x s = .error e s' ∨ ∃ a mid, x s = .ok a mid ∧
      f a mid = .error e s' := by
  show EStateM.bind x f s = .error e s' ↔ _
  unfold EStateM.bind
  cases hx : x s with
  | ok a mid =>
    refine ⟨fun h => .inr ⟨a, mid, rfl, h⟩, fun h => ?_⟩
    obtain h | ⟨a', mid', heq, h⟩ := h
    · cases h
    · cases heq
      exact h
  | error e' mid =>
    refine ⟨fun h => .inl ?_, fun h => ?_⟩
    · cases h
      rfl
    · obtain h | ⟨a, mid', heq, -⟩ := h
      · cases h
        rfl
      · cases heq

namespace Triple

variable {P P' : σ → Prop} {Q Q' : α → σ → Prop} {E E' : ε → σ → Prop}

theorem imp {x : Effect σ ε α} (h : Triple P x Q E) (hP : ∀ s, P' s → P s)
    (hQ : ∀ a s, Q a s → Q' a s) (hE : ∀ e s, E e s → E' e s) : Triple P' x Q' E' := by
  intro s hs
  obtain ⟨hok, herror⟩ := h s (hP s hs)
  exact ⟨fun a s' hrun => hQ a s' (hok a s' hrun), fun e s' hrun => hE e s' (herror e s' hrun)⟩

/-- A fact about the first state alone. -/
theorem of_state {x : Effect σ ε α} (h : ∀ s, P s → Triple (fun s' => s' = s) x Q E) :
    Triple P x Q E :=
  fun s hs => h s hs s rfl

theorem pure {a : α} (h : ∀ s, P s → Q a s) : Triple P (pure a : Effect σ ε α) Q E := by
  intro s hs
  refine ⟨fun b s' hrun => ?_, fun e s' hrun => by cases hrun⟩
  cases hrun
  exact h s hs

theorem throw {e : ε} (h : ∀ s, P s → E e s) : Triple P (throw e : Effect σ ε α) Q E := by
  intro s hs
  refine ⟨fun b s' hrun => (by cases hrun), fun e' s' hrun => ?_⟩
  cases hrun
  exact h s hs

theorem lift {r : Except ε α} (hok : ∀ a s, r = .ok a → P s → Q a s)
    (herror : ∀ e s, r = .error e → P s → E e s) :
    Triple P (Effect.lift r) Q E := by
  intro s hs
  cases r with
  | ok a =>
    refine ⟨fun b s' hrun => ?_, fun e s' hrun => by cases hrun⟩
    cases hrun
    exact hok a s rfl hs
  | error e =>
    refine ⟨fun b s' hrun => (by cases hrun), fun e' s' hrun => ?_⟩
    cases hrun
    exact herror e s rfl hs

theorem get {Q : σ → σ → Prop} (h : ∀ s, P s → Q s s) : Triple P (get : Effect σ ε σ) Q E := by
  intro s hs
  refine ⟨fun b s' hrun => ?_, fun e s' hrun => by cases hrun⟩
  cases hrun
  exact h s hs

theorem modify {f : σ → σ} {Q : Unit → σ → Prop} (h : ∀ s, P s → Q () (f s)) :
    Triple P (modify f : Effect σ ε Unit) Q E := by
  intro s hs
  refine ⟨fun b s' hrun => ?_, fun e s' hrun => by cases hrun⟩
  cases hrun
  exact h s hs

theorem set {s₀ : σ} {Q : Unit → σ → Prop} (h : ∀ s, P s → Q () s₀) :
    Triple P (set s₀ : Effect σ ε Unit) Q E := by
  intro s hs
  refine ⟨fun b s' hrun => ?_, fun e s' hrun => by cases hrun⟩
  cases hrun
  exact h s hs

/-- Another error for the same failure. -/
theorem adaptExcept {ε' : Type} {f : ε → ε'} {x : Effect σ ε α} {E' : ε' → σ → Prop}
    (hx : Triple P x Q fun e => E' (f e)) : Triple P
    (EStateM.adaptExcept f x : Effect σ ε' α) Q E' := by
  intro s hs
  obtain ⟨hok, herror⟩ := hx s hs
  unfold EStateM.adaptExcept
  cases hrun : x s with
  | ok a mid =>
    refine ⟨fun b s' heq => ?_, fun e s' heq => by cases heq⟩
    cases heq
    exact hok a mid hrun
  | error e mid =>
    refine ⟨fun b s' heq => (by cases heq), fun e' s' heq => ?_⟩
    cases heq
    exact herror e mid hrun

theorem attempt {ε' : Type} {x : Effect σ ε α} {E' : ε' → σ → Prop} (hx : Triple P x Q E) :
    Triple P (Effect.attempt x : Effect σ ε' _)
      (fun r s => (∀ a, r = .ok a → Q a s) ∧ ∀ e, r = .error e → E e s) E' := by
  intro s hs
  obtain ⟨hok, herror⟩ := hx s hs
  unfold Effect.attempt
  cases hrun : x s with
  | ok a mid =>
    refine ⟨fun b s' heq => ?_, fun e s' heq => (by cases heq)⟩
    cases heq
    refine ⟨fun a' ha' => ?_, fun e he => (by cases he)⟩
    cases ha'
    exact hok a mid hrun
  | error e mid =>
    refine ⟨fun b s' heq => ?_, fun e' s' heq => (by cases heq)⟩
    cases heq
    refine ⟨fun a ha => (by cases ha), fun e' he' => ?_⟩
    cases he'
    exact herror e mid hrun

/-- **One program after the other.** -/
theorem bind {x : Effect σ ε α} {f : α → Effect σ ε β} {Q : α → σ → Prop} {R : β → σ → Prop}
    (hx : Triple P x Q E) (hf : ∀ a, Triple (Q a) (f a) R E) : Triple P (x >>= f) R E := by
  intro s hs
  obtain ⟨hok, herror⟩ := hx s hs
  refine ⟨fun b s' hrun => ?_, fun e s' hrun => ?_⟩
  · obtain ⟨a, mid, hfirst, hrest⟩ := bind_eq_ok.mp hrun
    exact (hf a mid (hok a mid hfirst)).1 b s' hrest
  · obtain hfirst | ⟨a, mid, hfirst, hrest⟩ := bind_eq_error.mp hrun
    · exact herror e s' hfirst
    · exact (hf a mid (hok a mid hfirst)).2 e s' hrest

theorem ite {p : Prop} [Decidable p] {x y : Effect σ ε α} (hx : p → Triple P x Q E)
    (hy : ¬ p → Triple P y Q E) :
    Triple P (if p then x else y) Q E := by
  by_cases hp : p
  · rw [if_pos hp]
    exact hx hp
  · rw [if_neg hp]
    exact hy hp

/-- **A loop under an invariant** of the list done so far. -/
theorem foldlM {f : β → γ → Effect σ ε β} {l : List γ} {b : β} (Inv : List γ → β → σ → Prop)
    (hstep : ∀ front c rest b, l = front ++ c :: rest →
    Triple (Inv front b) (f b c) (Inv (front ++ [c])) E) :
    Triple (Inv [] b) (l.foldlM f b) (Inv l) E := by
  have hsuffix : ∀ rest front b, l = front ++ rest →
      Triple (Inv front b) (rest.foldlM f b) (Inv l) E := by
    intro rest
    induction rest with
    | nil =>
      intro front b hl
      rw [hl, List.append_nil]
      exact pure fun s hs => hs
    | cons c rest ih =>
      intro front b hl
      rw [List.foldlM_cons]
      exact bind (hstep front c rest b hl) fun b' => ih (front ++ [c]) b'
        (by rw [hl, List.append_assoc]; rfl)
  exact hsuffix l [] b rfl

theorem forM {f : γ → Effect σ ε Unit} {l : List γ} (Inv : List γ → σ → Prop)
    (hstep : ∀ front c rest, l = front ++ c :: rest →
    Triple (Inv front) (f c) (fun _ => Inv (front ++ [c])) E) :
    Triple (Inv []) (l.forM f) (fun _ => Inv l) E := by
  have hsuffix : ∀ rest front, l = front ++ rest →
      Triple (Inv front) (rest.forM f) (fun _ => Inv l) E := by
    intro rest
    induction rest with
    | nil =>
      intro front hl
      rw [hl, List.append_nil]
      exact pure fun s hs => hs
    | cons c rest ih =>
      intro front hl
      exact bind (hstep front c rest hl) fun _ => ih (front ++ [c])
        (by rw [hl, List.append_assoc]; rfl)
  exact hsuffix l [] rfl

end Triple

end Effect

end Conglobate
