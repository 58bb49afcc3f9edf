import Conglobate.Lib.File
import Mathlib.Data.List.Forall2

/- Loops that may return early. A source loop `for a in xs { body }` whose body
   can fail with `?` or `return` is `each`: a fold over `xs` that stops at the
   first failure or return. Two rules reason about it without unfolding it:
   `each_partial` derives what a finished loop says from what one round
   preserves, and `each_total` shows a loop finishes when no round fails. Both
   index the invariant by the number of rounds done. -/
namespace Conglobate

/-- What one round of a loop decides: return from the function, or go on. -/
inductive Flow (ρ σ : Type*) where
  | done (r : ρ)
  | next (s : σ)
  deriving DecidableEq, Repr

namespace Flow

variable {ε α ρ σ : Type*}

/-- `for a in xs` over the locals `s`. -/
def each (body : σ → α → Except ε (Flow ρ σ)) : σ → List α → Except ε (Flow ρ σ)
  | s, [] => .ok (.next s)
  | s, a :: rest =>
    match body s a with
    | .error e => .error e
    | .ok (.done r) => .ok (.done r)
    | .ok (.next s') => each body s' rest

/-- A round returned as `Post` says, or went on as `Next` says. -/
def Meets (Post : ρ → Prop) (Next : σ → Prop) : Flow ρ σ → Prop
  | .done r => Post r
  | .next s => Next s

/-- **Partial correctness.** If one round keeps the invariant, a loop that runs
    out ends in it, and a loop that returns does so from a round begun in it. -/
theorem each_partial {f : σ → α → Except ε (Flow ρ σ)} (Inv : Nat → σ → Prop) {l : List α} {s : σ}
    (hinit : Inv 0 s)
    (hstep : ∀ i (h : i < l.length) t t', Inv i t → f t l[i] = .ok (.next t') → Inv (i + 1) t') :
    (∀ s', each f s l = .ok (.next s') → Inv l.length s') ∧
    (∀ r, each f s l = .ok (.done r) →
      ∃ i, ∃ h : i < l.length, ∃ t, Inv i t ∧ f t l[i] = .ok (.done r)) := by
  induction l generalizing s Inv with
  | nil =>
    refine ⟨?_, ?_⟩
    · intro s' h
      simp only [each, Except.ok.injEq, Flow.next.injEq] at h
      exact h ▸ hinit
    · intro r h
      simp [each] at h
  | cons a rest ih =>
    cases hb : f s a with
    | error e => simp [each, hb]
    | ok o =>
      cases o with
      | done r =>
        refine ⟨by simp [each, hb], ?_⟩
        intro r' h
        simp only [each, hb, Except.ok.injEq, Flow.done.injEq] at h
        exact ⟨0, by simp, s, hinit, by rw [List.getElem_cons_zero, hb, h]⟩
      | next s' =>
        have h1 : Inv 1 s' := hstep 0 (by simp) s s' hinit (by simpa using hb)
        obtain ⟨hn, hd⟩ := ih (fun i => Inv (i + 1)) h1
          (fun i h t t' hi hbody => hstep (i + 1) (by simpa using h) t t' hi (by simpa using hbody))
        refine ⟨?_, ?_⟩
        · intro t h
          simp only [each, hb] at h
          exact hn t h
        · intro r h
          simp only [each, hb] at h
          obtain ⟨i, hi, t, hinv, hbody⟩ := hd r h
          exact ⟨i + 1, by simpa using hi, t, hinv, by simpa using hbody⟩

/-- **Total correctness.** If every round begun in the invariant returns well or
    keeps the invariant, the loop returns well or runs out in the invariant. -/
theorem each_total {f : σ → α → Except ε (Flow ρ σ)} (Inv : Nat → σ → Prop) (Post : ρ → Prop)
    {l : List α} {s : σ} (hinit : Inv 0 s)
    (hstep : ∀ i (h : i < l.length) t, Inv i t →
      (∃ r, f t l[i] = .ok (.done r) ∧ Post r) ∨ ∃ t', f t l[i] = .ok (.next t') ∧ Inv (i + 1) t') :
    (∃ r, each f s l = .ok (.done r) ∧ Post r) ∨
      ∃ s', each f s l = .ok (.next s') ∧ Inv l.length s' := by
  induction l generalizing s Inv with
  | nil => exact .inr ⟨s, rfl, hinit⟩
  | cons a rest ih =>
    rcases hstep 0 (by simp) s hinit with ⟨r, hb, hp⟩ | ⟨s', hb, h1⟩
    · rw [List.getElem_cons_zero] at hb
      exact .inl ⟨r, by simp [each, hb], hp⟩
    · rw [List.getElem_cons_zero] at hb
      simp only [each, hb]
      exact ih (fun i => Inv (i + 1)) h1
        (fun i h t hi => by
          have := hstep (i + 1) (by simpa using h) t hi
          rwa [List.getElem_cons_succ] at this)

/-- **A loop without returns, followed exactly.** If round `i`, begun in state `st i`,
    succeeds just when `good i` and then in state `st (i + 1)`, the loop succeeds
    just when every round is good, in the last state. -/
theorem foldlM_eq_ok {f : σ → α → Except ε σ} {l : List α} (st : Nat → σ) (good : Nat → Prop)
    (hstep : ∀ i (h : i < l.length) t, f (st i) l[i] = .ok t ↔ good i ∧ t = st (i + 1)) (t : σ) :
    l.foldlM f (st 0) = .ok t ↔ (∀ i < l.length, good i) ∧ t = st l.length := by
  induction l generalizing st good with
  | nil =>
    rw [List.foldlM_nil]
    constructor
    · rintro ⟨⟩
      exact ⟨fun i hi => absurd hi (Nat.not_lt_zero i), rfl⟩
    · rintro ⟨-, rfl⟩
      rfl
  | cons a rest ih =>
    have h0 := hstep 0 (by simp)
    have hrest := ih (fun i => st (i + 1)) (fun i => good (i + 1))
      (fun i h t => hstep (i + 1) (by simpa using h) t)
    rw [List.foldlM_cons]
    constructor
    · intro h
      cases hfirst : f (st 0) a with
      | error e =>
        rw [hfirst] at h
        cases h
      | ok s =>
        rw [hfirst] at h
        obtain ⟨hgood, rfl⟩ := (h0 s).mp hfirst
        obtain ⟨hall, rfl⟩ := hrest.mp h
        refine ⟨?_, rfl⟩
        intro i hi
        cases i with
        | zero => exact hgood
        | succ i => exact hall i (by simpa using hi)
    · rintro ⟨hall, rfl⟩
      have hfirst := (h0 (st 1)).mpr ⟨hall 0 (by simp), rfl⟩
      rw [List.getElem_cons_zero] at hfirst
      rw [hfirst]
      exact hrest.mpr ⟨fun i hi => hall (i + 1) (by simpa using hi), rfl⟩

/-- **A fold that succeeds, by what it has done.** An invariant of the list done so far
    that every successful step keeps holds of the whole list at the end. -/
theorem foldlM_partial {f : σ → α → Except ε σ} {l : List α} {s t : σ} (Inv : List α → σ → Prop)
    (hinit : Inv [] s)
    (hstep : ∀ front a rest u u', l = front ++ a :: rest → Inv front u → f u a = .ok u' →
    Inv (front ++ [a]) u') (h : l.foldlM f s = .ok t) : Inv l t := by
  have hsuffix : ∀ rest front u, l = front ++ rest → Inv front u → rest.foldlM f u = .ok t →
      Inv l t := by
    intro rest
    induction rest with
    | nil =>
      intro front u hl hu hrun
      cases hrun
      rwa [hl, List.append_nil]
    | cons a rest ih =>
      intro front u hl hu hrun
      rw [List.foldlM_cons] at hrun
      cases ha : f u a with
      | error e =>
        rw [ha] at hrun
        cases hrun
      | ok u' =>
        rw [ha] at hrun
        exact ih (front ++ [a]) u' (by rw [hl, List.append_assoc]; rfl)
          (hstep front a rest u u' hl hu ha) hrun
  exact hsuffix l [] s rfl hinit h

/-- Folds whose steps agree on the list's elements. -/
theorem foldlM_congr {f g : σ → α → Except ε σ} {l : List α} {s : σ}
    (h : ∀ s, ∀ a ∈ l, f s a = g s a) :
    l.foldlM f s = l.foldlM g s := by
  induction l generalizing s with
  | nil => rfl
  | cons a rest ih =>
    rw [List.foldlM_cons, List.foldlM_cons, h s a List.mem_cons_self]
    cases g s a with
    | error e => rfl
    | ok s' => exact ih (fun s a ha => h s a (List.mem_cons_of_mem _ ha))

end Flow

/-! What a computation may fail with. -/

section Fails
variable {ε ε' α β : Type} {P : ε → Prop}

/-- Every failure of the computation satisfies `P`. -/
def Fails (P : ε → Prop) (x : Except ε α) : Prop := ∀ e, x = .error e → P e

namespace Fails

theorem ok (a : α) : Fails P (.ok a) := nofun

theorem error {e : ε} (h : P e) : Fails P (.error e : Except ε α) := by
  rintro _ ⟨⟩
  exact h

theorem bind {x : Except ε α} {f : α → Except ε β} (hx : Fails P x)
    (hf : ∀ a, x = .ok a → Fails P (f a)) :
    Fails P (x >>= f) := by
  cases x with
  | error e => exact error (hx e rfl)
  | ok a => exact hf a rfl

theorem map {x : Except ε α} (f : α → β) (hx : Fails P x) : Fails P (f <$> x) := by
  cases x with
  | error e => exact error (hx e rfl)
  | ok a => exact ok (f a)

theorem mapError {x : Except ε' α} {f : ε' → ε} (hx : ∀ e, x = .error e → P (f e)) :
    Fails P (x.mapError f) := by
  cases x with
  | error e => exact error (hx e rfl)
  | ok a => exact ok a

theorem foldlM {f : β → α → Except ε β} {l : List α} {b : β} (h : ∀ b a, a ∈ l → Fails P (f b a)) :
    Fails P (l.foldlM f b) := by
  induction l generalizing b with
  | nil => exact ok b
  | cons a rest ih =>
    rw [List.foldlM_cons]
    exact bind (h b a List.mem_cons_self) (fun b' _ => ih
      (fun b a ha => h b a (List.mem_cons_of_mem _ ha)))

/-- A fold whose steps may only fail so from an invariant they keep. -/
theorem foldlM_inv {f : β → α → Except ε β} {l : List α} {b : β} (Inv : List α → β → Prop)
    (hinit : Inv [] b) (hstep : ∀ front a rest c, l = front ++ a :: rest → Inv front c →
      Fails P (f c a) ∧ ∀ c', f c a = .ok c' → Inv (front ++ [a]) c') : Fails P (l.foldlM f b) := by
  have hsuffix : ∀ rest front c, l = front ++ rest → Inv front c → Fails P (rest.foldlM f c) := by
    intro rest
    induction rest with
    | nil => exact fun _ c _ _ => ok c
    | cons a rest ih =>
      intro front c hl hc
      obtain ⟨hfails, hnext⟩ := hstep front a rest c hl hc
      rw [List.foldlM_cons]
      exact bind hfails (fun c' hc' => ih (front ++ [a]) c' (by rw [hl, List.append_assoc]; rfl)
        (hnext c' hc'))
  exact hsuffix l [] b rfl hinit

theorem mapM {f : α → Except ε β} {l : List α} (h : ∀ a ∈ l, Fails P (f a)) :
    Fails P (l.mapM f) := by
  induction l with
  | nil => exact ok []
  | cons a rest ih =>
    rw [List.mapM_cons]
    exact bind (h a List.mem_cons_self) (fun b _ =>
      bind (ih (fun a ha => h a (List.mem_cons_of_mem _ ha))) (fun bs _ => ok (b :: bs)))

end Fails

/-- Every failure of the computation satisfies `P`, and every result `Q`. -/
def Ends (P : ε → Prop) (Q : α → Prop) (x : Except ε α) : Prop := Fails P x ∧ ∀ a, x = .ok a → Q a

namespace Ends

theorem ok {Q : α → Prop} {a : α} (h : Q a) : Ends P Q (.ok a) := by
  refine ⟨Fails.ok a, fun b hb => ?_⟩
  cases hb
  exact h

theorem error {Q : α → Prop} {e : ε} (h : P e) : Ends P Q (.error e) :=
  ⟨Fails.error h, fun b hb => by cases hb⟩

theorem of_fails {x : Except ε α} (h : Fails P x) :
    Ends P (fun _ => True) x := ⟨h, fun _ _ => trivial⟩

theorem bind {Q : α → Prop} {R : β → Prop} {x : Except ε α} {f : α → Except ε β} (hx : Ends P Q x)
    (hf : ∀ a, Q a → Ends P R (f a)) : Ends P R (x >>= f) := by
  cases x with
  | error e => exact error (hx.1 e rfl)
  | ok a => exact hf a (hx.2 a rfl)

theorem mapError {Q : α → Prop} {P' : ε' → Prop} {x : Except ε' α} {f : ε' → ε} (hx : Ends P' Q x)
    (hf : ∀ e, P' e → P (f e)) : Ends P Q (x.mapError f) := by
  cases x with
  | error e => exact error (hf e (hx.1 e rfl))
  | ok a => exact ok (hx.2 a rfl)

theorem imp {Q : α → Prop} {P' : ε → Prop} {R : α → Prop} {x : Except ε α} (h : Ends P Q x)
    (hP : ∀ e, P e → P' e) (hQ : ∀ a, Q a → R a) :
    Ends P' R x := ⟨fun e he => hP e (h.1 e he), fun a ha => hQ a (h.2 a ha)⟩

/-- **A fold under an invariant** of the list done so far, which also bounds its failures. -/
theorem foldlM_inv {σ : Type} {f : σ → α → Except ε σ} {l : List α} {s : σ}
    (Inv : List α → σ → Prop) (hinit : Inv [] s)
    (hstep : ∀ front a rest u, l = front ++ a :: rest → Inv front u →
    Ends P (Inv (front ++ [a])) (f u a)) :
    Ends P (Inv l) (l.foldlM f s) := by
  refine ⟨Fails.foldlM_inv Inv hinit hstep, fun t ht => ?_⟩
  exact Flow.foldlM_partial Inv hinit (fun front a rest u u' hl hu hf =>
    (hstep front a rest u hl hu).2 u' hf) ht

/-- **A loop under an invariant** of the rounds done so far: if a round begun in it fails only
    as `P` allows, returns only as `Post` does and otherwise keeps it, so does the loop. -/
theorem each {ρ σ : Type} {f : σ → α → Except ε (Flow ρ σ)} (Inv : Nat → σ → Prop) (Post : ρ → Prop)
    {l : List α} {s : σ} (hinit : Inv 0 s) (hstep : ∀ i (h : i < l.length) t, Inv i t →
      Ends P (Flow.Meets Post (Inv (i + 1))) (f t l[i])) :
    Ends P (Flow.Meets Post (Inv l.length)) (Flow.each f s l) := by
  induction l generalizing s Inv with
  | nil => exact ok hinit
  | cons a rest ih =>
    have hfirst := hstep 0 (by simp) s hinit
    rw [List.getElem_cons_zero] at hfirst
    rw [Flow.each]
    cases hb : f s a with
    | error e => exact error (hfirst.1 e hb)
    | ok o =>
      have ho := hfirst.2 o hb
      cases o with
      | done r => exact ok ho
      | next s' =>
        apply ih (fun i => Inv (i + 1)) ho
        intro i hi t ht
        have := hstep (i + 1) (by simpa using hi) t ht
        rwa [List.getElem_cons_succ] at this

/-- **A fold that follows another one.** Where the other fold succeeds, a relation that
    each of its steps carries over holds of the results. -/
theorem foldlM {σ τ : Type} {f : σ → α → Except ε σ} {g : τ → α → Except ε' τ} (R : σ → τ → Prop)
    (hstep : ∀ a s t t', R s t → g t a = .ok t' → Ends P (fun s' => R s' t') (f s a)) {l : List α}
    {s : σ} {t t' : τ} (hinit : R s t) (h : l.foldlM g t = .ok t') :
    Ends P (fun s' => R s' t') (l.foldlM f s) := by
  induction l generalizing s t with
  | nil =>
    cases h
    exact ok hinit
  | cons a rest ih =>
    rw [List.foldlM_cons] at h ⊢
    cases hg : g t a with
    | error e =>
      rw [hg] at h
      cases h
    | ok u =>
      rw [hg] at h
      exact bind (hstep a s t u hinit hg) (fun s' hs' => ih hs' h)

end Ends

end Fails

/-- A check of every element. -/
theorem except_forM_eq_ok {ε α : Type} {f : α → Except ε Unit} {l : List α} :
    l.forM f = .ok () ↔ ∀ a ∈ l, f a = .ok () := by
  induction l with
  | nil => exact iff_of_true rfl (List.forall_mem_nil _)
  | cons a rest ih =>
    rw [List.forall_mem_cons, ← ih]
    change (f a >>= fun _ => rest.forM f) = .ok () ↔ _
    cases f a with
    | error e => exact iff_of_false (fun h => by cases h) (fun h => by cases h.1)
    | ok u => exact (and_iff_right rfl).symm

/-- A list converted element by element. -/
theorem except_mapM_eq_ok {ε α β : Type} {f : α → Except ε β} {l : List α} {r : List β} :
    l.mapM f = .ok r ↔ List.Forall₂ (fun a b => f a = .ok b) l r := by
  induction l generalizing r with
  | nil =>
    rw [List.mapM_nil, List.forall₂_nil_left_iff]
    constructor
    · rintro ⟨⟩
      rfl
    · rintro rfl
      rfl
  | cons a rest ih =>
    rw [List.mapM_cons, except_bind_eq_ok, List.forall₂_cons_left_iff]
    constructor
    · rintro ⟨b, hb, h⟩
      obtain ⟨bs, hbs, h⟩ := except_bind_eq_ok.mp h
      cases h
      exact ⟨b, bs, hb, ih.mp hbs, rfl⟩
    · rintro ⟨b, bs, hb, hbs, rfl⟩
      refine ⟨b, hb, ?_⟩
      rw [ih.mpr hbs]
      rfl

/-- A list with every element converted. -/
theorem except_mapM_total {ε α β : Type} {f : α → Except ε β} {P : β → Prop} {l : List α}
    (h : ∀ a ∈ l, ∃ b, f a = .ok b ∧ P b) : ∃ r, l.mapM f = .ok r ∧ ∀ b ∈ r, P b := by
  induction l with
  | nil => exact ⟨[], rfl, fun b hb => absurd hb List.not_mem_nil⟩
  | cons a rest ih =>
    obtain ⟨⟨b, hb, hP⟩, hrest⟩ := List.forall_mem_cons.mp h
    obtain ⟨r, hr, hall⟩ := ih hrest
    refine ⟨b :: r, ?_, List.forall_mem_cons.mpr ⟨hP, hall⟩⟩
    rw [List.mapM_cons, hb, except_ok_bind, hr]
    rfl

end Conglobate
