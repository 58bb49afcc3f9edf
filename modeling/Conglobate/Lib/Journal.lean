import Mathlib.Init

/- Computations that keep a journal.

   A computation runs from the journal of the steps before it and enters its own,
   also where it fails: what was done before a failure stays on record. `Writes`
   relates how a computation ends to the steps it entered, whatever the steps before
   it; its rules follow the way a computation is built. -/
namespace Conglobate

abbrev Journal (E ε α : Type) : Type := EStateM ε (List E) α

namespace Journal

variable {E ε ε' α β : Type}

/-- One step, and what it came to. -/
def enter (event : E) (answer : Except ε α) : Journal E ε α := fun log =>
  match answer with
  | .ok a => .ok a (log ++ [event])
  | .error e => .error e (log ++ [event])

/-- How a computation ends, as a value. -/
def attempt (x : Journal E ε α) : Journal E ε' (Except ε α) := fun log =>
  match x log with
  | .ok a log' => .ok (.ok a) log'
  | .error e log' => .ok (.error e) log'

/-- A result that was computed before. -/
def lift (r : Except ε α) : Journal E ε α := fun log =>
  match r with
  | .ok a => .ok a log
  | .error e => .error e log

/-! Computations that succeed. -/

@[simp] theorem pure_eq_ok {a b : α} {log log' : List E} :
    (pure a : Journal E ε α) log = .ok b log' ↔ a = b ∧ log = log' := by
  show EStateM.Result.ok a log = .ok b log' ↔ _
  rw [EStateM.Result.ok.injEq]

@[simp] theorem bind_eq_ok {x : Journal E ε α} {f : α → Journal E ε β} {b : β} {log log' : List E} :
    (x >>= f) log = .ok b log' ↔ ∃ a mid, x log = .ok a mid ∧ f a mid = .ok b log' := by
  show EStateM.bind x f log = .ok b log' ↔ _
  unfold EStateM.bind
  cases x log with
  | ok a mid =>
    constructor
    · exact fun h => ⟨a, mid, rfl, h⟩
    · rintro ⟨a', mid', hx, h⟩
      cases hx
      exact h
  | error e mid =>
    refine iff_of_false (fun h => by cases h) (fun h => ?_)
    obtain ⟨a, mid', hx, _⟩ := h
    cases hx

theorem bind_of_ok {x : Journal E ε α} {f : α → Journal E ε β} {a : α} {log mid : List E}
    (h : x log = .ok a mid) :
    (x >>= f) log = f a mid := by
  show EStateM.bind x f log = _
  rw [EStateM.bind, h]

@[simp] theorem throw_ne_ok {e : ε} {a : α} {log log' : List E} :
    (throw e : Journal E ε α) log ≠ .ok a log' := by
  intro h
  cases h

@[simp] theorem map_eq_ok {x : Journal E ε α} {f : α → β} {b : β} {log log' : List E} :
    (f <$> x) log = .ok b log' ↔ ∃ a, x log = .ok a log' ∧ f a = b := by
  show EStateM.map f x log = .ok b log' ↔ _
  unfold EStateM.map
  cases x log with
  | ok a mid =>
    simp only [EStateM.Result.ok.injEq]
    constructor
    · exact fun h => ⟨a, ⟨rfl, h.2⟩, h.1⟩
    · rintro ⟨a', ⟨rfl, hmid⟩, hb⟩
      exact ⟨hb, hmid⟩
  | error e mid => simp

theorem enter_eq_ok {event : E} {answer : Except ε α} {a : α} {log log' : List E} :
    enter event answer log = .ok a log' ↔ answer = .ok a ∧ log' = log ++ [event] := by
  cases answer with
  | ok b => simp [enter, eq_comm]
  | error e => simp [enter]

theorem lift_eq_ok {r : Except ε α} {a : α} {log log' : List E} :
    lift r log = .ok a log' ↔ r = .ok a ∧ log' = log := by
  cases r with
  | ok b => simp [lift, eq_comm]
  | error e => simp [lift]

/-- An attempt that saw a success. -/
theorem attempt_eq_ok_ok {x : Journal E ε α} {a : α} {log log' : List E} :
    (attempt x : Journal E ε' _) log = .ok (.ok a) log' ↔ x log = .ok a log' := by
  unfold attempt
  cases x log with
  | ok b mid => simp
  | error e mid => simp

/-- What follows an attempt that succeeded. -/
theorem attempt_bind_of_ok {x : Journal E ε α} {f : Except ε α → Journal E ε' β} {a : α}
    {log mid : List E} (h : x log = .ok a mid) :
    (attempt x >>= f) log = f (.ok a) mid := bind_of_ok (attempt_eq_ok_ok.mpr h)

/-- What follows an attempt starts from a success or from a failure. -/
theorem attempt_bind_eq_ok {x : Journal E ε α} {f : Except ε α → Journal E ε' β} {b : β}
    {log log' : List E} :
    (attempt x >>= f) log = .ok b log' ↔
      (∃ a mid, x log = .ok a mid ∧ f (.ok a) mid = .ok b log') ∨
      ∃ e mid, x log = .error e mid ∧ f (.error e) mid = .ok b log' := by
  rw [bind_eq_ok]
  unfold attempt
  cases x log with
  | ok a mid => simp [and_assoc]
  | error e mid => simp [and_assoc]

/-- What follows an attempt that has to succeed. -/
theorem attempt_bind_eq_ok_of_error {x : Journal E ε α} {f : Except ε α → Journal E ε' β} {b : β}
    {log log' : List E} (h : ∀ e mid, f (.error e) mid ≠ .ok b log') :
    (attempt x >>= f) log = .ok b log' ↔ ∃ a mid, x log = .ok a mid ∧
      f (.ok a) mid = .ok b log' := by
  rw [attempt_bind_eq_ok]
  apply or_iff_left
  rintro ⟨e, mid, _, hf⟩
  exact h e mid hf

/-! What a computation enters. -/

/-- The end of a computation, with its journal. -/
def ending (r : Except ε α) (log : List E) : EStateM.Result ε (List E) α :=
  match r with
  | .ok a => .ok a log
  | .error e => .error e log

theorem ending_eq_ok {r : Except ε α} {a : α} {log log' : List E} :
    ending r log = .ok a log' ↔ r = .ok a ∧ log = log' := by
  cases r with
  | ok b => simp [ending]
  | error e => simp [ending]

/-- However the computation ends, it has entered steps that `Q` relates to that end. -/
def Writes (Q : Except ε α → List E → Prop) (x : Journal E ε α) : Prop :=
  ∀ log, ∃ r new, x log = ending r (log ++ new) ∧ Q r new

namespace Writes

variable {Q Q' : Except ε α → List E → Prop}

theorem imp {x : Journal E ε α} (h : Writes Q x) (hQ : ∀ r new, Q r new → Q' r new) :
    Writes Q' x := by
  intro log
  obtain ⟨r, new, hrun, hq⟩ := h log
  exact ⟨r, new, hrun, hQ r new hq⟩

theorem pure {a : α} (h : Q (.ok a) []) : Writes Q (pure a) :=
  fun log => ⟨.ok a, [], by rw [List.append_nil]; rfl, h⟩

theorem throw {e : ε} (h : Q (.error e) []) : Writes Q (throw e) :=
  fun log => ⟨.error e, [], by rw [List.append_nil]; rfl, h⟩

theorem lift {r : Except ε α} (h : Q r []) : Writes Q (lift r) := by
  intro log
  refine ⟨r, [], ?_, h⟩
  rw [List.append_nil]
  rfl

theorem enter {event : E} {answer : Except ε α} (h : Q answer [event]) :
    Writes Q (enter event answer) :=
  fun _ => ⟨answer, [event], rfl, h⟩

theorem bind {P : Except ε α → List E → Prop} {Q : Except ε β → List E → Prop} {x : Journal E ε α}
    {f : α → Journal E ε β} (hx : Writes P x)
    (herror : ∀ e new, P (.error e) new → Q (.error e) new)
    (hf : ∀ a new, P (.ok a) new → Writes (fun r next => Q r (new ++ next)) (f a)) :
    Writes Q (x >>= f) := by
  intro log
  obtain ⟨r, new, hrun, hp⟩ := hx log
  cases r with
  | error e =>
    refine ⟨.error e, new, ?_, herror e new hp⟩
    show EStateM.bind x f log = _
    rw [EStateM.bind, hrun]
    rfl
  | ok a =>
    obtain ⟨r, next, hnext, hq⟩ := hf a new hp (log ++ new)
    refine ⟨r, new ++ next, ?_, hq⟩
    show EStateM.bind x f log = _
    rw [EStateM.bind, hrun, ← List.append_assoc]
    exact hnext

/-- An attempt has what it attempts entered. -/
theorem attempt {P : Except ε α → List E → Prop} {x : Journal E ε α} (hx : Writes P x) :
    Writes (fun r new => ∃ s, r = .ok s ∧ P s new) (attempt x : Journal E ε' (Except ε α)) := by
  intro log
  obtain ⟨r, new, hrun, hp⟩ := hx log
  refine ⟨.ok r, new, ?_, r, rfl, hp⟩
  rw [Journal.attempt, hrun]
  cases r with
  | ok a => rfl
  | error e => rfl

end Writes

/-- Every step the computation enters satisfies `P`. -/
def Enters (P : E → Prop) (x : Journal E ε α) : Prop := Writes (fun _ new => ∀ e ∈ new, P e) x

namespace Enters

variable {P : E → Prop}

theorem imp {Q : E → Prop} {x : Journal E ε α} (h : Enters P x) (hQ : ∀ e, P e → Q e) :
    Enters Q x :=
  Writes.imp h (fun _ _ hnew e he => hQ e (hnew e he))

theorem pure (a : α) : Enters P (pure a : Journal E ε α) := Writes.pure (List.forall_mem_nil P)

theorem throw (e : ε) : Enters P (throw e : Journal E ε α) := Writes.throw (List.forall_mem_nil P)

theorem lift (r : Except ε α) : Enters P (lift r) := Writes.lift (List.forall_mem_nil P)

theorem enter {event : E} (h : P event) (answer : Except ε α) : Enters P (enter event answer) :=
  Writes.enter (List.forall_mem_singleton.mpr h)

theorem bind {x : Journal E ε α} {f : α → Journal E ε β} (hx : Enters P x)
    (hf : ∀ a, Enters P (f a)) :
    Enters P (x >>= f) := by
  refine Writes.bind hx (fun _ _ h => h) (fun a new hnew => ?_)
  exact Writes.imp (hf a) (fun _ next hnext => List.forall_mem_append.mpr ⟨hnew, hnext⟩)

theorem attempt {x : Journal E ε α} (hx : Enters P x) :
    Enters P (attempt x : Journal E ε' (Except ε α)) := by
  refine Writes.imp (Writes.attempt hx) (fun r new h => ?_)
  obtain ⟨_, _, hnew⟩ := h
  exact hnew

end Enters

/-! Computations whose steps an automaton takes. -/

section Automaton
variable {S : Type}

/-- Where an automaton is after some steps, if it takes them all. -/
def replay (next : S → E → Option S) (s : S) (steps : List E) : Option S := steps.foldlM next s

theorem replay_append (next : S → E → Option S) (s : S) (a b : List E) :
    replay next s (a ++ b) = (replay next s a).bind fun t => replay next t b := by
  rw [replay, List.foldlM_append]
  rfl

/-- However the computation ends, the automaton takes the steps it entered, to where `Q`
    relates to that end. -/
def Drives (next : S → E → Option S) (s : S) (Q : Except ε α → S → Prop) (x : Journal E ε α) :
    Prop :=
  Writes (fun r new => ∃ t, replay next s new = some t ∧ Q r t) x

namespace Drives

variable {next : S → E → Option S} {s : S} {Q Q' : Except ε α → S → Prop}

theorem imp {x : Journal E ε α} (h : Drives next s Q x) (hQ : ∀ r t, Q r t → Q' r t) :
    Drives next s Q' x := by
  apply Writes.imp h
  intro r new hnew
  obtain ⟨t, hreplay, hq⟩ := hnew
  exact ⟨t, hreplay, hQ r t hq⟩

theorem pure {a : α} (h : Q (.ok a) s) : Drives next s Q (pure a) := Writes.pure ⟨s, rfl, h⟩

theorem throw {e : ε} (h : Q (.error e) s) : Drives next s Q (throw e) := Writes.throw ⟨s, rfl, h⟩

theorem lift {r : Except ε α} (h : Q r s) : Drives next s Q (lift r) := Writes.lift ⟨s, rfl, h⟩

/-- **One computation after the other.** -/
theorem bind {P : Except ε α → S → Prop} {Q : Except ε β → S → Prop} {x : Journal E ε α}
    {f : α → Journal E ε β} (hx : Drives next s P x)
    (herror : ∀ e t, P (.error e) t → Q (.error e) t)
    (hf : ∀ a t, P (.ok a) t → Drives next t Q (f a)) : Drives next s Q (x >>= f) := by
  refine Writes.bind hx (fun e new h => ?_) fun a new h => ?_
  · obtain ⟨t, hreplay, hp⟩ := h
    exact ⟨t, hreplay, herror e t hp⟩
  · obtain ⟨t, hreplay, hp⟩ := h
    apply Writes.imp (hf a t hp)
    intro r rest hrest
    obtain ⟨u, hrest, hq⟩ := hrest
    refine ⟨u, ?_, hq⟩
    rw [replay_append, hreplay]
    exact hrest

theorem attempt {x : Journal E ε α} (hx : Drives next s Q x) :
    Drives next s (fun r t => ∃ ending, r = .ok ending ∧ Q ending t)
      (attempt x : Journal E ε' (Except ε α)) := by
  apply Writes.imp (Writes.attempt hx)
  intro r new h
  obtain ⟨ending, hr, t, hreplay, hq⟩ := h
  exact ⟨t, hreplay, ending, hr, hq⟩

/-- What follows an attempt starts from how that ended. -/
theorem attempt_bind {P : Except ε α → S → Prop} {Q : Except ε' β → S → Prop} {x : Journal E ε α}
    {f : Except ε α → Journal E ε' β} (hx : Drives next s P x)
    (hf : ∀ result t, P result t → Drives next t Q (f result)) :
    Drives next s Q (Journal.attempt x >>= f) := by
  refine bind (attempt hx) (fun e t h => ?_) fun result t h => ?_
  · obtain ⟨r, hr, -⟩ := h
    cases hr
  · obtain ⟨r, hr, hp⟩ := h
    cases hr
    exact hf result t hp

end Drives

end Automaton

end Journal

end Conglobate
