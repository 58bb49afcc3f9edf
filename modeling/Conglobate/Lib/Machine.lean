import Conglobate.Lib.File

/- Computations on machine words over a device whose reads may fail.

   A computation runs from the log of the accesses before it and appends its own,
   each with how it failed. Arithmetic that leaves its width is a panic, as in a
   build with overflow checks. `Follows` says that a computation does what one on
   unbounded numbers over the device's bytes does: it never panics, reads only
   inside the device, and ends otherwise only with the failure of its last read.
   The rules below build it up the way the computation is built. -/
namespace Conglobate

/-- Why a computation ends early. -/
inductive Fault (ε : Type) where
  | error (e : ε)
  | panic
  deriving DecidableEq, Repr

/-- A read of `length` bytes at `offset`, and how it failed. -/
structure Access where
  offset : Nat
  length : Nat
  failed : Option ErrorKind
  deriving DecidableEq, Repr

/-- What a device answers, after the accesses before: the same read may fail once and
    succeed later. -/
abbrev Reader := List Access → Nat → Nat → Except ErrorKind Bytes

/-- A device of the bytes `device`: a read inside it returns them. -/
def Reader.Reliable (reader : Reader) (device : Bytes) : Prop :=
  ∀ log offset length, offset + length ≤ device.length →
    reader log offset length = .ok ((device.drop offset).take length)

/-- One whose reads may fail. -/
def Reader.Serves (reader : Reader) (device : Bytes) : Prop :=
  ∀ log offset length, offset + length ≤ device.length →
    (∃ kind, reader log offset length = .error kind) ∨
      reader log offset length = .ok ((device.drop offset).take length)

theorem Reader.Reliable.serves {reader : Reader} {device : Bytes} (h : reader.Reliable device) :
    reader.Serves device :=
  fun log offset length hle => .inr (h log offset length hle)

/-- An access the device was asked for: inside it, and failed only as the device answered. -/
structure Access.Answered (reader : Reader) (capacity : Nat) (a : Access) : Prop where
  inside : a.offset + a.length ≤ capacity
  failed : ∀ kind, a.failed = some kind → ∃ log, reader log a.offset a.length = .error kind

def Machine (ε α : Type) : Type := List Access → Except (Fault ε) α × List Access

namespace Machine

variable {ε α β : Type}

instance : Monad (Machine ε) where
  pure a := fun log => (.ok a, log)
  bind x f := fun log =>
    match x log with
    | (.ok a, log') => f a log'
    | (.error fault, log') => (.error fault, log')

def lift (x : Except ε α) : Machine ε α := fun log => (x.mapError .error, log)

def panic : Machine ε α := fun log => (.error .panic, log)

/-- Addition of `w`-bit words. -/
def add (w a b : Nat) : Machine ε Nat := if a + b < 2 ^ w then pure (a + b) else panic

def mul (w a b : Nat) : Machine ε Nat := if a * b < 2 ^ w then pure (a * b) else panic

def sub (a b : Nat) : Machine ε Nat := if b ≤ a then pure (a - b) else panic

/-- A read whose failure is reported as `wrap` of its kind. -/
def read (reader : Reader) (wrap : ErrorKind → ε) (offset length : Nat) :
    Machine ε Bytes := fun log =>
  match reader log offset length with
  | .ok bytes => (.ok bytes, log ++ [⟨offset, length, none⟩])
  | .error kind => (.error (.error (wrap kind)), log ++ [⟨offset, length, some kind⟩])

/-! Computations that read nothing. -/

@[simp] theorem pure_eq (a : α) : (pure a : Machine ε α) = lift (.ok a) := rfl

theorem lift_bind (x : Except ε α) (f : α → Except ε β) :
    (lift x >>= fun a => lift (f a) : Machine ε β) = lift (x >>= f) := by
  cases x <;> rfl

@[simp] theorem lift_ok_bind (a : α) (f : α → Machine ε β) : (lift (.ok a) >>= f) = f a := rfl

@[simp] theorem lift_error_bind (e : ε) (f : α → Machine ε β) :
    (lift (.error e) >>= f) = lift (.error e) := rfl

theorem add_eq {w a b : Nat} (h : a + b < 2 ^ w) :
    (add w a b : Machine ε Nat) = lift (.ok (a + b)) := if_pos h

theorem mul_eq {w a b : Nat} (h : a * b < 2 ^ w) :
    (mul w a b : Machine ε Nat) = lift (.ok (a * b)) := if_pos h

theorem sub_eq {a b : Nat} (h : b ≤ a) : (sub a b : Machine ε Nat) = lift (.ok (a - b)) := if_pos h

/-- A loop whose rounds read nothing, as long as an invariant of the rounds done holds. -/
theorem foldlM_lift {γ : Type} {f : β → γ → Machine ε β} {g : β → γ → Except ε β} {l : List γ}
    {P : Nat → β → Prop} {n N : Nat} {b : β} (hn : n + l.length ≤ N) (hb : P n b)
    (hstep : ∀ n b, n < N → P n b → ∀ c ∈ l, f b c = lift (g b c))
    (hkeep : ∀ n b, P n b → ∀ c b', g b c = .ok b' → P (n + 1) b') :
    l.foldlM f b = lift (l.foldlM g b) := by
  induction l generalizing n b with
  | nil => rfl
  | cons c l ih =>
    rw [List.length_cons] at hn
    rw [List.foldlM_cons, List.foldlM_cons, hstep n b (by omega) hb c List.mem_cons_self,
      ← lift_bind]
    cases hg : g b c with
    | error e => rfl
    | ok b' =>
      exact ih (by omega) (hkeep n b hb c b' hg)
        (fun n b hn hb x hx => hstep n b hn hb x (List.mem_cons_of_mem _ hx))

/-! Computations that follow another. -/

variable (kind : ε → ErrorKind) (reader : Reader) (capacity : Nat)

/-- How a computation that follows `y` ends: as `y`, whose own errors are about the data,
    with no read failed; or with the kind its last read failed with. -/
inductive Ends (y : Except ε α) : Except (Fault ε) α → List Access → Prop
  | done {new : List Access} : (∀ a ∈ new, a.failed = none) →
      (∀ e, y = .error e → kind e = .invalidData) →
      Ends y (y.mapError .error) new
  | failed {before : List Access} {a : Access} {e : ε} : (∀ b ∈ before, b.failed = none) →
      a.failed = some (kind e) → Ends y (.error (.error e)) (before ++ [a])

/-- `x` does what `y` does, and reads inside the capacity. -/
def Follows (x : Machine ε α) (y : Except ε α) : Prop :=
  ∀ log, ∃ new, (x log).2 = log ++ new ∧ (∀ a ∈ new, a.Answered reader capacity) ∧
    Ends kind y (x log).1 new

namespace Follows

variable {kind : ε → ErrorKind} {reader : Reader} {capacity : Nat}

theorem lift {y : Except ε α} (h : ∀ e, y = .error e → kind e = .invalidData) :
    Follows kind reader capacity (lift y) y := by
  intro log
  refine ⟨[], (List.append_nil log).symm, ?_, .done ?_ h⟩
  all_goals
    intro a ha
    cases ha

theorem bind {x : Machine ε α} {y : Except ε α} {f : α → Machine ε β} {g : α → Except ε β}
    (hx : Follows kind reader capacity x y)
    (hf : ∀ a, y = .ok a → Follows kind reader capacity (f a) (g a)) :
    Follows kind reader capacity (x >>= f) (y >>= g) := by
  intro log
  obtain ⟨new, hlog, hinside, hends⟩ := hx log
  have hrun : (x >>= f) log = match x log with
    | (.ok a, log') => f a log'
    | (.error fault, log') => (.error fault, log') := rfl
  generalize hresult : (x log).1 = r at hends
  have hpair : x log = (r, log ++ new) := Prod.ext hresult hlog
  cases hends with
  | done hnone herror =>
    cases y with
    | error e =>
      rw [hrun, hpair]
      refine ⟨new, rfl, hinside, .done (y := .error e) hnone (fun e' he => herror e' ?_)⟩
      cases he
      rfl
    | ok a =>
      obtain ⟨next, hlog', hinside', hends'⟩ := hf a rfl (log ++ new)
      rw [hrun, hpair]
      refine ⟨new ++ next, by rw [← List.append_assoc]; exact hlog', ?_, ?_⟩
      · exact fun b hb => (List.mem_append.mp hb).elim (hinside b) (hinside' b)
      · show Ends kind (g a) (f a (log ++ new)).1 (new ++ next)
        generalize (f a (log ++ new)).1 = r' at hends'
        cases hends' with
        | done hnone' herror' =>
          exact .done (fun b hb => (List.mem_append.mp hb).elim (hnone b) (hnone' b)) herror'
        | @failed before last e hbefore hlast =>
          rw [← List.append_assoc]
          exact .failed (fun b hb => (List.mem_append.mp hb).elim (hnone b) (hbefore b)) hlast
  | @failed before last e hbefore hlast =>
    rw [hrun, hpair]
    exact ⟨before ++ [last], rfl, hinside, .failed hbefore hlast⟩

theorem ite {p : Prop} [Decidable p] {x x' : Machine ε α} {y y' : Except ε α}
    (h : p → Follows kind reader capacity x y) (h' : ¬ p → Follows kind reader capacity x' y') :
    Follows kind reader capacity (if p then x else x') (if p then y else y') := by
  by_cases hp : p
  · rw [if_pos hp, if_pos hp]
    exact h hp
  · rw [if_neg hp, if_neg hp]
    exact h' hp

theorem foldlM {γ : Type} {f : β → γ → Machine ε β} {g : β → γ → Except ε β} {l : List γ}
    (h : ∀ b, ∀ c ∈ l, Follows kind reader capacity (f b c) (g b c)) (b : β) :
    Follows kind reader capacity (l.foldlM f b) (l.foldlM g b) := by
  induction l generalizing b with
  | nil => exact lift (y := .ok b) (fun e he => by cases he)
  | cons c l ih =>
    rw [List.foldlM_cons, List.foldlM_cons]
    exact bind (h b c List.mem_cons_self) (fun b' _ => ih
      (fun b c hc => h b c (List.mem_cons_of_mem _ hc)) b')

/-- A read inside the device follows its bytes. -/
theorem read {device : Bytes} (hserves : reader.Serves device) (hlen : device.length = capacity)
    {wrap : ErrorKind → ε} (hwrap : ∀ k, kind (wrap k) = k) {offset length : Nat}
    (h : offset + length ≤ capacity) :
    Follows kind reader capacity (read reader wrap offset length)
      (.ok ((device.drop offset).take length)) := by
  intro log
  subst hlen
  rcases hserves log offset length h with ⟨k, hfail⟩ | hok
  · have hrun : Machine.read reader wrap offset length log =
        (.error (.error (wrap k)), log ++ [⟨offset, length, some k⟩]) := by
      rw [Machine.read, hfail]
    rw [hrun]
    refine ⟨[⟨offset, length, some k⟩], rfl, ?_, ?_⟩
    · intro a ha
      cases List.mem_singleton.mp ha
      refine ⟨h, fun kind hkind => ⟨log, ?_⟩⟩
      cases hkind
      exact hfail
    · exact Ends.failed (List.forall_mem_nil _) (by rw [hwrap])
  · have hrun : Machine.read reader wrap offset length log =
        (.ok ((device.drop offset).take length), log ++ [⟨offset, length, none⟩]) := by
      rw [Machine.read, hok]
    rw [hrun]
    refine ⟨[⟨offset, length, none⟩], rfl, ?_, .done (y := .ok _) ?_ (fun e he => by cases he)⟩
    · intro a ha
      cases List.mem_singleton.mp ha
      exact ⟨h, fun kind hkind => by cases hkind⟩
    · intro a ha
      cases List.mem_singleton.mp ha
      rfl

/-- A computation on a reliable device is the one it follows. -/
theorem reliable {x : Machine ε α} {y : Except ε α} {device : Bytes}
    (h : Follows kind reader device.length x y) (hreader : reader.Reliable device)
    (log : List Access) :
    (x log).1 = y.mapError .error ∧ ∀ e, y = .error e → kind e = .invalidData := by
  obtain ⟨new, -, hanswered, hends⟩ := h log
  generalize (x log).1 = r at hends
  cases hends with
  | done _ herror => exact ⟨rfl, herror⟩
  | @failed before last e _ hlast =>
    have ha := hanswered last (List.mem_append_right _ List.mem_cons_self)
    obtain ⟨log', hfail⟩ := ha.failed _ hlast
    rw [hreader log' last.offset last.length ha.inside] at hfail
    cases hfail

/-- A computation that follows another does not panic. -/
theorem no_panic {x : Machine ε α} {y : Except ε α} (h : Follows kind reader capacity x y)
    (log : List Access) :
    (x log).1 ≠ .error .panic := by
  obtain ⟨new, -, -, hends⟩ := h log
  generalize (x log).1 = r at hends
  intro hpanic
  cases hends with
  | done => cases y <;> cases hpanic
  | failed => cases hpanic

/-- A read that fails ends the computation with its kind. -/
theorem failed {x : Machine ε α} {y : Except ε α} (h : Follows kind reader capacity x y)
    {a : Access} {k : ErrorKind} (ha : a ∈ (x []).2) (hfailed : a.failed = some k) :
    ∃ e, (x []).1 = .error (.error e) ∧ kind e = k := by
  obtain ⟨new, hlog, -, hends⟩ := h []
  rw [hlog, List.nil_append] at ha
  generalize (x []).1 = r at hends
  cases hends with
  | done hnone =>
    rw [hnone a ha] at hfailed
    cases hfailed
  | @failed before last e hbefore hlast =>
    refine ⟨e, rfl, ?_⟩
    rcases List.mem_append.mp ha with ha | ha
    · rw [hbefore a ha] at hfailed
      cases hfailed
    · cases List.mem_singleton.mp ha
      rw [hlast] at hfailed
      exact Option.some.inj hfailed

end Follows

end Machine

end Conglobate
