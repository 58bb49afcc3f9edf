import Conglobate.Launch.HelperProps
import Mathlib.Logic.Relation

/- The setup cutoff against the clock (`step/cutoff.rs`).

   A deadline is exported as an absolute cutoff and imported again by a helper. Both
   ways the clock the result is measured on is read first, so that the time between the
   readings is lost and not gained. `Instant` and `CLOCK_MONOTONIC` are one clock here.

   Correspondence (Rust ↔ Lean):
     `Instant`, a reading of `clock_gettime` ↔ `Timespec`
     `SetupCutoff::now` on a reading         ↔ `SetupCutoff.now`
     `from_deadline`, `deadline` on two readings ↔ `fromDeadline`, `deadline`

   What is proved:
     1. `fromDeadline_eq_ok`, `deadline_eq_ok` — what comes out is exact: nothing wraps;
     2. `Hop.within`, `Hop.expired` — a hop keeps what is left, or less of it;
     3. `cutoff_only_shortens` — so does every journey. -/
namespace Conglobate.Launch

structure Timespec where
  seconds : Int
  nanoseconds : Nat
  seconds_bound : -2 ^ 63 ≤ seconds ∧ seconds < 2 ^ 63
  nanoseconds_bound : nanoseconds < 1000000000

namespace Timespec

def total (t : Timespec) : Int := t.seconds * 1000000000 + t.nanoseconds

/-- `Instant::checked_duration_since`, in nanoseconds. -/
def checkedDurationSince (t earlier : Timespec) : Option Nat :=
  if earlier.total ≤ t.total then some (t.total - earlier.total).toNat else none

/-- `Instant::checked_add` of nanoseconds. -/
def checkedAdd (t : Timespec) (nanos : Nat) : Option Timespec :=
  if hseconds : t.seconds + ↑(nanos / 1000000000) < 2 ^ 63 then
    if hcarry : t.nanoseconds + nanos % 1000000000 < 1000000000 then
      some ⟨t.seconds + ↑(nanos / 1000000000), t.nanoseconds + nanos % 1000000000,
        ⟨by have := t.seconds_bound.1; omega, hseconds⟩, hcarry⟩
    else if hnext : t.seconds + ↑(nanos / 1000000000) + 1 < 2 ^ 63 then
      some ⟨t.seconds + ↑(nanos / 1000000000) + 1, t.nanoseconds + nanos % 1000000000 - 1000000000,
        ⟨by have := t.seconds_bound.1; omega, hnext⟩,
        by have := t.nanoseconds_bound; have := Nat.mod_lt nanos (show 0 < 1000000000 by decide); omega⟩
    else none
  else none

end Timespec

def checkedMul (a b : UInt64) : Option UInt64 :=
  if a.toNat * b.toNat < 2 ^ 64 then some (a * b) else none

def checkedAdd (a b : UInt64) : Option UInt64 :=
  if a.toNat + b.toNat < 2 ^ 64 then some (a + b) else none

def checkedSub (a b : UInt64) : Option UInt64 := if b ≤ a then some (a - b) else none

inductive CutoffError where
  /-- An integer does not fit its type. -/
  | integer
  /-- "monotonic timestamp overflow" -/
  | timestamp
  /-- "setup cutoff expired" -/
  | expired
  /-- "setup cutoff overflow" -/
  | cutoff
  /-- "setup Instant overflow" -/
  | instant
  deriving DecidableEq, Repr

namespace SetupCutoff

def now (stamp : Timespec) : Except CutoffError UInt64 :=
  if stamp.seconds < 0 then .error .integer
  else
    match (checkedMul (UInt64.ofNat stamp.seconds.toNat) 1000000000).bind
        (checkedAdd · (UInt64.ofNat stamp.nanoseconds)) with
    | none => .error .timestamp
    | some value => .ok value

/-- The cutoff's clock is read first. -/
def fromDeadline (stamp instant deadline : Timespec) : Except CutoffError SetupCutoff := do
  let monotonic ← now stamp
  match deadline.checkedDurationSince instant with
  | none => .error .expired
  | some remaining =>
    if 2 ^ 64 ≤ remaining then .error .integer
    else
      match SetupCutoff.mk <$> checkedAdd monotonic (UInt64.ofNat remaining) with
      | none => .error .cutoff
      | some s => .ok s

/-- The deadline's clock is read first. -/
def deadline (s : SetupCutoff) (instant stamp : Timespec) : Except CutoffError Timespec := do
  let monotonic ← now stamp
  match (checkedSub s.nanos monotonic).filter (fun value => value ≠ 0) with
  | none => .error .expired
  | some remaining =>
    match instant.checkedAdd remaining.toNat with
    | none => .error .instant
    | some t => .ok t

end SetupCutoff

/-! The arithmetic is exact. -/

theorem checkedMul_eq_some {a b c : UInt64} (h : checkedMul a b = some c) :
    c.toNat = a.toNat * b.toNat := by
  rw [checkedMul] at h
  split at h
  · rename_i hbound
    cases h
    rw [UInt64.toNat_mul, Nat.mod_eq_of_lt hbound]
  · cases h

theorem checkedAdd_eq_some {a b c : UInt64} (h : checkedAdd a b = some c) :
    c.toNat = a.toNat + b.toNat := by
  rw [checkedAdd] at h
  split at h
  · rename_i hbound
    cases h
    rw [UInt64.toNat_add, Nat.mod_eq_of_lt hbound]
  · cases h

theorem checkedSub_eq_some {a b c : UInt64} (h : checkedSub a b = some c) :
    c.toNat + b.toNat = a.toNat := by
  rw [checkedSub] at h
  split at h
  · rename_i hle
    cases h
    have hle := UInt64.le_iff_toNat_le.mp hle
    rw [UInt64.toNat_sub_of_le _ _ (UInt64.le_iff_toNat_le.mpr hle)]
    omega
  · cases h

theorem Timespec.checkedDurationSince_eq_some {t earlier : Timespec} {n : Nat}
    (h : t.checkedDurationSince earlier = some n) :
    t.total = earlier.total + n := by
  rw [checkedDurationSince] at h
  split at h
  · cases h
    omega
  · cases h

theorem Timespec.checkedAdd_eq_some {t t' : Timespec} {n : Nat} (h : t.checkedAdd n = some t') :
    t'.total = t.total + n := by
  rw [Timespec.checkedAdd] at h
  have hdiv := Nat.div_add_mod n 1000000000
  split at h
  · split at h
    · cases h
      simp only [total]
      omega
    · split at h
      · cases h
        simp only [total]
        omega
      · cases h
  · cases h

namespace SetupCutoff

/-- **A reading is taken for what it is.** -/
theorem now_eq_ok {stamp : Timespec} {n : UInt64} (h : now stamp = .ok n) :
    (n.toNat : Int) = stamp.total := by
  have hbound := stamp.seconds_bound
  have hnanos := stamp.nanoseconds_bound
  rw [now] at h
  split at h
  · cases h
  rename_i hsign
  split at h
  · cases h
  rename_i value hvalue
  cases h
  obtain ⟨product, hproduct, hsum⟩ := Option.bind_eq_some_iff.mp hvalue
  have hseconds : (UInt64.ofNat stamp.seconds.toNat).toNat = stamp.seconds.toNat :=
    UInt64.toNat_ofNat_of_lt' (show stamp.seconds.toNat < 2 ^ 64 by omega)
  have hsmall : (UInt64.ofNat stamp.nanoseconds).toNat = stamp.nanoseconds :=
    UInt64.toNat_ofNat_of_lt' (show stamp.nanoseconds < 2 ^ 64 by omega)
  have hscale : (1000000000 : UInt64).toNat = 1000000000 := rfl
  have hmul := checkedMul_eq_some hproduct
  have hadd := checkedAdd_eq_some hsum
  rw [hseconds, hscale] at hmul
  rw [hsmall, hmul] at hadd
  rw [hadd, Timespec.total]
  omega

/-- **An exported cutoff** is the deadline, moved back by what lay between the readings. -/
theorem fromDeadline_eq_ok {stamp instant deadline : Timespec} {s : SetupCutoff}
    (h : fromDeadline stamp instant deadline = .ok s) :
    instant.total ≤ deadline.total ∧ (s.nanos.toNat : Int) =
      stamp.total + (deadline.total - instant.total) := by
  rw [fromDeadline] at h
  obtain ⟨monotonic, hnow, h⟩ := except_bind_eq_ok.mp h
  split at h
  · cases h
  rename_i remaining hremaining
  have htotal := Timespec.checkedDurationSince_eq_some hremaining
  split at h
  · cases h
  rename_i hsize
  split at h
  · cases h
  rename_i result hresult
  cases h
  obtain ⟨sum, hsum, rfl⟩ := Option.map_eq_some_iff.mp hresult
  have hadd := checkedAdd_eq_some hsum
  rw [UInt64.toNat_ofNat_of_lt' (show remaining < 2 ^ 64 by omega)] at hadd
  have hmonotonic := now_eq_ok hnow
  constructor
  · omega
  · show (sum.toNat : Int) = _
    omega

/-- **An imported deadline** is the cutoff, moved back likewise; something was left of it. -/
theorem deadline_eq_ok {s : SetupCutoff} {instant stamp t : Timespec}
    (h : s.deadline instant stamp = .ok t) :
    stamp.total < s.nanos.toNat ∧ t.total = instant.total + (s.nanos.toNat - stamp.total) := by
  rw [deadline] at h
  obtain ⟨monotonic, hnow, h⟩ := except_bind_eq_ok.mp h
  split at h
  · cases h
  rename_i remaining hremaining
  obtain ⟨hsub, hpositive⟩ := Option.filter_eq_some_iff.mp hremaining
  have hdifference := checkedSub_eq_some hsub
  have hne : remaining.toNat ≠ 0 :=
    fun hzero => of_decide_eq_true hpositive (UInt64.toNat_inj.mp hzero)
  have hmonotonic := now_eq_ok hnow
  split at h
  · cases h
  rename_i result hadd
  cases h
  have htotal := Timespec.checkedAdd_eq_some hadd
  constructor
  · omega
  · omega

end SetupCutoff

/-! Journeys. -/

/-- A budget on its way: a process's deadline, or a helper's argument. -/
inductive Budget where
  | deadline (instant : Timespec)
  | argument (text : Text)

/-- One hop, with the clock before and behind it. -/
inductive Hop (c : Ciborium) : Int × Budget → Int × Budget → Prop where
  | exported {t : Int} {stamp instant d : Timespec} {s : SetupCutoff} :
      t ≤ stamp.total → stamp.total ≤ instant.total →
      SetupCutoff.fromDeadline stamp instant d = .ok s →
        Hop c (t, .deadline d) (instant.total, .argument s.toArgument)
  | forwarded {t t' : Int} {text : Text} {s : SetupCutoff} :
      t ≤ t' → SetupCutoff.fromArgument c text = .ok s →
      Hop c (t, .argument text) (t', .argument s.toArgument)
  | imported {t : Int} {text : Text} {s : SetupCutoff} {instant stamp d : Timespec} :
      t ≤ instant.total →
      instant.total ≤ stamp.total → SetupCutoff.fromArgument c text = .ok s →
        s.deadline instant stamp = .ok d →
      Hop c (t, .argument text) (stamp.total, .deadline d)

/-- No later than a point of the clock. -/
def Budget.Within (bound : Int) : Budget → Prop
  | .deadline d => d.total ≤ bound
  | .argument text => ∀ s : SetupCutoff, text = s.toArgument → (s.nanos.toNat : Int) ≤ bound

variable {c : Ciborium}

theorem toArgument_injective (hc : c.Faithful) {s s' : SetupCutoff}
    (h : s.toArgument = s'.toArgument) : s = s' := by
  have hread := (SetupCutoff.fromArgument_iff hc).mpr h
  rw [(SetupCutoff.fromArgument_iff hc).mpr rfl] at hread
  exact Except.ok.inj hread

/-- **A hop does not lengthen a budget.** -/
theorem Hop.within (hc : c.Faithful) {p q : Int × Budget} {bound : Int} (h : Hop c p q)
    (hp : p.2.Within bound) :
    q.2.Within bound := by
  cases h with
  | @exported t stamp instant d s _ horder hexport =>
    obtain ⟨-, hnanos⟩ := SetupCutoff.fromDeadline_eq_ok hexport
    have hbound : d.total ≤ bound := hp
    intro s' heq
    obtain rfl := toArgument_injective hc heq
    omega
  | forwarded _ hread =>
    rw [← (SetupCutoff.fromArgument_iff hc).mp hread]
    exact hp
  | @imported t text s instant stamp d _ horder hread himport =>
    obtain ⟨-, htotal⟩ := SetupCutoff.deadline_eq_ok himport
    have hbound := hp s ((SetupCutoff.fromArgument_iff hc).mp hread)
    show d.total ≤ bound
    omega

/-- The clock goes on. -/
theorem Hop.clock {p q : Int × Budget} (h : Hop c p q) : p.1 ≤ q.1 := by
  cases h with
  | exported hfirst horder _ => exact hfirst.trans horder
  | forwarded hlater _ => exact hlater
  | imported hfirst horder _ _ => exact hfirst.trans horder

/-- **An expired budget stays expired**, and is not imported. -/
theorem Hop.expired (hc : c.Faithful) {p q : Int × Budget} (h : Hop c p q) (hp : p.2.Within p.1) :
    q.2.Within q.1 ∧ ∃ text, q.2 = .argument text := by
  have hwithin : q.2.Within p.1 := h.within hc hp
  have hclock := h.clock
  cases h with
  | exported _ _ _ => exact ⟨fun s heq => (hwithin s heq).trans hclock, _, rfl⟩
  | forwarded _ _ => exact ⟨fun s heq => (hwithin s heq).trans hclock, _, rfl⟩
  | @imported t text s instant stamp d hfirst horder hread himport =>
    obtain ⟨hleft, -⟩ := SetupCutoff.deadline_eq_ok himport
    have hbound : (s.nanos.toNat : Int) ≤ t := hp s ((SetupCutoff.fromArgument_iff hc).mp hread)
    omega

/-- Hops one after the other. -/
def Journey (c : Ciborium) : Int × Budget → Int × Budget → Prop := Relation.ReflTransGen (Hop c)

theorem Journey.within (hc : c.Faithful) {p q : Int × Budget} {bound : Int} (h : Journey c p q)
    (hp : p.2.Within bound) :
    q.2.Within bound := by
  induction h with
  | refl => exact hp
  | tail _ hhop ih => exact hhop.within hc ih

theorem Journey.expired (hc : c.Faithful) {p q : Int × Budget} (h : Journey c p q)
    (hp : p.2.Within p.1) :
    q.2.Within q.1 ∧ (q = p ∨ ∃ text, q.2 = .argument text) := by
  induction h with
  | refl => exact ⟨hp, .inl rfl⟩
  | tail _ hhop ih =>
    obtain ⟨hwithin, hargument⟩ := hhop.expired hc ih.1
    exact ⟨hwithin, .inr hargument⟩

/-- **A cutoff only ever shortens**: an imported deadline is not later than the original, an
    expired budget is never imported, what comes out of the arithmetic is exact, and the
    arguments accepted are those written. -/
theorem cutoff_only_shortens (c : Ciborium) (hc : c.Faithful) :
    (∀ t t' original final, Journey c (t, .deadline original) (t', .deadline final) →
      final.total ≤ original.total) ∧
      (∀ t budget t' final, budget.Within t → Journey c (t, budget) (t', .deadline final) →
        (t', .deadline final) = (t, budget)) ∧
      (∀ stamp instant d s, SetupCutoff.fromDeadline stamp instant d = .ok s →
        (s.nanos.toNat : Int) = stamp.total + (d.total - instant.total)) ∧
      (∀ s instant stamp d, SetupCutoff.deadline s instant stamp = .ok d →
        d.total = instant.total + (s.nanos.toNat - stamp.total)) ∧
      (∀ text, (∃ s, SetupCutoff.fromArgument c text = .ok s) ↔
        ∃ s : SetupCutoff, text = s.toArgument) := by
  refine ⟨?_, ?_, fun _ _ _ _ h => (SetupCutoff.fromDeadline_eq_ok h).2, fun _ _ _ _ h =>
    (SetupCutoff.deadline_eq_ok h).2, ?_⟩
  · intro t t' original final h
    exact h.within hc (le_refl original.total)
  · intro t budget t' final hexpired h
    obtain ⟨-, hsame | ⟨text, htext⟩⟩ := h.expired hc hexpired
    · exact hsame
    · cases htext
  · exact fun text => exists_congr fun s => SetupCutoff.fromArgument_iff hc

theorem reader_only_shortens :
    (∀ t t' original final, Journey Ciborium.reader (t, .deadline original) (t', .deadline final) →
      final.total ≤ original.total) ∧
      (∀ t budget t' final, budget.Within t → Journey Ciborium.reader
        (t, budget) (t', .deadline final) → (t', .deadline final) = (t, budget)) ∧
      (∀ stamp instant d s, SetupCutoff.fromDeadline stamp instant d = .ok s →
        (s.nanos.toNat : Int) = stamp.total + (d.total - instant.total)) ∧
      (∀ s instant stamp d, SetupCutoff.deadline s instant stamp = .ok d →
        d.total = instant.total + (s.nanos.toNat - stamp.total)) ∧
      (∀ text, (∃ s, SetupCutoff.fromArgument Ciborium.reader text = .ok s) ↔
        ∃ s : SetupCutoff, text = s.toArgument) :=
  cutoff_only_shortens Ciborium.reader Ciborium.reader_faithful

end Conglobate.Launch
