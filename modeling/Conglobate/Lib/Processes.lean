import Conglobate.Lib.OrdMap

/- Processes that fork, exit and are waited for.

   A table has every process that was not waited for yet, with the one that waits for
   it, the group it was born into and how it ended. One process is the owner; what the
   others do are events, in any order: fork, also into a sibling, exit and leave the
   children to an heir, wait for an own child. An event that cannot happen changes
   nothing.

   What is proved, from a table where everyone but the owner is in one group and has a
   running parent (`Rooted`):
     1. the events keep it so (`Rooted.run`), and leave the owner's own children to the
        owner (`child_run`), which stays where it is (`owner_run`);
     2. once none of the group runs, nothing ever happens again (`run_of_quiet`), and
        everyone is the owner's child (`Rooted.parent_of_quiet`). -/
namespace Conglobate.Processes

variable {γ ν : Type}

structure Entry (γ ν : Type) where
  parent : Nat
  group : γ
  /-- How it ended, if it has. -/
  ended : Option ν
  deriving DecidableEq

abbrev Table (γ ν : Type) : Type := OrdMap Nat (Entry γ ν)

def isRunning (t : Table γ ν) (process : Nat) :
    Bool := (t.get? process).any (fun e => e.ended.isNone)

inductive Event (ν : Type) where
  | fork (process child : Nat)
  /-- A child of its own parent. -/
  | sibling (process child : Nat)
  /-- The children go to the heir. -/
  | exit (process heir : Nat) (status : ν)
  | wait (process child : Nat)
  deriving DecidableEq

/-- A new process, of the group of the one that made it. -/
def born (t : Table γ ν) (parent : Nat) (maker : Entry γ ν) (child : Nat) : Table γ ν :=
  if t.contains child then t else t.insert child ⟨parent, maker.group, none⟩

/-- The children of a process go to another one. -/
def Entry.inherited (process heir : Nat) (e : Entry γ ν) : Entry γ ν :=
  if e.parent = process then { e with parent := heir } else e

def exited (t : Table γ ν) (process heir : Nat) (status : ν) (e : Entry γ ν) : Table γ ν :=
  (t.mapValues (Entry.inherited process heir)).insert process
    { e.inherited process heir with ended := some status }

/-- What one of the others does. -/
def step (owner : Nat) (t : Table γ ν) : Event ν → Table γ ν
  | .fork process child =>
    match t.get? process with
    | some e => if process = owner ∨ e.ended.isSome then t else born t process e child
    | none => t
  | .sibling process child =>
    match t.get? process with
    | some e => if process = owner ∨ e.ended.isSome then t else born t e.parent e child
    | none => t
  | .exit process heir status =>
    match t.get? process with
    | some e =>
      if process = owner ∨ e.ended.isSome ∨ heir = process ∨ isRunning t heir = false then t
      else exited t process heir status e
    | none => t
  | .wait process child =>
    match t.get? child with
    | some e =>
      if process = owner ∨ e.parent ≠ process ∨ e.ended.isNone ∨ isRunning t process = false then
        t
      else
        t.erase child
    | none => t

def run (owner : Nat) (t : Table γ ν) (events : List (Event ν)) :
    Table γ ν := events.foldl (step owner) t

/-- Everyone but the owner is in the group, with a parent that runs. -/
structure Rooted (owner : Nat) (group : γ) (t : Table γ ν) : Prop where
  running : isRunning t owner = true
  parents : ∀ p e, t.get? p = some e → p ≠ owner → isRunning t e.parent = true
  groups : ∀ p e, t.get? p = some e → p ≠ owner → e.group = group

/-- No one but the owner runs. -/
def Quiet (owner : Nat) (t : Table γ ν) : Prop :=
  ∀ p e, t.get? p = some e → p ≠ owner → e.ended.isSome = true

/-- An owner's child that was not waited for. -/
def IsChild (owner : Nat) (t : Table γ ν) (p : Nat) :
    Prop := ∃ e, t.get? p = some e ∧ e.parent = owner

variable {owner : Nat} {group : γ} {t : Table γ ν}

theorem isRunning_iff {p : Nat} : isRunning t p = true ↔ ∃ e, t.get? p = some e ∧
    e.ended = none := by
  rw [isRunning, Option.any_eq_true]
  simp only [Option.isNone_iff_eq_none]

/-! Births. -/

theorem get?_born {parent child p : Nat} {e : Entry γ ν} :
    (born t parent e child).get? p =
      if p = child ∧ t.contains child = false then some ⟨parent, e.group, none⟩ else t.get? p := by
  rw [born]
  by_cases hknown : t.contains child = true
  · rw [if_pos hknown, if_neg (by simp [hknown])]
  · rw [if_neg hknown, OrdMap.get?_insert]
    simp [hknown]

/-- Who is there stays as it is. -/
theorem born_kept {parent child p : Nat} {e found : Entry γ ν} (h : t.get? p = some found) :
    (born t parent e child).get? p = some found := by
  rw [get?_born, if_neg, h]
  rintro ⟨rfl, hnew⟩
  rw [OrdMap.contains, h] at hnew
  cases hnew

theorem isRunning_born {parent child p : Nat} {e : Entry γ ν} (h : isRunning t p = true) :
    isRunning (born t parent e child) p = true := by
  obtain ⟨found, hfound, hended⟩ := isRunning_iff.mp h
  exact isRunning_iff.mpr ⟨found, born_kept hfound, hended⟩

theorem Rooted.born (h : Rooted owner group t) {parent child : Nat} {e : Entry γ ν}
    (hgroup : e.group = group) (hparent : isRunning t parent = true) :
    Rooted owner group (born t parent e child) := by
  refine ⟨isRunning_born h.running, fun p found hp hne => ?_, fun p found hp hne => ?_⟩
  · rw [get?_born] at hp
    split at hp
    · cases hp
      exact isRunning_born hparent
    · exact isRunning_born (h.parents p found hp hne)
  · rw [get?_born] at hp
    split at hp
    · cases hp
      exact hgroup
    · exact h.groups p found hp hne

/-! Exits. -/

theorem get?_exited {process heir p : Nat} {status : ν} {e : Entry γ ν} :
    (exited t process heir status e).get? p =
      if p = process then some { e.inherited process heir with ended := some status }
      else (t.get? p).map (Entry.inherited process heir) := by
  rw [exited, OrdMap.get?_insert, OrdMap.get?_mapValues]

@[simp] theorem inherited_ended {process heir : Nat} {e : Entry γ ν} :
    (e.inherited process heir).ended = e.ended := by
  rw [Entry.inherited]
  split <;> rfl

@[simp] theorem inherited_group {process heir : Nat} {e : Entry γ ν} :
    (e.inherited process heir).group = e.group := by
  rw [Entry.inherited]
  split <;> rfl

/-- Only the one that exits stops running. -/
theorem isRunning_exited {process heir p : Nat} {status : ν} {e : Entry γ ν} (hne : p ≠ process) :
    isRunning (exited t process heir status e) p = isRunning t p := by
  rw [isRunning, get?_exited, if_neg hne, isRunning, Option.any_map]
  congr 1
  funext found
  simp

/-- The heir or the old parent, neither of which exits. -/
theorem Rooted.exited (h : Rooted owner group t) {process heir : Nat} {status : ν} {e : Entry γ ν}
    (he : t.get? process = some e) (hprocess : process ≠ owner) (hheir : heir ≠ process)
    (hrunning : isRunning t heir = true) : Rooted owner group (exited t process heir status e) := by
  have hparents : ∀ p found, t.get? p = some found → p ≠ owner →
      isRunning (Processes.exited t process heir status e) (found.inherited process heir).parent =
          true := by
    intro p found hfound hne
    rw [Entry.inherited]
    split
    · rw [isRunning_exited hheir]
      exact hrunning
    · rename_i hother
      rw [isRunning_exited hother]
      exact h.parents p found hfound hne
  refine ⟨?_, fun p found hp hne => ?_, fun p found hp hne => ?_⟩
  · rw [isRunning_exited (Ne.symm hprocess)]
    exact h.running
  · rw [get?_exited] at hp
    split at hp
    · cases hp
      exact hparents process e he hprocess
    · obtain ⟨before, hbefore, rfl⟩ := Option.map_eq_some_iff.mp hp
      exact hparents p before hbefore hne
  · rw [get?_exited] at hp
    split at hp
    · cases hp
      exact (inherited_group.trans (h.groups process e he hprocess))
    · obtain ⟨before, hbefore, rfl⟩ := Option.map_eq_some_iff.mp hp
      rw [inherited_group]
      exact h.groups p before hbefore hne

/-! Waiting. -/

/-- **Taking one that has ended** leaves the others' parents. -/
theorem Rooted.erase (h : Rooted owner group t) {child : Nat} {e : Entry γ ν}
    (he : t.get? child = some e) (hended : e.ended.isSome = true) :
    Rooted owner group (t.erase child) := by
  have hkept : ∀ p, isRunning t p = true → isRunning (t.erase child) p = true := by
    intro p hp
    obtain ⟨found, hfound, hnone⟩ := isRunning_iff.mp hp
    refine isRunning_iff.mpr ⟨found, ?_, hnone⟩
    rw [OrdMap.get?_erase, if_neg, hfound]
    rintro rfl
    rw [hfound] at he
    cases he
    rw [hnone] at hended
    cases hended
  refine ⟨hkept owner h.running, fun p found hp hne => ?_, fun p found hp hne => ?_⟩
  · rw [OrdMap.get?_erase] at hp
    split at hp
    · cases hp
    · exact hkept _ (h.parents p found hp hne)
  · rw [OrdMap.get?_erase] at hp
    split at hp
    · cases hp
    · exact h.groups p found hp hne

/-! What the others do. -/

/-- **One event** keeps everyone in the group under a running parent. -/
theorem Rooted.step (h : Rooted owner group t) (event : Event ν) :
    Rooted owner group (step owner t event) := by
  cases event with
  | fork process child =>
    rw [Processes.step]
    split
    · rename_i e he
      split
      · exact h
      · rename_i hcan
        rw [not_or] at hcan
        refine h.born (h.groups process e he hcan.1) (isRunning_iff.mpr ⟨e, he, ?_⟩)
        simpa using hcan.2
    · exact h
  | sibling process child =>
    rw [Processes.step]
    split
    · rename_i e he
      split
      · exact h
      · rename_i hcan
        rw [not_or] at hcan
        exact h.born (h.groups process e he hcan.1) (h.parents process e he hcan.1)
    · exact h
  | exit process heir status =>
    rw [Processes.step]
    split
    · rename_i e he
      split
      · exact h
      · rename_i hcan
        rw [not_or, not_or, not_or, Bool.not_eq_false] at hcan
        exact h.exited he hcan.1 hcan.2.2.1 hcan.2.2.2
    · exact h
  | wait process child =>
    rw [Processes.step]
    split
    · rename_i e he
      split
      · exact h
      · rename_i hcan
        rw [not_or, not_or, not_or] at hcan
        refine h.erase he ?_
        simpa [Option.isSome_iff_ne_none] using hcan.2.2.1
    · exact h

theorem Rooted.run (h : Rooted owner group t) (events : List (Event ν)) :
    Rooted owner group (run owner t events) := by
  induction events generalizing t with
  | nil => exact h
  | cons event rest ih => exact ih (h.step event)

/-- **Where no one of the group runs, nothing happens.** -/
theorem step_of_quiet (h : Quiet owner t) (event : Event ν) : step owner t event = t := by
  cases event with
  | fork process child =>
    rw [step]
    split
    · rename_i e he
      apply if_pos
      by_cases hp : process = owner
      · exact .inl hp
      · exact .inr (h process e he hp)
    · rfl
  | sibling process child =>
    rw [step]
    split
    · rename_i e he
      apply if_pos
      by_cases hp : process = owner
      · exact .inl hp
      · exact .inr (h process e he hp)
    · rfl
  | exit process heir status =>
    rw [step]
    split
    · rename_i e he
      apply if_pos
      by_cases hp : process = owner
      · exact .inl hp
      · exact .inr (.inl (h process e he hp))
    · rfl
  | wait process child =>
    rw [step]
    split
    · rename_i e he
      apply if_pos
      by_cases hp : process = owner
      · exact .inl hp
      · refine .inr (.inr (.inr ?_))
        rw [isRunning, Option.any_eq_false]
        intro found hfound
        simpa using h process found hfound hp
    · rfl

theorem run_of_quiet (h : Quiet owner t) (events : List (Event ν)) : run owner t events = t := by
  induction events with
  | nil => rfl
  | cons event rest ih =>
    rw [run, List.foldl_cons, step_of_quiet h]
    exact ih

/-- **Then everyone is the owner's.** -/
theorem Rooted.parent_of_quiet (h : Rooted owner group t) (hquiet : Quiet owner t) {p : Nat}
    {e : Entry γ ν} (hp : t.get? p = some e) (hne : p ≠ owner) : e.parent = owner := by
  by_contra hother
  obtain ⟨parent, hparent, hended⟩ := isRunning_iff.mp (h.parents p e hp hne)
  have hgone := hquiet e.parent parent hparent hother
  rw [hended] at hgone
  cases hgone

/-- Taking someone away keeps it quiet. -/
theorem Quiet.erase (h : Quiet owner t) (child : Nat) : Quiet owner (t.erase child) := by
  intro p e hp hne
  rw [OrdMap.get?_erase] at hp
  split at hp
  · cases hp
  · exact h p e hp hne

/-- **A child of the owner stays one**, as only its owner waits for it. -/
theorem child_step {p : Nat} (h : IsChild owner t p) (event : Event ν) :
    IsChild owner (step owner t event) p := by
  obtain ⟨found, hfound, hparent⟩ := h
  cases event with
  | fork process child =>
    rw [step]
    split
    · split
      · exact ⟨found, hfound, hparent⟩
      · exact ⟨found, born_kept hfound, hparent⟩
    · exact ⟨found, hfound, hparent⟩
  | sibling process child =>
    rw [step]
    split
    · split
      · exact ⟨found, hfound, hparent⟩
      · exact ⟨found, born_kept hfound, hparent⟩
    · exact ⟨found, hfound, hparent⟩
  | exit process heir status =>
    rw [step]
    split
    · rename_i e he
      split
      · exact ⟨found, hfound, hparent⟩
      · rename_i hcan
        rw [not_or] at hcan
        have hkept : (found.inherited process heir).parent = owner := by
          rw [Entry.inherited, if_neg (fun heq => hcan.1 (heq.symm.trans hparent)), hparent]
        rw [IsChild, get?_exited]
        by_cases hp : p = process
        · rw [if_pos hp]
          rw [hp, he] at hfound
          cases hfound
          exact ⟨_, rfl, hkept⟩
        · rw [if_neg hp, hfound]
          exact ⟨_, rfl, hkept⟩
    · exact ⟨found, hfound, hparent⟩
  | wait process child =>
    rw [step]
    split
    · rename_i e he
      split
      · exact ⟨found, hfound, hparent⟩
      · rename_i hcan
        rw [not_or, not_or, not_not] at hcan
        refine ⟨found, ?_, hparent⟩
        rw [OrdMap.get?_erase, if_neg, hfound]
        rintro rfl
        rw [hfound] at he
        cases he
        exact hcan.1 (hcan.2.1.symm.trans hparent)
    · exact ⟨found, hfound, hparent⟩

theorem child_run {p : Nat} (h : IsChild owner t p) (events : List (Event ν)) :
    IsChild owner (run owner t events) p := by
  induction events generalizing t with
  | nil => exact h
  | cons event rest ih => exact ih (child_step h event)

/-- **The owner stays where it is**, and runs. -/
theorem owner_step {g : γ} (h : ∃ e, t.get? owner = some e ∧ e.ended = none ∧ e.group = g)
    (event : Event ν) :
    ∃ e, (step owner t event).get? owner = some e ∧ e.ended = none ∧ e.group = g := by
  obtain ⟨found, hfound, hnone, hgroup⟩ := h
  cases event with
  | fork process child =>
    rw [step]
    split
    · split
      · exact ⟨found, hfound, hnone, hgroup⟩
      · exact ⟨found, born_kept hfound, hnone, hgroup⟩
    · exact ⟨found, hfound, hnone, hgroup⟩
  | sibling process child =>
    rw [step]
    split
    · split
      · exact ⟨found, hfound, hnone, hgroup⟩
      · exact ⟨found, born_kept hfound, hnone, hgroup⟩
    · exact ⟨found, hfound, hnone, hgroup⟩
  | exit process heir status =>
    rw [step]
    split
    · split
      · exact ⟨found, hfound, hnone, hgroup⟩
      · rename_i hcan
        rw [not_or] at hcan
        rw [get?_exited, if_neg (Ne.symm hcan.1), hfound]
        exact ⟨_, rfl, inherited_ended.trans hnone, inherited_group.trans hgroup⟩
    · exact ⟨found, hfound, hnone, hgroup⟩
  | wait process child =>
    rw [step]
    split
    · rename_i e he
      split
      · exact ⟨found, hfound, hnone, hgroup⟩
      · rename_i hcan
        rw [not_or, not_or, not_or] at hcan
        refine ⟨found, ?_, hnone, hgroup⟩
        rw [OrdMap.get?_erase, if_neg, hfound]
        rintro rfl
        rw [hfound] at he
        cases he
        exact hcan.2.2.1 (by rw [hnone]; rfl)
    · exact ⟨found, hfound, hnone, hgroup⟩

theorem owner_run {g : γ} (h : ∃ e, t.get? owner = some e ∧ e.ended = none ∧ e.group = g)
    (events : List (Event ν)) :
    ∃ e, (run owner t events).get? owner = some e ∧ e.ended = none ∧ e.group = g := by
  induction events generalizing t with
  | nil => exact h
  | cons event rest ih => exact ih (owner_step h event)

end Conglobate.Processes
