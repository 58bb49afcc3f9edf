import Conglobate.Step.ExecutionProps

/- Who may unmount (`storage_released`).

   Only the end of a run unmounts, so the journal of a run is read from there: what
   came before is a teardown that completed, and behind a command that exited, an
   acknowledgment that certified it. -/
namespace Conglobate.Execution

open Process
open Journal (Enters Writes)

variable {R U N C D ε α : Type} {env : Environment R U N C D} {log log' : List Event}

/-! Entries about neither acknowledgments nor unmounting. -/

/-- An entry that is neither about an acknowledgment nor about unmounting. -/
def Event.Plain (e : Event) : Prop := ∀ deadline ok, e ≠ .performed .acknowledgment deadline ok ∧
    e ≠ .performed .unmount deadline ok

theorem plain_reading (t : Instant) : Event.Plain (.reading t) :=
  fun _ _ => ⟨Event.noConfusion, Event.noConfusion⟩

theorem plain_performed {operation : Operation} (hack : operation ≠ .acknowledgment)
    (hunmount : operation ≠ .unmount) (deadline : Option Instant) (ok : Bool) :
    Event.Plain (.performed operation deadline ok) := by
  intro deadline' ok'
  constructor
  · intro h
    exact hack (Event.performed.inj h).1
  · intro h
    exact hunmount (Event.performed.inj h).1

theorem now_plain : Enters Event.Plain (now env : Journal Event ε Instant) :=
  fun log => ⟨.ok (env.clock log.length), [.reading (env.clock log.length)], rfl,
    List.forall_mem_singleton.mpr (plain_reading _)⟩

theorem checkUntil_plain {deadline : Instant} {expired : String} :
    Enters Event.Plain (checkUntil env deadline expired) := by
  refine now_plain.bind (fun t => ?_)
  split
  · exact Enters.throw _
  · exact Enters.pure _

theorem perform_plain {operation : Operation} (hack : operation ≠ .acknowledgment)
    (hunmount : operation ≠ .unmount) (deadline : Option Instant) (answer : Except ε α) :
    Enters Event.Plain (perform operation deadline answer) :=
  Enters.enter (plain_performed hack hunmount deadline _) answer

theorem transfer_plain {step : Step R N} {budget : SetupBudget} :
    Enters Event.Plain (step.transfer env budget) :=
  checkUntil_plain.bind (fun _ => perform_plain (by decide) (by decide) _ _)

theorem awaitPrepared_plain {budget : SetupBudget} :
    Enters Event.Plain (budget.awaitPrepared env) := by
  refine checkUntil_plain.bind (fun _ => ?_)
  refine (perform_plain (by decide) (by decide) _ _).bind (fun _ => ?_)
  refine (perform_plain (by decide) (by decide) _ _).bind (fun _ => ?_)
  refine (perform_plain (by decide) (by decide) _ _).bind (fun _ => ?_)
  exact checkUntil_plain

theorem startUntil_plain {budget : SetupBudget} {deadline : Instant} :
    Enters Event.Plain (budget.startUntil env deadline) := by
  refine (perform_plain (by decide) (by decide) _ _).attempt.bind (fun started => ?_)
  cases started with
  | error source => exact Enters.throw _
  | ok _ =>
    refine now_plain.bind (fun t => ?_)
    split
    · exact Enters.throw _
    · exact Enters.pure _

theorem start_plain {budget : SetupBudget} {timeout : Nat} :
    Enters Event.Plain (budget.start env timeout) := by
  refine checkUntil_plain.attempt.bind (fun checked => ?_)
  cases checked with
  | error source => exact Enters.throw _
  | ok _ =>
    refine now_plain.bind (fun t => ?_)
    cases t.checkedAdd timeout with
    | none => exact Enters.throw _
    | some deadline => exact startUntil_plain

theorem observe_plain {command : RunningCommand} :
    Enters Event.Plain (command.observe env : Journal Event ε Observed) := by
  refine Enters.bind ?_ (fun outcome => now_plain.bind (fun t => Enters.pure _))
  refine (perform_plain (by decide) (by decide) _ _).attempt.bind (fun completed => ?_)
  cases completed with
  | error e => exact Enters.pure _
  | ok status =>
    refine now_plain.bind (fun t => ?_)
    split
    · exact Enters.pure _
    · exact Enters.pure _

theorem finishUntil_plain {deadline : Instant} : Enters Event.Plain (finishUntil env deadline) := by
  refine (perform_plain (by decide) (by decide) _ _).bind (fun _ => ?_)
  refine (perform_plain (by decide) (by decide) _ _).bind (fun _ => ?_)
  exact (perform_plain (by decide) (by decide) _ _).bind (fun _ => Enters.pure _)

theorem teardownUntil_plain {step : Step R N} {deadline : Instant} :
    Enters Event.Plain (step.teardownUntil env deadline) := by
  refine finishUntil_plain.bind (fun finished => checkUntil_plain.bind (fun _ => ?_))
  cases step.network with
  | none => exact Enters.pure _
  | some network =>
    refine Enters.bind ?_ (fun _ => Enters.pure _)
    exact checkUntil_plain.bind (fun _ => perform_plain (by decide) (by decide) _ _)

/-! Teardowns that completed. -/

/-- Cancellation, reap and drain succeeded under a deadline. -/
def stopped (deadline : Instant) : List Event :=
  [.performed .cancellation (some deadline) true, .performed .reap (some deadline) true,
    .performed .drain (some deadline) true]

theorem teardownUntil_writes {step : Step R N} {deadline : Instant} :
    Writes (fun r new => (∀ e ∈ new, e.Plain) ∧
      ∀ c : TeardownCompletion R C, r = .ok c → c.deadline = deadline ∧
        (stopped deadline).Sublist new)
      (step.teardownUntil env deadline) := by
  have hplain : Enters Event.Plain (step.teardownUntil env deadline) := teardownUntil_plain
  intro log
  obtain ⟨r, new, hrun, hplain⟩ := hplain log
  refine ⟨r, new, hrun, hplain, ?_⟩
  rintro c rfl
  obtain ⟨-, hlog, -, hdeadline⟩ := teardownUntil_eq_ok.mp hrun
  rw [List.append_assoc] at hlog
  refine ⟨hdeadline.symm, ?_⟩
  rw [List.append_cancel_left hlog]
  exact (List.sublist_append_left _ [_]).trans (List.sublist_append_left _ _)

/-- Entries that let go of the storage: the teardown under `deadline` completed, nothing was unmounted
    before, no acknowledgment failed, and that of a command that exited came. -/
structure Cleared (exited : Prop) (deadline : Instant) (front : List Event) : Prop where
  stopped : (stopped deadline).Sublist front
  first : ∀ d ok, .performed .unmount d ok ∉ front
  certified : ∀ d, .performed .acknowledgment d false ∉ front
  acknowledged : exited → .performed .acknowledgment (some deadline) true ∈ front

/-- What entries without acknowledgment and unmounting add. -/
theorem Cleared.of_plain {exited : Prop} {deadline : Instant} {front new : List Event}
    (h : Cleared exited deadline new) (hfront : ∀ e ∈ front, e.Plain) :
    Cleared exited deadline (front ++ new) := by
  refine ⟨h.stopped.trans (List.sublist_append_right front new), ?_, ?_, ?_⟩
  · intro d ok he
    rcases List.mem_append.mp he with he | he
    · exact (hfront _ he d ok).2 rfl
    · exact h.first d ok he
  · intro d he
    rcases List.mem_append.mp he with he | he
    · exact (hfront _ he d false).1 rfl
    · exact h.certified d he
  · exact fun hexited => List.mem_append_right front (h.acknowledged hexited)

/-- How a teardown ends: nothing is unmounted yet, and a completion is cleared. -/
def Clears (exited : Prop) (r : Except IoError (TeardownCompletion R C)) (new : List Event) :
    Prop :=
  (∀ d ok, .performed .unmount d ok ∉ new) ∧ ∀ completion, r = .ok completion →
    Cleared exited completion.deadline new

theorem Clears.of_plain {exited : Prop} {r : Except IoError (TeardownCompletion R C)}
    {front new : List Event} (h : Clears exited r new) (hfront : ∀ e ∈ front, e.Plain) :
    Clears exited r (front ++ new) := by
  refine ⟨fun d ok he => ?_, fun completion hr => (h.2 completion hr).of_plain hfront⟩
  rcases List.mem_append.mp he with he | he
  · exact (hfront _ he d ok).2 rfl
  · exact h.1 d ok he

theorem teardownUntil_clears {step : Step R N} {deadline : Instant} :
    Writes (Clears False) (step.teardownUntil env deadline : Journal Event IoError
      (TeardownCompletion R C)) := by
  refine Writes.imp teardownUntil_writes (fun r new h =>
    ⟨fun d ok he => (h.1 _ he d ok).2 rfl, fun completion hr => ?_⟩)
  obtain ⟨hdeadline, hstopped⟩ := h.2 completion hr
  rw [hdeadline]
  exact ⟨hstopped, fun d ok he => (h.1 _ he d ok).2 rfl,
    fun d he => (h.1 _ he d false).1 rfl, False.elim⟩

theorem teardown_clears {step : Step R N} :
    Writes (Clears False) (step.teardown env : Journal Event IoError (TeardownCompletion R C)) := by
  refine Writes.bind now_plain (fun e new h => ⟨fun d ok he => (h _ he d ok).2 rfl,
    fun completion hr => by cases hr⟩)
    (fun t new hnew => Writes.imp teardownUntil_clears (fun r next h => h.of_plain hnew))

/-- Behind a command that exited, a completion takes its acknowledgment. -/
theorem teardownAfterCommand_clears {step : Step R N} {deadline : Instant} {status : ExitStatus} :
    Writes (Clears True) (step.teardownAfterCommand env deadline status : Journal Event IoError
      (TeardownCompletion R C)) := by
  have hfirst : Enters (fun e => ∀ d ok, e ≠ .performed .unmount d ok)
      (step.teardownAfterCommand env deadline status : Journal Event IoError
          (TeardownCompletion R C)) := by
    refine Enters.bind (Enters.attempt (Enters.enter (fun d ok h => ?_) _)) (fun acknowledged => ?_)
    · cases h
    · refine Enters.bind (Enters.attempt (teardownUntil_plain.imp (fun e he d ok => (he d ok).2)))
        (fun cleaned => ?_)
      cases acknowledged with
      | ok _ => exact Enters.lift _
      | error primary =>
        cases cleaned with
        | ok completion => exact Enters.throw _
        | error cleanup => exact Enters.throw _
  intro log
  obtain ⟨r, new, hrun, hnew⟩ := hfirst log
  refine ⟨r, new, hrun, fun d ok he => hnew _ he d ok rfl, ?_⟩
  rintro completion rfl
  -- the same completion, of the teardown behind an acknowledgment that succeeded
  have hclears : Writes (Clears False) (step.teardownUntil env deadline : Journal Event IoError
      (TeardownCompletion R C)) :=
    teardownUntil_clears
  obtain ⟨-, hteardown⟩ := teardownAfterCommand_eq_ok.mp hrun
  obtain ⟨r, next, hnext, hcleared⟩ :=
    hclears (log ++ [.performed .acknowledgment (some deadline) true])
  obtain ⟨hr, hlog⟩ := Journal.ending_eq_ok.mp (hnext.symm.trans hteardown)
  rw [List.append_assoc] at hlog
  cases List.append_cancel_left hlog
  have h := hcleared.2 completion hr
  have hdeadline : completion.deadline = deadline := (teardownUntil_eq_ok.mp hteardown).2.2.2.symm
  refine ⟨h.stopped.trans (List.sublist_append_right _ next), ?_, ?_, fun _ => ?_⟩
  · exact fun d ok he => hnew _ he d ok rfl
  · intro d he
    rcases List.mem_cons.mp he with he | he
    · cases he
    · exact h.certified d he
  · rw [hdeadline]
    exact List.mem_cons_self

/-- The outcome of a command that exited. -/
def ExecutionOutcome.Exited (outcome : ExecutionOutcome) :
    Prop := ∃ status, outcome = .command (.exited status)

theorem observed_clears {observed : Observed} {step : Step R N} :
    Writes (Clears (ExecutionOutcome.command observed.outcome).Exited)
      (observed.teardown env step : Journal Event IoError (TeardownCompletion R C)) := by
  obtain ⟨outcome, deadline⟩ := observed
  cases outcome with
  | exited status =>
    rw [show (ExecutionOutcome.command (.exited status)).Exited = True from eq_true ⟨status, rfl⟩]
    exact teardownAfterCommand_clears
  | observationFailed error =>
    have hexited : (ExecutionOutcome.command (.observationFailed error)).Exited = False := by
      apply eq_false
      rintro ⟨status, h⟩
      cases h
    rw [hexited]
    exact teardownUntil_clears

/-! Unmounting. -/

/-- Entries with at most one unmount, under the deadline. -/
def Handed (deadline : Instant) (new : List Event) : Prop :=
  (∀ e ∈ new, e.Plain) ∨
  ∃ front ok rest, new = front ++ .performed .unmount (some deadline) ok :: rest ∧
    (∀ e ∈ front, e.Plain) ∧ ∀ e ∈ rest, e.Plain

theorem unmount_handed {completion : TeardownCompletion R C} :
    Writes (fun _ new => Handed completion.deadline new)
      (completion.unmount env : Journal Event IoError (FinalizedStorage U C)) := by
  refine Writes.bind checkUntil_plain (fun _ new h => .inl h) (fun _ front hfront => ?_)
  have hunmount : Writes (fun r new => new = [.performed .unmount
      (some completion.deadline) r.isOk])
      (perform .unmount (some completion.deadline)
        (env.unmountUntil completion.storage completion.deadline)) := Writes.enter rfl
  refine Writes.bind hunmount (fun e new h => .inr
    ⟨front, false, [], ?_, hfront, List.forall_mem_nil _⟩) (fun volume new h => ?_)
  · rw [h]
    rfl
  · have hrest : Enters Event.Plain (do
        perform .validate none (env.validate volume)
        Deadline.check env completion.deadline
        pure (⟨volume, completion.status, completion.reaped⟩ : FinalizedStorage U C)) :=
      (perform_plain (by decide) (by decide) _ _).bind
        (fun _ => checkUntil_plain.bind (fun _ => Enters.pure _))
    refine Writes.imp hrest (fun r rest hrest => .inr ⟨front, true, rest, ?_, hfront, hrest⟩)
    rw [h]
    rfl

/-- A journal whose storage was let go of properly: what unmounts, under the deadline of a teardown
    it is cleared by, is the only entry that does. -/
def Released (exited : Prop) (journal : List Event) : Prop :=
  ∀ before deadline ok after, journal = before ++ .performed .unmount deadline ok :: after →
    ∃ d, deadline = some d ∧ Cleared exited d before ∧ ∀ d' ok', .performed .unmount d' ok' ∉ after

theorem Released.of_not_mem {exited : Prop} {journal : List Event}
    (h : ∀ d ok, .performed .unmount d ok ∉ journal) :
    Released exited journal := by
  rintro before deadline ok after rfl
  exact absurd (List.mem_append_right before List.mem_cons_self) (h deadline ok)

theorem Released.imp {p q : Prop} {journal : List Event} (h : Released q journal) (hpq : p → q) :
    Released p journal := by
  intro before deadline ok after hjournal
  obtain ⟨d, hd, hcleared, hafter⟩ := h before deadline ok after hjournal
  exact ⟨d, hd, ⟨hcleared.stopped, hcleared.first, hcleared.certified,
    fun hp => hcleared.acknowledged (hpq hp)⟩, hafter⟩

/-- Where a list is split at the only element of a kind. -/
theorem split_unique {α : Type} {P : α → Prop} {front before after rest : List α} {a b : α}
    (h : front ++ a :: rest = before ++ b :: after) (hfront : ∀ x ∈ front, ¬ P x)
    (hrest : ∀ x ∈ rest, ¬ P x) (hb : P b) :
    front = before ∧ a = b ∧ rest = after := by
  rcases List.append_eq_append_iff.mp h with ⟨mid, hbefore, hmid⟩ | ⟨mid, hfront', hmid⟩
  · cases mid with
    | nil =>
      obtain ⟨ha, hr⟩ := List.cons.inj hmid
      exact ⟨by rw [hbefore, List.append_nil], ha, hr⟩
    | cons c mid =>
      obtain ⟨-, hr⟩ := List.cons.inj hmid
      exact absurd hb (hrest b (hr ▸ List.mem_append_right mid List.mem_cons_self))
  · cases mid with
    | nil =>
      obtain ⟨ha, hr⟩ := List.cons.inj hmid
      exact ⟨by rw [hfront', List.append_nil], ha.symm, hr.symm⟩
    | cons c mid =>
      obtain ⟨hc, -⟩ := List.cons.inj hmid
      exact absurd (hc ▸ hb) (hfront c (hfront' ▸ List.mem_append_right before List.mem_cons_self))

/-- Behind what clears it, an unmount is proper. -/
theorem Released.of_handed {exited : Prop} {deadline : Instant} {front new : List Event}
    (hfront : Cleared exited deadline front) (hnew : Handed deadline new) :
    Released exited (front ++ new) := by
  rcases hnew with hplain | ⟨plain, ok, rest, rfl, hplain, hrest⟩
  · refine Released.of_not_mem (fun d ok he => ?_)
    rcases List.mem_append.mp he with he | he
    · exact hfront.first d ok he
    · exact (hplain _ he d ok).2 rfl
  · have hcleared : Cleared exited deadline (front ++ plain) := by
      refine ⟨hfront.stopped.trans (List.sublist_append_left front plain), ?_, ?_,
        fun h => List.mem_append_left plain (hfront.acknowledged h)⟩
      · intro d ok he
        rcases List.mem_append.mp he with he | he
        · exact hfront.first d ok he
        · exact (hplain _ he d ok).2 rfl
      · intro d he
        rcases List.mem_append.mp he with he | he
        · exact hfront.certified d he
        · exact (hplain _ he d false).1 rfl
    intro before d ok' after hjournal
    rw [← List.append_assoc] at hjournal
    obtain ⟨rfl, h, rfl⟩ :=
      split_unique (P := fun e => ∃ d ok, e = .performed .unmount d ok) hjournal
      (fun e he => by rintro ⟨d, ok, rfl⟩; exact hcleared.first d ok he)
      (fun e he => by rintro ⟨d, ok, rfl⟩; exact (hrest _ he d ok).2 rfl) ⟨d, ok', rfl⟩
    cases h
    exact ⟨deadline, rfl, hcleared, fun d ok he => (hrest _ he d ok).2 rfl⟩

/-! Runs. -/

/-- The run observed that its command exited. -/
def ended (r : Except ExecutionError (ExecutedStorage U C)) : Prop :=
  match r with
  | .ok _ => True
  | .error e => e.outcome.Exited

theorem exited_of_success {outcome : ExecutionOutcome} (h : outcome.success = true) :
    outcome.Exited := by
  cases outcome with
  | setupFailed error => cases h
  | command outcome => exact ⟨⟨0⟩, congrArg _ (success_iff.mp h)⟩

theorem afterTeardown_released {outcome : ExecutionOutcome}
    {cleanup : Except IoError (TeardownCompletion R C)} :
    Writes (fun r new => ∀ front, Clears outcome.Exited cleanup front →
      Released (ended r) (front ++ new))
      (afterTeardown env outcome cleanup) := by
  have hunmount : Writes (fun _ new => ∀ front, Clears outcome.Exited cleanup front →
      Released outcome.Exited (front ++ new))
      (do
        let completion ← Journal.lift cleanup
        completion.unmount env : Journal Event IoError (FinalizedStorage U C)) := by
    cases cleanup with
    | error e =>
      refine Writes.bind (Writes.lift (Q := fun r new => r = .error e ∧ new = []) ⟨rfl, rfl⟩) ?_ ?_
      · intro e new h front hclears
        rw [h.2, List.append_nil]
        exact Released.of_not_mem hclears.1
      · intro completion new h
        cases h.1
    | ok completion =>
      refine Writes.bind (Writes.lift (Q := fun r new => r = .ok completion ∧
        new = []) ⟨rfl, rfl⟩) ?_ ?_
      · intro e new h
        cases h.1
      · intro completion new h
        cases h.1
        cases h.2
        exact Writes.imp unmount_handed (fun r new h front hclears => Released.of_handed
          (hclears.2 completion rfl) h)
  refine Writes.bind (Writes.attempt hunmount) (fun e new h => ?_) (fun cleanup new h => ?_)
  · obtain ⟨s, hs, -⟩ := h
    cases hs
  · obtain ⟨s, hs, hnew⟩ := h
    cases hs
    cases cleanup with
    | ok finalized =>
      cases hsuccess : outcome.success with
      | true =>
        refine Writes.pure (fun front hclears => ?_)
        rw [List.append_nil]
        exact (hnew front hclears).imp (fun _ => exited_of_success hsuccess)
      | false =>
        refine Writes.throw (fun front hclears => ?_)
        rw [List.append_nil]
        exact hnew front hclears
    | error e =>
      cases outcome.success with
      | true =>
        refine Writes.throw (fun front hclears => ?_)
        rw [List.append_nil]
        exact hnew front hclears
      | false =>
        refine Writes.throw (fun front hclears => ?_)
        rw [List.append_nil]
        exact hnew front hclears

/-- What follows a teardown, behind steps that are neither acknowledgments nor unmounts. -/
theorem after_clears {outcome : ExecutionOutcome}
    {x : Journal Event IoError (TeardownCompletion R C)} (hx : Writes (Clears outcome.Exited) x) :
    Writes (fun r new => ∀ front : List Event, (∀ e ∈ front, e.Plain) →
      Released (ended r) (front ++ new))
      (do
        let cleanup ← Journal.attempt x
        afterTeardown env outcome cleanup) := by
  refine Writes.bind (Writes.attempt hx) (fun e new h => ?_) (fun cleanup new h => ?_)
  · obtain ⟨s, hs, -⟩ := h
    cases hs
  · obtain ⟨s, hs, hclears⟩ := h
    cases hs
    refine Writes.imp afterTeardown_released (fun r next h front hfront => ?_)
    rw [← List.append_assoc]
    exact h (front ++ new) (hclears.of_plain hfront)

theorem rejectSetup_released {step : Step R N} {error : IoError} :
    Writes (fun r new => ∀ front : List Event, (∀ e ∈ front, e.Plain) →
      Released (ended r) (front ++ new))
      (step.rejectSetup env error) := by
  have hexited : (ExecutionOutcome.setupFailed error).Exited = False := by
    apply eq_false
    rintro ⟨status, h⟩
    cases h
  apply after_clears
  rw [hexited]
  exact teardown_clears

/-- What is proper behind plain steps is proper behind more of them. -/
theorem Released.attempt_bind {x : Journal Event ε α}
    {f : Except ε α → Journal Event ExecutionError (ExecutedStorage U C)}
    (hx : Enters Event.Plain x)
    (hf : ∀ s, Writes (fun r new => ∀ front : List Event, (∀ e ∈ front, e.Plain) →
    Released (ended r) (front ++ new)) (f s)) :
    Writes (fun r new => ∀ front : List Event, (∀ e ∈ front, e.Plain) →
      Released (ended r) (front ++ new))
      (Journal.attempt x >>= f) := by
  refine Writes.bind (Writes.attempt hx) (fun e new h => ?_) (fun s new h => ?_)
  · obtain ⟨s, hs, -⟩ := h
    cases hs
  · obtain ⟨_, -, hplain⟩ := h
    refine Writes.imp (hf s) (fun r next h front hfront => ?_)
    rw [← List.append_assoc]
    exact h (front ++ new) (List.forall_mem_append.mpr ⟨hfront, hplain⟩)

/-- **Every run lets go of its storage properly.** -/
theorem execute_released {step : Step R N} {budget : SetupBudget} {timeout : Nat} :
    Writes (fun r new => ∀ front : List Event, (∀ e ∈ front, e.Plain) →
      Released (ended r) (front ++ new))
      (step.execute env budget timeout) := by
  refine Released.attempt_bind transfer_plain (fun transferred => ?_)
  cases transferred with
  | error e => exact rejectSetup_released
  | ok _ =>
    refine Released.attempt_bind awaitPrepared_plain (fun prepared => ?_)
    cases prepared with
    | error e => exact rejectSetup_released
    | ok _ =>
      refine Released.attempt_bind start_plain (fun started => ?_)
      cases started with
      | error failure => exact rejectSetup_released
      | ok command =>
        refine Writes.bind observe_plain (fun e new h front hfront => ?_) (fun observed new h => ?_)
        · refine Released.of_not_mem (fun d ok he => ?_)
          rcases List.mem_append.mp he with he | he
          · exact (hfront _ he d ok).2 rfl
          · exact (h _ he d ok).2 rfl
        · refine Writes.imp (after_clears observed_clears) (fun r next hreleased front hfront => ?_)
          rw [← List.append_assoc]
          exact hreleased (front ++ new) (List.forall_mem_append.mpr ⟨hfront, h⟩)

/-- **Acceptance and release.** A step is accepted when every operation succeeded, each before its
    deadline, the command exited with zero, and the unmounted volume is valid; and whatever fails or
    expires, storage is unmounted at most once, by the teardown deadline and behind a teardown that
    completed by it, and never where the acknowledgment of a command that exited failed. -/
theorem execution_accepts_and_releases (env : Environment R U N C D) (step : Step R N)
    (budget : SetupBudget) (timeout : Nat) :
    ((∃ executed journal, step.execute env budget timeout [] = .ok executed journal) ↔
      Completed env step budget timeout ∧ Validated env step) ∧
    ∃ r journal, step.execute env budget timeout [] = Journal.ending r journal ∧
      Released (ended r) journal := by
  refine ⟨execute_eq_ok, ?_⟩
  have hreleased : Writes (fun r new => ∀ front : List Event, (∀ e ∈ front, e.Plain) →
      Released (ended r) (front ++ new))
      (step.execute env budget timeout) := execute_released
  obtain ⟨r, new, hrun, h⟩ := hreleased []
  exact ⟨r, new, hrun, h [] (List.forall_mem_nil _)⟩

/-- Operations that all succeed, a nanosecond each, and a volume that is not what it should be. -/
def corrupted : Environment Unit Unit Unit Unit Unit where
  clock n := n
  send _ _ _ := .ok ()
  pair := .ok ()
  sendGateUntil _ := .ok ()
  waitReadyUntil _ := .ok ()
  startReportingUntil _ := .ok ()
  completionUntil _ := .ok ⟨0⟩
  receive _ := .ok (.cleaned ⟨0⟩)
  cancellation _ := .ok ()
  waitUntil _ := .ok ⟨0⟩
  drainUntil _ := .ok ()
  closeResolver _ := .ok ()
  unmountUntil _ _ := .ok ()
  validate _ := .error (.invalidData "invalid snapshot")

/-- The operations alone do not make a step accepted: what was unmounted is validated. -/
theorem corrupted_snapshot_rejected :
    ¬ ((∃ executed journal, (Step.mk () none).execute corrupted
      ⟨100⟩ 100 [] = .ok executed journal) ↔ Completed corrupted (Step.mk () none) ⟨100⟩ 100) := by
  have hcompleted : Completed corrupted (Step.mk () none) ⟨100⟩ 100 :=
    { transferred := ⟨by decide, rfl⟩
      prepared := ⟨by decide, rfl, rfl, rfl, by decide⟩
      started := ⟨by decide, by decide, rfl, by decide⟩
      exited := ⟨rfl, by decide⟩
      acknowledged := ⟨⟨0⟩, rfl, by decide⟩
      stopped := ⟨rfl, ⟨_, rfl⟩, ⟨_, rfl⟩, by decide⟩
      closed := fun network h => by cases h
      unmounted := ⟨by decide, ⟨_, rfl⟩, by decide⟩ }
  intro h
  have hvalid := (execute_eq_ok.mp (h.mpr hcompleted)).2 () rfl
  cases hvalid

end Conglobate.Execution
