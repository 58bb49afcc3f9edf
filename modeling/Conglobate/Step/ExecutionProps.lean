import Conglobate.Step.Execution

/- Accepting a command, and releasing its storage (`execution_accepts_and_releases`).

   An accepted run is the one path on which every operation succeeded and every clock
   reading came before its deadline: each function below is described by when it
   succeeds, with the journal it then leaves, and `Accepted` is these conditions along
   that path. What every run keeps, accepted or not, is a property of its journal. -/
namespace Conglobate.Execution

open Process

variable {R U N C D ε α : Type} {env : Environment R U N C D} {log log' : List Event}

/-! Single steps. -/

@[simp] theorem now_eq_ok {t : Instant} :
    (now env : Journal Event ε Instant) log = .ok t log' ↔ t = env.clock log.length ∧
    log' = log ++ [.reading (env.clock log.length)] := by
  show EStateM.Result.ok _ _ = _ ↔ _
  rw [EStateM.Result.ok.injEq]
  exact and_congr eq_comm eq_comm

@[simp] theorem perform_eq_ok {operation : Operation} {deadline : Option Instant}
    {answer : Except ε α} {a : α} :
    perform operation deadline answer log = .ok a log' ↔ answer = .ok a ∧
      log' = log ++ [.performed operation deadline true] := by
  rw [perform, Journal.enter_eq_ok]
  apply and_congr_right
  rintro rfl
  rfl

@[simp] theorem checkUntil_eq_ok {deadline : Instant} {expired : String} {u : Unit} :
    checkUntil env deadline expired log = .ok u log' ↔
      env.clock log.length < deadline ∧ log' = log ++ [.reading (env.clock log.length)] := by
  rw [checkUntil, Journal.bind_eq_ok]
  constructor
  · rintro ⟨t, mid, hnow, h⟩
    obtain ⟨rfl, rfl⟩ := now_eq_ok.mp hnow
    split at h
    · cases h
    · rename_i hbefore
      exact ⟨Nat.lt_of_not_le hbefore, (Journal.pure_eq_ok.mp h).2.symm⟩
  · rintro ⟨hbefore, rfl⟩
    refine ⟨_, _, now_eq_ok.mpr ⟨rfl, rfl⟩, ?_⟩
    rw [if_neg (Nat.not_le_of_lt hbefore)]
    rfl

/-! Setup and start. -/

theorem transfer_eq_ok {step : Step R N} {budget : SetupBudget} {u : Unit} :
    step.transfer env budget log = .ok u log' ↔
      (env.clock log.length < budget.deadline ∧ env.send step.storage step.network budget.deadline =
        .ok u) ∧
      log' = log ++ [.reading (env.clock log.length), .performed .send
        (some budget.deadline) true] := by
  simp [Step.transfer, SetupBudget.check, and_assoc]

theorem awaitPrepared_eq_ok {budget : SetupBudget} {u : Unit} :
    budget.awaitPrepared env log = .ok u log' ↔
      (env.clock log.length < budget.deadline ∧ env.pair = .ok () ∧
        env.sendGateUntil budget.deadline = .ok () ∧
        env.waitReadyUntil budget.deadline = .ok () ∧ env.clock (log.length + 4) <
          budget.deadline) ∧
      log' = log ++ [.reading (env.clock log.length), .performed .pair none true,
        .performed .sendGate (some budget.deadline) true, .performed .waitReady
          (some budget.deadline) true,
        .reading (env.clock (log.length + 4))] := by
  simp [SetupBudget.awaitPrepared, SetupBudget.check, and_assoc, Nat.add_assoc, Unique.exists_iff]

theorem startUntil_eq_ok {budget : SetupBudget} {deadline : Instant} {command : RunningCommand} :
    budget.startUntil env deadline log = .ok command log' ↔
      (env.startReportingUntil (min budget.deadline deadline) = .ok () ∧
        env.clock (log.length + 1) < min budget.deadline deadline) ∧
      command = ⟨deadline⟩ ∧
      log' = log ++ [.performed .start (some (min budget.deadline deadline)) true,
        .reading (env.clock (log.length + 1))] := by
  simp only [SetupBudget.startUntil]
  generalize min budget.deadline deadline = admission
  rw [Journal.attempt_bind_eq_ok_of_error]
  · by_cases hlate : env.clock (log.length + 1) < admission
    · simp [hlate, Nat.not_le_of_lt hlate, Unique.exists_iff, @eq_comm _ _ command,
        @eq_comm _ _ log']
    · simp [hlate, Nat.le_of_not_lt hlate]
  · simp

theorem start_eq_ok {budget : SetupBudget} {timeout : Nat} {command : RunningCommand} :
    budget.start env timeout log = .ok command log' ↔
      (env.clock log.length < budget.deadline ∧ env.clock (log.length + 1) + timeout ≤
        Instant.last ∧
        env.startReportingUntil (min budget.deadline (env.clock (log.length + 1) + timeout)) =
          .ok () ∧
        env.clock (log.length + 3) < min budget.deadline (env.clock (log.length + 1) + timeout)) ∧
      command = ⟨env.clock (log.length + 1) + timeout⟩ ∧
      log' = log ++ [.reading (env.clock log.length), .reading (env.clock (log.length + 1)),
        .performed .start (some (min budget.deadline (env.clock (log.length + 1) + timeout))) true,
        .reading (env.clock (log.length + 3))] := by
  rw [SetupBudget.start, Journal.attempt_bind_eq_ok_of_error]
  · by_cases hfits : env.clock (log.length + 1) + timeout ≤ Instant.last
    · simp [SetupBudget.check, Instant.checkedAdd, hfits, startUntil_eq_ok, and_assoc,
        Nat.add_assoc]
    · simp [SetupBudget.check, Instant.checkedAdd, hfits]
  · simp

/-! Observation and teardown. -/

theorem report_exited {command : RunningCommand} {status : ExitStatus} :
    (command.report env : Journal Event ε _) log = .ok (.exited status) log' ↔
      (env.completionUntil command.deadline = .ok status ∧
        env.clock (log.length + 1) < command.deadline) ∧
      log' = log ++ [.performed .completion (some command.deadline) true,
        .reading (env.clock (log.length + 1))] := by
  rw [RunningCommand.report, Journal.attempt_bind_eq_ok_of_error]
  · by_cases hlate : env.clock (log.length + 1) < command.deadline
    · simp [hlate, Nat.not_le_of_lt hlate, @eq_comm _ _ log']
    · simp [hlate, Nat.le_of_not_lt hlate]
  · simp

/-- A command that is observed to have exited. -/
theorem observe_exited {command : RunningCommand} {status : ExitStatus} {deadline : Instant} :
    (command.observe env : Journal Event ε Observed) log = .ok ⟨.exited status, deadline⟩ log' ↔
      (env.completionUntil command.deadline = .ok status ∧
        env.clock (log.length + 1) < command.deadline) ∧
      log' = log ++ [.performed .completion (some command.deadline) true,
        .reading (env.clock (log.length + 1)), .reading (env.clock (log.length + 2))] ∧
      deadline = env.clock (log.length + 2) + teardownTimeout := by
  simp [RunningCommand.observe, report_exited, and_assoc, @eq_comm _ _ deadline]

theorem finishUntil_eq_ok {deadline : Instant} {finished : ExitStatus × C} :
    finishUntil env deadline log = .ok finished log' ↔
      (env.cancellation deadline = .ok () ∧ env.waitUntil deadline = .ok finished.1 ∧
        env.drainUntil deadline = .ok finished.2) ∧
      log' = log ++ [.performed .cancellation (some deadline) true, .performed .reap
        (some deadline) true, .performed .drain (some deadline) true] := by
  obtain ⟨status, children⟩ := finished
  simp [finishUntil, except_mapError_eq_ok, and_assoc, Unique.exists_iff]

/-- The entries of a network's closing. -/
def closing (env : Environment R U N C D) (step : Step R N) (deadline : Instant) (position : Nat) :
    List Event :=
  if step.network.isSome then
    [.reading (env.clock position), .performed .close (some deadline) true] else []

theorem teardownUntil_eq_ok {step : Step R N} {deadline : Instant} {c : TeardownCompletion R C} :
    step.teardownUntil env deadline log = .ok c log' ↔
      (env.cancellation deadline = .ok () ∧ env.waitUntil deadline = .ok c.status ∧
        env.drainUntil deadline = .ok c.reaped ∧ env.clock (log.length + 3) < deadline ∧
        ∀ network, step.network = some network →
          env.clock (log.length + 4) < deadline ∧ env.closeResolver network = .ok ()) ∧
      log' = log ++ [.performed .cancellation (some deadline) true, .performed .reap
        (some deadline) true,
        .performed .drain (some deadline) true, .reading (env.clock (log.length + 3))] ++
        closing env step deadline (log.length + 4) ∧
      step.storage = c.storage ∧ deadline = c.deadline := by
  obtain ⟨status, reaped, storage, until'⟩ := c
  cases hnetwork : step.network with
  | none =>
    simp [Step.teardownUntil, Deadline.check, closing, hnetwork, finishUntil_eq_ok, and_assoc]
  | some network =>
    simp [Step.teardownUntil, Deadline.check, closeNetwork, closing, hnetwork, finishUntil_eq_ok,
      and_assoc, Nat.add_assoc, Unique.exists_iff]

theorem teardownAfterCommand_eq_ok {step : Step R N} {deadline : Instant} {status : ExitStatus}
    {completion : TeardownCompletion R C} :
    step.teardownAfterCommand env deadline status log = .ok completion log' ↔
      certify status (env.receive deadline) = .ok () ∧
      step.teardownUntil env deadline (log ++ [.performed .acknowledgment (some deadline) true]) =
        .ok completion log' := by
  rw [Step.teardownAfterCommand, Journal.attempt_bind_eq_ok_of_error]
  · simp only [Journal.attempt_bind_eq_ok]
    simp [Journal.lift_eq_ok, Unique.exists_iff]
  · -- without the acknowledgment, a teardown that completes is an error too
    intro e mid h
    rcases Journal.attempt_bind_eq_ok.mp h with ⟨completion, mid', _, h⟩ | ⟨cleanup, mid', _, h⟩
    · cases h
    · cases h

theorem unmount_eq_ok {completion : TeardownCompletion R C} {finalized : FinalizedStorage U C} :
    completion.unmount env log = .ok finalized log' ↔
      (env.clock log.length < completion.deadline ∧
        env.unmountUntil completion.storage completion.deadline = .ok finalized.volume ∧
          env.validate finalized.volume = .ok () ∧
        env.clock (log.length + 3) < completion.deadline) ∧
      log' = log ++ [.reading (env.clock log.length), .performed .unmount
        (some completion.deadline) true,
        .performed .validate none true, .reading (env.clock (log.length + 3))] ∧
      completion.status = finalized.status ∧ completion.reaped = finalized.reaped := by
  obtain ⟨volume, status, reaped⟩ := finalized
  simp [TeardownCompletion.unmount, Deadline.check, and_assoc, Nat.add_assoc, Unique.exists_iff]

/-! Execution. -/

theorem success_iff {outcome : CommandOutcome} :
    outcome.success = true ↔ outcome = .exited ⟨0⟩ := by
  cases outcome with
  | exited status =>
    obtain ⟨raw⟩ := status
    simp [CommandOutcome.success, ExitStatus.success]
  | observationFailed error => simp [CommandOutcome.success]

theorem afterTeardown_eq_ok {outcome : ExecutionOutcome}
    {cleanup : Except IoError (TeardownCompletion R C)} {executed : ExecutedStorage U C} :
    afterTeardown env outcome cleanup log = .ok executed log' ↔
      outcome.success = true ∧ ∃ completion finalized, cleanup = .ok completion ∧
        completion.unmount env log = .ok finalized log' ∧
          executed = ⟨finalized.volume, finalized.reaped⟩ := by
  rw [afterTeardown, Journal.attempt_bind_eq_ok_of_error]
  · cases outcome.success with
    | true =>
      simp only [Journal.pure_eq_ok, Journal.bind_eq_ok, Journal.lift_eq_ok, true_and]
      constructor
      · rintro ⟨finalized, mid, ⟨completion, _, ⟨hcleanup, rfl⟩, hunmount⟩, rfl, rfl⟩
        exact ⟨completion, finalized, hcleanup, hunmount, rfl⟩
      · rintro ⟨completion, finalized, hcleanup, hunmount, rfl⟩
        exact ⟨finalized, log', ⟨completion, log, ⟨hcleanup, rfl⟩, hunmount⟩, rfl, rfl⟩
    | false => simp
  · simp

/-- `expect_err` of `reject_setup` does not fail. -/
theorem rejectSetup_ne_ok {step : Step R N} {error : IoError} {executed : ExecutedStorage U C} :
    step.rejectSetup env error log ≠ .ok executed log' := by
  simp [Step.rejectSetup, afterTeardown_eq_ok, ExecutionOutcome.success]

/-! Acceptance. -/

/-- The deadline of the command, fixed where it is admitted. -/
def commandDeadline (env : Environment R U N C D) (timeout : Nat) : Instant := env.clock 8 + timeout

/-- The deadline of the teardown, fixed where the command was observed. -/
def teardownDeadline (env : Environment R U N C D) : Instant := env.clock 13 + teardownTimeout

/-- Where an accepted run begins to unmount: closing a network takes two steps. -/
def unmountPosition (step : Step R N) : Nat := if step.network.isSome then 21 else 19

/-- Every operation succeeded, each before its deadline. -/
structure Completed (env : Environment R U N C D) (step : Step R N) (budget : SetupBudget)
    (timeout : Nat) : Prop where
  transferred : env.clock 0 < budget.deadline ∧ env.send step.storage step.network budget.deadline =
    .ok ()
  prepared : env.clock 2 < budget.deadline ∧ env.pair = .ok () ∧
    env.sendGateUntil budget.deadline = .ok () ∧
    env.waitReadyUntil budget.deadline = .ok () ∧ env.clock 6 < budget.deadline
  started : env.clock 7 < budget.deadline ∧ commandDeadline env timeout ≤ Instant.last ∧
    env.startReportingUntil (min budget.deadline (commandDeadline env timeout)) = .ok () ∧
    env.clock 10 < min budget.deadline (commandDeadline env timeout)
  exited : env.completionUntil (commandDeadline env timeout) = .ok ⟨0⟩ ∧
    env.clock 12 < commandDeadline env timeout
  acknowledged : ∃ status, env.receive (teardownDeadline env) = .ok (.cleaned status) ∧
    status.code = some (ExitStatus.shellCode ⟨0⟩)
  stopped : env.cancellation (teardownDeadline env) = .ok () ∧
    (∃ status, env.waitUntil (teardownDeadline env) = .ok status) ∧
    (∃ reaped, env.drainUntil (teardownDeadline env) = .ok reaped) ∧
      env.clock 18 < teardownDeadline env
  closed : ∀ network, step.network = some network →
    env.clock 19 < teardownDeadline env ∧ env.closeResolver network = .ok ()
  unmounted : env.clock (unmountPosition step) < teardownDeadline env ∧
    (∃ volume, env.unmountUntil step.storage (teardownDeadline env) = .ok volume) ∧
    env.clock (unmountPosition step + 3) < teardownDeadline env

/-- What was unmounted is valid. -/
def Validated (env : Environment R U N C D) (step : Step R N) : Prop :=
  ∀ volume, env.unmountUntil step.storage (teardownDeadline env) = .ok volume →
    env.validate volume = .ok ()

theorem length_closing {step : Step R N} {deadline : Instant} {n : Nat} :
    19 + (closing env step deadline n).length = unmountPosition step := by
  unfold closing unmountPosition
  split
  · rfl
  · rfl

/-- **An accepted run.** -/
theorem execute_eq_ok {step : Step R N} {budget : SetupBudget} {timeout : Nat} :
    (∃ executed log', step.execute env budget timeout [] = .ok executed log') ↔
      Completed env step budget timeout ∧ Validated env step := by
  constructor
  · rintro ⟨executed, log', h⟩
    rw [Step.execute, Journal.attempt_bind_eq_ok_of_error (fun e mid => rejectSetup_ne_ok)] at h
    obtain ⟨_, log₁, htransfer, h⟩ := h
    obtain ⟨htransferred, rfl⟩ := transfer_eq_ok.mp htransfer
    replace h := (Journal.attempt_bind_eq_ok_of_error (fun e mid => rejectSetup_ne_ok)).mp h
    obtain ⟨_, log₂, hprepare, h⟩ := h
    obtain ⟨hprepared, rfl⟩ := awaitPrepared_eq_ok.mp hprepare
    replace h := (Journal.attempt_bind_eq_ok_of_error (fun e mid => rejectSetup_ne_ok)).mp h
    obtain ⟨command, log₃, hstart, h⟩ := h
    obtain ⟨hstarted, rfl, rfl⟩ := start_eq_ok.mp hstart
    obtain ⟨observed, log₄, hobserve, h⟩ := Journal.bind_eq_ok.mp h
    obtain ⟨cleanup, log₅, hteardown, h⟩ := Journal.bind_eq_ok.mp h
    obtain ⟨hsuccess, completion, finalized, rfl, hunmount, rfl⟩ := afterTeardown_eq_ok.mp h
    obtain ⟨outcome, deadline⟩ := observed
    cases success_iff.mp hsuccess
    obtain ⟨hexited, rfl, rfl⟩ := observe_exited.mp hobserve
    obtain ⟨hcertified, hteardown⟩ :=
      teardownAfterCommand_eq_ok.mp (Journal.attempt_eq_ok_ok.mp hteardown)
    obtain ⟨⟨hcancelled, hreaped, hdrained, hstopped, hclosed⟩, rfl, hstorage, hdeadline⟩ :=
      teardownUntil_eq_ok.mp hteardown
    obtain ⟨⟨hopen, hunmounted, hvalid, hdone⟩, -⟩ := unmount_eq_ok.mp hunmount
    rw [← hdeadline] at hopen hunmounted hdone
    rw [← hstorage] at hunmounted
    rw [List.length_append, show List.length _ = 19 from rfl] at hopen hdone
    rw [length_closing] at hopen hdone
    refine ⟨⟨htransferred, hprepared, hstarted, hexited, certify_eq_ok.mp hcertified,
      ⟨hcancelled, ⟨_, hreaped⟩, ⟨_, hdrained⟩, hstopped⟩, hclosed, ?_, ⟨_, hunmounted⟩, ?_⟩, ?_⟩
    · exact hopen
    · exact hdone
    · intro volume hvolume
      cases hunmounted.symm.trans hvolume
      exact hvalid
  · rintro ⟨h, hvalid⟩
    obtain ⟨status, hreaped⟩ := h.stopped.2.1
    obtain ⟨reaped, hdrained⟩ := h.stopped.2.2.1
    obtain ⟨volume, hunmounted⟩ := h.unmounted.2.1
    -- the last step names the journal
    have hteardown : ∀ log : List Event, log.length = 14 →
        (Observed.teardown env ⟨.exited ⟨0⟩, teardownDeadline env⟩ step) log =
          .ok (⟨status, reaped, step.storage, teardownDeadline env⟩ : TeardownCompletion R C)
            (log ++ [.performed .acknowledgment (some (teardownDeadline env)) true] ++
              [.performed .cancellation (some (teardownDeadline env)) true, .performed .reap
                (some (teardownDeadline env)) true,
                .performed .drain (some (teardownDeadline env)) true, .reading (env.clock 18)] ++
              closing env step (teardownDeadline env) 19) := by
      intro log hlog
      refine teardownAfterCommand_eq_ok.mpr ⟨certify_eq_ok.mpr h.acknowledged,
        teardownUntil_eq_ok.mpr ?_⟩
      rw [List.length_append, hlog]
      exact ⟨⟨h.stopped.1, hreaped, hdrained, h.stopped.2.2.2, h.closed⟩, rfl, rfl, rfl⟩
    have hunmount : ∀ log : List Event, log.length = unmountPosition step →
        ∃ log', afterTeardown env (.command (.exited ⟨0⟩))
          (.ok (⟨status, reaped, step.storage, teardownDeadline env⟩ : TeardownCompletion R C)) log =
            .ok ⟨volume, reaped⟩ log' := by
      intro log hlog
      refine ⟨_, afterTeardown_eq_ok.mpr ⟨rfl, _, ⟨volume, status, reaped⟩, rfl,
        unmount_eq_ok.mpr ⟨?_, rfl, rfl, rfl⟩, rfl⟩⟩
      rw [hlog]
      exact ⟨h.unmounted.1, hunmounted, hvalid volume hunmounted, h.unmounted.2.2⟩
    refine ⟨⟨volume, reaped⟩, ?_⟩
    rw [Step.execute, Journal.attempt_bind_of_ok ((transfer_eq_ok
      (u := ())).mpr ⟨h.transferred, rfl⟩)]
    dsimp only
    rw [Journal.attempt_bind_of_ok ((awaitPrepared_eq_ok (u := ())).mpr ⟨h.prepared, rfl⟩)]
    dsimp only
    rw [Journal.attempt_bind_of_ok (start_eq_ok.mpr ⟨h.started, rfl, rfl⟩)]
    dsimp only
    rw [Journal.bind_of_ok (observe_exited.mpr ⟨h.exited, rfl, rfl⟩)]
    show ∃ log', (Journal.attempt (Observed.teardown env
      ⟨.exited ⟨0⟩, teardownDeadline env⟩ step) >>= _) _ = .ok _ log'
    rw [Journal.attempt_bind_of_ok (hteardown _ rfl)]
    apply hunmount
    rw [List.length_append, show List.length _ = 19 from rfl, length_closing]

end Conglobate.Execution
