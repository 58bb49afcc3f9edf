import Conglobate.Lib.Journal
import Conglobate.Process.Control

/- Protected command steps (`step/execution.rs`, `setup.rs`, `outcome.rs`,
   `teardown.rs`, `finalize.rs`, `domain/helper.rs`).

   A step owns the storage a command may write until the command and every descendant
   have stopped. What the operations of a step answer is an `Environment`: each may
   succeed, fail or expire, with an answer that may depend on the deadline it is given,
   and the clock has a reading for every point of a run. A run keeps a journal of its
   clock readings and operations, by which these points are counted.

   Correspondence (Rust ↔ Lean):
     `Instant`, `Instant::checked_add`      ↔ `Instant`, `checkedAdd`
     `Instant::now`                         ↔ `now`
     `StepStorage`, `CommandNetwork`,
       `ReapedChildren`                     ↔ the types `R`, `N`, `C`
     `CommandStorage::Unmounted`            ↔ the type `U`
     `send`, `unmount_until`, `validate` of
       `CommandStorage`                     ↔ `Environment.send`, `unmountUntil`, `validate`
     `ExecutionGate`, `Supervision`,
       `DomainCancellation`, `Process`,
       `ChildReaper`, `ResolverSource`      ↔ the other fields of `Environment`
     a `match` on an `io::Result`           ↔ `Journal.attempt`
     `SetupBudget::check`, `Deadline::check` ↔ `SetupBudget.check`, `Deadline.check`
     `reject_setup`, and the same inlined   ↔ `rejectSetup`
     `Step`, `SetupBudget`, `await_prepared`,
       `start`, `observe`, `finish_until`,
       `teardown_until`,
       `teardown_after_command`, `unmount`,
       `after_teardown`, `execute`          ↔ the same names -/
namespace Conglobate.Execution

open Process

/-- Nanoseconds of the monotonic clock. -/
abbrev Instant : Type := Nat

/-- The last one: `i64` seconds. -/
def Instant.last : Instant := (2 ^ 63 - 1) * 1000000000 + 999999999

def Instant.checkedAdd (t : Instant) (duration : Nat) : Option Instant :=
  if t + duration ≤ last then some (t + duration) else none

/-- 30 seconds. -/
def teardownTimeout : Nat := 30000000000

inductive WaitError where
  | io (error : IoError)
  | deadline
  deriving DecidableEq, Repr

/-- What the operations of a step answer. -/
structure Environment (R U N C D : Type) where
  /-- The reading after so many steps of the run. -/
  clock : Nat → Instant
  send : R → Option N → Instant → Except IoError Unit
  pair : Except IoError Unit
  sendGateUntil : Instant → Except IoError Unit
  waitReadyUntil : Instant → Except IoError Unit
  startReportingUntil : Instant → Except IoError Unit
  completionUntil : Instant → Except IoError ExitStatus
  /-- The packet behind the gate transfer. -/
  receive : Instant → Except IoError (Packet D)
  cancellation : Instant → Except IoError Unit
  waitUntil : Instant → Except WaitError ExitStatus
  drainUntil : Instant → Except IoError C
  closeResolver : N → Except IoError Unit
  unmountUntil : R → Instant → Except IoError U
  validate : U → Except IoError Unit

inductive Operation where
  | send | pair | sendGate | waitReady | start | completion
  | acknowledgment | cancellation | reap | drain | close | unmount | validate
  deriving DecidableEq, Repr

/-- An entry of the journal. -/
inductive Event where
  | reading (t : Instant)
  | performed (operation : Operation) (deadline : Option Instant) (succeeded : Bool)
  deriving DecidableEq, Repr

structure Step (R N : Type) where
  storage : R
  network : Option N

structure SetupBudget where
  deadline : Instant
  deriving DecidableEq, Repr

structure RunningCommand where
  deadline : Instant
  deriving DecidableEq, Repr

inductive CommandStartFailure where
  | ready (source : IoError)
  | late (source : IoError) (command : RunningCommand)
  deriving DecidableEq, Repr

inductive CommandOutcome where
  | exited (status : ExitStatus)
  | observationFailed (error : IoError)
  deriving DecidableEq, Repr

inductive ExecutionOutcome where
  | setupFailed (error : IoError)
  | command (outcome : CommandOutcome)
  deriving DecidableEq, Repr

/-- An outcome, in the context of a cleanup that completed or failed. -/
structure ExecutionError where
  outcome : ExecutionOutcome
  cleanup : Option IoError
  deriving DecidableEq, Repr

/-- Observed command with its original, already-running cleanup budget. -/
structure Observed where
  outcome : CommandOutcome
  deadline : Instant
  deriving DecidableEq, Repr

structure TeardownCompletion (R C : Type) where
  status : ExitStatus
  reaped : C
  storage : R
  deadline : Instant

structure FinalizedStorage (U C : Type) where
  volume : U
  status : ExitStatus
  reaped : C

structure ExecutedStorage (U C : Type) where
  volume : U
  reaped : C

def CommandOutcome.success : CommandOutcome → Bool
  | .exited status => status.success
  | .observationFailed _ => false

def ExecutionOutcome.success : ExecutionOutcome → Bool
  | .command outcome => outcome.success
  | .setupFailed _ => false

def CommandStartFailure.source : CommandStartFailure → IoError
  | .ready source => source
  | .late source _ => source

variable {R U N C D ε α : Type} (env : Environment R U N C D)

def now : Journal Event ε Instant := fun log =>
  .ok (env.clock log.length) (log ++ [.reading (env.clock log.length)])

/-- An operation under a deadline, or under none. -/
def perform (operation : Operation) (deadline : Option Instant) (answer : Except ε α) :
    Journal Event ε α :=
  Journal.enter (.performed operation deadline answer.isOk) answer

/-- A clock reading before a deadline. -/
def checkUntil (deadline : Instant) (expired : String) : Journal Event IoError Unit := do
  let t ← now env
  if deadline ≤ t then throw ⟨.timedOut, expired⟩ else pure ()

/-! Setup and start. -/

namespace SetupBudget

def check (budget : SetupBudget) : Journal Event IoError Unit :=
  checkUntil env budget.deadline "fixed step setup deadline expired"

def awaitPrepared (budget : SetupBudget) : Journal Event IoError Unit := do
  budget.check env
  perform .pair none env.pair
  perform .sendGate (some budget.deadline) (env.sendGateUntil budget.deadline)
  perform .waitReady (some budget.deadline) (env.waitReadyUntil budget.deadline)
  budget.check env

/-- The end of `PreparedStep::start`, under the deadline of the command. -/
def startUntil (budget : SetupBudget) (deadline : Instant) :
    Journal Event CommandStartFailure RunningCommand := do
  let admission := min budget.deadline deadline
  match ← Journal.attempt (perform .start (some admission) (env.startReportingUntil admission)) with
  | .error source => throw (.ready source)
  | .ok () =>
    let t ← now env
    if admission ≤ t then
      throw (.late ⟨.timedOut, "command start deadline expired"⟩ ⟨deadline⟩)
    else
      pure ⟨deadline⟩

/-- `PreparedStep::start`. -/
def start (budget : SetupBudget) (timeout : Nat) :
    Journal Event CommandStartFailure RunningCommand := do
  match ← Journal.attempt (budget.check env) with
  | .error source => throw (.ready source)
  | .ok () =>
    let t ← now env
    match t.checkedAdd timeout with
    | none => throw (.ready (.invalidInput "command deadline overflows"))
    | some deadline => budget.startUntil env deadline

end SetupBudget

/-- A report is late from the deadline on. -/
def RunningCommand.report (command : RunningCommand) : Journal Event ε CommandOutcome := do
  match ← Journal.attempt (perform .completion (some command.deadline)
      (env.completionUntil command.deadline)) with
  | .error error => pure (.observationFailed error)
  | .ok status =>
    let t ← now env
    if command.deadline ≤ t then
      pure (.observationFailed ⟨.timedOut, "command completion observed after execution deadline"⟩)
    else pure (.exited status)

/-- The teardown deadline is fixed here. -/
def RunningCommand.observe (command : RunningCommand) : Journal Event ε Observed := do
  let outcome ← command.report env
  let t ← now env
  pure ⟨outcome, t + teardownTimeout⟩

/-! Teardown. -/

/-- `teardown::Deadline::check`. -/
def Deadline.check (deadline : Instant) : Journal Event IoError Unit :=
  checkUntil env deadline "fixed step teardown deadline expired"

/-- `CommandNetwork::close`. -/
def closeNetwork (network : N) (deadline : Instant) : Journal Event IoError Unit := do
  checkUntil env deadline "network cleanup deadline expired"
  perform .close (some deadline) (env.closeResolver network)

def WaitError.toIo : WaitError → IoError
  | .io error => error
  | .deadline => ⟨.timedOut, "helper reap deadline expired"⟩

/-- `ContainedHelper::finish_until`. -/
def finishUntil (deadline : Instant) : Journal Event IoError (ExitStatus × C) := do
  perform .cancellation (some deadline) (env.cancellation deadline)
  let status ← perform .reap (some deadline) ((env.waitUntil deadline).mapError WaitError.toIo)
  let children ← perform .drain (some deadline) (env.drainUntil deadline)
  pure (status, children)

namespace Step

def teardownUntil (step : Step R N) (deadline : Instant) :
    Journal Event IoError (TeardownCompletion R C) := do
  let finished ← finishUntil env deadline
  Deadline.check env deadline
  match step.network with
  | none => pure ()
  | some network => closeNetwork env network deadline
  pure ⟨finished.1, finished.2, step.storage, deadline⟩

def teardown (step : Step R N) : Journal Event IoError (TeardownCompletion R C) := do
  let t ← now env
  step.teardownUntil env (t + teardownTimeout)

/-- A missing acknowledgment does not prevent the teardown, but its storage is forgotten. -/
def teardownAfterCommand (step : Step R N) (deadline : Instant) (status : ExitStatus) :
    Journal Event IoError (TeardownCompletion R C) := do
  let acknowledged ← Journal.attempt (perform .acknowledgment (some deadline)
    (certify status (env.receive deadline)))
  let cleaned ← Journal.attempt (step.teardownUntil env deadline)
  match acknowledged, cleaned with
  | .ok (), result => Journal.lift result
  | .error error, .ok _ => throw error
  | .error primary, .error cleanup =>
    throw ⟨primary.kind, primary.message ++ "; cancellation: " ++ cleanup.message⟩

end Step

/-- `CommandResult::teardown`. -/
def Observed.teardown (observed : Observed) (step : Step R N) :
    Journal Event IoError (TeardownCompletion R C) :=
  match observed.outcome with
  | .exited status => step.teardownAfterCommand env observed.deadline status
  | .observationFailed _ => step.teardownUntil env observed.deadline

def TeardownCompletion.unmount (completion : TeardownCompletion R C) :
    Journal Event IoError (FinalizedStorage U C) := do
  Deadline.check env completion.deadline
  let volume ← perform .unmount (some completion.deadline)
    (env.unmountUntil completion.storage completion.deadline)
  perform .validate none (env.validate volume)
  Deadline.check env completion.deadline
  pure ⟨volume, completion.status, completion.reaped⟩

/-! Execution. -/

/-- `ExecutedStorage::after_teardown`. -/
def afterTeardown (outcome : ExecutionOutcome) (cleanup : Except IoError (TeardownCompletion R C)) :
    Journal Event ExecutionError (ExecutedStorage U C) := do
  let cleanup ← Journal.attempt (do
    let completion ← Journal.lift cleanup
    completion.unmount env)
  match outcome.success, cleanup with
  | true, .ok finalized => pure ⟨finalized.volume, finalized.reaped⟩
  | false, .ok _ => throw ⟨outcome, none⟩
  | _, .error error => throw ⟨outcome, some error⟩

namespace Step

def rejectSetup (step : Step R N) (error : IoError) :
    Journal Event ExecutionError (ExecutedStorage U C) := do
  let cleanup ← Journal.attempt (step.teardown env)
  afterTeardown env (.setupFailed error) cleanup

/-- The transfer of the assigned volume. -/
def transfer (step : Step R N) (budget : SetupBudget) : Journal Event IoError Unit := do
  budget.check env
  perform .send (some budget.deadline) (env.send step.storage step.network budget.deadline)

def execute (step : Step R N) (budget : SetupBudget) (timeout : Nat) :
    Journal Event ExecutionError (ExecutedStorage U C) := do
  match ← Journal.attempt (step.transfer env budget) with
  | .error error => step.rejectSetup env error
  | .ok () =>
    match ← Journal.attempt (budget.awaitPrepared env) with
    | .error error => step.rejectSetup env error
    | .ok () =>
      match ← Journal.attempt (budget.start env timeout) with
      | .error failure => step.rejectSetup env failure.source
      | .ok command =>
        let observed ← command.observe env
        let cleanup ← Journal.attempt (observed.teardown env step)
        afterTeardown env (.command observed.outcome) cleanup

end Step

end Conglobate.Execution
