import Conglobate.Lib.Processes
import Conglobate.Lib.Triple
import Conglobate.Process.Control

/- Waiting for processes (`process/mod.rs`, `observation.rs`, `reaper.rs`,
   `deadline.rs`).

   The supervisor waits for the helper it started, then for everyone it inherited. Its
   calls are the steps of a run: before each of them the other processes do what they
   do (`Kernel.others`), so a run is one interleaving of many. A call sees the processes
   as they are then, and may be refused. The clock has a reading for every call.

   Correspondence (Rust ↔ Lean):
     the process table, the domain's directory,
       whether it was killed                     ↔ `World`
     a system call that may be refused           ↔ `enter`
     `Instant::now`                              ↔ `now`
     `Deadline::remaining`                       ↔ `remaining`
     `poll` with a timeout                       ↔ `poll`
     `ProcessObservation::has_exited`            ↔ `hasExited`
     `ProcessObservation::wait_until`            ↔ `waitExit`
     `Child::try_wait`                           ↔ `tryWait`
     `Process<Identified>::wait_until`           ↔ `waitUntil`
     `waitpid(None, WNOHANG | __WALL)`           ↔ `waitAny`
     `ChildReaper::drain`, `wait_for_child`      ↔ `drain`, `waitForChild`
   A loop has a bound on its rounds (`Kernel.rounds`). Process numbers are never used
   again, as one stays taken until its owner waits for it. -/
namespace Conglobate.Process

open Processes Effect

/-- Where a process was born. -/
inductive Cgroup where
  | outside
  | domain
  deriving DecidableEq, Repr

structure World where
  processes : Table Cgroup ExitStatus
  /-- The domain's directory. -/
  directory : Bool
  /-- `cgroup.kill` was written. -/
  killed : Bool
  calls : Nat

/-- What the calls meet, by their number. -/
structure Kernel where
  supervisor : Nat
  /-- The supervisor's domain lease, its subreaper setting, its procfs. -/
  lease : Nat → Except IoError Unit
  subreaper : Nat → Bool
  procfs : Nat → Bool
  clock : Nat → Nat
  refuses : Nat → Option IoError
  /-- What the other processes do before the call. -/
  others : Nat → List (Event ExitStatus)
  frozen : Nat → Bool
  /-- A polled descriptor says `NVAL` or `HUP`. -/
  unavailable : Nat → Bool
  /-- Which of several children is given. -/
  picks : Nat → Nat
  rounds : Nat

abbrev Run (α : Type) : Type := Effect World IoError α

/-- Not an error of the source: the bound of a loop. -/
def unfinished : IoError := ⟨.other, "unfinished"⟩

section Calls
variable (k : Kernel)

/-- The others' turn, and one call. -/
def World.advance (w : World) : World :=
  { w with processes := Processes.run k.supervisor w.processes (k.others w.calls), calls := w.calls + 1 }

def enter : Run Unit := fun w =>
  match k.refuses w.calls with
  | some e => .error e (w.advance k)
  | none => .ok () (w.advance k)

def now : Run Nat := fun w => .ok (k.clock w.calls) (w.advance k)

/-- Any time left until then. -/
def remaining (deadline : Nat) (expired : String) : Run Unit := do
  let t ← now k
  if t < deadline then pure () else throw ⟨.timedOut, expired⟩

/-- An interrupted wait is over like any other. -/
def poll : Run Unit := fun w =>
  match k.refuses w.calls with
  | some e => if e.kind = .interrupted then .ok () (w.advance k) else .error e (w.advance k)
  | none => .ok () (w.advance k)

/-- One of a list, as the kernel has it. -/
def pick (w : World) (l : List Nat) : Option Nat := l[k.picks w.calls % l.length]?

/-! One process. -/

def hasExited (process : Nat) : Run Bool := do
  enter k
  let w ← get
  pure (!isRunning w.processes process)

def waitExit (process deadline : Nat) : Nat → Run Unit
  | 0 => throw unfinished
  | rounds + 1 => hasExited k process >>= fun exited =>
    if exited then pure () else do
      remaining k deadline "process exit deadline expired"
      poll k
      waitExit process deadline rounds

/-- "No child processes (os error 10)" -/
def noChild : IoError := ⟨.other, "No child processes (os error 10)"⟩

/-- Whether the child has ended, with its status: then it is waited for. -/
def collect (w : World) (process : Nat) : Except IoError (Option ExitStatus × World) :=
  match w.processes.get? process with
  | none => .error noChild
  | some e =>
    if e.parent ≠ k.supervisor then .error noChild
    else .ok (e.ended, if e.ended.isSome then
      { w with processes := w.processes.erase process } else w)

def tryWait (process : Nat) : Run (Option ExitStatus) := do
  enter k
  let w ← get
  let found ← Effect.lift (collect k w process)
  set found.2
  pure found.1

/-- `WaitError::Deadline`. -/
def reapDeadline (e : IoError) : IoError :=
  if e.kind = .timedOut then ⟨.timedOut, "helper reap deadline expired"⟩ else e

def waitUntil (process deadline : Nat) : Nat → Run ExitStatus
  | 0 => throw unfinished
  | rounds + 1 => tryWait k process >>= fun status =>
    match status with
    | some status => pure status
    | none => do
      EStateM.adaptExcept reapDeadline (waitExit k process deadline k.rounds)
      waitUntil process deadline rounds

/-! All that are left. -/

/-- The supervisor's children. -/
def children (w : World) : List Nat :=
  (w.processes.entries.filter (fun e => e.2.parent = k.supervisor &&
    e.1 ≠ k.supervisor)).map Prod.fst

def endedChildren (w : World) : List Nat :=
  (w.processes.entries.filter (fun e => e.2.parent = k.supervisor && e.1 ≠ k.supervisor &&
    e.2.ended.isSome)).map Prod.fst

inductive Waited where
  | noChildren
  | stillAlive
  | reaped (process : Nat)
  | interrupted

def waitAny : Run Waited := fun w =>
  match k.refuses w.calls with
  | some e =>
    if e.kind = .interrupted then
      .ok .interrupted (w.advance k)
    else
      .error e (w.advance k)
  | none =>
    if children k (w.advance k) = [] then .ok .noChildren (w.advance k)
    else
      match pick k w (endedChildren k (w.advance k)) with
      | none => .ok .stillAlive (w.advance k)
      | some process =>
        .ok (.reaped process) { w.advance k with processes := (w.advance k).processes.erase process }

def waitForChild (deadline : Nat) : Run Unit := do
  enter k
  let w ← get
  match pick k w (children k w) with
  | none => throw ⟨.other, "waitable children missing from procfs"⟩
  | some process => do
    -- the child stays as it is until its owner waits for it
    enter k
    enter k
    let w ← get
    if k.procfs w.calls then waitExit k process deadline k.rounds
    else throw ⟨.other, "child pidfd does not match procfs PID view"⟩

/-- `checked_add` of a `u64`. -/
def counted (collected : Nat) : Except IoError Nat :=
  if collected + 1 < 2 ^ 64 then
    .ok (collected + 1)
  else
    .error ⟨.other, "child drain count overflow"⟩

def drainLoop (deadline : Nat) : Nat → Nat → Run Nat
  | 0, _ => throw unfinished
  | rounds + 1, collected => waitAny k >>= fun waited =>
    match waited with
    | .noChildren => pure collected
    | .interrupted => drainLoop deadline rounds collected
    | .stillAlive => do
      waitForChild k deadline
      drainLoop deadline rounds collected
    | .reaped _ => do
      let collected ← Effect.lift (counted collected)
      let t ← now k
      if deadline ≤ t then
        throw ⟨.timedOut, "child drain deadline expired"⟩
      else
        drainLoop deadline rounds collected

/-- How many were left. -/
def drain (deadline : Nat) : Run Nat := do
  enter k
  let w ← get
  if k.subreaper w.calls then drainLoop k deadline k.rounds 0
  else throw ⟨.other, "supervisor subreaper identity or setting changed"⟩

end Calls

end Conglobate.Process
