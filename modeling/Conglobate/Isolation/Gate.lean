import Conglobate.Process.PacketProps

/- The execution gate (`isolation/gate.rs`).

   The supervisor and the resident init hold the two ends of a pair of sockets. A call
   on an end is a loop of rounds: it reads the clock, polls, and sends or receives what
   the kernel lets it. `step` is one round of either party, a call they begin, or the
   drop of an end, so a run is any interleaving of these; the kernel's answers are part
   of an event, and a datagram that is received is always the next one sent. Where a
   party is not to be relied on, its end may also send any datagram at any time.

   Correspondence (Rust ↔ Lean):
     `Deadline::remaining`, `poll`          ↔ `wait`, with a reading and a `Poll`
     `CompletionPacket::new`, `status`      ↔ `CompletionPacket.new`, `status`
     `CompletionPacket::validate`           ↔ `Packet.validStatus`
     `Socket::send`, `receive`              ↔ one round of them: `sending`, `receiving`
     the tests on what was received         ↔ `checkOpcode`, `checkCompletion`
     `ExecutionGate<S>`, `ExecutionEndpoint`,
       `CompletionEndpoint`                 ↔ `Supervisor`, `Init`: a typestate, or a call on it
     `pair`                                 ↔ `State.pair`
     `Drop for Control`, closing an end     ↔ `State.shut`
     `wait_ready_until`,
       `start_reporting_until`,
       `completion_until`                   ↔ `Event.waitReady`, `startReporting`, `completion`, then rounds
     `ready_for_reporting`, `report`        ↔ `Event.readyForReporting`, then rounds; `Event.report` -/
namespace Conglobate.Isolation

open Process

variable {D α σ : Type}

/-! Packets. -/

/-- The packet of an opcode. -/
def opcodePacket (opcode : UInt8) : Datagram D := ⟨[0x82, 1, opcode], []⟩

/-- What a four-byte buffer received has to be. -/
def checkOpcode (opcode : UInt8) (d : Datagram D) : Except IoError Unit := do
  let received ← receiveNow 4 d
  if received.bytes.length = 0 then .error ⟨.unexpectedEof, "execution gate closed"⟩
  else if received.bytes.length ≠ 3 ∨ received.bytes.take 3 ≠ [0x82, 1, opcode] ∨
      !received.descriptors.isEmpty then
    .error (.invalidData "invalid execution gate packet")
  else .ok ()

namespace CompletionPacket

def new (status : ExitStatus) : Except IoError Bytes :=
  if Packet.validStatus status.raw then .ok ([0x83, 1, 3, 0x44] ++ Bytes.be 4 status.raw.toNat)
  else .error (.invalidData "nonterminal command status")

def status (bytes : Bytes) : Except IoError ExitStatus :=
  if bytes.take 4 ≠ [0x83, 1, 3, 0x44] then .error (.invalidData "invalid command status packet")
  else if Packet.validStatus (BitVec.ofNat 32 (Bytes.ofBe (bytes.drop 4))) then
    .ok ⟨BitVec.ofNat 32 (Bytes.ofBe (bytes.drop 4))⟩
  else .error (.invalidData "nonterminal command status")

end CompletionPacket

/-- What a nine-byte buffer received has to be. -/
def checkCompletion (d : Datagram D) : Except IoError ExitStatus := do
  let received ← receiveNow 9 d
  if received.bytes.length = 0 then .error ⟨.unexpectedEof, "command status peer closed"⟩
  else if received.bytes.length ≠ 8 ∨ !received.descriptors.isEmpty then
    .error (.invalidData "invalid command status packet")
  else CompletionPacket.status received.bytes

/-! Rounds. -/

/-- The datagrams sent one way, and how many of them were received. -/
structure Channel (D : Type) where
  sent : List (Datagram D)
  read : Nat
  deriving DecidableEq, Repr

namespace Channel

def put (c : Channel D) (d : Datagram D) : Channel D := { c with sent := c.sent ++ [d] }

def next (c : Channel D) : Option (Datagram D) := c.sent[c.read]?

def advance (c : Channel D) : Channel D := { c with read := c.read + 1 }

/-- The next datagram. At the end of a channel that was shut down, there are no bytes. -/
def receive (c : Channel D) (shut : Bool) : Option (Datagram D × Channel D) :=
  match c.next with
  | some d => some (d, c.advance)
  | none => if shut then some (⟨[], []⟩, c) else none

end Channel

/-- What `poll` answers: no event, an event that is or is not the one of interest, or an error. -/
inductive Poll where
  | timeout
  | ready (contains : Bool)
  | failed (error : IoError)
  deriving DecidableEq, Repr

/-- A round of a loop goes on or ends the call. -/
inductive Round (α : Type) where
  | again
  | done (r : Except IoError α)

/-- Where a round leaves the party that was in `stay`. -/
def Round.settle (r : Round α) (stay : σ) (next : α → σ) (failed : IoError → σ) : σ :=
  match r with
  | .again => stay
  | .done (.ok a) => next a
  | .done (.error e) => failed e

/-- `Socket::wait`, of one poll. -/
def wait (deadline now : Nat) : Poll → Round Unit
  | poll =>
    if deadline ≤ now then .done (.error ⟨.timedOut, "execution gate deadline expired"⟩)
    else
      match poll with
      | .timeout => .again
      | .ready true => .done (.ok ())
      | .ready false => .done (.error ⟨.brokenPipe, "execution gate peer lost"⟩)
      | .failed e => if e.kind = .interrupted then .again else .done (.error e)

/-- An error that is retried. -/
def retried (e : IoError) : Bool := e.kind == .wouldBlock || e.kind == .interrupted

/-- `Socket::send`, of one attempt; the answer tells whether all bytes were sent. -/
def sending (c : Channel D) (shut : Bool) (d : Datagram D) (deadline now : Nat) (poll : Poll)
    (answer : Except IoError Bool) :
    Option (Channel D × Round Unit) :=
  match wait deadline now poll with
  | .again => some (c, .again)
  | .done (.error e) => some (c, .done (.error e))
  | .done (.ok ()) =>
    match answer with
    | .ok true => if shut then none else some (c.put d, .done (.ok ()))
    | .ok false => some (c, .done (.error ⟨.other, "short execution gate packet"⟩))
    | .error e => some (c, if retried e then .again else .done (.error e))

/-- `Socket::receive` and the loop of `completion_until`, of one attempt. -/
def receiving (c : Channel D) (shut : Bool) (check : Datagram D → Except IoError α)
    (deadline now : Nat) (poll : Poll) (answer : Except IoError Bool) :
    Option (Channel D × Round α) :=
  match wait deadline now poll with
  | .again => some (c, .again)
  | .done (.error e) => some (c, .done (.error e))
  | .done (.ok ()) =>
    match answer with
    | .ok _ => (c.receive shut).map (fun r => (r.2, .done (check r.1)))
    | .error e => some (c, if retried e then .again else .done (.error e))

/-! Parties. -/

inductive Party where
  | supervisor
  | init
  deriving DecidableEq, Repr

/-- A gate in one of its states, in a call under a deadline, or gone. -/
inductive Supervisor where
  | waiting
  | awaitingReady (deadline : Nat)
  | ready
  | starting (deadline : Nat)
  | started
  | awaitingCompletion (deadline : Nat)
  | completed (status : ExitStatus)
  | failed (error : IoError)
  | dropped
  deriving DecidableEq, Repr

inductive Init where
  | endpoint
  | announcing (deadline : Nat)
  | awaitingStart (deadline : Nat)
  | reporter
  | reported (status : ExitStatus)
  | failed (error : IoError)
  | dropped
  deriving DecidableEq, Repr

/-- A call consumes its gate: it is gone with an error and with a status. -/
def Supervisor.live : Supervisor → Bool
  | .completed _ | .failed _ | .dropped => false
  | _ => true

def Init.live : Init → Bool
  | .reported _ | .failed _ | .dropped => false
  | _ => true

/-- The deadline of the call the party is in. -/
def Supervisor.deadline : Supervisor → Option Nat
  | .awaitingReady deadline | .starting deadline | .awaitingCompletion deadline => some deadline
  | _ => none

def Init.deadline : Init → Option Nat
  | .announcing deadline | .awaitingStart deadline => some deadline
  | _ => none

/-- Init obtained its completion endpoint. -/
def Init.authorized : Init → Bool
  | .reporter | .reported _ => true
  | _ => false

structure State (D : Type) where
  supervisor : Supervisor
  init : Init
  up : Channel D
  down : Channel D
  shut : Bool
  deriving DecidableEq, Repr

namespace State

def pair : State D := ⟨.waiting, .endpoint, ⟨[], 0⟩, ⟨[], 0⟩, false⟩

def setSupervisor (s : State D) (p : Supervisor) :
    State D := { s with supervisor := p, shut := s.shut || !p.live }

def setInit (s : State D) (p : Init) : State D := { s with init := p, shut := s.shut || !p.live }

end State

inductive Event (D : Type) where
  | waitReady (deadline : Nat)
  | startReporting (deadline : Nat)
  | completion (deadline : Nat)
  | supervisorRound (now : Nat) (poll : Poll) (answer : Except IoError Bool)
  | dropSupervisor
  | readyForReporting (deadline : Nat)
  | initRound (now : Nat) (poll : Poll) (answer : Except IoError Bool)
  | report (status : ExitStatus) (answer : Except IoError Bool)
  | dropInit
  | inject (end' : Party) (d : Datagram D)

/-- A round of the call the supervisor is in. -/
def supervisorRound (s : State D) (now : Nat) (poll : Poll) (answer : Except IoError Bool) :
    Option (State D) :=
  match s.supervisor with
  | .awaitingReady deadline =>
    (receiving s.up s.shut (checkOpcode 1) deadline now poll answer).map (fun r =>
      { s with up := r.1 }.setSupervisor (r.2.settle s.supervisor (fun _ => .ready) .failed))
  | .starting deadline =>
    (sending s.down s.shut (opcodePacket 2) deadline now poll answer).map (fun r =>
      { s with down := r.1 }.setSupervisor (r.2.settle s.supervisor (fun _ => .started) .failed))
  | .awaitingCompletion deadline =>
    (receiving s.up s.shut checkCompletion deadline now poll answer).map (fun r =>
      { s with up := r.1 }.setSupervisor (r.2.settle s.supervisor .completed .failed))
  | _ => none

/-- A round of `ready_for_reporting`. -/
def initRound (s : State D) (now : Nat) (poll : Poll) (answer : Except IoError Bool) :
    Option (State D) :=
  match s.init with
  | .announcing deadline =>
    (sending s.up s.shut (opcodePacket 1) deadline now poll answer).map (fun r =>
      { s with up := r.1 }.setInit (r.2.settle s.init (fun _ => .awaitingStart deadline) .failed))
  | .awaitingStart deadline =>
    (receiving s.down s.shut (checkOpcode 2) deadline now poll answer).map (fun r =>
      { s with down := r.1 }.setInit (r.2.settle s.init (fun _ => .reporter) .failed))
  | _ => none

/-- An attempt of `report`: only an interrupted one is made again. -/
def report (s : State D) (status : ExitStatus) (answer : Except IoError Bool) : Option (State D) :=
  if s.init = .reporter then
    match CompletionPacket.new status with
    | .error e => some (s.setInit (.failed e))
    | .ok bytes =>
      match answer with
      | .ok true =>
        if s.shut then
          none
        else
          some ({ s with up := s.up.put ⟨bytes, []⟩ }.setInit (.reported status))
      | .ok false => some (s.setInit (.failed ⟨.other, "short command status packet"⟩))
      | .error e => some (if e.kind = .interrupted then s else s.setInit (.failed e))
  else none

def step (s : State D) : Event D → Option (State D)
  | .waitReady deadline =>
    if s.supervisor = .waiting then
      some (s.setSupervisor (.awaitingReady deadline))
    else
      none
  | .startReporting deadline =>
    if s.supervisor = .ready then
      some (s.setSupervisor (.starting deadline))
    else
      none
  | .completion deadline =>
    if s.supervisor = .started then
      some (s.setSupervisor (.awaitingCompletion deadline))
    else
      none
  | .supervisorRound now poll answer => supervisorRound s now poll answer
  | .dropSupervisor => if s.supervisor.live then some (s.setSupervisor .dropped) else none
  | .readyForReporting deadline =>
    if s.init = .endpoint then
      some (s.setInit (.announcing deadline))
    else
      none
  | .initRound now poll answer => initRound s now poll answer
  | .report status answer => report s status answer
  | .dropInit => if s.init.live then some (s.setInit .dropped) else none
  | .inject .supervisor d => if s.shut then none else some { s with down := s.down.put d }
  | .inject .init d => if s.shut then none else some { s with up := s.up.put d }

/-- The states of an interleaving. -/
def run (s : State D) (events : List (Event D)) : Option (State D) := events.foldlM step s

/-- Only the ends of parties that are not relied on send datagrams of their own. -/
def Event.Allowed (rogue : Party → Prop) : Event D → Prop
  | .inject p _ => rogue p
  | _ => True

end Conglobate.Isolation
