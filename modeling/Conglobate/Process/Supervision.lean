import Conglobate.Isolation.Gate
import Conglobate.Process.Control

/- Supervision of a helper (`process/identity.rs`, `process/supervision`, `execution/helper.rs`).

   The supervisor and the receiver of a command hold the two ends of a pair of sockets. They
   exchange their identities, the receiver places itself in the command's domain, takes the
   command's volume and its gate, runs it, cleans up after it and reports that. A call on an
   end is a loop of rounds, as on the gate; what the receiver does on its own between two
   calls is one step (`proceed`), which may fail. A run is any interleaving of the steps of
   both, of deaths of either process at any time, and where a party is not to be relied on,
   of any datagrams of its end. The supervisor calls what it will, in any order.

   Correspondence (Rust ↔ Lean):
     `IdentitySocket::ready`                ↔ `ready`, with a reading and a `Poll`
     `send_current_with`, `receive_with`,
       `Packet::send`, `receive`            ↔ one round of them: `sending`, `receiving`
     `IdentitySocket::OFFER` and its test   ↔ `identityPacket`, `checkIdentity`
     `Supervision<Unpaired | Paired | Joined>` ↔ `Supervisor`, `Helper`: a typestate, or a call on it
     `exchange_until`                       ↔ `Event.exchange`, then rounds
     `join_helper_until`                    ↔ `Event.join`, then rounds
     `send_volume_until`, `send_gate_until` ↔ `Event.send`, then rounds
     `cleanup_until`                        ↔ `Event.cleanup`, then rounds
     `Drop for ControlSocket`               ↔ `State.shut`
     `has_exited`                           ↔ `State.dead`, where the kernel tells it
     `peer_lost`, `wait_for_loss_until`     ↔ `peerLost`, `Event.observe`
     `Role::Receiver` in `run`              ↔ `Helper`: a phase for each call and between them
     `receive_volume_until`, `prepare`      ↔ `volumeInput`, `inspect`, `prepare` -/
namespace Conglobate.Process.Supervision

open Isolation (Channel Poll Round retried)

variable {D α σ : Type}

inductive Party where
  | supervisor
  | helper
  deriving DecidableEq, Repr

/-- What the descriptors are. -/
structure Descriptors (D : Type) where
  /-- `pidfd_open(getpid())` -/
  self : Party → D
  /-- The party whose process it is. -/
  process : D → Option Party
  identifies : ∀ p, process (self p) = some p
  cgroup2 : D → Bool
  directory : D → Bool
  nsfs : D → Bool
  /-- A restricted read-only file mount of a tmpfs. -/
  resolver : D → Bool
  seqpacket : D → Bool
  /-- The device and the inode of both. -/
  same : D → D → Bool

/-! Rounds. -/

/-- `IdentitySocket::ready`, of one poll. -/
def ready (deadline now : Nat) : Poll → Round Unit
  | poll =>
    if deadline ≤ now then .done (.error ⟨.timedOut, "identity exchange deadline expired"⟩)
    else
      match poll with
      | .timeout => .again
      | .ready _ => .done (.ok ())
      | .failed e => if e.kind = .interrupted then .again else .done (.error e)

/-- The loop of a send, of one attempt. -/
def sending (c : Channel D) (shut : Bool) (d : Datagram D) (deadline now : Nat) (poll : Poll)
    (answer : Except IoError Unit) :
    Option (Channel D × Round Unit) :=
  match ready deadline now poll with
  | .again => some (c, .again)
  | .done (.error e) => some (c, .done (.error e))
  | .done (.ok ()) =>
    match answer with
    | .ok () => if shut then none else some (c.put d, .done (.ok ()))
    | .error e => some (c, if retried e then .again else .done (.error e))

/-- The loop of a receive, of one attempt. -/
def receiving (c : Channel D) (shut : Bool) (check : Datagram D → Except IoError α)
    (deadline now : Nat) (poll : Poll) (answer : Except IoError Unit) :
    Option (Channel D × Round α) :=
  match ready deadline now poll with
  | .again => some (c, .again)
  | .done (.error e) => some (c, .done (.error e))
  | .done (.ok ()) =>
    match answer with
    | .ok () => (c.receive shut).map (fun r => (r.2, .done (check r.1)))
    | .error e => some (c, if retried e then .again else .done (.error e))

/-! Packets. -/

/-- `IdentitySocket::OFFER` with the sender's own descriptor. -/
def identityPacket (fd : D) : Datagram D := ⟨[0x82, 1, 0], [fd]⟩

def checkIdentity (d : Datagram D) : Except IoError D := do
  let received ← receiveNow 3 d
  if received.bytes.length = 0 then .error ⟨.unexpectedEof, "identity peer closed"⟩
  else
    match received.descriptors with
    | [fd] =>
      if received.bytes = [0x82, 1, 0] then
        .ok fd
      else
        .error (.invalidData "invalid identity offer")
    | _ => .error (.invalidData "invalid identity offer")

/-- What is received has to be of one kind. -/
def expect (c : Ciborium) (kind : Packet D → Option α) (message : String) (d : Datagram D) :
    Except IoError α := do
  let packet ← Packet.receive c d
  match kind packet with
  | some a => .ok a
  | none => .error (.invalidData message)

def asJoined : Packet D → Option Unit
  | .joined => some ()
  | _ => none

def asOffer : Packet D → Option D
  | .offer fd => some fd
  | _ => none

def asGate : Packet D → Option D
  | .gate fd => some fd
  | _ => none

/-- `VolumeInput`. The network is its resolver file and the raw view of the root. -/
structure VolumeInput (D : Type) where
  root : D
  namespaceFd : D
  output : Option D
  network : Option (D × D)
  deriving DecidableEq, Repr

def volumeInput : Packet D → Option (VolumeInput D)
  | .volume root namespaceFd => some ⟨root, namespaceFd, none, none⟩
  | .bootstrap root output namespaceFd => some ⟨root, namespaceFd, some output, none⟩
  | .volumeNetwork root user resolver raw => some ⟨root, user, none, some (resolver, raw)⟩
  | .bootstrapNetwork root output user resolver raw =>
    some ⟨root, user, some output, some (resolver, raw)⟩
  | _ => none

/-- What `receive_volume_until` asks of what it received. -/
def inspect (k : Descriptors D) (input : VolumeInput D) : Except IoError Unit :=
  if input.network.any (fun n => !k.resolver n.1) then
    .error ⟨.other, "resolver input requires a restricted read-only tmpfs file mount"⟩
  else if input.output.any (fun output => !k.directory output) then
    .error (.invalidData "invalid output mount")
  else if !k.directory input.root || !k.nsfs input.namespaceFd then
    .error (.invalidData "invalid volume input objects")
  else .ok ()

/-- What `VolumeInput::prepare` asks of the raw view. -/
def prepare (k : Descriptors D) (input : VolumeInput D) : Except IoError Unit :=
  if input.network.any (fun n => !k.directory n.2 || !k.same input.root n.2) then
    .error ⟨.other, "resolver cleanup view does not match command root"⟩
  else .ok ()

/-! Parties. -/

inductive Call (D : Type) where
  | sending (packet : Packet D) (datagram : Datagram D) (deadline : Nat)
  | certifying (expected : ExitStatus) (deadline : Nat)

/-- An endpoint in one of its states, in a call under a deadline, or gone. A failed call on a
    joined one leaves it joined. -/
inductive Supervisor (D : Type) where
  | unpaired
  | identifying (deadline : Nat)
  | awaitingPeer (deadline : Nat)
  | paired (peer : D)
  | offering (peer fd : D) (deadline : Nat)
  | awaitingJoined (peer fd : D) (deadline : Nat)
  | joined (peer : D) (call : Option (Call D))
  | failed (error : IoError)
  | dropped

/-- The receiver. What failed in the cleanup is a text. -/
inductive Helper (D : Type) where
  | unpaired (deadline : Nat)
  | identifying (deadline : Nat)
  | awaitingPeer (deadline : Nat)
  | paired (peer : D) (deadline : Nat)
  | awaitingOffer (peer : D) (deadline : Nat)
  | placing (peer fd : D) (deadline : Nat)
  | acknowledging (peer : D) (deadline : Nat)
  | awaitingVolume (peer : D) (deadline : Nat)
  | inspecting (peer : D) (input : VolumeInput D) (deadline : Nat)
  | preparing (peer : D) (input : VolumeInput D) (deadline : Nat)
  | awaitingGate (peer : D) (input : VolumeInput D) (deadline : Nat)
  | admitting (peer : D) (input : VolumeInput D) (fd : D)
  | executing (peer : D) (input : VolumeInput D) (endpoint : D)
  | cleaning (peer : D) (status : ExitStatus)
  | reporting (peer : D) (status : ExitStatus) (cleanup : Except Text Unit) (deadline : Nat)
  | reported (peer : D) (status : ExitStatus)
  | awaitingLoss (peer : D) (status : ExitStatus) (cleanup : Except Text Unit) (deadline : Nat)
  | exited (result : Except Text ExitStatus)

/-- What the receiver has done. -/
structure Record (D : Type) where
  /-- The descriptor through which it wrote its membership. -/
  placed : Option D
  /-- The descriptor for that it was sent and has not closed yet. -/
  holds : Option D
  volume : Option (VolumeInput D)
  gate : Option D
  /-- It started the command. -/
  started : Bool
  /-- The status of the command's helper, which it reaped. -/
  finished : Option ExitStatus
  cleanup : Option (Except Text Unit)

def Record.empty : Record D := ⟨none, none, none, none, false, none, none⟩

structure State (D : Type) where
  supervisor : Supervisor D
  helper : Helper D
  up : Channel D
  down : Channel D
  shut : Bool
  dead : Party → Bool
  record : Record D
  /-- The descriptor that was offered. -/
  offered : Option D
  /-- What the calls that sent something to a joined receiver sent. -/
  delivered : List (Packet D)
  /-- The statuses with which `cleanup_until` succeeded. -/
  certified : List ExitStatus

namespace State

def start (deadline : Nat) : State D :=
  ⟨.unpaired, .unpaired deadline, ⟨[], 0⟩, ⟨[], 0⟩, false, fun _ => false, .empty, none, [], []⟩

/-- A failed exchange or joining drops the endpoint. -/
def fails (s : State D) (e : IoError) : State D := { s with supervisor := .failed e, shut := true }

/-- `run` returns, which drops the endpoint and closes what it held. -/
def exits (s : State D) (result : Except Text ExitStatus) : State D :=
  { s with helper := .exited result, shut := true, record := { s.record with holds := none } }

/-- The end of a run with an error. -/
def gives (s : State D) (e : IoError) : State D := s.exits (.error e.message.toList)

end State

section
variable (c : Ciborium) (k : Descriptors D)

/-- A round of the call the supervisor is in. -/
def supervisorRound (s : State D) (now : Nat) (poll : Poll) (answer : Except IoError Unit) :
    Option (State D) :=
  match s.supervisor with
  | .identifying deadline =>
    (sending s.down s.shut (identityPacket (k.self .supervisor)) deadline now poll answer).map fun r =>
      r.2.settle s (fun _ => { s with down := r.1, supervisor := .awaitingPeer deadline }) s.fails
  | .awaitingPeer deadline =>
    (receiving s.up s.shut checkIdentity deadline now poll answer).map fun r =>
      let s' := { s with up := r.1 }
      r.2.settle s (fun peer => { s' with supervisor := .paired peer }) s'.fails
  | .offering peer fd deadline =>
    (sending s.down s.shut ⟨[0x82, 1, 1], [fd]⟩ deadline now poll answer).map fun r =>
      r.2.settle s (fun _ => { s with down := r.1, supervisor := .awaitingJoined peer fd deadline, offered := some fd })
        s.fails
  | .awaitingJoined peer _ deadline =>
    (receiving s.up s.shut (expect c asJoined "expected domain joining acknowledgment")
      deadline now poll answer).map fun r =>
      let s' := { s with up := r.1 }
      r.2.settle s (fun _ => { s' with supervisor := .joined peer none }) s'.fails
  | .joined peer (some (.sending packet datagram deadline)) =>
    (sending s.down s.shut datagram deadline now poll answer).map fun r =>
      r.2.settle s
        (fun _ => { s with
          down := r.1, supervisor := .joined peer none, delivered := s.delivered ++ [packet] })
        fun _ => { s with supervisor := .joined peer none }
  | .joined peer (some (.certifying expected deadline)) =>
    (receiving s.up s.shut (fun d => certify expected
        (Packet.receive c d)) deadline now poll answer).map fun r =>
      let s' := { s with up := r.1, supervisor := .joined peer none }
      r.2.settle s (fun _ => { s' with certified := s.certified ++ [expected] }) fun _ => s'
  | _ => none

/-- The packet of the report. -/
def report (status : ExitStatus) : Except Text Unit → Packet D
  | .ok () => .cleaned status
  | .error error => cleanupFailure error

/-- A round of the call the receiver is in. -/
def helperRound (s : State D) (now : Nat) (poll : Poll) (answer : Except IoError Unit) :
    Option (State D) :=
  match s.helper with
  | .identifying deadline =>
    (sending s.up s.shut (identityPacket (k.self .helper)) deadline now poll answer).map fun r =>
      r.2.settle s (fun _ => { s with up := r.1, helper := .awaitingPeer deadline }) s.gives
  | .awaitingPeer deadline =>
    (receiving s.down s.shut checkIdentity deadline now poll answer).map fun r =>
      let s' := { s with down := r.1 }
      r.2.settle s (fun peer => { s' with helper := .paired peer deadline }) s'.gives
  | .awaitingOffer peer deadline =>
    (receiving s.down s.shut (expect c asOffer "expected domain joining descriptor")
      deadline now poll answer).map fun r =>
      let s' := { s with down := r.1 }
      r.2.settle s
        (fun fd => { s' with
          helper := .placing peer fd deadline, record := { s.record with holds := some fd } }) s'.gives
  | .acknowledging peer deadline =>
    (sending s.up s.shut ⟨[0x82, 1, 2], []⟩ deadline now poll answer).map fun r =>
      r.2.settle s (fun _ => { s with up := r.1, helper := .awaitingVolume peer deadline }) s.gives
  | .awaitingVolume peer deadline =>
    (receiving s.down s.shut (expect c volumeInput "expected volume input")
      deadline now poll answer).map fun r =>
      let s' := { s with down := r.1 }
      r.2.settle s (fun input => { s' with helper := .inspecting peer input deadline })
        fun e => s'.exits (.error ("receive command volume: ".toList ++ e.message.toList))
  | .awaitingGate peer input deadline =>
    (receiving s.down s.shut (expect c asGate "expected execution endpoint")
      deadline now poll answer).map fun r =>
      let s' := { s with down := r.1 }
      r.2.settle s (fun fd => { s' with helper := .admitting peer input fd }) s'.gives
  | .reporting peer status cleanup deadline =>
    match (report status cleanup).send with
    | .error e => some (s.gives e)
    | .ok d =>
      (sending s.up s.shut d deadline now poll answer).map fun r =>
        r.2.settle s
          (fun _ => { s with
            up := r.1
            helper := if cleanup = .ok () then .reported peer status
              else .awaitingLoss peer status cleanup deadline })
          s.gives
  | _ => none

/-- What the receiver does on its own, or how that failed. -/
def proceed (s : State D) (now : Nat) (fault : Option Text) (status : ExitStatus) :
    Option (State D) :=
  match s.helper, fault with
  | .cleaning peer finished, fault =>
    let cleanup : Except Text Unit := fault.elim (.ok ()) .error
    some { s with
      helper := .reporting peer finished cleanup (now + 30)
      record := { s.record with cleanup := some cleanup } }
  | .unpaired deadline, none => some { s with helper := .identifying deadline }
  | .paired peer deadline, none => some { s with helper := .awaitingOffer peer deadline }
  | .placing peer fd deadline, none =>
    if k.cgroup2 fd then
      some { s with
        helper := .acknowledging peer deadline, record := { s.record with placed := some fd, holds := none } }
    else some (s.exits (.error "joining descriptor is not cgroup2".toList))
  | .inspecting peer input deadline, none =>
    match inspect k input with
    | .error e => some (s.exits (.error ("receive command volume: ".toList ++ e.message.toList)))
    | .ok () =>
      some { s with
        helper := .preparing peer input deadline, record := { s.record with volume := some input } }
  | .preparing peer input deadline, none =>
    match prepare k input with
    | .error e => some (s.exits (.error ("prepare command volume: ".toList ++ e.message.toList)))
    | .ok () => some { s with helper := .awaitingGate peer input deadline }
  | .admitting peer input fd, none =>
    if k.seqpacket fd then
      some { s with
        helper := .executing peer input fd, record := { s.record with gate := some fd, started := true } }
    else some (s.exits (.error "execution gate requires seqpacket".toList))
  | .executing peer _ _, none =>
    some { s with helper := .cleaning peer status, record := { s.record with finished := some status } }
  | .reported peer finished, none =>
    some { s with helper := .awaitingLoss peer finished (.ok ()) (now + 30) }
  | .unpaired _, some text => some (s.exits (.error text))
  | .paired _ _, some text => some (s.exits (.error text))
  | .placing _ _ _, some text => some (s.exits (.error text))
  | .inspecting _ _ _, some text => some (s.exits (.error text))
  | .preparing _ _ _, some text => some (s.exits (.error text))
  | .admitting _ _ _, some text => some (s.exits (.error text))
  | .executing _ _ _, some text => some (s.exits (.error text))
  | _, _ => none

/-- `peer_lost`, with what the poll of the peer's identity and a failing `recv` answer. -/
def peerLost (channel : Channel D) (shut : Bool) (exit : Except IoError Bool)
    (recv : Option IoError) : Except IoError Bool :=
  match exit with
  | .error e => .error e
  | .ok true => .ok true
  | .ok false =>
    match recv with
    | some e => .error e
    | none =>
      match channel.next with
      | some d =>
        if d.bytes = [] then
          .ok true
        else
          .error (.invalidData "unexpected supervision message")
      | none => .ok shut

/-- `has_exited`, where the kernel tells the truth of the two processes. -/
def hasExited (s : State D) (peer : D) (exit : Except IoError Bool) : Except IoError Bool :=
  exit.map fun other => (k.process peer).elim other s.dead

/-- A round of the receiver's `wait_for_loss_until`. -/
def observe (s : State D) (now : Nat) (poll : Poll) (exit : Except IoError Bool)
    (recv : Option IoError) : Option (State D) :=
  match s.helper with
  | .awaitingLoss peer status cleanup deadline =>
    match peerLost s.down s.shut (hasExited k s peer exit) recv with
    | .error e => some (s.gives e)
    | .ok true => some (s.exits (cleanup.map fun _ => status))
    | .ok false =>
      if deadline ≤ now then some (s.exits (.error "supervision wait deadline expired".toList))
      else
        match poll with
        | .failed e => if e.kind = .interrupted then some s else some (s.gives e)
        | _ => some s
  | _ => none

end

/-! Steps. -/

inductive Event (D : Type) where
  | exchange (deadline : Nat)
  | join (fd : Except IoError D) (deadline : Nat)
  | send (packet : Packet D) (deadline : Nat)
  | cleanup (expected : ExitStatus) (deadline : Nat)
  | supervisorRound (now : Nat) (poll : Poll) (answer : Except IoError Unit)
  | drop
  | helperRound (now : Nat) (poll : Poll) (answer : Except IoError Unit)
  | proceed (now : Nat) (fault : Option Text) (status : ExitStatus)
  | observe (now : Nat) (poll : Poll) (exit : Except IoError Bool) (recv : Option IoError)
  | die (p : Party) (closed : Bool)
  | inject (p : Party) (d : Datagram D)

/-- Whose step it is. -/
def Event.party : Event D → Option Party
  | .exchange _ | .join _ _ | .send _ _ | .cleanup _ _ | .supervisorRound _ _ _ | .drop =>
    some .supervisor
  | .helperRound _ _ _ | .proceed _ _ _ | .observe _ _ _ _ => some .helper
  | .die p _ => some p
  | .inject p _ => some p

/-- What the supervisor sends to a joined receiver. -/
def forReceiver (p : Packet D) : Bool := (volumeInput p).isSome || (asGate p).isSome

def act (c : Ciborium) (k : Descriptors D) (s : State D) : Event D → Option (State D)
  | .exchange deadline =>
    match s.supervisor with
    | .unpaired => some { s with supervisor := .identifying deadline }
    | _ => none
  | .join fd deadline =>
    match s.supervisor, fd with
    | .paired peer, .ok fd => some { s with supervisor := .offering peer fd deadline }
    | .paired _, .error e => some (s.fails e)
    | _, _ => none
  | .send packet deadline =>
    match s.supervisor, packet.send with
    | .joined peer none, .ok d =>
      if forReceiver packet then
        some { s with supervisor := .joined peer (some (.sending packet d deadline)) } else none
    | _, _ => none
  | .cleanup expected deadline =>
    match s.supervisor with
    | .joined peer none =>
      some { s with supervisor := .joined peer (some (.certifying expected deadline)) }
    | _ => none
  | .supervisorRound now poll answer => supervisorRound c k s now poll answer
  | .drop => some { s with supervisor := .dropped, shut := true }
  | .helperRound now poll answer => helperRound c k s now poll answer
  | .proceed now fault status => proceed k s now fault status
  | .observe now poll exit recv => observe k s now poll exit recv
  | .die p closed =>
    some { s with dead := fun q => if q = p then true else s.dead q, shut := s.shut || closed }
  | .inject .supervisor d => if s.shut then none else some { s with down := s.down.put d }
  | .inject .helper d => if s.shut then none else some { s with up := s.up.put d }

/-- One step of a party that lives. -/
def step (c : Ciborium) (k : Descriptors D) (s : State D) (event : Event D) : Option (State D) :=
  if event.party.any s.dead then none else act c k s event

/-- The states of an interleaving. -/
def run (c : Ciborium) (k : Descriptors D) (s : State D) (events : List (Event D)) :
    Option (State D) := events.foldlM (step c k) s

end Conglobate.Process.Supervision
