import Conglobate.Ciborium
import Conglobate.Lib.File
import Mathlib.Data.BitVec

/- Supervision packets (`process/supervision/joining.rs`, `packet.rs`).

   A packet is one datagram: canonical CBOR that names its kind, and the descriptors
   it transfers. A datagram is delivered whole, so sending is what the datagram is
   (`send`) and receiving what is made of it (`receive`); waiting, and retrying what
   would block, change neither. Descriptors are a type of their own: only their order
   matters here.

   Correspondence (Rust ↔ Lean):
     `ExitStatus::from_raw`, `into_raw`     ↔ `ExitStatus`
     `DescriptorPacket::receive_now`,
       `send_now`                           ↔ `receiveNow`, `sendNow`
     `Packet::send_with`, `receive_with`    ↔ `Packet.send`, `Packet.receive`
     `into_writer(&(1u8, 12u8, message))`   ↔ `Cbor.encode`
     the framing test                       ↔ `framed`
     `report_cleanup_failure_until`         ↔ `cleanupFailure` -/
namespace Conglobate.Process

/-- A Linux wait status, an `i32`. -/
structure ExitStatus where
  raw : BitVec 32
  deriving DecidableEq, Repr

/-- A datagram with the descriptors in its ancillary message. -/
structure Datagram (D : Type) where
  bytes : Bytes
  descriptors : List D
  deriving DecidableEq, Repr

variable {D : Type}

/-- `ScmRights(8)`. -/
def maxDescriptors : Nat := 8

def sendNow (bytes : Bytes) (descriptors : List D) : Except IoError (Datagram D) :=
  if maxDescriptors < descriptors.length then .error (.invalidInput "descriptor packet capacity")
  else .ok ⟨bytes, descriptors⟩

/-- What a buffer of `capacity` bytes receives. -/
def receiveNow (capacity : Nat) (d : Datagram D) : Except IoError (Datagram D) :=
  if capacity < d.bytes.length ∨ maxDescriptors < d.descriptors.length then
    .error (.invalidData "truncated descriptor packet")
  else .ok d

inductive Packet (D : Type) where
  | offer (fd : D)
  | joined
  | gate (fd : D)
  | volume (root namespaceFd : D)
  | bootstrap (root output namespaceFd : D)
  | volumeNetwork (root user resolver raw : D)
  | bootstrapNetwork (root output user resolver raw : D)
  | cleaned (status : ExitStatus)
  | cleanupFailed (message : Text)
  deriving DecidableEq, Repr

namespace Packet

def maxMessage : Nat := 1024

/-- The receive buffer. -/
def bufferSize : Nat := 1030

/-- The opcode and the descriptors. -/
def header : Packet D → Nat × List D
  | .offer fd => (1, [fd])
  | .gate fd => (13, [fd])
  | .joined => (2, [])
  | .volume root namespaceFd => (5, [root, namespaceFd])
  | .bootstrap root output namespaceFd => (8, [root, output, namespaceFd])
  | .volumeNetwork root user resolver raw => (9, [root, user, resolver, raw])
  | .bootstrapNetwork root output user resolver raw => (10, [root, output, user, resolver, raw])
  | .cleanupFailed _ => (12, [])
  | .cleaned _ => (11, [])

/-- The bytes of a packet. -/
def payload (p : Packet D) : Except IoError Bytes :=
  match p with
  | .cleanupFailed message =>
    if message = [] ∨ maxMessage < message.utf8.length then
      .error (.invalidInput "invalid cleanup diagnostic size")
    else .ok (Cbor.array [.unsigned 1, .unsigned 12, .text message]).encode
  | .cleaned status => .ok ([0x83, 1, UInt8.ofNat p.header.1, 0x44] ++ Bytes.be 4 status.raw.toNat)
  | _ => .ok [0x82, 1, UInt8.ofNat p.header.1]

def send (p : Packet D) : Except IoError (Datagram D) := do
  let bytes ← p.payload
  sendNow bytes p.header.2

/-- The framing test on a length and a prefix. -/
def framed (bytes : Bytes) : Bool :=
  (bytes.length == 3 && bytes.take 2 == [0x82, 1] && bytes.getD 2 0 != 11) ||
  (bytes.length == 8 && bytes.take 4 == [0x83, 1, 11, 0x44]) ||
  (decide (5 ≤ bytes.length) && bytes.take 3 == [0x83, 1, 12])

/-- Terminal wait statuses: no stopped or continued children, reserved bits or impossible signals. -/
def validStatus (raw : BitVec 32) : Bool :=
  raw &&& ~~~0xff00#32 == 0 ||
  (decide (0 < raw.toInt) && raw &&& ~~~0xff#32 == 0 &&
    (decide (1 ≤ (raw &&& 0x7f#32).toInt) && decide ((raw &&& 0x7f#32).toInt ≤ 64)))

/-- A diagnostic, from behind the opcode. -/
def receiveMessage (c : Ciborium) (bytes : Bytes) : Except IoError (Packet D) :=
  match c.text bytes with
  | none => .error (.invalidData "invalid cleanup diagnostic")
  | some message =>
    if message = [] ∨ maxMessage < message.utf8.length ∨ (Cbor.text message).encode ≠ bytes then
      .error (.invalidData "invalid cleanup diagnostic encoding or size")
    else .ok (.cleanupFailed message)

/-- A status, from behind the opcode. -/
def receiveStatus (bytes : Bytes) : Except IoError (Packet D) :=
  if validStatus (BitVec.ofNat 32 (Bytes.ofBe bytes)) then
    .ok (.cleaned ⟨BitVec.ofNat 32 (Bytes.ofBe bytes)⟩)
  else .error (.invalidData "nonterminal or invalid command status")

/-- The opcode and the descriptors, which are popped from the last. -/
def dispatch (c : Ciborium) (d : Datagram D) : Except IoError (Packet D) :=
  match (d.bytes.getD 2 0).toNat, d.descriptors with
  | 1, [fd] => .ok (.offer fd)
  | 13, [fd] => .ok (.gate fd)
  | 2, [] => .ok .joined
  | 12, [] => receiveMessage c (d.bytes.drop 3)
  | 11, [] => receiveStatus ((d.bytes.drop 4).take 4)
  | 9, [root, user, resolver, raw] => .ok (.volumeNetwork root user resolver raw)
  | 10, [root, output, user, resolver, raw] => .ok (.bootstrapNetwork root output user resolver raw)
  | 8, [root, output, namespaceFd] => .ok (.bootstrap root output namespaceFd)
  | 5, [root, namespaceFd] => .ok (.volume root namespaceFd)
  | _, _ => .error (.invalidData "joining opcode/descriptor mismatch")

def receive (c : Ciborium) (d : Datagram D) : Except IoError (Packet D) := do
  let result ← receiveNow bufferSize d
  if result.bytes.length = 0 then .error ⟨.unexpectedEof, "joining peer closed"⟩
  else if !framed result.bytes then .error (.invalidData "invalid joining packet")
  else dispatch c result

end Packet

/-! Diagnostics. -/

/-- `str::floor_char_boundary`: where the last character that ends within `limit` bytes ends. -/
def floorCharBoundary : Text → Nat → Nat
  | [], _ => 0
  | c :: t, limit =>
    if c.utf8Size ≤ limit then
      c.utf8Size + floorCharBoundary t (limit - c.utf8Size)
    else
      0

/-- `String::truncate`, at a boundary. -/
def truncate : Text → Nat → Text
  | [], _ => []
  | c :: t, n => if n = 0 then [] else c :: truncate t (n - c.utf8Size)

/-- "receiver cleanup: " -/
def diagnosticPrefix : Text :=
  ['r', 'e', 'c', 'e', 'i', 'v', 'e', 'r', ' ', 'c', 'l', 'e', 'a', 'n', 'u', 'p', ':', ' ']

/-- The packet a failed cleanup is reported by. -/
def cleanupFailure (error : Text) : Packet D :=
  .cleanupFailed (truncate (diagnosticPrefix ++ error)
    (floorCharBoundary (diagnosticPrefix ++ error) Packet.maxMessage))

end Conglobate.Process
