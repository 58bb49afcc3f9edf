import Conglobate.Ciborium
import Conglobate.Lib.File

/- Helper launches (`execution/helper.rs`, `step/cutoff.rs`).

   A launch is one argument behind the selector: hexadecimal CBOR with a version, the
   role's tag, the setup cutoff and the role's fields. Decoding is by shape, and then
   by encoding again: what is not written as it would be is refused. A receiver
   launches the namespaces, and these the root, with the cutoff they were given.

   Correspondence (Rust ↔ Lean):
     `Command`: program and arguments       ↔ `Command`
     `try_clone_to_owned` of stderr         ↔ the parameter `output`
     `(1u8, tag, cutoff, ..)`               ↔ `HelperInvocation.fields`
     `u8::try_from`, `u32::try_from`        ↔ `toU8`, `toU32`
     the arms of `run` that launch          ↔ `HelperInvocation.next`
     `to_argument`, `from_argument`,
       `command`, `parse`, `encode`,
       `decode`                             ↔ the same names -/
namespace Conglobate.Launch

inductive LaunchError where
  | io (error : IoError)
  /-- "helper launch input exceeds argv limit" -/
  | argvLimit
  /-- "receiver requires non-host-root IDs and an absolute trusted mount parent" -/
  | receiver
  /-- "helper requires one encoded launch input" -/
  | arguments
  /-- "helper input must be hexadecimal CBOR" -/
  | text
  /-- "oversized helper input" -/
  | oversized
  /-- An error of `hex::decode`. -/
  | hex
  /-- An error of `ciborium`. -/
  | cbor
  /-- "invalid helper version/shape" -/
  | shape
  /-- An integer does not fit its type. -/
  | integer
  /-- "unknown helper version" -/
  | version
  /-- "invalid helper role/shape" -/
  | role
  /-- "too many formatter arguments" -/
  | formatterArguments
  /-- "invalid formatter argument" -/
  | formatterArgument
  /-- "noncanonical helper input" -/
  | noncanonical
  /-- "oversized setup cutoff" -/
  | cutoffOversized
  /-- "invalid setup cutoff version/shape" -/
  | cutoffVersion
  /-- "noncanonical setup cutoff" -/
  | cutoffNoncanonical
  deriving DecidableEq, Repr

/-- "--conglobate-helper" -/
def selector : Text :=
  ['-', '-', 'c', 'o', 'n', 'g', 'l', 'o', 'b', 'a', 't', 'e', '-', 'h', 'e', 'l', 'p', 'e', 'r']

def maxArgument : Nat := 128 * 1024

/-! The cutoff. -/

/-- Monotonic nanoseconds. -/
structure SetupCutoff where
  nanos : UInt64
  deriving DecidableEq, Repr

namespace SetupCutoff

def toArgument (s : SetupCutoff) : Text :=
  Hex.encode (Cbor.array [.unsigned 1, .unsigned s.nanos.toNat]).encode

def fromArgument (c : Ciborium) (text : Text) : Except LaunchError SetupCutoff :=
  if 24 < text.utf8.length then .error .cutoffOversized
  else
    match Hex.decode text with
    | none => .error .hex
    | some bytes =>
      match c.cutoff bytes with
      | none => .error .cbor
      | some parsed =>
        if parsed.1 ≠ 1 then .error .cutoffVersion
        else if toArgument ⟨parsed.2⟩ ≠ text then .error .cutoffNoncanonical
        else .ok ⟨parsed.2⟩

end SetupCutoff

/-! Roles. -/

inductive Role where
  | seed
  | receiver (script : Text) (uid gid : UInt32) (parent : Bytes)
  | namespaces (script : Text)
  | root (script : Text)
  | formatter (executable : Bytes) (arguments : List Bytes)
  deriving DecidableEq, Repr

/-- `Path::is_absolute`. -/
def isAbsolute (path : Bytes) : Bool := path.head? = some 47

/-- `Role::receiver`. -/
def Role.checkedReceiver (script : Text) (uid gid : UInt32) (parent : Bytes) :
    Except LaunchError Role :=
  if uid = 0 ∨ gid = 0 ∨ isAbsolute parent = false ∨ parent.contains 0 then .error .receiver
  else .ok (.receiver script uid gid parent)

structure HelperInvocation where
  cutoff : SetupCutoff
  role : Role
  deriving DecidableEq, Repr

namespace HelperInvocation

/-- The tag of a role, and its fields behind the cutoff. -/
def roleFields : Role → Nat × List Cbor
  | .seed => (0, [])
  | .receiver script uid gid parent =>
    (1, [.text script, .unsigned uid.toNat, .unsigned gid.toNat, .bytes parent])
  | .namespaces script => (2, [.text script])
  | .root script => (3, [.text script])
  | .formatter executable arguments => (4, [.bytes executable, .array (arguments.map Cbor.bytes)])

def fields (inv : HelperInvocation) : List Cbor :=
  [.unsigned 1, .unsigned (roleFields inv.role).1, .text inv.cutoff.toArgument] ++
    (roleFields inv.role).2

def encode (inv : HelperInvocation) : Text := Hex.encode (Cbor.array inv.fields).encode

/-- `u8::try_from`. -/
def toU8 (n : Nat) : Except LaunchError UInt8 :=
  if n < 2 ^ 8 then .ok (UInt8.ofNat n) else .error .integer

/-- `u32::try_from`. -/
def toU32 (n : Nat) : Except LaunchError UInt32 :=
  if n < 2 ^ 32 then .ok (UInt32.ofNat n) else .error .integer

def formatterArgument : Cbor → Except LaunchError Bytes
  | .bytes value => .ok value
  | _ => .error .formatterArgument

/-- The role of a tag and its fields. -/
def decodeRole (tag : UInt8) (rest : List Cbor) : Except LaunchError Role :=
  match tag.toNat, rest with
  | 0, [] => .ok .seed
  | 1, [.text script, .unsigned uid, .unsigned gid, .bytes parent] => do
    let uid ← toU32 uid
    let gid ← toU32 gid
    Role.checkedReceiver script uid gid parent
  | 2, [.text script] => .ok (.namespaces script)
  | 3, [.text script] => .ok (.root script)
  | 4, [.bytes executable, .array arguments] =>
    if 128 < arguments.length then .error .formatterArguments
    else do
      let arguments ← arguments.mapM formatterArgument
      .ok (.formatter executable arguments)
  | _, _ => .error .role

/-- The closure of `decode`. -/
def decodeFields (c : Ciborium) : List Cbor → Except LaunchError HelperInvocation
  | .unsigned version :: .unsigned tag :: .text cutoff :: rest => do
    let version ← toU8 version
    if version ≠ 1 then .error .version
    else do
      let cutoff ← SetupCutoff.fromArgument c cutoff
      let tag ← toU8 tag
      let role ← decodeRole tag rest
      .ok ⟨cutoff, role⟩
  | _ => .error .shape

def decode (c : Ciborium) (text : Text) : Except LaunchError HelperInvocation :=
  if maxArgument < text.utf8.length then .error .oversized
  else
    match Hex.decode text with
    | none => .error .hex
    | some bytes =>
      match c.fields bytes with
      | none => .error .cbor
      | some parsed => do
        let inv ← decodeFields c parsed
        if inv.encode ≠ text then .error .noncanonical else .ok inv

/-- `arguments` are the process's, without its own name. -/
def parse (c : Ciborium) (arguments : List Bytes) : Except LaunchError (Option HelperInvocation) :=
  if arguments.head? ≠ some selector.utf8 then .ok none
  else if arguments.length ≠ 2 then .error .arguments
  else
    match Utf8.read (arguments.getD 1 []) with
    | none => .error .text
    | some text => some <$> decode c text

/-- What the helper of a role launches next, with the cutoff it was given. -/
def next (inv : HelperInvocation) : Option HelperInvocation :=
  match inv.role with
  | .receiver script _ _ _ => some ⟨inv.cutoff, .namespaces script⟩
  | .namespaces script => some ⟨inv.cutoff, .root script⟩
  | _ => none

end HelperInvocation

/-! Launching. -/

structure Command where
  program : Bytes
  arguments : List Bytes
  deriving DecidableEq, Repr

/-- The helper executable. -/
structure HelperProgram where
  path : Bytes
  deriving DecidableEq, Repr

namespace HelperProgram

def command (p : HelperProgram) (output : Except IoError Unit) (inv : HelperInvocation) :
    Except LaunchError Command :=
  if maxArgument < inv.encode.utf8.length then .error .argvLimit
  else do
    output.mapError LaunchError.io
    .ok ⟨p.path, [selector.utf8, inv.encode.utf8]⟩

def formatter (p : HelperProgram) (output : Except IoError Unit) (executable : Bytes)
    (arguments : List Bytes) (cutoff : SetupCutoff) :
    Except LaunchError Command := p.command output ⟨cutoff, .formatter executable arguments⟩

def receiver (p : HelperProgram) (output : Except IoError Unit) (script : Text)
    (cutoff : SetupCutoff) (uid gid : UInt32) (mountParent : Bytes) :
    Except LaunchError Command := do
  let role ← Role.checkedReceiver script uid gid mountParent
  p.command output ⟨cutoff, role⟩

end HelperProgram

end Conglobate.Launch
