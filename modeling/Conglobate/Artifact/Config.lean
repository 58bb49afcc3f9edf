import Conglobate.Lib.JsonText

/- The artifact's configuration blob (`artifact/config.rs`).

   What the host must provide is a record of resource bands and interfaces. A band's
   order is part of its type (`Band.ordered`), so every band there is, from code or
   from the wire, recommends no less than it requires. A configuration is written
   with its requirements in canonical form (`Requirements.canonicalize`) and its
   fields in the order of their declaration, the absent ones left out (`present`).

   Correspondence (Rust ↔ Lean):
     `NonZeroU32`, `Memory`, `NonZeroU64`      ↔ `Amount` of a `Measure`
     `Band::new`                               ↔ `Band.new`
     `Requirements::canonicalize`              ↔ `Requirements.canonicalize`
     `skip_serializing_if`                     ↔ `present`
     `deny_unknown_fields`                     ↔ `closedFields`
     `serde_json::to_vec` of a `Config`        ↔ `Config.encode`
     `serde_json::from_slice` of a `Config`    ↔ `Config.decode` -/
namespace Conglobate.Artifact

/-! Structs as values. -/

/-- The fields there are, of those that may be. -/
def present (slots : List (Text × Option Json)) : List (Text × Json) :=
  slots.filterMap fun slot => slot.2.map fun j => (slot.1, j)

/-- A struct's fields, none unknown and none twice; in an array at least `least`. -/
def closedFields (names : List Text) (least : Nat) : Json → Except JsonError (List (Text × Json))
  | .object fields =>
    match fields.find? (fun e => !names.contains e.1) with
    | some e => .error (.unknownField e.1)
    | none => if (fields.map Prod.fst).Nodup then .ok fields else .error .duplicateField
  | .array items =>
    if items.length < least ∨ names.length < items.length then
      .error .invalidLength
    else
      .ok (names.zip items)
  | _ => .error .invalidType

/-- An `Option`: absent or null is none. -/
def optionField {α : Type} (read : Json → Except JsonError α) (fields : List (Text × Json))
    (name : Text) :
    Except JsonError (Option α) :=
  match fields.lookup name with
  | none => .ok none
  | some .null => .ok none
  | some j => some <$> read j

/-- A field with a default. -/
def defaultField {α : Type} (absent : α) (read : Json → Except JsonError α)
    (fields : List (Text × Json)) (name : Text) :
    Except JsonError α :=
  match fields.lookup name with
  | none => .ok absent
  | some j => read j

def requiredField {α : Type} (read : Json → Except JsonError α) (fields : List (Text × Json))
    (name : Text) :
    Except JsonError α :=
  match fields.lookup name with
  | none => .error (.missingField name)
  | some j => read j

/-! Amounts and bands. -/

/-- What the amounts of a resource are: unsigned integers of a width that pass a test. -/
structure Measure where
  bits : Nat
  valid : Nat → Bool

/-- `NonZeroU32`. -/
def cpuCount : Measure := ⟨32, fun n => n != 0⟩

/-- `Memory`: MiB in whole chunks of two. -/
def memoryMib : Measure := ⟨32, fun mib => mib != 0 && mib % 2 == 0⟩

/-- `NonZeroU64`. -/
def storageMib : Measure := ⟨64, fun n => n != 0⟩

abbrev Amount (u : Measure) := { n : Nat // n < 2 ^ u.bits ∧ u.valid n = true }

namespace Amount

def toJson {u : Measure} (n : Amount u) : Json := .natural n.val

def ofJson {u : Measure} (j : Json) : Except JsonError (Amount u) :=
  match j with
  | .natural n => if h : n < 2 ^ u.bits ∧ u.valid n = true then .ok ⟨n, h⟩ else .error .invalidValue
  | _ => .error .invalidType

end Amount

inductive Recommendation (α : Type) where
  | value (a : α)
  | max
  deriving DecidableEq

namespace Recommendation

/-- "max" -/
def maxText : Text := ['m', 'a', 'x']

def toJson {u : Measure} : Recommendation (Amount u) → Json
  | .value n => n.toJson
  | .max => .string maxText

/-- An amount, or else the keyword. -/
def ofJson {u : Measure} (j : Json) : Except JsonError (Recommendation (Amount u)) :=
  match Amount.ofJson j with
  | .ok n => .ok (.value n)
  | .error _ =>
    match j with
    | .string t => if t = maxText then .ok .max else .error .invalidValue
    | _ => .error .invalidValue

end Recommendation

structure Band (u : Measure) where
  required : Option (Amount u)
  recommended : Option (Recommendation (Amount u))
  ordered : ∀ least preferred, required = some least → recommended = some (.value preferred) →
    least.val ≤ preferred.val
  deriving DecidableEq

namespace Field

def required : Text := "required".toList
def recommended : Text := "recommended".toList
def slot : Text := "slot".toList
def description : Text := "description".toList
def ingress : Text := "ingress".toList
def cpus : Text := "cpus".toList
def memory : Text := "memory".toList
def storage : Text := "storage".toList
def interfaces : Text := "interfaces".toList
def version : Text := "version".toList
def requirements : Text := "requirements".toList

end Field

namespace Band

/-- `recommended` is not below `required`. -/
def inOrder {u : Measure} : Option (Amount u) → Option (Recommendation (Amount u)) → Bool
  | some least, some (.value preferred) => decide (least.val ≤ preferred.val)
  | _, _ => true

/-- `Band::new`. -/
def new {u : Measure} (required : Option (Amount u))
    (recommended : Option (Recommendation (Amount u))) : Option (Band u) :=
  if h : inOrder required recommended = true then
    some
      { required := required
        recommended := recommended
        ordered := by
          intro least preferred hrequired hrecommended
          rw [hrequired, hrecommended] at h
          exact of_decide_eq_true h }
  else none

/-- Nothing to say. -/
def isEmpty {u : Measure} (b : Band u) : Bool := b.required.isNone && b.recommended.isNone

def slots {u : Measure} (b : Band u) : List (Text × Option Json) :=
  [(Field.required, b.required.map Amount.toJson),
    (Field.recommended, b.recommended.map Recommendation.toJson)]

def toJson {u : Measure} (b : Band u) : Json := .object (present b.slots)

/-- The tiers of a band among other fields. -/
def ofFields {u : Measure} (fields : List (Text × Json)) : Except JsonError (Band u) := do
  let required ← optionField Amount.ofJson fields Field.required
  let recommended ← optionField Recommendation.ofJson fields Field.recommended
  match new required recommended with
  | some b => .ok b
  | none => .error .invalidValue

def ofJson {u : Measure} (j : Json) : Except JsonError (Band u) := do
  let fields ← closedFields [Field.required, Field.recommended] 0 j
  ofFields fields

/-- The values of one are dropped: a machine has a processor anyway. -/
def dropFloor {u : Measure} (b : Band u) : Band u where
  required := b.required.filter (fun n => n.val != 1)
  recommended := b.recommended.filter (fun
    | .value n => n.val != 1
    | .max => true)
  ordered := by
    intro least preferred hrequired hrecommended
    exact b.ordered least preferred (Option.filter_eq_some_iff.mp hrequired).1
      (Option.filter_eq_some_iff.mp hrecommended).1

end Band

/-! Transports, storage and interfaces. -/

inductive Slot where
  | pci
  | mmio
  deriving DecidableEq

namespace Slot

def text : Slot → Text
  | .pci => "pci".toList
  | .mmio => "mmio".toList

def toJson (s : Slot) : Json := .string s.text

def ofJson (j : Json) : Except JsonError Slot := do
  let t ← j.asString
  if t = text .pci then
    .ok .pci
  else if t = text .mmio then
    .ok .mmio
  else
    .error (.unknownVariant t)

end Slot

structure Storage where
  capacity : Band storageMib
  slot : Option Slot
  deriving DecidableEq

namespace Storage

/-- The capacity's tiers, flattened, and the transport. -/
def slots (s : Storage) : List (Text × Option Json) :=
  s.capacity.slots ++ [(Field.slot, s.slot.map Slot.toJson)]

def toJson (s : Storage) : Json := .object (present s.slots)

def ofJson (j : Json) : Except JsonError Storage := do
  let fields ← closedFields [Field.required, Field.recommended, Field.slot] 3 j
  let capacity ← Band.ofFields fields
  let slot ← optionField Slot.ofJson fields Field.slot
  .ok ⟨capacity, slot⟩

end Storage

inductive PortSpec where
  | port (p : UInt16)
  | range (low high : UInt16)
  | all
  deriving DecidableEq

namespace PortSpec

def allText : Text := "all".toList

def portJson (p : UInt16) : Json := .natural p.toNat

def portOfJson (j : Json) : Except JsonError UInt16 := do
  let n ← j.asUnsigned 16
  .ok (UInt16.ofNat n)

def toJson : PortSpec → Json
  | .port p => portJson p
  | .range low high => .array [portJson low, portJson high]
  | .all => .string allText

def ofJson : Json → Except JsonError PortSpec
  | .array [low, high] => do
    let low ← portOfJson low
    let high ← portOfJson high
    .ok (.range low high)
  | .array _ => .error .invalidLength
  | .string t => if t = allText then .ok .all else .error .invalidValue
  | j => .port <$> portOfJson j

end PortSpec

structure Ingress where
  required : List PortSpec
  recommended : List PortSpec
  deriving DecidableEq

namespace Ingress

/-- Ports, unless there are none. -/
def portsJson (ports : List PortSpec) : Option Json :=
  if ports = [] then none else some (.array (ports.map PortSpec.toJson))

def portsOfJson (j : Json) : Except JsonError (List PortSpec) := do
  let items ← j.asArray
  items.mapM PortSpec.ofJson

def slots (i : Ingress) : List (Text × Option Json) :=
  [(Field.required, portsJson i.required), (Field.recommended, portsJson i.recommended)]

def toJson (i : Ingress) : Json := .object (present i.slots)

def ofJson (j : Json) : Except JsonError Ingress := do
  let fields ← closedFields [Field.required, Field.recommended] 0 j
  let required ← defaultField [] portsOfJson fields Field.required
  let recommended ← defaultField [] portsOfJson fields Field.recommended
  .ok ⟨required, recommended⟩

/-- No ports at all. -/
def isEmpty (i : Ingress) : Bool := i.required.isEmpty && i.recommended.isEmpty

end Ingress

structure Interface where
  description : Option Text
  ingress : Option Ingress
  slot : Option Slot
  deriving DecidableEq

namespace Interface

def slots (i : Interface) : List (Text × Option Json) :=
  [(Field.description, i.description.map Json.string),
    (Field.ingress, i.ingress.map Ingress.toJson),
    (Field.slot, i.slot.map Slot.toJson)]

def toJson (i : Interface) : Json := .object (present i.slots)

def ofJson (j : Json) : Except JsonError Interface := do
  let fields ← closedFields [Field.description, Field.ingress, Field.slot] 0 j
  let description ← optionField Json.asString fields Field.description
  let ingress ← optionField Ingress.ofJson fields Field.ingress
  let slot ← optionField Slot.ofJson fields Field.slot
  .ok ⟨description, ingress, slot⟩

end Interface

/-! Requirements. -/

structure Requirements where
  slot : Slot
  cpus : Option (Band cpuCount)
  memory : Option (Band memoryMib)
  storage : Option Storage
  interfaces : OrdMap Text Interface
  deriving DecidableEq

namespace Requirements

/-- `Default`. -/
def empty : Requirements := ⟨.mmio, none, none, none, OrdMap.empty⟩

/-- Values without information are dropped from the processors' band, and the band
    if it is emptied. -/
def canonicalize (r : Requirements) : Requirements :=
  match r.cpus with
  | none => r
  | some b => { r with cpus := if b.dropFloor.isEmpty then none else some b.dropFloor }

def interfacesJson (m : OrdMap Text Interface) : Option Json :=
  if m.entries = [] then none else some (Json.ofMap (m.mapValues Interface.toJson))

def interfacesOfJson (j : Json) : Except JsonError (OrdMap Text Interface) := do
  let m ← j.asObject
  m.mapM Interface.ofJson

def slots (r : Requirements) : List (Text × Option Json) :=
  [(Field.slot, some r.slot.toJson), (Field.cpus, r.cpus.map Band.toJson),
    (Field.memory, r.memory.map Band.toJson),
    (Field.storage, r.storage.map Storage.toJson), (Field.interfaces, interfacesJson r.interfaces)]

def toJson (r : Requirements) : Json := .object (present r.slots)

def ofJson (j : Json) : Except JsonError Requirements := do
  let fields ← closedFields [Field.slot, Field.cpus, Field.memory, Field.storage,
    Field.interfaces] 0 j
  let slot ← defaultField .mmio Slot.ofJson fields Field.slot
  let cpus ← optionField Band.ofJson fields Field.cpus
  let memory ← optionField Band.ofJson fields Field.memory
  let storage ← optionField Storage.ofJson fields Field.storage
  let interfaces ← defaultField OrdMap.empty interfacesOfJson fields Field.interfaces
  .ok ⟨slot, cpus, memory, storage, interfaces⟩

end Requirements

structure Config where
  version : UInt32
  requirements : Requirements
  deriving DecidableEq

namespace Config

/-- `Serialize`: the requirements are canonical. -/
def slots (c : Config) : List (Text × Option Json) :=
  [(Field.version, some (.natural c.version.toNat)),
    (Field.requirements, some c.requirements.canonicalize.toJson)]

def toJson (c : Config) : Json := .object (present c.slots)

def ofJson (j : Json) : Except JsonError Config := do
  let fields ← closedFields [Field.version, Field.requirements] 1 j
  let version ← requiredField (Json.asUnsigned 32) fields Field.version
  let requirements ← defaultField Requirements.empty Requirements.ofJson fields Field.requirements
  .ok ⟨UInt32.ofNat version, requirements⟩

/-- The blob. -/
def encode (c : Config) : Bytes := c.toJson.toVec

/-- The blob read, as `read` reads JSON. -/
def decode (read : Bytes → Except JsonError Json) (bytes : Bytes) : Except JsonError Config := do
  let j ← read bytes
  ofJson j

end Config

end Conglobate.Artifact
