import Conglobate.Lib.Cbor

/- The CBOR codec (`ciborium`).

   What is written is the deterministic encoding, `Cbor.encode`. Reading is a
   parameter, a reader for each type that is read, since a reader may take more than
   what is written; `Faithful` is what callers rely on, that what is written is read
   back. Items of any other kind are left out: a reader that finds one refuses. -/
namespace Conglobate

/-- `ciborium::from_reader`, for each type read: one item, whatever follows it. -/
structure Ciborium where
  /-- `String` -/
  text : Bytes → Option Text
  /-- `(u8, u64)` -/
  cutoff : Bytes → Option (UInt8 × UInt64)
  /-- `Vec<Value>` -/
  fields : Bytes → Option (List Cbor)

namespace Ciborium

/-- What is written is read back. -/
structure Faithful (c : Ciborium) : Prop where
  text : ∀ t, (Cbor.text t).Fits → c.text (Cbor.text t).encode = some t
  cutoff : ∀ version nanos, c.cutoff (Cbor.array [.unsigned (UInt8.toNat version),
    .unsigned (UInt64.toNat nanos)]).encode = some (version, nanos)
  fields : ∀ items, (Cbor.array items).Fits → c.fields (Cbor.array items).encode = some items

def textOf : Cbor → Option Text
  | .text t => some t
  | _ => none

def itemsOf : Cbor → Option (List Cbor)
  | .array items => some items
  | _ => none

/-- `u8::try_from` and `u64::try_from` on the items of a pair. -/
def cutoffOf : Cbor → Option (UInt8 × UInt64)
  | .array [.unsigned version, .unsigned nanos] =>
    if version < 2 ^ 8 ∧ nanos < 2 ^ 64 then
      some (UInt8.ofNat version, UInt64.ofNat nanos)
    else
      none
  | _ => none

/-- The reader of the items modelled, and of no others. -/
def reader : Ciborium where
  text input := (Cbor.read input).bind (fun x => textOf x.1)
  cutoff input := (Cbor.read input).bind (fun x => cutoffOf x.1)
  fields input := (Cbor.read input).bind (fun x => itemsOf x.1)

theorem reader_faithful : reader.Faithful := by
  have hread : ∀ {v : Cbor}, v.Fits → Cbor.read v.encode = some (v, []) := by
    intro v hfits
    have h := Cbor.read_encode hfits []
    rwa [List.append_nil] at h
  refine ⟨fun t hfits => ?_, fun version nanos => ?_, fun items hfits => ?_⟩
  · show (Cbor.read (Cbor.text t).encode).bind _ = _
    rw [hread hfits]
    rfl
  · have hversion := version.toNat_lt
    have hnanos := nanos.toNat_lt
    have hfits : (Cbor.array [.unsigned version.toNat, .unsigned nanos.toNat]).Fits := by
      refine ⟨(show 2 < 2 ^ 64 by decide), ?_, hnanos, trivial⟩
      show version.toNat < 2 ^ 64
      omega
    show (Cbor.read _).bind (fun x => cutoffOf x.1) = _
    rw [hread hfits, Option.bind_some, cutoffOf, if_pos ⟨hversion, hnanos⟩, UInt8.ofNat_toNat,
      UInt64.ofNat_toNat]
  · show (Cbor.read (Cbor.array items).encode).bind _ = _
    rw [hread hfits]
    rfl

end Ciborium

end Conglobate
