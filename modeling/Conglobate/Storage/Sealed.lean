import Conglobate.Artifact.Manifest

/- Sealed scutes (`storage/sealed.rs`). Sealing writes the compacted store through
   verity; what it measures is a `Sealing`, and the scute is made of that and the
   parent it was sealed on. A scute's fields say what its descriptor always has: a
   canonical digest, a salt that starts with the parent, and a block count whose
   bytes fit. The file handles are left out. -/
namespace Conglobate.Storage

open Artifact

/-- What sealing a snapshot store measures and draws: the encoded stream's digest
    and size, the compacted store's bytes, the salt's random half, verity's root. -/
structure Sealing where
  digest : Digest
  size : UInt64
  bytes : UInt64
  nonempty : UInt64.ofNat (bytes.toNat / 4096) ≠ 0
  suffix : Vector UInt8 32
  root : Hash

structure SealedScute where
  descriptor : ScuteDescriptor
  root : Hash
  parent : Hash
  digest : ∃ d : Digest, descriptor.digest = d.toString
  salted : ∃ suffix, Hex.decode descriptor.annotations.salt = some (parent.toList ++ suffix)
  fits : descriptor.annotations.dataBlocks.val.toNat * 4096 < 2 ^ 64

/-- `seal_snapshot`. -/
def sealSnapshot (parent : Hash) (s : Sealing) : SealedScute where
  descriptor :=
    { digest := s.digest.toString
      size := s.size
      annotations := ⟨⟨UInt64.ofNat (s.bytes.toNat / 4096), s.nonempty⟩,
        Hex.encode (parent.toList ++ s.suffix.toList)⟩ }
  root := s.root
  parent := parent
  digest := ⟨s.digest, rfl⟩
  salted := ⟨s.suffix.toList, Hex.decode_encode _⟩
  fits := by
    have hbytes := s.bytes.toNat_lt
    rw [UInt64.toNat_ofNat_of_lt' (Nat.lt_of_le_of_lt (Nat.div_le_self ..) hbytes)]
    exact Nat.lt_of_le_of_lt (Nat.div_mul_le_self ..) hbytes

end Conglobate.Storage
