import Conglobate.Lib.Crc32
import Conglobate.Lib.File
import Conglobate.Lib.LittleEndian

/- The wire records of a GPT disk (`disk/header.rs`, `record.rs`, `mbr_entry.rs`)
   and its identifiers.

   A record is its fields laid end to end, each at the offset the source's
   `#[repr(C)]` struct asserts; `encode` lays them out, `decode` slices them out,
   and decoding what was encoded gives the record back. Only `Header.read` checks
   anything: signature, geometry, reserved bytes and the header's checksum.

   Correspondence (Rust ↔ Lean):
     `[u8; N]`, `U32`, `U64`        ↔ `Vector UInt8 N`, `UInt32`, `UInt64`
     `as_bytes`, `ref_from_bytes`   ↔ `encode`, `decode`
     `Uuid::to_bytes_le`,
       `from_bytes_le`              ↔ `Uuid.toBytesLe`, `Uuid.fromBytesLe` -/
namespace Conglobate.Disk

def sectorSize : Nat := 4096

/-- The no-auto attribute bit. -/
def noAuto : UInt64 := 0x8000000000000000

def maxEntries : Nat := 8192

/-- A UUID, its bytes in the order they are printed. -/
structure Uuid where
  bytes : Vector UInt8 16
  deriving DecidableEq, Repr

namespace Uuid

/-- Where each byte goes in the mixed-endian form: the first three fields reversed. -/
def leOrder (i : Fin 16) : Fin 16 := #v[3, 2, 1, 0, 5, 4, 7, 6, 8, 9, 10, 11, 12, 13, 14, 15][i]

theorem leOrder_leOrder : ∀ i, leOrder (leOrder i) = i := by decide

def toBytesLe (u : Uuid) : Vector UInt8 16 := Vector.ofFn (fun i => u.bytes[leOrder i])
def fromBytesLe (b : Vector UInt8 16) : Uuid := ⟨Vector.ofFn (fun i => b[leOrder i])⟩

@[simp] theorem fromBytesLe_toBytesLe (u : Uuid) : fromBytesLe u.toBytesLe = u := by
  have h : (fromBytesLe u.toBytesLe).bytes = u.bytes := by
    apply Vector.ext
    intro i hi
    have := congrArg Fin.val (leOrder_leOrder ⟨i, hi⟩)
    simp [fromBytesLe, toBytesLe, leOrder_leOrder]
  cases u
  exact congrArg Uuid.mk h

def nil : Uuid := ⟨Vector.replicate 16 0⟩

theorem toBytesLe_nil : nil.toBytesLe = Vector.replicate 16 0 := by decide

/-- Only the nil UUID is all zero on the wire. -/
theorem toBytesLe_ne_zero {u : Uuid} (h : u ≠ nil) : u.toBytesLe ≠ Vector.replicate 16 0 := by
  intro hz
  rw [← toBytesLe_nil] at hz
  have := congrArg fromBytesLe hz
  rw [fromBytesLe_toBytesLe, fromBytesLe_toBytesLe] at this
  exact h this

end Uuid

/-- `ESP_PARTITION_TYPE`. -/
def espPartitionType : Uuid :=
  ⟨#v[0xc1, 0x2a, 0x73, 0x28, 0xf8, 0x1f, 0x11, 0xd2, 0xba, 0x4b, 0x00, 0xa0, 0xc9, 0x3e,
    0xc9, 0x3b]⟩

/-- The architectures the crate builds for. -/
inductive Arch where
  | x86_64
  | aarch64
  deriving DecidableEq, Repr

/-- `ROOT_PARTITION_TYPE`. -/
def rootPartitionType : Arch → Uuid
  | .x86_64 =>
    ⟨#v[0x4f, 0x68, 0xbc, 0xe3, 0xe8, 0xcd, 0x4d, 0xb1, 0x96, 0xe7, 0xfb, 0xca, 0xf9, 0x84,
      0xb7, 0x09]⟩
  | .aarch64 =>
    ⟨#v[0xb9, 0x21, 0xb0, 0x45, 0x1d, 0xf0, 0x41, 0xc3, 0xaf, 0x44, 0x4c, 0x6f, 0x28, 0x0d,
      0x3f, 0xae]⟩

/-! The header. -/

structure Header where
  signature : Vector UInt8 8
  revision : UInt32
  size : UInt32
  crc32 : UInt32
  reserved : UInt32
  currentLba : UInt64
  backupLba : UInt64
  firstUsable : UInt64
  lastUsable : UInt64
  diskGuid : Vector UInt8 16
  partStart : UInt64
  numParts : UInt32
  partSize : UInt32
  crc32Parts : UInt32
  deriving DecidableEq, Repr

namespace Header

/-- The 16 bytes before the checksum. -/
def encodeHead (h : Header) : Bytes :=
  h.signature.toList ++ (Bytes.le32 h.revision ++ Bytes.le32 h.size)

/-- The 72 bytes after it. -/
def encodeTail (h : Header) : Bytes :=
  Bytes.le32 h.reserved ++ (Bytes.le64 h.currentLba ++ (Bytes.le64 h.backupLba ++
    (Bytes.le64 h.firstUsable ++ (Bytes.le64 h.lastUsable ++ (h.diskGuid.toList ++
      (Bytes.le64 h.partStart ++ (Bytes.le32 h.numParts ++ (Bytes.le32 h.partSize ++
        Bytes.le32 h.crc32Parts))))))))

def encode (h : Header) : Bytes := h.encodeHead ++ (Bytes.le32 h.crc32 ++ h.encodeTail)

@[simp] theorem encodeHead_length (h : Header) : h.encodeHead.length = 16 := by simp [encodeHead]
@[simp] theorem encodeTail_length (h : Header) : h.encodeTail.length = 72 := by simp [encodeTail]
@[simp] theorem encode_length (h : Header) : h.encode.length = 92 := by simp [encode]

def decode (b : Bytes) : Header where
  signature := Bytes.array 8 (b.slice 0 8)
  revision := Bytes.u32 (b.slice 8 4)
  size := Bytes.u32 (b.slice 12 4)
  crc32 := Bytes.u32 (b.slice 16 4)
  reserved := Bytes.u32 (b.slice 20 4)
  currentLba := Bytes.u64 (b.slice 24 8)
  backupLba := Bytes.u64 (b.slice 32 8)
  firstUsable := Bytes.u64 (b.slice 40 8)
  lastUsable := Bytes.u64 (b.slice 48 8)
  diskGuid := Bytes.array 16 (b.slice 56 16)
  partStart := Bytes.u64 (b.slice 72 8)
  numParts := Bytes.u32 (b.slice 80 4)
  partSize := Bytes.u32 (b.slice 84 4)
  crc32Parts := Bytes.u32 (b.slice 88 4)

/-- **A header decodes to itself**, whatever follows it. -/
theorem decode_encode (h : Header) (rest : Bytes) : decode (h.encode ++ rest) = h := by
  simp [decode, encode, encodeHead, encodeTail, Bytes.slice, List.drop_append,
    List.drop_eq_nil_of_le]

end Header

/-! One slot of the partition table. -/

structure Record where
  kind : Vector UInt8 16
  identity : Vector UInt8 16
  start : UInt64
  lastLba : UInt64
  attributes : UInt64
  name : Vector UInt8 72
  deriving DecidableEq, Repr

namespace Record

def encode (r : Record) : Bytes :=
  r.kind.toList ++ (r.identity.toList ++ (Bytes.le64 r.start ++ (Bytes.le64 r.lastLba ++
    (Bytes.le64 r.attributes ++ r.name.toList))))

@[simp] theorem encode_length (r : Record) : r.encode.length = 128 := by simp [encode]

def decode (b : Bytes) : Record where
  kind := Bytes.array 16 (b.slice 0 16)
  identity := Bytes.array 16 (b.slice 16 16)
  start := Bytes.u64 (b.slice 32 8)
  lastLba := Bytes.u64 (b.slice 40 8)
  attributes := Bytes.u64 (b.slice 48 8)
  name := Bytes.array 72 (b.slice 56 72)

/-- **A table record decodes to itself.** -/
theorem decode_encode (r : Record) : decode r.encode = r := by
  simp [decode, encode, Bytes.slice, List.drop_append, List.drop_eq_nil_of_le,
    List.take_of_length_le]

def isUsed (r : Record) : Bool := r.kind != Vector.replicate 16 0

theorem decode_zeros : (decode (Bytes.zeros 128)).isUsed = false := by decide

end Record

/-! One slot of the protective MBR. -/

structure MbrEntry where
  bootIndicator : UInt8
  startChs : Vector UInt8 3
  osType : UInt8
  endChs : Vector UInt8 3
  start : UInt32
  size : UInt32
  deriving DecidableEq, Repr

namespace MbrEntry

def encode (e : MbrEntry) : Bytes :=
  [e.bootIndicator] ++ (e.startChs.toList ++ ([e.osType] ++ (e.endChs.toList ++
    (Bytes.le32 e.start ++ Bytes.le32 e.size))))

@[simp] theorem encode_length (e : MbrEntry) : e.encode.length = 16 := by simp [encode]

def decode (b : Bytes) : MbrEntry where
  bootIndicator := b.getD 0 0
  startChs := Bytes.array 3 (b.slice 1 3)
  osType := b.getD 4 0
  endChs := Bytes.array 3 (b.slice 5 3)
  start := Bytes.u32 (b.slice 8 4)
  size := Bytes.u32 (b.slice 12 4)

theorem decode_encode (e : MbrEntry) : decode e.encode = e := by
  simp [decode, encode, Bytes.slice, List.drop_append, List.drop_eq_nil_of_le,
    List.take_of_length_le]

/-- The entry covers a disk of `sectors` logical blocks, as far as 32 bits can say. -/
def protects (e : MbrEntry) (sectors : Nat) : Bool :=
  e.osType == 0xee && e.bootIndicator == 0 && e.start == 1 &&
    e.size.toNat == min (sectors - 1) 0xffffffff

end MbrEntry

end Conglobate.Disk
