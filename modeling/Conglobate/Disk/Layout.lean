import Conglobate.Disk.Read

/- Writing a native disk (`disk/layout.rs`).

   `Layout.new` places the optional ESP and the root at 1 MiB boundaries and
   rounds the disk up; what it guarantees of the places is a field of the layout.
   `Layout.write` writes the protective MBR, both partition tables and both
   headers, and nothing else. The identifiers the source draws at random are
   given by `Identities`.

   Correspondence (Rust ↔ Lean):
     `Uuid::new_v4()`               ↔ `Identities` (a version-4 UUID is never nil)
     the table and its `Record`s    ↔ `tableImage`, `tableRecordOf`
     `header` in the last loop      ↔ `headerOf`, with its checksum
     the closure `write(lba, ..)`   ↔ the list `writes` -/
namespace Conglobate.Disk

/-- 1 MiB in sectors. -/
def alignment : Nat := 2048

/-- `u64::next_multiple_of`. -/
def nextMultipleOf (n m : Nat) : Nat := (n + m - 1) / m * m

/-- A partition's sectors: positive, and whole logical blocks. -/
structure PartitionSectors where
  sectors : Nat
  positive : 0 < sectors
  whole : sectors % 8 = 0

def invalidLayout (message : String) : IoError := .invalidInput message

def partitionSectors (c : Carapace) (bytes : Nat) : Except IoError PartitionSectors :=
  if h : bytes = 0 ∨ bytes % sectorSize ≠ 0 ∨ bytes > c.zeroSizeBytes then
    .error (invalidLayout "partition capacity must be positive, 4096-byte aligned and fit a carapace")
  else .ok ⟨bytes / 512, by unfold sectorSize at h; omega, by unfold sectorSize at h; omega⟩

/-- Where the partitions of a layout are. -/
structure Placement (c : Carapace) (root : Partition) (esp : Option Partition) (sectors : Nat) :
    Prop where
  root_start : alignment ≤ root.start
  root_aligned : root.start % alignment = 0
  root_positive : 0 < root.sectors
  root_whole : root.sectors % 8 = 0
  esp_start : ∀ e, esp = some e → e.start = alignment
  esp_positive : ∀ e, esp = some e → 0 < e.sectors
  esp_whole : ∀ e, esp = some e → e.sectors % 8 = 0
  esp_before : ∀ e, esp = some e → e.start + e.sectors ≤ root.start
  backup : root.start + root.sectors + 40 ≤ sectors
  aligned : sectors % alignment = 0
  fits : sectors ≤ c.zeroSizeSectors

/-- A native root and optional ESP, with 1 MiB alignment and both GPT copies. -/
structure Layout (c : Carapace) where
  root : Partition
  esp : Option Partition
  sectors : Nat
  placement : Placement c root esp sectors

namespace Layout

theorem le_nextMultipleOf (n : Nat) {m : Nat} (h : 0 < m) : n ≤ nextMultipleOf n m := by
  unfold nextMultipleOf
  have hdiv := Nat.div_add_mod (n + m - 1) m
  have hmod := Nat.mod_lt (n + m - 1) h
  rw [Nat.mul_comm] at hdiv
  omega

theorem nextMultipleOf_mod (n m : Nat) : nextMultipleOf n m % m = 0 := Nat.mul_mod_left _ _

/-- The ESP's place. -/
def espAt (esp : Option PartitionSectors) : Option Partition :=
  esp.map (fun s => ⟨alignment, s.sectors⟩)

/-- The root's start, behind the ESP. -/
def rootStart (esp : Option PartitionSectors) : Nat :=
  match esp with
  | some s => nextMultipleOf (alignment + s.sectors) alignment
  | none => alignment

/-- The disk's sectors: the backup table takes four logical blocks and its header one. -/
def diskSectors (esp : Option PartitionSectors) (root : PartitionSectors) : Nat :=
  nextMultipleOf (rootStart esp + root.sectors + 40) alignment

theorem placement_of (c : Carapace) (esp : Option PartitionSectors) (root : PartitionSectors)
    (h : diskSectors esp root ≤ c.zeroSizeSectors) :
    Placement c ⟨rootStart esp, root.sectors⟩ (espAt esp) (diskSectors esp root) := by
  have hpos : 0 < alignment := by decide
  have hend := le_nextMultipleOf (rootStart esp + root.sectors + 40) hpos
  cases esp with
  | none =>
    exact ⟨Nat.le_refl _, Nat.mod_self _, root.positive, root.whole, nofun, nofun, nofun,
      nofun, hend, nextMultipleOf_mod _ _, h⟩
  | some s =>
    have hroot := le_nextMultipleOf (alignment + s.sectors) hpos
    refine ⟨Nat.le_trans (Nat.le_add_right _ _) hroot, nextMultipleOf_mod _ _,
      root.positive, root.whole, ?_, ?_, ?_, ?_, hend, nextMultipleOf_mod _ _, h⟩
    all_goals
      rintro e ⟨⟩
    · rfl
    · exact s.positive
    · exact s.whole
    · exact hroot

/-- The capacity describes partition contents, excluding GPT and alignment space. -/
def new (c : Carapace) (rootBytes : Nat) (espBytes : Option Nat) : Except IoError (Layout c) := do
  let esp ← espBytes.mapM (partitionSectors c)
  let root ← partitionSectors c rootBytes
  if h : diskSectors esp root ≤ c.zeroSizeSectors then
    .ok ⟨⟨rootStart esp, root.sectors⟩, espAt esp, diskSectors esp root, placement_of c esp root h⟩
  else .error (invalidLayout "disk layout exceeds the carapace backing extent")

def bytes {c : Carapace} (layout : Layout c) : Nat := layout.sectors * 512

/-- The last logical block of the disk. -/
def lastBlock {c : Carapace} (layout : Layout c) : Nat := layout.sectors / 8 - 1

end Layout

/-- The identifiers of a new disk. -/
structure Identities where
  partition : Nat → Uuid
  disk : Uuid
  disk_ne_nil : disk ≠ Uuid.nil

/-- The record of the partition in slot `slot`. -/
def tableRecordOf (ids : Identities) (slot : Nat) (part : Uuid × Partition) : Record where
  kind := part.1.toBytesLe
  identity := (ids.partition slot).toBytesLe
  start := UInt64.ofNat (part.2.start / 8)
  lastLba := UInt64.ofNat ((part.2.start + part.2.sectors) / 8 - 1)
  attributes := 0
  name := Vector.replicate 72 0

/-- A table of 128 records that holds the partitions in order. -/
def tableImage (ids : Identities) (parts : List (Uuid × Partition)) : Bytes :=
  Bytes.padded (parts.mapIdx (fun slot part => (tableRecordOf ids slot part).encode)) 128
    (128 * 128)

def protectiveEntry (last : Nat) : MbrEntry where
  bootIndicator := 0
  startChs := #v[0, 2, 0]
  osType := 0xee
  endChs := Vector.replicate 3 0xff
  start := 1
  size := UInt32.ofNat (min last 0xffffffff)

def mbrImage (last : Nat) : Bytes :=
  Bytes.zeros 446 ++ ((protectiveEntry last).encode ++
    (Bytes.zeros 48 ++ ([0x55, 0xaa] ++ Bytes.zeros 3584)))

/-- A header with the checksum of the rest of it. -/
def Header.withChecksum (h : Header) : Header :=
  { h with crc32 := Crc32.checksum { h with crc32 := 0 }.encode }

def headerOf (ids : Identities) (last : Nat) (table : Bytes) (current backup partStart : Nat) :
    Header :=
  Header.withChecksum {
    signature := gptSignature
    revision := 0x00010000
    size := 92
    crc32 := 0
    reserved := 0
    currentLba := UInt64.ofNat current
    backupLba := UInt64.ofNat backup
    firstUsable := 6
    lastUsable := UInt64.ofNat (last - 5)
    diskGuid := ids.disk.toBytesLe
    partStart := UInt64.ofNat partStart
    numParts := 128
    partSize := 128
    crc32Parts := Crc32.checksum table }

/-- A header's block. -/
def Header.image (h : Header) : Bytes := h.encode ++ Bytes.zeros 4004

/-- The blocks a disk with the given partitions is written with, last block `last`. -/
def writes (ids : Identities) (last : Nat) (parts : List (Uuid × Partition)) : List (Nat × Bytes) :=
  [(0, mbrImage last),
    (2 * sectorSize, tableImage ids parts),
    ((last - 4) * sectorSize, tableImage ids parts),
    (1 * sectorSize, (headerOf ids last (tableImage ids parts) 1 last 2).image),
    (last * sectorSize, (headerOf ids last (tableImage ids parts) last 1 (last - 4)).image)]

/-- The partitions of a layout with their types, in table order. -/
def Layout.parts {c : Carapace} (layout : Layout c) (arch : Arch) : List (Uuid × Partition) :=
  (rootPartitionType arch, layout.root) :: layout.esp.toList.map
    (fun esp => (espPartitionType, esp))

/-- Write only the protective MBR, headers and partition tables. -/
def Layout.write {c : Carapace} (layout : Layout c) (arch : Arch) (ids : Identities)
    (device : Bytes) (capacity : Nat) : Except IoError Bytes :=
  if capacity < layout.bytes ∨ capacity > c.zeroSizeBytes ∨ capacity % sectorSize ≠ 0 then
    .error (invalidLayout "disk layout does not fit the backing capacity")
  else .ok (device.writeAll (writes ids layout.lastBlock (layout.parts arch)))

end Conglobate.Disk
