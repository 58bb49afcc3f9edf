import Conglobate.Carapace
import Conglobate.Disk.Wire

/- Discovering the root of a GPT disk (`disk/mod.rs`, `entry.rs`, `partition.rs`).

   `Disk.read` checks both headers against each other, the protective MBR, and
   both copies of the partition table block by block, then picks the one
   eligible root and the optional ESP. Positions are the `u64`s of the headers;
   sums of them are taken as numbers, the checks that bound them being part of
   the code.

   Correspondence (Rust ↔ Lean):
     `reader`                            ↔ the device's bytes
     the locals of `Disk::entries`       ↔ `TableScan`
     its `for offset in ..` body         ↔ `scanBlock`
     its `for (slot, bytes) in ..` body  ↔ `scanRecord`
     `entries.windows(2)`                ↔ `checkOverlaps`
     `Disk::header`, `block`, `validate_headers`, `protective_mbr`,
       `entries`, `read`                 ↔ the same names -/
namespace Conglobate.Disk

inductive Copy where
  | primary
  | backup
  deriving DecidableEq, Repr

/-- What a block is read for, as the errors name it. -/
inductive Context where
  /-- "{copy} GPT header at LBA {lba}" -/
  | header (copy : Copy) (lba : Nat)
  /-- "{copy} GPT table" -/
  | table (copy : Copy)
  /-- "protective MBR" -/
  | protectiveMbr
  deriving DecidableEq, Repr

/-- Occupied partition metadata; the LBAs are inclusive. -/
structure Entry where
  number : Nat
  kind : Uuid
  start : Nat
  last : Nat
  eligible : Bool
  deriving DecidableEq, Repr

/-- A partition extent in 512-byte sectors. -/
structure Partition where
  start : Nat
  sectors : Nat
  deriving DecidableEq, Repr

/-- The failures of this module, with what their messages name. -/
inductive Error where
  /-- "invalid GPT backing capacity: {capacity} bytes" -/
  | capacity (capacity : Nat)
  /-- "primary GPT header declares LBAs {current} and {backup} outside backing capacity {capacity} bytes" -/
  | declared (current backup capacity : Nat)
  /-- "{context} LBA {lba} overflows its byte offset" -/
  | offset (context : Context) (lba : Nat)
  /-- "read {context} at GPT LBA {lba} (byte offset {offset}): {error}" -/
  | read (context : Context) (lba offset : Nat) (kind : ErrorKind)
  /-- "{context}: invalid GPT signature" -/
  | signature (context : Context)
  /-- "{context}: unsupported header or entry geometry: {header:?}; requires .." -/
  | unsupported (context : Context) (header : Header)
  /-- "{context} checksum mismatch: expected {expected:#010x}, calculated {calculated:#010x}" -/
  | checksum (context : Context) (expected calculated : UInt32)
  /-- "primary and backup GPT headers disagree: primary {primary:?}; backup {backup:?}" -/
  | headersDisagree (primary backup : Header)
  /-- "GPT metadata overlaps usable sectors or exceeds the disk: .." -/
  | metadataOverlap (start backupStart tableBlocks first last lastLba : Nat)
  /-- "protective MBR at LBA 0 has nonzero reserved bytes" -/
  | mbrReserved
  /-- "protective MBR at LBA 0 has an invalid signature" -/
  | mbrSignature
  /-- "invalid or hybrid protective MBR entry {number}: {entry:?}" -/
  | mbrEntry (number : Nat) (entry : MbrEntry)
  /-- "GPT requires one protective MBR entry; found {protective}" -/
  | mbrCount (protective : Nat)
  /-- "{entry} has reversed bounds" -/
  | reversed (entry : Entry)
  /-- "{entry} is outside usable GPT LBAs {first}..={last} .." -/
  | outside (entry : Entry) (first last : Nat)
  /-- "{copy} GPT partition-array checksum mismatch: expected .., calculated .." -/
  | tableChecksum (copy : Copy) (expected calculated : UInt32)
  /-- "primary and backup GPT partition tables disagree at partition {number}" -/
  | tablesDisagree (number : Nat)
  /-- "{first} overlaps {second}" -/
  | overlaps (first second : Entry)
  /-- "no discoverable root for partition type {kind} (no-auto roots excluded)" -/
  | noRoot (kind : Uuid)
  /-- "multiple discoverable root partitions: {first} and {second}" -/
  | multipleRoots (first second : Entry)
  /-- "multiple EFI System Partitions" -/
  | multipleEsps
  /-- "{entry} cannot be converted to 512-byte device-mapper sectors: .." -/
  | extent (entry : Entry)
  deriving DecidableEq, Repr

/-- `InvalidData` for all but a failed read, which keeps the reader's kind. -/
def Error.kind : Error → ErrorKind
  | .read _ _ _ kind => kind
  | _ => .invalidData

def block (device : Bytes) (lba : Nat) (context : Context) : Except Error Bytes :=
  if lba * sectorSize < 2 ^ 64 then
    match device.readAt (lba * sectorSize) 4096 with
    | some bytes => .ok bytes
    | none => .error (.read context lba (lba * sectorSize) .unexpectedEof)
  else .error (.offset context lba)

/-- `b"EFI PART"`. -/
def gptSignature : Vector UInt8 8 := #v[0x45, 0x46, 0x49, 0x20, 0x50, 0x41, 0x52, 0x54]

/-- The header's fields but its checksum are ones this reader supports. -/
def Header.supported (h : Header) (bytes : Bytes) : Bool :=
  h.revision == 0x00010000 && h.size == 92 && h.reserved == 0 && h.partSize == 128 &&
    (128 ≤ h.numParts.toNat && h.numParts.toNat ≤ maxEntries) &&
    h.diskGuid != Vector.replicate 16 0 && (bytes.drop 92).all (fun byte => byte == 0)

/-- The checksum of a header block, its checksum field taken as zero. -/
def Header.calculated (bytes : Bytes) : UInt32 :=
  Crc32.finalize (Crc32.update (Crc32.update (Crc32.update Crc32.digest (bytes.take 16))
    (Bytes.zeros 4))
    (bytes.slice 20 72))

def Header.read (bytes : Bytes) (context : Context) : Except Error Header :=
  if (decode bytes).signature ≠ gptSignature then .error (.signature context)
  else if !(decode bytes).supported bytes then .error (.unsupported context (decode bytes))
  else if calculated bytes ≠ (decode bytes).crc32 then
    .error (.checksum context (decode bytes).crc32 (calculated bytes))
  else .ok (decode bytes)

def header (device : Bytes) (lba : Nat) (copy : Copy) : Except Error Header := do
  let bytes ← block device lba (.header copy lba)
  Header.read bytes (.header copy lba)

/-- Blocks of the partition table. -/
def Header.tableBlocks (h : Header) : Nat := (h.numParts.toNat * 128 + 4095) / 4096

def validateHeaders (primary backup : Header) : Except Error Unit :=
  if backup.currentLba ≠ primary.backupLba ∨ backup.backupLba ≠ primary.currentLba ∨
      backup.diskGuid ≠ primary.diskGuid ∨ backup.firstUsable ≠ primary.firstUsable ∨
      backup.lastUsable ≠ primary.lastUsable ∨ backup.numParts ≠ primary.numParts ∨
      backup.crc32Parts ≠ primary.crc32Parts then .error (.headersDisagree primary backup)
  else if primary.partStart.toNat < 2 ∨ primary.partStart.toNat > backup.currentLba.toNat ∨
      primary.partStart.toNat + primary.tableBlocks > primary.firstUsable.toNat ∨
      primary.firstUsable.toNat > primary.lastUsable.toNat ∨
      primary.lastUsable.toNat ≥ backup.partStart.toNat ∨
      backup.partStart.toNat > backup.currentLba.toNat ∨
      backup.partStart.toNat + primary.tableBlocks > backup.currentLba.toNat then
    .error (.metadataOverlap primary.partStart.toNat backup.partStart.toNat primary.tableBlocks
      primary.firstUsable.toNat primary.lastUsable.toNat backup.currentLba.toNat)
  else .ok ()

/-- One slot of the protective MBR; the count of protective ones is kept. -/
def checkMbrEntry (sectors : Nat) (bytes : Bytes) (protective index : Nat) : Except Error Nat :=
  if (MbrEntry.decode (bytes.slice (446 + index * 16) 16)).protects sectors then
    .ok (protective + 1)
  else if bytes.slice (446 + index * 16) 16 ≠ Bytes.zeros 16 then
    .error (.mbrEntry (index + 1) (MbrEntry.decode (bytes.slice (446 + index * 16) 16)))
  else .ok protective

def checkMbr (bytes : Bytes) (sectors : Nat) : Except Error Unit :=
  if (bytes.drop 512).any (fun byte => byte != 0) then .error .mbrReserved
  else if bytes.slice 510 2 ≠ [0x55, 0xaa] then .error .mbrSignature
  else do
    let protective ← (List.range 4).foldlM (checkMbrEntry sectors bytes) 0
    if protective ≠ 1 then .error (.mbrCount protective) else .ok ()

def protectiveMbr (device : Bytes) (sectors : Nat) : Except Error Unit := do
  let bytes ← block device 0 .protectiveMbr
  checkMbr bytes sectors

namespace Entry

def ofRecord (number : Nat) (record : Record) : Entry where
  number := number
  kind := Uuid.fromBytesLe record.kind
  start := record.start.toNat
  last := record.lastLba.toNat
  eligible := record.attributes &&& noAuto == 0

def new (number : Nat) (record : Record) : Except Error Entry :=
  if (ofRecord number record).start > (ofRecord number record).last then
    .error (.reversed (ofRecord number record))
  else .ok (ofRecord number record)

end Entry

/-- The locals of the table walk. -/
structure TableScan where
  primaryCrc : BitVec 32
  backupCrc : BitVec 32
  disagreement : Option Nat
  entries : List Entry

/-- One record of a block. -/
def scanRecord (primary : Header) (entries : List Entry) (number : Nat) (raw : Record) :
    Except Error (List Entry) :=
  if raw.isUsed then do
    let entry ← Entry.new number raw
    if entry.start < primary.firstUsable.toNat ∨ entry.last > primary.lastUsable.toNat then
      .error (.outside entry primary.firstUsable.toNat primary.lastUsable.toNat)
    else .ok (entries ++ [entry])
  else .ok entries

/-- The records of one block, `used` bytes of it. -/
def scanRecords (primary : Header) (entries : List Entry) (index : Nat) (used : Bytes) :
    Except Error (List Entry) :=
  (List.range (used.length / 128)).foldlM (fun entries slot =>
    scanRecord primary entries (index * 4096 / 128 + slot + 1)
      (Record.decode (used.slice (slot * 128) 128)))
    entries

/-- The number of the first record in which two blocks differ. -/
def firstDifference (index : Nat) (block other : Bytes) : Option Nat :=
  ((block.zip other).findIdx? (fun p => p.1 != p.2)).map (fun byte =>
    (index * 4096 + byte) / 128 + 1)

/-- One block of both tables. -/
def scanBlock (device : Bytes) (primary backup : Header) (length : Nat) (s : TableScan)
    (index : Nat) :
    Except Error TableScan := do
  let block ← Disk.block device (primary.partStart.toNat + index) (.table .primary)
  let other ← Disk.block device (backup.partStart.toNat + index) (.table .backup)
  let entries ← scanRecords primary s.entries index (block.take (min (length - index * 4096) 4096))
  .ok {
    primaryCrc := Crc32.update s.primaryCrc (block.take (min (length - index * 4096) 4096))
    backupCrc := Crc32.update s.backupCrc (other.take (min (length - index * 4096) 4096))
    disagreement := s.disagreement <|>
      firstDifference index (block.take (min (length - index * 4096) 4096))
        (other.take (min (length - index * 4096) 4096))
    entries := entries }

def checkOverlaps : List Entry → Except Error Unit
  | first :: second :: rest =>
    if first.last ≥ second.start then
      .error (.overlaps first second)
    else
      checkOverlaps (second :: rest)
  | _ => .ok ()

/-- Sorted by start. The source's sort is unstable, but entries of one start overlap
    and are refused in any order. -/
def sortEntries (entries : List Entry) : List Entry :=
  entries.mergeSort (fun a b => a.start ≤ b.start)

def entries (device : Bytes) (primary backup : Header) : Except Error (List Entry) := do
  let s ← (List.range primary.tableBlocks).foldlM
    (scanBlock device primary backup (primary.numParts.toNat * 128))
      ⟨Crc32.digest, Crc32.digest, none, []⟩
  if Crc32.finalize s.primaryCrc ≠ primary.crc32Parts then
    .error (.tableChecksum .primary primary.crc32Parts (Crc32.finalize s.primaryCrc))
  else if Crc32.finalize s.backupCrc ≠ backup.crc32Parts then
    .error (.tableChecksum .backup backup.crc32Parts (Crc32.finalize s.backupCrc))
  else match s.disagreement with
    | some number => .error (.tablesDisagree number)
    | none => do
      checkOverlaps (sortEntries s.entries)
      .ok (sortEntries s.entries)

/-- The conversion of a `u64` extent to sectors, each product checked. -/
def Partition.tryFrom (entry : Entry) : Except Error Partition :=
  if entry.start * 8 < 2 ^ 64 ∧ entry.start ≤ entry.last ∧
    (entry.last - entry.start + 1) * 8 < 2 ^ 64 then
    .ok ⟨entry.start * 8, (entry.last - entry.start + 1) * 8⟩
  else .error (.extent entry)

/-- The entries of the root type that discovery may use. -/
def rootsOf (kind : Uuid) (entries : List Entry) : List Entry :=
  entries.filter (fun entry => entry.kind = kind && entry.eligible)

/-- ESP use is explicit, so no-auto does not suppress it. -/
def espsOf (entries : List Entry) : List Entry :=
  entries.filter (fun entry => entry.kind = espPartitionType)

def selectRoot (kind : Uuid) (entries : List Entry) : Except Error Entry :=
  match rootsOf kind entries with
  | [] => .error (.noRoot kind)
  | [root] => .ok root
  | root :: other :: _ => .error (.multipleRoots root other)

def selectEsp (entries : List Entry) : Except Error (Option Partition) :=
  match espsOf entries with
  | [] => .ok none
  | entry :: rest => do
    let esp ← Partition.tryFrom entry
    if rest ≠ [] then .error .multipleEsps else .ok (some esp)

end Disk

/-- A root selected after validating both copies of its disk's GPT metadata. -/
structure Disk where
  root : Disk.Partition
  esp : Option Disk.Partition
  deriving DecidableEq, Repr

namespace Disk

/-- The headers, checked against each other and the capacity. -/
def headers (device : Bytes) (capacity : Nat) : Except Error (Header × Header) := do
  let primary ← header device 1 .primary
  if primary.currentLba.toNat ≠ 1 ∨
      ¬ (11 ≤ primary.backupLba.toNat ∧ primary.backupLba.toNat < capacity / sectorSize) then
    .error (.declared primary.currentLba.toNat primary.backupLba.toNat capacity)
  else do
    let backup ← header device primary.backupLba.toNat .backup
    validateHeaders primary backup
    .ok (primary, backup)

/-- The partitions chosen from the table. -/
def select (rootType : Uuid) (entries : List Entry) : Except Error Disk := do
  let root ← selectRoot rootType entries
  let esp ← selectEsp entries
  let partition ← Partition.tryFrom root
  .ok ⟨partition, esp⟩

def read (c : Carapace) (device : Bytes) (capacity : Nat) (rootType : Uuid) : Except Error Disk :=
  if capacity > c.zeroSizeBytes ∨ capacity % sectorSize ≠ 0 ∨ capacity < 12 * sectorSize then
    .error (.capacity capacity)
  else do
    let (primary, backup) ← headers device capacity
    protectiveMbr device (primary.backupLba.toNat + 1)
    let entries ← entries device primary backup
    select rootType entries

end Disk

end Conglobate
