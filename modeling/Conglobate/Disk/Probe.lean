import Conglobate.Disk.ReadSound
import Conglobate.Lib.Machine

/- Reading a disk as the machine does it: with words, and from a device whose
   reads may fail (`disk/mod.rs`, `mbr_entry.rs`).

   The functions are those of `Disk.Read` with every sum, difference and product
   of the source taken on its word and every read logged. A slice of a block by
   constant bounds is inside the block and stays a slice. `read_follows` says the
   words never overflow: the computation is the one on numbers, all of whose
   errors are about the data, unless a read fails.

   Correspondence (Rust ↔ Lean):
     `reader.seek(..)` and `read_exact`  ↔ one `Machine.read`
     `+`, `-`, `*` on `u64`, `u32`       ↔ `Machine.add`, `sub`, `mul`
     an index or slice out of bounds     ↔ `Machine.panic`
     the code behind the loop of
       `Disk::entries`                   ↔ `checkTable` -/
namespace Conglobate.Disk

namespace Probe

open Machine (lift)

def block (reader : Reader) (lba : Nat) (context : Context) : Machine Error Bytes :=
  if lba * sectorSize < 2 ^ 64 then
    Machine.read reader (.read context lba (lba * sectorSize)) (lba * sectorSize) 4096
  else lift (.error (.offset context lba))

def header (reader : Reader) (lba : Nat) (copy : Copy) : Machine Error Header := do
  let bytes ← block reader lba (.header copy lba)
  lift (Header.read bytes (.header copy lba))

/-- The refusal of headers whose ranges overlap. -/
def overlap (primary backup : Header) (tableBlocks : Nat) : Machine Error Unit :=
  lift (.error (.metadataOverlap primary.partStart.toNat backup.partStart.toNat tableBlocks
    primary.firstUsable.toNat primary.lastUsable.toNat backup.currentLba.toNat))

/-- The sums of the last condition are taken only where the terms before them are false. -/
def validateHeaders (primary backup : Header) : Machine Error Unit :=
  if backup.currentLba ≠ primary.backupLba ∨ backup.backupLba ≠ primary.currentLba ∨
      backup.diskGuid ≠ primary.diskGuid ∨ backup.firstUsable ≠ primary.firstUsable ∨
      backup.lastUsable ≠ primary.lastUsable ∨ backup.numParts ≠ primary.numParts ∨
      backup.crc32Parts ≠ primary.crc32Parts then lift (.error (.headersDisagree primary backup))
  else do
    let length ← Machine.mul 64 primary.numParts.toNat 128
    let tableBlocks := (length + 4095) / 4096
    if primary.partStart.toNat < 2 ∨ primary.partStart.toNat > backup.currentLba.toNat then
      overlap primary backup tableBlocks
    else do
      let tableEnd ← Machine.add 64 primary.partStart.toNat tableBlocks
      if tableEnd > primary.firstUsable.toNat ∨ primary.firstUsable.toNat > primary.lastUsable.toNat ∨
          primary.lastUsable.toNat ≥ backup.partStart.toNat ∨
          backup.partStart.toNat > backup.currentLba.toNat then overlap primary backup tableBlocks
      else do
        let backupEnd ← Machine.add 64 backup.partStart.toNat tableBlocks
        if backupEnd > backup.currentLba.toNat then
          overlap primary backup tableBlocks
        else
          lift (.ok ())

def protects (entry : MbrEntry) (sectors : Nat) : Machine Error Bool :=
  if entry.osType == 0xee && entry.bootIndicator == 0 && entry.start == 1 then do
    let last ← Machine.sub sectors 1
    lift (.ok (entry.size.toNat == min last 0xffffffff))
  else lift (.ok false)

/-- `protective` is an `i32`. -/
def checkMbrEntry (sectors : Nat) (bytes : Bytes) (protective index : Nat) : Machine Error Nat := do
  let covers ← protects (MbrEntry.decode (bytes.slice (446 + index * 16) 16)) sectors
  if covers then Machine.add 31 protective 1
  else if bytes.slice (446 + index * 16) 16 ≠ Bytes.zeros 16 then do
    let number ← Machine.add 64 index 1
    lift (.error (.mbrEntry number (MbrEntry.decode (bytes.slice (446 + index * 16) 16))))
  else lift (.ok protective)

def checkMbr (bytes : Bytes) (sectors : Nat) : Machine Error Unit :=
  if (bytes.drop 512).any (fun byte => byte != 0) then lift (.error .mbrReserved)
  else if bytes.slice 510 2 ≠ [0x55, 0xaa] then lift (.error .mbrSignature)
  else do
    let protective ← (List.range 4).foldlM (checkMbrEntry sectors bytes) 0
    if protective ≠ 1 then lift (.error (.mbrCount protective)) else lift (.ok ())

def protectiveMbr (reader : Reader) (sectors : Nat) : Machine Error Unit := do
  let bytes ← block reader 0 .protectiveMbr
  checkMbr bytes sectors

/-- `&block[..n]`. -/
def firstBytes (block : Bytes) (n : Nat) : Machine Error Bytes :=
  if n ≤ block.length then lift (.ok (block.take n)) else Machine.panic

/-- One record of the block at `offset`. -/
def scanRecord (primary : Header) (entries : List Entry) (offset slot : Nat) (raw : Record) :
    Machine Error (List Entry) :=
  if raw.isUsed then do
    let index ← Machine.add 32 (offset % 2 ^ 32 / 128) (slot % 2 ^ 32)
    let number ← Machine.add 32 index 1
    let entry ← lift (Entry.new number raw)
    if entry.start < primary.firstUsable.toNat ∨ entry.last > primary.lastUsable.toNat then
      lift (.error (.outside entry primary.firstUsable.toNat primary.lastUsable.toNat))
    else lift (.ok (entries ++ [entry]))
  else lift (.ok entries)

def scanRecords (primary : Header) (entries : List Entry) (offset : Nat) (used : Bytes) :
    Machine Error (List Entry) :=
  (List.range (used.length / 128)).foldlM (fun entries slot =>
    scanRecord primary entries offset slot (Record.decode (used.slice (slot * 128) 128))) entries

def firstDifference (offset : Nat) (block other : Bytes) : Machine Error (Option Nat) :=
  match (block.zip other).findIdx? (fun p => p.1 != p.2) with
  | none => lift (.ok none)
  | some byte => do
    let position ← Machine.add 64 offset byte
    let number ← Machine.add 64 (position / 128) 1
    lift (.ok (some number))

/-- The difference found before, or else the first of this block. -/
def difference (disagreement : Option Nat) (offset : Nat) (block other : Bytes) :
    Machine Error (Option Nat) :=
  if disagreement.isNone then firstDifference offset block other else lift (.ok disagreement)

/-- One block of both tables, at `index * 4096` in them. -/
def scanBlock (reader : Reader) (primary backup : Header) (length : Nat) (s : TableScan)
    (index : Nat) :
    Machine Error TableScan := do
  let lba ← Machine.add 64 primary.partStart.toNat index
  let block ← Probe.block reader lba (.table .primary)
  let backupLba ← Machine.add 64 backup.partStart.toNat index
  let other ← Probe.block reader backupLba (.table .backup)
  let remaining ← Machine.sub length (index * 4096)
  let used ← firstBytes block (min remaining 4096)
  let otherUsed ← firstBytes other (min remaining 4096)
  let disagreement ← difference s.disagreement (index * 4096) used otherUsed
  let entries ← scanRecords primary s.entries (index * 4096) used
  lift (.ok {
    primaryCrc := Crc32.update s.primaryCrc used
    backupCrc := Crc32.update s.backupCrc otherUsed
    disagreement := disagreement
    entries := entries })

/-- The checks on the whole table. -/
def checkTable (primary backup : Header) (s : TableScan) : Except Error (List Entry) :=
  if Crc32.finalize s.primaryCrc ≠ primary.crc32Parts then
    .error (.tableChecksum .primary primary.crc32Parts (Crc32.finalize s.primaryCrc))
  else if Crc32.finalize s.backupCrc ≠ backup.crc32Parts then
    .error (.tableChecksum .backup backup.crc32Parts (Crc32.finalize s.backupCrc))
  else match s.disagreement with
    | some number => .error (.tablesDisagree number)
    | none => do
      checkOverlaps (sortEntries s.entries)
      .ok (sortEntries s.entries)

def entries (reader : Reader) (primary backup : Header) : Machine Error (List Entry) := do
  let length ← Machine.mul 64 primary.numParts.toNat 128
  let s ← (List.range ((length + 4095) / 4096)).foldlM (scanBlock reader primary backup length)
    ⟨Crc32.digest, Crc32.digest, none, []⟩
  lift (checkTable primary backup s)

def headers (reader : Reader) (capacity : Nat) : Machine Error (Header × Header) := do
  let primary ← header reader 1 .primary
  if primary.currentLba.toNat ≠ 1 ∨
      ¬ (11 ≤ primary.backupLba.toNat ∧ primary.backupLba.toNat < capacity / sectorSize) then
    lift (.error (.declared primary.currentLba.toNat primary.backupLba.toNat capacity))
  else do
    let backup ← header reader primary.backupLba.toNat .backup
    validateHeaders primary backup
    lift (.ok (primary, backup))

def read (c : Carapace) (reader : Reader) (capacity : Nat) (rootType : Uuid) : Machine Error Disk :=
  if capacity > c.zeroSizeBytes ∨ capacity % sectorSize ≠ 0 ∨ capacity < 12 * sectorSize then
    lift (.error (.capacity capacity))
  else do
    let (primary, backup) ← headers reader capacity
    let sectors ← Machine.add 64 primary.backupLba.toNat 1
    protectiveMbr reader sectors
    let entries ← entries reader primary backup
    lift (select rootType entries)

/-! What reads nothing never overflows. -/

theorem validateHeaders_eq {primary backup : Header} (h : primary.backupLba.toNat * 4096 < 2 ^ 64) :
    validateHeaders primary backup = lift (Disk.validateHeaders primary backup) := by
  have hparts := primary.numParts.toNat_lt
  have hlength : primary.numParts.toNat * 128 < 2 ^ 64 := by omega
  rw [validateHeaders, Disk.validateHeaders, Machine.mul_eq hlength]
  split
  · rfl
  · rename_i hagree
    simp only [not_or, Decidable.not_not] at hagree
    rw [Machine.lift_ok_bind]
    have hblocks : (primary.numParts.toNat * 128 + 4095) / 4096 = primary.tableBlocks := rfl
    have hcurrent : backup.currentLba.toNat = primary.backupLba.toNat := by rw [hagree.1]
    have hbound : primary.tableBlocks < 2 ^ 32 := by
      rw [← hblocks]
      omega
    simp only [hblocks]
    by_cases hstart : primary.partStart.toNat < 2 ∨
      primary.partStart.toNat > backup.currentLba.toNat
    · rw [if_pos hstart, if_pos (by omega)]
      rfl
    · rw [if_neg hstart, Machine.add_eq (by omega), Machine.lift_ok_bind]
      by_cases hmiddle : primary.partStart.toNat + primary.tableBlocks > primary.firstUsable.toNat ∨
          primary.firstUsable.toNat > primary.lastUsable.toNat ∨
          primary.lastUsable.toNat ≥ backup.partStart.toNat ∨
            backup.partStart.toNat > backup.currentLba.toNat
      · rw [if_pos hmiddle, if_pos (by omega)]
        rfl
      · rw [if_neg hmiddle, Machine.add_eq (by omega), Machine.lift_ok_bind]
        by_cases hend : backup.partStart.toNat + primary.tableBlocks > backup.currentLba.toNat
        · rw [if_pos hend, if_pos (by omega)]
          rfl
        · rw [if_neg hend, if_neg (by omega)]

theorem protects_eq {entry : MbrEntry} {sectors : Nat} (h : 1 ≤ sectors) :
    protects entry sectors = lift (.ok (entry.protects sectors)) := by
  rw [protects, MbrEntry.protects, Machine.sub_eq h]
  split
  · rename_i hkind
    rw [hkind, Bool.true_and]
    rfl
  · rename_i hkind
    rw [Bool.not_eq_true] at hkind
    rw [hkind, Bool.false_and]

theorem checkMbrEntry_eq {sectors : Nat} (h : 1 ≤ sectors) {bytes : Bytes} {protective index : Nat}
    (hprotective : protective < 4) (hindex : index < 4) :
    checkMbrEntry sectors bytes protective index =
      lift (Disk.checkMbrEntry sectors bytes protective index) := by
  rw [checkMbrEntry, Disk.checkMbrEntry, protects_eq h, Machine.lift_ok_bind,
    Machine.add_eq (by omega), Machine.add_eq (by omega), Machine.lift_ok_bind]
  split
  · rfl
  · split <;> rfl

/-- A round over a slot counts at most one. -/
theorem checkMbrEntry_le {sectors : Nat} {bytes : Bytes} {protective index n : Nat}
    (h : Disk.checkMbrEntry sectors bytes protective index = .ok n) : n ≤ protective + 1 := by
  rw [Disk.checkMbrEntry] at h
  split at h
  · cases h
    exact Nat.le_refl _
  · split at h
    · cases h
    · cases h
      exact Nat.le_succ _

theorem checkMbr_eq {bytes : Bytes} {sectors : Nat} (h : 1 ≤ sectors) :
    checkMbr bytes sectors = lift (Disk.checkMbr bytes sectors) := by
  have hloop : (List.range 4).foldlM (checkMbrEntry sectors bytes) 0 =
      lift ((List.range 4).foldlM (Disk.checkMbrEntry sectors bytes) 0) := by
    apply Machine.foldlM_lift (P := fun n protective => protective ≤ n) (n := 0) (N := 4) (by simp)
      (Nat.le_refl 0)
    · intro n protective hn hprotective index hindex
      exact checkMbrEntry_eq h (by omega) (List.mem_range.mp hindex)
    · intro n protective hprotective index b' hb'
      have hle := checkMbrEntry_le hb'
      omega
  rw [checkMbr, Disk.checkMbr, hloop]
  split
  · rfl
  · split
    · rfl
    · rw [← Machine.lift_bind]
      congr 1
      funext protective
      split <;> rfl

theorem scanRecord_eq {primary : Header} {entries : List Entry} {index slot : Nat} {raw : Record}
    (hindex : index < 256) (hslot : slot < 32) :
    scanRecord primary entries (index * 4096) slot raw =
      lift (Disk.scanRecord primary entries (index * 4096 / 128 + slot + 1) raw) := by
  have hoffset : index * 4096 % 2 ^ 32 / 128 = index * 4096 / 128 := by omega
  have hslot' : slot % 2 ^ 32 = slot := by omega
  rw [scanRecord, Disk.scanRecord, hoffset, hslot', Machine.add_eq (by omega), Machine.lift_ok_bind,
    Machine.add_eq (by omega), Machine.lift_ok_bind]
  split
  · rw [← Machine.lift_bind]
    congr 1
    funext entry
    split <;> rfl
  · rfl

theorem scanRecords_eq {primary : Header} {entries : List Entry} {index : Nat} {used : Bytes}
    (hindex : index < 256) (hused : used.length ≤ 4096) :
    scanRecords primary entries (index * 4096) used =
      lift (Disk.scanRecords primary entries index used) := by
  apply Machine.foldlM_lift (P := fun _ _ => True) (n := 0) (Nat.le_refl _) trivial
  · intro n es _ _ slot hslot
    have hlt := List.mem_range.mp hslot
    exact scanRecord_eq hindex (by omega)
  · intros
    trivial

theorem firstDifference_eq {index : Nat} {block other : Bytes} (hindex : index < 256)
    (hblock : block.length ≤ 4096) :
    firstDifference (index * 4096) block other = lift (.ok
      (Disk.firstDifference index block other)) := by
  rw [firstDifference, Disk.firstDifference]
  cases hfind : (block.zip other).findIdx? (fun p => p.1 != p.2) with
  | none => rfl
  | some byte =>
    have hlt : byte < block.length := by
      have hle := (List.findIdx?_eq_some_iff_getElem.mp hfind).1
      rw [List.length_zip] at hle
      omega
    dsimp only
    rw [Machine.add_eq (by omega), Machine.lift_ok_bind, Machine.add_eq (by omega),
      Machine.lift_ok_bind]
    rfl

theorem difference_eq {index : Nat} {block other : Bytes} (hindex : index < 256)
    (hblock : block.length ≤ 4096) (disagreement : Option Nat) :
    difference disagreement (index * 4096) block other =
      lift (.ok (disagreement <|> Disk.firstDifference index block other)) := by
  rw [difference, firstDifference_eq hindex hblock]
  cases disagreement <;> rfl

/-! What reads nothing fails for the data only. -/

/-- A failure that is no failed read. -/
def AboutData {α : Type} (x : Except Error α) : Prop := ∀ e, x = .error e → e.kind = .invalidData

theorem AboutData.ok {α : Type} (a : α) : AboutData (.ok a) := by
  intro e he
  cases he

theorem AboutData.error {α : Type} {e : Error} (h : e.kind = .invalidData) :
    AboutData (.error e : Except Error α) := by
  intro e' he
  cases he
  exact h

theorem AboutData.bind {α β : Type} {x : Except Error α} {f : α → Except Error β} (hx : AboutData x)
    (hf : ∀ a, AboutData (f a)) : AboutData (x >>= f) := by
  cases x with
  | error e => exact AboutData.error (hx e rfl)
  | ok a => exact hf a

theorem AboutData.foldlM {α β : Type} {f : β → α → Except Error β} (hf : ∀ b a, AboutData (f b a))
    (l : List α) (b : β) :
    AboutData (l.foldlM f b) := by
  induction l generalizing b with
  | nil => exact AboutData.ok b
  | cons a l ih =>
    rw [List.foldlM_cons]
    exact (hf b a).bind ih

theorem headerRead_aboutData (bytes : Bytes) (context : Context) :
    AboutData (Header.read bytes context) := by
  rw [Header.read]
  split
  · exact AboutData.error rfl
  · split
    · exact AboutData.error rfl
    · split
      · exact AboutData.error rfl
      · exact AboutData.ok _

theorem validateHeaders_aboutData (primary backup : Header) :
    AboutData (Disk.validateHeaders primary backup) := by
  rw [Disk.validateHeaders]
  split
  · exact AboutData.error rfl
  · split
    · exact AboutData.error rfl
    · exact AboutData.ok _

theorem checkMbr_aboutData (bytes : Bytes) (sectors : Nat) :
    AboutData (Disk.checkMbr bytes sectors) := by
  have hentry : ∀ protective index, AboutData (Disk.checkMbrEntry sectors bytes protective index) := by
    intro protective index
    rw [Disk.checkMbrEntry]
    split
    · exact AboutData.ok _
    · split
      · exact AboutData.error rfl
      · exact AboutData.ok _
  rw [Disk.checkMbr]
  split
  · exact AboutData.error rfl
  · split
    · exact AboutData.error rfl
    · refine (AboutData.foldlM hentry _ 0).bind (fun protective => ?_)
      split
      · exact AboutData.error rfl
      · exact AboutData.ok _

theorem scanRecords_aboutData (primary : Header) (entries : List Entry) (index : Nat)
    (used : Bytes) :
    AboutData (Disk.scanRecords primary entries index used) := by
  refine AboutData.foldlM (fun entries slot => ?_) _ entries
  rw [Disk.scanRecord]
  split
  · have hentry : ∀ number record, AboutData (Entry.new number record) := by
      intro number record
      rw [Entry.new]
      split
      · exact AboutData.error rfl
      · exact AboutData.ok _
    refine (hentry _ _).bind (fun entry => ?_)
    split
    · exact AboutData.error rfl
    · exact AboutData.ok _
  · exact AboutData.ok _

theorem checkOverlaps_aboutData (l : List Entry) : AboutData (checkOverlaps l) := by
  induction l with
  | nil => exact AboutData.ok ()
  | cons first l ih =>
    cases l with
    | nil => exact AboutData.ok ()
    | cons second rest =>
      rw [checkOverlaps]
      split
      · exact AboutData.error rfl
      · exact ih

theorem checkTable_aboutData (primary backup : Header) (s : TableScan) :
    AboutData (checkTable primary backup s) := by
  rw [checkTable]
  split
  · exact AboutData.error rfl
  · split
    · exact AboutData.error rfl
    · split
      · exact AboutData.error rfl
      · exact (checkOverlaps_aboutData _).bind (fun _ => AboutData.ok _)

theorem select_aboutData (rootType : Uuid) (entries : List Entry) :
    AboutData (select rootType entries) := by
  have htryFrom : ∀ entry, AboutData (Partition.tryFrom entry) := by
    intro entry
    rw [Partition.tryFrom]
    split
    · exact AboutData.ok _
    · exact AboutData.error rfl
  have hroot : AboutData (selectRoot rootType entries) := by
    rw [selectRoot]
    split
    · exact AboutData.error rfl
    · exact AboutData.ok _
    · exact AboutData.error rfl
  have hesp : AboutData (selectEsp entries) := by
    rw [selectEsp]
    split
    · exact AboutData.ok _
    · refine (htryFrom _).bind (fun esp => ?_)
      split
      · exact AboutData.error rfl
      · exact AboutData.ok _
  exact hroot.bind (fun root => hesp.bind (fun esp => (htryFrom root).bind
    (fun _ => AboutData.ok _)))

/-! What reads stays inside the device. -/

section Device

variable {reader : Reader} {device : Bytes}

theorem block_follows (hserves : reader.Serves device) (hlen : device.length < 2 ^ 64) {lba : Nat}
    (h : lba < device.length / 4096) (context : Context) :
    Machine.Follows Error.kind reader device.length (block reader lba context)
      (Disk.block device lba context) := by
  have hlt : lba * sectorSize < 2 ^ 64 := by
    unfold sectorSize
    omega
  have hle : lba * sectorSize + 4096 ≤ device.length := by
    unfold sectorSize
    omega
  rw [block, Disk.block, if_pos hlt, if_pos hlt, Bytes.readAt_of_le hle]
  exact Machine.Follows.read hserves rfl (fun _ => rfl) hle

theorem block_length {lba : Nat} {context : Context} {bytes : Bytes}
    (h : Disk.block device lba context = .ok bytes) : bytes.length = 4096 := by
  rw [Disk.block] at h
  split at h
  · cases hread : device.readAt (lba * sectorSize) 4096 with
    | none =>
      rw [hread] at h
      cases h
    | some b =>
      rw [hread] at h
      cases h
      exact Bytes.readAt_length hread
  · cases h

theorem header_follows (hserves : reader.Serves device) (hlen : device.length < 2 ^ 64) {lba : Nat}
    (h : lba < device.length / 4096) (copy : Copy) :
    Machine.Follows Error.kind reader device.length (header reader lba copy)
      (Disk.header device lba copy) :=
  (block_follows hserves hlen h _).bind (fun bytes _ => Machine.Follows.lift
    (headerRead_aboutData bytes _))

/-- **The headers are read** inside the device, the backup's where the primary's was checked to say. -/
theorem headers_follows (hserves : reader.Serves device) (hlen : device.length < 2 ^ 64)
    (hmin : 12 * 4096 ≤ device.length) :
    Machine.Follows Error.kind reader device.length (headers reader device.length)
      (Disk.headers device device.length) := by
  refine (header_follows hserves hlen (by omega) _).bind
    (fun primary _ => Machine.Follows.ite (fun _ => ?_) (fun hlba => ?_))
  · exact Machine.Follows.lift (AboutData.error rfl)
  · simp only [not_or, Decidable.not_not] at hlba
    have hhigh : primary.backupLba.toNat < device.length / 4096 := hlba.2.2
    refine (header_follows hserves hlen hhigh _).bind (fun backup _ => ?_)
    rw [validateHeaders_eq (by omega)]
    exact (Machine.Follows.lift (validateHeaders_aboutData primary backup)).bind
      (fun _ _ => Machine.Follows.lift (AboutData.ok _))

theorem protectiveMbr_follows (hserves : reader.Serves device) (hlen : device.length < 2 ^ 64)
    (hmin : 12 * 4096 ≤ device.length) {sectors : Nat} (h : 1 ≤ sectors) :
    Machine.Follows Error.kind reader device.length (protectiveMbr reader sectors)
      (Disk.protectiveMbr device sectors) := by
  refine (block_follows hserves hlen (by omega) _).bind (fun bytes _ => ?_)
  rw [checkMbr_eq h]
  exact Machine.Follows.lift (checkMbr_aboutData bytes sectors)

/-- A header read has few enough slots that its table is at most 1 MiB. -/
theorem header_numParts {lba : Nat} {copy : Copy} {h : Header}
    (hread : Disk.header device lba copy = .ok h) :
    h.numParts.toNat ≤ 8192 := by
  obtain ⟨bytes, -, hread⟩ := except_bind_eq_ok.mp hread
  rw [Header.read] at hread
  split at hread
  · cases hread
  · split at hread
    · cases hread
    · rename_i hsupported
      split at hread
      · cases hread
      · cases hread
        simp only [Bool.not_eq_true', Bool.not_eq_false, Header.supported, Bool.and_eq_true,
          decide_eq_true_eq]
          at hsupported
        exact hsupported.1.1.2.2

theorem firstBytes_eq {block : Bytes} {n : Nat} (h : n ≤ block.length) :
    firstBytes block n = lift (.ok (block.take n)) :=
  if_pos h

/-- The blocks of both tables are inside the device. -/
theorem table_inside {primary backup : Header}
    (hheaders : HeadersOk device device.length primary backup) {index : Nat}
    (hindex : index < primary.tableBlocks) :
    primary.partStart.toNat + index < device.length / 4096 ∧ backup.partStart.toNat + index <
      device.length / 4096 := by
  have hcurrent : backup.currentLba.toNat = primary.backupLba.toNat := by
    rw [hheaders.agree.current_lba]
  have hhigh := hheaders.high
  obtain ⟨g1, g2, g3, g4, g5, g6, g7⟩ := hheaders.geometry
  omega

theorem scanBlock_follows (hserves : reader.Serves device) (hlen : device.length < 2 ^ 64)
    {primary backup : Header} (hheaders : HeadersOk device device.length primary backup)
    (s : TableScan) {index : Nat} (hindex : index < primary.tableBlocks) :
    Machine.Follows Error.kind reader device.length
      (scanBlock reader primary backup (primary.numParts.toNat * 128) s index)
      (Disk.scanBlock device primary backup (primary.numParts.toNat * 128) s index) := by
  obtain ⟨hprimary, hbackup⟩ := table_inside hheaders hindex
  have hparts := header_numParts hheaders.primary_read
  have hlt : index * 4096 < primary.numParts.toNat * 128 := by
    unfold Header.tableBlocks at hindex
    omega
  have hindex' : index < 256 := by omega
  rw [scanBlock, Disk.scanBlock, Machine.add_eq (by omega), Machine.lift_ok_bind]
  refine (block_follows hserves hlen hprimary _).bind (fun block hblock => ?_)
  rw [Machine.add_eq (by omega), Machine.lift_ok_bind]
  refine (block_follows hserves hlen hbackup _).bind (fun other hother => ?_)
  have hused : min (primary.numParts.toNat * 128 - index * 4096) 4096 ≤ 4096 := Nat.min_le_right _ _
  rw [Machine.sub_eq (by omega), Machine.lift_ok_bind,
    firstBytes_eq (by rw [block_length hblock]; exact hused),
    Machine.lift_ok_bind, firstBytes_eq (by rw [block_length hother]; exact hused),
      Machine.lift_ok_bind]
  generalize min (primary.numParts.toNat * 128 - index * 4096) 4096 = n at hused
  have htake : (block.take n).length ≤ 4096 := Nat.le_trans (List.length_take_le n block) hused
  rw [difference_eq hindex' htake, Machine.lift_ok_bind, scanRecords_eq hindex' htake]
  exact (Machine.Follows.lift (scanRecords_aboutData primary s.entries index _)).bind
    (fun entries _ => Machine.Follows.lift (AboutData.ok _))

theorem entries_follows (hserves : reader.Serves device) (hlen : device.length < 2 ^ 64)
    {primary backup : Header} (hheaders : HeadersOk device device.length primary backup) :
    Machine.Follows Error.kind reader device.length (entries reader primary backup)
      (Disk.entries device primary backup) := by
  have hparts := header_numParts hheaders.primary_read
  rw [entries, Machine.mul_eq (by omega), Machine.lift_ok_bind]
  refine (Machine.Follows.foldlM (fun s index hindex => ?_) _).bind
    (fun s _ => Machine.Follows.lift (checkTable_aboutData primary backup s))
  exact scanBlock_follows hserves hlen hheaders s (List.mem_range.mp hindex)

/-- **The words never overflow**: reading a disk is the computation on numbers, unless a read fails. -/
theorem read_follows (hserves : reader.Serves device) (c : Carapace) (rootType : Uuid) :
    Machine.Follows Error.kind reader device.length (read c reader device.length rootType)
      (Disk.read c device device.length rootType) := by
  refine Machine.Follows.ite (fun _ => Machine.Follows.lift (AboutData.error rfl))
    (fun hcapacity => ?_)
  have hfits : c.zeroSizeBytes < 2 ^ 64 := c.fits
  unfold sectorSize at hcapacity
  have hlen : device.length < 2 ^ 64 := by omega
  have hmin : 12 * 4096 ≤ device.length := by omega
  refine (headers_follows hserves hlen hmin).bind (fun x hx => ?_)
  obtain ⟨primary, backup⟩ := x
  have hheaders := headers_eq_ok.mp hx
  have hhigh := hheaders.high
  dsimp only
  rw [Machine.add_eq (by omega), Machine.lift_ok_bind]
  refine (protectiveMbr_follows hserves hlen hmin (Nat.le_add_left 1 _)).bind (fun _ _ => ?_)
  exact (entries_follows hserves hlen hheaders).bind
    (fun es _ => Machine.Follows.lift (select_aboutData rootType es))

end Device

end Probe

end Conglobate.Disk
