import Conglobate.Disk.Read
import Conglobate.Lib.Flow

/- What the walk over the partition tables accepts.

   The walk reads both tables a block at a time. `tableBytes` is a whole table as
   the device holds it, `usedEntries` its occupied records; the locals of the
   walk after `i` blocks are functions of the first `i` blocks of these
   (`scanAfter`), so the walk accepts exactly the tables `TableOk` describes and
   returns their entries sorted (`entries_eq_ok`). -/
namespace Conglobate.Disk

set_option maxRecDepth 4000

/-- `length` bytes of a table that starts at block `start`. -/
def tableBytes (device : Bytes) (start length : Nat) : Bytes := device.slice (start * 4096) length

/-- Record `j` of a table. -/
def tableRecord (table : Bytes) (j : Nat) : Record := Record.decode (table.slice (j * 128) 128)

/-- The entry record `j` holds, when it is used. -/
def usedEntry (table : Bytes) (j : Nat) : Option Entry :=
  if (tableRecord table j).isUsed then some (Entry.ofRecord (j + 1) (tableRecord table j)) else none

/-- The entries of the first `m` records, in table order. -/
def usedEntries (table : Bytes) (m : Nat) : List Entry := (List.range m).filterMap (usedEntry table)

/-- An entry the walk lets pass. -/
structure Usable (primary : Header) (e : Entry) : Prop where
  ordered : e.start ≤ e.last
  first : primary.firstUsable.toNat ≤ e.start
  last : e.last ≤ primary.lastUsable.toNat

theorem usedEntries_succ (table : Bytes) (m : Nat) :
    usedEntries table (m + 1) = usedEntries table m ++ (usedEntry table m).toList := by
  rw [usedEntries, List.range_succ, List.filterMap_append, usedEntries]
  cases h : usedEntry table m <;> simp [h]

theorem mem_usedEntries {table : Bytes} {m : Nat} {e : Entry} :
    e ∈ usedEntries table m ↔ ∃ j < m, usedEntry table j = some e := by
  simp [usedEntries]

theorem scanRecord_eq_ok {primary : Header} {table : Bytes} {j : Nat} {before after : List Entry} :
    scanRecord primary before (j + 1) (tableRecord table j) = .ok after ↔
      (∀ e, usedEntry table j = some e → Usable primary e) ∧
        after = before ++ (usedEntry table j).toList := by
  unfold scanRecord usedEntry
  cases hused : (tableRecord table j).isUsed with
  | false => simp [eq_comm]
  | true =>
    simp only [if_true, Option.some.injEq, forall_eq', Option.toList_some]
    rw [except_bind_eq_ok]
    unfold Entry.new
    constructor
    · rintro ⟨e, he, h⟩
      split at he
      · cases he
      · cases he
        split at h
        · cases h
        · cases h
          exact ⟨⟨by omega, by omega, by omega⟩, rfl⟩
    · rintro ⟨⟨ho, hf, hl⟩, rfl⟩
      refine ⟨_, if_neg (by omega), ?_⟩
      rw [if_neg (by omega)]

/-- The records of a block are records of the table. -/
theorem scanRecords_eq_ok {primary : Header} {table block : Bytes} {i : Nat} {after : List Entry}
    (hblock : block = table.slice (i * 4096) 4096) (hmod : block.length % 128 = 0) :
    scanRecords primary (usedEntries table (i * 32)) i block = .ok after ↔
      (∀ slot < block.length / 128, ∀ e, usedEntry table (i * 32 + slot) = some e →
        Usable primary e) ∧ after = usedEntries table (i * 32 + block.length / 128) := by
  have hlen : block.length ≤ 4096 := by
    rw [hblock, Bytes.slice, List.length_take]
    omega
  have hraw : ∀ slot < block.length / 128, Record.decode (block.slice (slot * 128) 128) =
      tableRecord table (i * 32 + slot) := by
    intro slot hslot
    rw [tableRecord, hblock, Bytes.slice_slice, show i * 4096 + slot * 128 =
      (i * 32 + slot) * 128 by omega, show min 128 (4096 - slot * 128) = 128 by omega]
  have h := Flow.foldlM_eq_ok (ε := Error)
    (f := fun entries slot => scanRecord primary entries (i * 4096 / 128 + slot + 1)
      (Record.decode (block.slice (slot * 128) 128)))
    (l := List.range (block.length / 128)) (fun slot => usedEntries table (i * 32 + slot))
    (fun slot => ∀ e, usedEntry table (i * 32 + slot) = some e → Usable primary e) (by
      intro slot hslot t
      rw [List.length_range] at hslot
      rw [List.getElem_range, hraw slot hslot, show i * 4096 / 128 + slot + 1 =
        i * 32 + slot + 1 by omega, scanRecord_eq_ok, ← Nat.add_assoc, usedEntries_succ])
    after
  rw [List.length_range, Nat.add_zero] at h
  exact h

/-! The walk over the blocks. -/

/-- The disagreement found in the first `i` blocks. -/
def differenceIn (table other : Bytes) : Nat → Option Nat
  | 0 => none
  | i + 1 => differenceIn table other i <|>
      firstDifference i (table.slice (i * 4096) 4096) (other.slice (i * 4096) 4096)

/-- The locals of the walk after `i` blocks of tables of `n` records. -/
def scanAfter (table other : Bytes) (n i : Nat) : TableScan where
  primaryCrc := Crc32.update Crc32.digest (table.take (i * 4096))
  backupCrc := Crc32.update Crc32.digest (other.take (i * 4096))
  disagreement := differenceIn table other i
  entries := usedEntries table (min (i * 32) n)

/-- Block `lba` can be read. -/
def Readable (device : Bytes) (lba : Nat) : Prop :=
  lba * 4096 < 2 ^ 64 ∧ (lba + 1) * 4096 ≤ device.length

theorem block_eq_ok {device bytes : Bytes} {lba : Nat} {context : Context} :
    block device lba context = .ok bytes ↔ Readable device lba ∧
      bytes = device.slice (lba * 4096) 4096 := by
  unfold block Readable sectorSize
  by_cases hoff : lba * 4096 < 2 ^ 64
  · rw [if_pos hoff]
    by_cases hin : lba * 4096 + 4096 ≤ device.length
    · rw [Bytes.readAt_of_le hin]
      simp only [Except.ok.injEq]
      constructor
      · rintro rfl
        exact ⟨⟨hoff, by omega⟩, rfl⟩
      · rintro ⟨-, rfl⟩
        rfl
    · have hnone : device.readAt (lba * 4096) 4096 = none := if_neg hin
      rw [hnone]
      constructor
      · intro h
        cases h
      · rintro ⟨⟨-, h⟩, -⟩
        omega
  · rw [if_neg hoff]
    constructor
    · intro h
      cases h
    · rintro ⟨⟨h, -⟩, -⟩
      exact absurd h hoff

/-- The used part of a block is a block of the table. -/
theorem used_eq {device : Bytes} {start n i : Nat} :
    (device.slice ((start + i) * 4096) 4096).take (min (n * 128 - i * 4096) 4096) =
      (tableBytes device start (n * 128)).slice (i * 4096) 4096 := by
  rw [tableBytes, Bytes.slice_slice, Bytes.slice, Bytes.slice, List.take_take, Nat.add_mul]
  congr 1
  omega

theorem update_block (crc : BitVec 32) (table : Bytes) (i : Nat) :
    Crc32.update (Crc32.update crc (table.take (i * 4096))) (table.slice (i * 4096) 4096) =
      Crc32.update crc (table.take ((i + 1) * 4096)) := by
  rw [← Crc32.update_append, Bytes.slice, Nat.succ_mul, List.take_add]

/-- What block `i` must be for the walk to go on. -/
def GoodBlock (device : Bytes) (primary backup : Header) (i : Nat) : Prop :=
  Readable device (primary.partStart.toNat + i) ∧ Readable device (backup.partStart.toNat + i) ∧
    ∀ slot, i * 32 + slot < primary.numParts.toNat → slot < 32 → ∀ e,
      usedEntry (tableBytes device primary.partStart.toNat (primary.numParts.toNat * 128))
        (i * 32 + slot) =
        some e → Usable primary e

/-- **One block of the walk.** -/
theorem scanBlock_eq_ok {device : Bytes} {primary backup : Header} {i : Nat} {t : TableScan}
    (hi : i < primary.tableBlocks) :
    scanBlock device primary backup (primary.numParts.toNat * 128)
        (scanAfter (tableBytes device primary.partStart.toNat (primary.numParts.toNat * 128))
          (tableBytes device backup.partStart.toNat (primary.numParts.toNat * 128))
          primary.numParts.toNat i) i = .ok t ↔
      GoodBlock device primary backup i ∧
        t = scanAfter (tableBytes device primary.partStart.toNat (primary.numParts.toNat * 128))
          (tableBytes device backup.partStart.toNat (primary.numParts.toNat * 128))
          primary.numParts.toNat (i + 1) := by
  unfold Header.tableBlocks at hi
  generalize hn : primary.numParts.toNat = n at hi ⊢
  have hstart : min (i * 32) n = i * 32 := by omega
  have hrecords (hread : Readable device (primary.partStart.toNat + i)) (after : List Entry) :
      scanRecords primary (usedEntries (tableBytes device primary.partStart.toNat (n * 128))
          (i * 32)) i
          ((tableBytes device primary.partStart.toNat (n * 128)).slice (i * 4096) 4096) =
            .ok after ↔
        (∀ slot, i * 32 + slot < n → slot < 32 → ∀ e,
          usedEntry (tableBytes device primary.partStart.toNat (n * 128)) (i * 32 + slot) = some e →
            Usable primary e) ∧
          after = usedEntries (tableBytes device primary.partStart.toNat (n * 128))
              (min ((i + 1) * 32) n) := by
    have hlen : ((tableBytes device primary.partStart.toNat (n * 128)).slice
        (i * 4096) 4096).length =
        min (n * 128 - i * 4096) 4096 := by
      have hblock : (device.slice ((primary.partStart.toNat + i) * 4096) 4096).length = 4096 :=
        Bytes.slice_length (by have := hread.2; omega)
      rw [← used_eq, List.length_take, hblock]
      omega
    have hcount : min (n * 128 - i * 4096) 4096 / 128 = min ((i + 1) * 32) n - i * 32 := by omega
    rw [scanRecords_eq_ok rfl (by rw [hlen]; omega), hlen, hcount,
      show i * 32 + (min ((i + 1) * 32) n - i * 32) = min ((i + 1) * 32) n by omega]
    constructor
    · rintro ⟨h, rfl⟩
      exact ⟨fun slot hin hlt => h slot (by omega), rfl⟩
    · rintro ⟨h, rfl⟩
      exact ⟨fun slot hlt => h slot (by omega) (by omega), rfl⟩
  rw [scanBlock, except_bind_eq_ok]
  simp only [scanAfter, hstart]
  constructor
  · rintro ⟨blk, hblk, h⟩
    obtain ⟨hread, rfl⟩ := block_eq_ok.mp hblk
    obtain ⟨oth, hoth, h⟩ := except_bind_eq_ok.mp h
    obtain ⟨hread', rfl⟩ := block_eq_ok.mp hoth
    obtain ⟨after, hafter, h⟩ := except_bind_eq_ok.mp h
    rw [used_eq] at hafter h
    rw [used_eq] at h
    obtain ⟨hgood, rfl⟩ := (hrecords hread after).mp hafter
    cases h
    refine ⟨⟨hread, hread', by rw [hn]; exact hgood⟩, ?_⟩
    rw [update_block, update_block]
    rfl
  · rintro ⟨⟨hread, hread', hgood⟩, rfl⟩
    rw [hn] at hgood
    refine ⟨_, block_eq_ok.mpr ⟨hread, rfl⟩, ?_⟩
    rw [block_eq_ok.mpr ⟨hread', rfl⟩, except_ok_bind, used_eq, used_eq,
      (hrecords hread _).mpr ⟨hgood, rfl⟩, except_ok_bind, update_block, update_block]
    rfl

/-! The two copies. -/

theorem firstDifference_eq_none {i : Nat} {a b : Bytes} (h : a.length = b.length) :
    firstDifference i a b = none ↔ a = b := by
  rw [firstDifference, Option.map_eq_none_iff, List.findIdx?_eq_none_iff]
  constructor
  · intro hall
    apply List.ext_getElem h
    intro j hj hj'
    have := hall (a[j], b[j]) (by
      rw [List.mem_iff_getElem]
      exact ⟨j, by rw [List.length_zip]; omega, by simp⟩)
    simpa using this
  · rintro rfl p hp
    obtain ⟨j, hj, rfl⟩ := List.mem_iff_getElem.mp hp
    simp

theorem differenceIn_eq_none {table other : Bytes} {m : Nat}
    (h : ∀ i < m, (table.slice (i * 4096) 4096).length = (other.slice (i * 4096) 4096).length) :
    differenceIn table other m = none ↔ ∀ i < m, table.slice (i * 4096) 4096 =
      other.slice (i * 4096) 4096 := by
  induction m with
  | zero => simp [differenceIn]
  | succ m ih =>
    have ih := ih (fun i hi => h i (by omega))
    rw [differenceIn, Option.orElse_eq_orElse, Option.orElse_eq_or, Option.or_eq_none_iff, ih,
      firstDifference_eq_none (h m (by omega))]
    constructor
    · rintro ⟨hall, hm⟩ i hi
      rcases Nat.lt_succ_iff_lt_or_eq.mp hi with hlt | rfl
      · exact hall i hlt
      · exact hm
    · intro hall
      exact ⟨fun i hi => hall i (by omega), hall m (by omega)⟩

/-- Tables of at most `m` blocks are equal when their blocks are. -/
theorem eq_of_blocks {table other : Bytes} {m : Nat} (ht : table.length ≤ m * 4096)
    (ho : other.length ≤ m * 4096) :
    (∀ i < m, table.slice (i * 4096) 4096 = other.slice (i * 4096) 4096) ↔ table = other := by
  constructor
  · intro h
    have htable := Bytes.blocks_flatten table 4096 m
    have hother := Bytes.blocks_flatten other 4096 m
    rw [List.take_of_length_le ht] at htable
    rw [List.take_of_length_le ho] at hother
    rw [← htable, ← hother]
    congr 1
    apply List.map_congr_left
    intro i hi
    exact h i (List.mem_range.mp hi)
  · rintro rfl i _
    rfl

/-! Overlaps. -/

/-- The extents of entries follow one another. -/
def Apart (a b : Entry) : Prop := a.last < b.start

theorem checkOverlaps_eq_ok {l : List Entry} (h : ∀ e ∈ l, e.start ≤ e.last) :
    checkOverlaps l = .ok () ↔ l.Pairwise Apart := by
  induction l with
  | nil => simp [checkOverlaps]
  | cons a rest ih =>
    cases rest with
    | nil => simp [checkOverlaps]
    | cons b rest =>
      have hb := h b (by simp)
      have ih := ih (fun e he => h e (List.mem_cons_of_mem _ he))
      rw [checkOverlaps, List.pairwise_cons]
      split
      · rename_i hover
        constructor
        · intro hok
          cases hok
        · rintro ⟨hall, -⟩
          have := hall b List.mem_cons_self
          unfold Apart at this
          omega
      · rename_i hapart
        rw [ih]
        constructor
        · intro hrest
          refine ⟨?_, hrest⟩
          intro e he
          rcases List.mem_cons.mp he with rfl | he
          · unfold Apart
            omega
          · have := (List.pairwise_cons.mp hrest).1 e he
            unfold Apart at this ⊢
            omega
        · rintro ⟨-, hrest⟩
          exact hrest

theorem mem_sortEntries {l : List Entry} {e : Entry} : e ∈ sortEntries l ↔ e ∈ l :=
  (List.mergeSort_perm l _).mem_iff

/-- The tables the walk accepts. -/
structure TableOk (device : Bytes) (primary backup : Header) (table : Bytes) : Prop where
  readable : ∀ i < primary.tableBlocks, Readable device (primary.partStart.toNat + i) ∧
    Readable device (backup.partStart.toNat + i)
  primary_eq : tableBytes device primary.partStart.toNat (primary.numParts.toNat * 128) = table
  backup_eq : tableBytes device backup.partStart.toNat (primary.numParts.toNat * 128) = table
  usable : ∀ e ∈ usedEntries table primary.numParts.toNat, Usable primary e
  primary_crc : Crc32.checksum table = primary.crc32Parts
  backup_crc : Crc32.checksum table = backup.crc32Parts
  apart : (sortEntries (usedEntries table primary.numParts.toNat)).Pairwise Apart

theorem tableBytes_length_le (device : Bytes) (start length : Nat) :
    (tableBytes device start length).length ≤ length := by
  rw [tableBytes, Bytes.slice, List.length_take]
  omega

/-- A table whose blocks are readable is whole. -/
theorem tableBytes_length {device : Bytes} {start n : Nat}
    (h : ∀ i < (n * 128 + 4095) / 4096, Readable device (start + i)) :
    (tableBytes device start (n * 128)).length = n * 128 := by
  rw [tableBytes]
  rcases Nat.eq_zero_or_pos n with rfl | hn
  · simp [Bytes.slice]
  · have hlast := (h ((n * 128 + 4095) / 4096 - 1) (by omega)).2
    exact Bytes.slice_length (by omega)

/-- **What the walk over the tables accepts, and what it returns.** -/
theorem entries_eq_ok {device : Bytes} {primary backup : Header} {es : List Entry} :
    entries device primary backup = .ok es ↔ ∃ table, TableOk device primary backup table ∧
      es = sortEntries (usedEntries table primary.numParts.toNat) := by
  generalize hT : tableBytes device primary.partStart.toNat (primary.numParts.toNat * 128) = T
  generalize hO : tableBytes device backup.partStart.toNat (primary.numParts.toNat * 128) = O
  have hTle : T.length ≤ primary.tableBlocks * 4096 := by
    have := tableBytes_length_le device primary.partStart.toNat (primary.numParts.toNat * 128)
    rw [hT] at this
    unfold Header.tableBlocks
    omega
  have hOle : O.length ≤ primary.tableBlocks * 4096 := by
    have := tableBytes_length_le device backup.partStart.toNat (primary.numParts.toNat * 128)
    rw [hO] at this
    unfold Header.tableBlocks
    omega
  have hwalk := Flow.foldlM_eq_ok (ε := Error)
    (f := scanBlock device primary backup (primary.numParts.toNat * 128))
    (l := List.range primary.tableBlocks) (scanAfter T O primary.numParts.toNat)
    (GoodBlock device primary backup) (by
      intro i hi t
      rw [List.length_range] at hi
      rw [List.getElem_range, ← hT, ← hO]
      exact scanBlock_eq_ok hi)
  have hinit : scanAfter T O primary.numParts.toNat 0 = ⟨Crc32.digest, Crc32.digest, none, []⟩ := by
    simp [scanAfter, Crc32.update, differenceIn, usedEntries]
  have hfinal : scanAfter T O primary.numParts.toNat primary.tableBlocks =
      ⟨Crc32.update Crc32.digest T, Crc32.update Crc32.digest O,
        differenceIn T O primary.tableBlocks, usedEntries T primary.numParts.toNat⟩ := by
    have hmin : min (primary.tableBlocks * 32) primary.numParts.toNat = primary.numParts.toNat := by
      unfold Header.tableBlocks
      omega
    rw [scanAfter, List.take_of_length_le hTle, List.take_of_length_le hOle, hmin]
  rw [hinit, List.length_range, hfinal] at hwalk
  have hlengths (hread : ∀ i < primary.tableBlocks, Readable device (primary.partStart.toNat + i) ∧
      Readable device (backup.partStart.toNat + i)) : T.length = O.length := by
    rw [← hT, ← hO, tableBytes_length (fun i hi => (hread i hi).1),
      tableBytes_length (fun i hi => (hread i hi).2)]
  have hslices (hlen : T.length = O.length) (i : Nat) :
      (T.slice (i * 4096) 4096).length = (O.slice (i * 4096) 4096).length := by
    rw [Bytes.slice, Bytes.slice, List.length_take, List.length_take, List.length_drop,
      List.length_drop, hlen]
  have husable : (∀ i < primary.tableBlocks, GoodBlock device primary backup i) ↔
      (∀ i < primary.tableBlocks, Readable device (primary.partStart.toNat + i) ∧
        Readable device (backup.partStart.toNat + i)) ∧
      ∀ e ∈ usedEntries T primary.numParts.toNat, Usable primary e := by
    constructor
    · intro h
      refine ⟨fun i hi => ⟨(h i hi).1, (h i hi).2.1⟩, ?_⟩
      intro e he
      obtain ⟨j, hj, hused⟩ := mem_usedEntries.mp he
      have hidx : j / 32 * 32 + j % 32 = j := by omega
      refine (h (j / 32) (by unfold Header.tableBlocks; omega)).2.2 (j % 32) (by omega)
        (by omega) e ?_
      rw [hT, hidx]
      exact hused
    · rintro ⟨hread, huse⟩ i hi
      refine ⟨(hread i hi).1, (hread i hi).2, ?_⟩
      intro slot hin _ e he
      rw [hT] at he
      exact huse e (mem_usedEntries.mpr ⟨_, hin, he⟩)
  have hsorted (huse : ∀ e ∈ usedEntries T primary.numParts.toNat, Usable primary e) :
      ∀ e ∈ sortEntries (usedEntries T primary.numParts.toNat), e.start ≤ e.last :=
    fun e he => (huse e (mem_sortEntries.mp he)).ordered
  rw [entries, except_bind_eq_ok]
  constructor
  · rintro ⟨s, hs, h⟩
    obtain ⟨hgood, rfl⟩ := (hwalk s).mp hs
    obtain ⟨hread, huse⟩ := husable.mp hgood
    dsimp only at h
    split at h
    · cases h
    · rename_i hcrc
      split at h
      · cases h
      · rename_i hcrc'
        split at h
        · cases h
        · rename_i hnone
          obtain ⟨⟨⟩, hover, h⟩ := except_bind_eq_ok.mp h
          cases h
          have heq : T = O := (eq_of_blocks hTle hOle).mp
            ((differenceIn_eq_none (fun i _ => hslices (hlengths hread) i)).mp hnone)
          refine ⟨T, ⟨hread, hT, hO.trans heq.symm, huse, Decidable.not_not.mp hcrc, ?_,
            (checkOverlaps_eq_ok (hsorted huse)).mp hover⟩, rfl⟩
          rw [heq]
          exact Decidable.not_not.mp hcrc'
  · rintro ⟨table, ⟨hread, hprimary, hbackup, huse, hcrc, hcrc', hapart⟩, rfl⟩
    rw [hT] at hprimary
    rw [hO] at hbackup
    subst hprimary
    refine ⟨_, (hwalk _).mpr ⟨husable.mpr ⟨hread, huse⟩, rfl⟩, ?_⟩
    have hnone : differenceIn T O primary.tableBlocks = none :=
      (differenceIn_eq_none (fun i _ => hslices (hlengths hread) i)).mpr
        (fun i _ => by rw [hbackup])
    have hsum : Crc32.finalize (Crc32.update Crc32.digest T) = primary.crc32Parts := hcrc
    have hsum' : Crc32.finalize (Crc32.update Crc32.digest O) = backup.crc32Parts := by
      rw [hbackup]
      exact hcrc'
    dsimp only
    rw [if_neg (by simpa using hsum), if_neg (by simpa using hsum'), hnone]
    dsimp only
    rw [(checkOverlaps_eq_ok (hsorted huse)).mpr hapart, except_ok_bind]

end Conglobate.Disk
