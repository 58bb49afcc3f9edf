import Conglobate.Disk.Layout
import Conglobate.Disk.ReadSound

/- The reader accepts what the writer writes.

   The five writes touch no byte in common, so each reads back
   (`written_readAt`). From there every check of the reader is checked against the
   writer's own values: the headers (`written_headers`), the protective MBR
   (`written_mbr`) and the tables, whose used entries are the partitions written
   (`written_entries`). What remains of `read` is the selection among them
   (`read_written`). -/
namespace Conglobate.Disk

set_option maxRecDepth 4000

/-! Headers. -/

/-- The fields of a header the reader checks against constants. -/
structure Header.Supported (h : Header) : Prop where
  signature : h.signature = gptSignature
  revision : h.revision = 0x00010000
  size : h.size = 92
  reserved : h.reserved = 0
  partSize : h.partSize = 128
  numParts : 128 ≤ h.numParts.toNat ∧ h.numParts.toNat ≤ maxEntries
  diskGuid : h.diskGuid ≠ Vector.replicate 16 0

theorem Header.image_decode (h : Header) : Header.decode h.image = h := Header.decode_encode h _

@[simp] theorem Header.image_length (h : Header) : h.image.length = 4096 := by
  rw [image, List.length_append, encode_length, Bytes.zeros_length]

/-- The checksum the reader calculates is the one of the header with its checksum zero. -/
theorem Header.calculated_image (h : Header) :
    Header.calculated h.image = Crc32.checksum { h with crc32 := 0 }.encode := by
  have hhead : h.image.take 16 = h.encodeHead := by
    rw [image, encode, List.append_assoc, List.take_left' (encodeHead_length h)]
  have htail : h.image.slice 20 72 = h.encodeTail := by
    rw [image, encode, ← List.append_assoc, List.append_assoc, Bytes.slice_append_right (by simp)]
    simp [Bytes.slice_append_left, Bytes.slice_self]
  have hzero : { h with crc32 := 0 }.encode = h.encodeHead ++ (Bytes.zeros 4 ++ h.encodeTail) := by
    have hz : Bytes.le32 0 = Bytes.zeros 4 := by decide
    rw [← hz]
    rfl
  rw [calculated, hhead, htail, Crc32.checksum, hzero, Crc32.update_append, Crc32.update_append]

/-- **A checksummed header's block reads as the header.** -/
theorem Header.read_image {h : Header} (hs : h.Supported) (context : Context) :
    Header.read h.withChecksum.image context = .ok h.withChecksum := by
  have hsupported : h.withChecksum.supported h.withChecksum.image = true := by
    have hrest : h.withChecksum.image.drop 92 = Bytes.zeros 4004 :=
      List.drop_left' (encode_length _)
    have hz : (Bytes.zeros 4004).all (fun byte => byte == 0) = true := by
      rw [List.all_eq_true]
      intro byte hb
      rw [List.eq_of_mem_replicate hb]
      rfl
    rw [supported, hrest, hz]
    simp [withChecksum, hs.revision, hs.size, hs.reserved, hs.partSize, hs.numParts, hs.diskGuid]
  have hcrc : calculated h.withChecksum.image = h.withChecksum.crc32 :=
    calculated_image h.withChecksum
  rw [Header.read, image_decode, if_neg (by simp [withChecksum, hs.signature]), hsupported,
    if_neg (by simp), if_neg (by simpa using hcrc)]

/-! The writes. -/

/-- An entry as the table holds it. -/
def entryOf (slot : Nat) (part : Uuid × Partition) : Entry where
  number := slot + 1
  kind := part.1
  start := part.2.start / 8
  last := (part.2.start + part.2.sectors) / 8 - 1
  eligible := true

/-- The partitions fit a disk of last block `last`. -/
structure PartsOk (last : Nat) (parts : List (Uuid × Partition)) : Prop where
  count : parts.length ≤ 128
  named : ∀ p ∈ parts, p.1 ≠ Uuid.nil
  ordered : ∀ e ∈ parts.mapIdx entryOf, e.start ≤ e.last
  first : ∀ e ∈ parts.mapIdx entryOf, 6 ≤ e.start
  last_le : ∀ e ∈ parts.mapIdx entryOf, e.last ≤ last - 5
  apart : (parts.mapIdx entryOf).Pairwise (fun a b => Apart a b ∨ Apart b a)

section Written
variable {device : Bytes} {ids : Identities} {last : Nat} {parts : List (Uuid × Partition)}
  (hlow : 11 ≤ last) (hhigh : last < 2 ^ 52) (hp : PartsOk last parts)

theorem mbrImage_length : (mbrImage last).length = 4096 := by simp [mbrImage]

theorem tableRecords_width : ∀ b ∈ parts.mapIdx (fun slot part =>
    (tableRecordOf ids slot part).encode), b.length = 128 := by
  intro b hb
  obtain ⟨slot, hslot, rfl⟩ := List.mem_mapIdx.mp hb
  exact Record.encode_length _

include hp in
theorem tableImage_length : (tableImage ids parts).length = 16384 := by
  have := hp.count
  exact Bytes.padded_length tableRecords_width (by rw [List.length_mapIdx]; omega)

include hlow hp in
theorem writes_disjoint : (writes ids last parts).Pairwise Bytes.Disjoint := by
  have hm : (mbrImage last).length = 4096 := mbrImage_length
  have ht : (tableImage ids parts).length = 16384 := tableImage_length hp
  simp only [writes, List.pairwise_cons, List.mem_cons, List.not_mem_nil, or_false,
    forall_eq_or_imp,
    forall_eq, IsEmpty.forall_iff, implies_true, List.Pairwise.nil, and_true,
      Bytes.Disjoint, sectorSize,
    Header.image_length, hm, ht]
  omega

include hlow hp in
/-- Each write reads back. -/
theorem written_readAt {off n : Nat} {bytes : Bytes} (hw : (off, bytes) ∈ writes ids last parts)
    (hn : bytes.length = n) : (device.writeAll (writes ids last parts)).readAt off n =
    some bytes := by
  have h : (device.writeAll (writes ids last parts)).readAt off bytes.length = some bytes :=
    Bytes.readAt_writeAll (writes_disjoint hlow hp) hw
  rwa [hn] at h

theorem written_length :
    (last + 1) * 4096 ≤ (device.writeAll (writes ids last parts)).length := by
  have h := (Bytes.writeAll_length device (writes ids last parts)).2
    (last * sectorSize, (headerOf ids last (tableImage ids parts) last 1 (last - 4)).image)
      (by simp [writes])
  simp only [Header.image_length, sectorSize] at h
  omega

theorem headerOf_supported (current backup partStart : Nat) (table : Bytes) :
    ∃ h : Header, h.Supported ∧ headerOf ids last table current backup partStart =
      h.withChecksum := by
  have hguid : ids.disk.toBytesLe ≠ Vector.replicate 16 0 := Uuid.toBytesLe_ne_zero ids.disk_ne_nil
  have hcount : 128 ≤ (128 : UInt32).toNat ∧ (128 : UInt32).toNat ≤ maxEntries := by decide
  refine ⟨_, ?_, rfl⟩
  exact ⟨rfl, rfl, rfl, rfl, rfl, hcount, hguid⟩

theorem headerOf_tableBlocks (ids : Identities) (last : Nat) (table : Bytes)
    (current backup partStart : Nat) :
    (headerOf ids last table current backup partStart).tableBlocks = 4 := by
  change ((128 : UInt32).toNat * 128 + 4095) / 4096 = 4
  decide

include hlow hhigh hp in
/-- A header that was written reads back. -/
theorem written_header {lba current backup partStart : Nat} {copy : Copy} (hlba : lba ≤ last)
    (hw : (lba * 4096, (headerOf ids last (tableImage ids parts) current backup partStart).image) ∈
      writes ids last parts) :
    header (device.writeAll (writes ids last parts)) lba copy =
      .ok (headerOf ids last (tableImage ids parts) current backup partStart) := by
  obtain ⟨h, hs, hsum⟩ : ∃ h : Header, h.Supported ∧
      headerOf ids last (tableImage ids parts) current backup partStart = h.withChecksum :=
    headerOf_supported current backup partStart (tableImage ids parts)
  have hread : (device.writeAll (writes ids last parts)).readAt (lba * 4096) 4096 = some _ :=
    written_readAt hlow hp hw (Header.image_length _)
  rw [header, block, if_pos (by unfold sectorSize; omega), sectorSize, hread, except_ok_bind, hsum]
  exact Header.read_image hs _

theorem toNat_ofNat_lba {x : Nat} (h : x < 2 ^ 52) : (UInt64.ofNat x).toNat = x :=
  UInt64.toNat_ofNat_of_lt' (Nat.lt_trans h (by decide))

include hlow hhigh hp in
/-- **The written headers pass every check.** -/
theorem written_headers {capacity : Nat} (hcapacity : (last + 1) * 4096 ≤ capacity) :
    HeadersOk (device.writeAll (writes ids last parts)) capacity
      (headerOf ids last (tableImage ids parts) 1 last 2)
      (headerOf ids last (tableImage ids parts) last 1 (last - 4)) := by
  have hlast : (UInt64.ofNat last).toNat = last := toNat_ofNat_lba hhigh
  have husable : (UInt64.ofNat (last - 5)).toNat = last - 5 := toNat_ofNat_lba (by omega)
  have hbackup : (UInt64.ofNat (last - 4)).toNat = last - 4 := toNat_ofNat_lba (by omega)
  have htwo : (UInt64.ofNat 2).toNat = 2 := rfl
  have hone : (UInt64.ofNat 1).toNat = 1 := rfl
  have hsix : (6 : UInt64).toNat = 6 := rfl
  refine ⟨written_header hlow hhigh hp (by omega) (by simp [writes, sectorSize]), ?_, hone, ?_, ?_,
    ⟨rfl, rfl, rfl, rfl, rfl, rfl, rfl⟩, ?_⟩
  · have hlba : (headerOf ids last (tableImage ids parts) 1 last 2).backupLba.toNat = last := hlast
    rw [hlba]
    exact written_header hlow hhigh hp (Nat.le_refl _) (by simp [writes, sectorSize])
  · change 11 ≤ (UInt64.ofNat last).toNat
    omega
  · change (UInt64.ofNat last).toNat < capacity / 4096
    omega
  · have htables := headerOf_tableBlocks ids last (tableImage ids parts) 1 last 2
    have hlba : (headerOf ids last (tableImage ids parts) last 1 (last - 4)).currentLba.toNat =
      last := hlast
    have hstart : (headerOf ids last (tableImage ids parts) 1 last 2).partStart.toNat = 2 := htwo
    have hfirst : (headerOf ids last (tableImage ids parts) 1 last 2).firstUsable.toNat = 6 := hsix
    have hend : (headerOf ids last (tableImage ids parts) 1 last 2).lastUsable.toNat = last - 5 :=
      husable
    have hcopy : (headerOf ids last (tableImage ids parts) last 1 (last - 4)).partStart.toNat =
        last - 4 :=
      hbackup
    refine ⟨?_, ?_, ?_, ?_, ?_, ?_, ?_⟩
    all_goals simp only [htables, hlba, hstart, hfirst, hend, hcopy]
    all_goals omega

/-! The protective MBR. -/

include hhigh in
theorem protectiveEntry_protects : (protectiveEntry last).protects (last + 1) = true := by
  have hsize : (UInt32.ofNat (min last 0xffffffff)).toNat = min last 0xffffffff :=
    UInt32.toNat_ofNat_of_lt' (by
      change min last 0xffffffff < 2 ^ 32
      omega)
  simp [MbrEntry.protects, protectiveEntry, hsize]

theorem checkMbr_image (h : (protectiveEntry last).protects (last + 1) = true) :
    checkMbr (mbrImage last) (last + 1) = .ok () := by
  have hdrop : (mbrImage last).drop 512 = Bytes.zeros 3584 := by
    have hsplit : mbrImage last = (Bytes.zeros 446 ++ ((protectiveEntry last).encode ++
        (Bytes.zeros 48 ++ [0x55, 0xaa]))) ++ Bytes.zeros 3584 := by
      simp only [mbrImage, List.append_assoc]
    rw [hsplit, List.drop_left' (by simp)]
  have hsignature : (mbrImage last).slice 510 2 = [0x55, 0xaa] := by
    rw [mbrImage, Bytes.slice_append_right (by simp), Bytes.slice_append_right (by simp),
      Bytes.slice_append_right (by simp), Bytes.slice_append_left (by simp)]
    simp only [Bytes.zeros_length, MbrEntry.encode_length]
    exact Bytes.slice_self rfl
  have hfirst : (mbrImage last).slice (446 + 0 * 16) 16 = (protectiveEntry last).encode := by
    rw [mbrImage, Bytes.slice_append_right (by simp), Bytes.slice_append_left (by simp)]
    simp only [Bytes.zeros_length]
    exact Bytes.slice_self (MbrEntry.encode_length _)
  have hrest : ∀ i, 1 ≤ i → i < 4 → (mbrImage last).slice (446 + i * 16) 16 = Bytes.zeros 16 := by
    intro i hl hu
    rw [mbrImage, Bytes.slice_append_right (by simp), Bytes.slice_append_right (by simp; omega),
      Bytes.slice_append_left (by simp; omega)]
    simp only [Bytes.zeros_length, MbrEntry.encode_length]
    exact Bytes.zeros_slice (by omega)
  have hzero : (MbrEntry.decode (Bytes.zeros 16)).protects (last + 1) = false := by
    have hos : (MbrEntry.decode (Bytes.zeros 16)).osType = 0 := by decide
    simp [MbrEntry.protects, hos]
  have hnone : ∀ i, 1 ≤ i → i < 4 → checkMbrEntry (last + 1) (mbrImage last) 1 i = .ok 1 := by
    intro i hl hu
    rw [checkMbrEntry, hrest i hl hu, hzero, if_neg (by simp), if_neg (by simp)]
  have hone : checkMbrEntry (last + 1) (mbrImage last) 0 0 = .ok 1 := by
    rw [checkMbrEntry, hfirst, MbrEntry.decode_encode, if_pos h]
  have hcount : (List.range 4).foldlM (checkMbrEntry (last + 1) (mbrImage last)) 0 = .ok 1 := by
    rw [show List.range 4 = [0, 1, 2, 3] from rfl, List.foldlM_cons, hone, except_ok_bind,
      List.foldlM_cons,
      hnone 1 (by omega) (by omega), except_ok_bind, List.foldlM_cons, hnone 2
        (by omega) (by omega),
      except_ok_bind, List.foldlM_cons, hnone 3 (by omega) (by omega), except_ok_bind]
    rfl
  have hclear : (Bytes.zeros 3584).any (fun byte => byte != 0) = false := by
    rw [List.any_eq_false]
    intro byte hb
    rw [List.eq_of_mem_replicate hb]
    decide
  rw [checkMbr, hdrop, hclear, if_neg (by simp), hsignature, if_neg (by simp), hcount,
    except_ok_bind, if_neg (by simp)]

include hlow hhigh hp in
/-- **The written protective MBR passes its checks.** -/
theorem written_mbr : protectiveMbr (device.writeAll (writes ids last parts)) (last + 1) =
    .ok () := by
  have hread : (device.writeAll (writes ids last parts)).readAt 0 4096 = some (mbrImage last) :=
    written_readAt hlow hp (by simp [writes]) mbrImage_length
  rw [protectiveMbr, block, if_pos (by decide), Nat.zero_mul, hread, except_ok_bind]
  exact checkMbr_image (protectiveEntry_protects hhigh)

/-! The tables. -/

include hp in
theorem tableRecord_image {j : Nat} (hj : j < 128) :
    usedEntry (tableImage ids parts) j =
      if h : j < parts.length then
        some (Entry.ofRecord (j + 1) (tableRecordOf ids j parts[j]))
      else none := by
  have hslot : (tableImage ids parts).slice (j * 128) 128 =
      if h : j < (parts.mapIdx (fun slot part => (tableRecordOf ids slot part).encode)).length then
        (parts.mapIdx (fun slot part => (tableRecordOf ids slot part).encode))[j]
      else Bytes.zeros 128 :=
    Bytes.padded_slot tableRecords_width (by omega)
  rw [usedEntry, tableRecord, hslot]
  by_cases h : j < parts.length
  · have hused : (tableRecordOf ids j parts[j]).isUsed = true := by
      have := Uuid.toBytesLe_ne_zero (hp.named parts[j] (List.getElem_mem h))
      simpa [Record.isUsed, tableRecordOf] using this
    rw [dif_pos (by simpa using h), dif_pos h, List.getElem_mapIdx, Record.decode_encode,
      hused, if_pos rfl]
  · rw [dif_neg (by simpa using h), dif_neg h, Record.decode_zeros, if_neg (by simp)]

/-- The entry of a written record. -/
theorem ofRecord_tableRecordOf {slot : Nat} {part : Uuid × Partition}
    (h : (entryOf slot part).last < 2 ^ 64)
    (ho : (entryOf slot part).start ≤ (entryOf slot part).last) :
    Entry.ofRecord (slot + 1) (tableRecordOf ids slot part) = entryOf slot part := by
  have hstart : (UInt64.ofNat (part.2.start / 8)).toNat = part.2.start / 8 :=
    UInt64.toNat_ofNat_of_lt' (Nat.lt_of_le_of_lt ho h)
  have hlast : (UInt64.ofNat ((part.2.start + part.2.sectors) / 8 - 1)).toNat =
      (part.2.start + part.2.sectors) / 8 - 1 :=
    UInt64.toNat_ofNat_of_lt' h
  have heligible : ((0 : UInt64) &&& noAuto == 0) = true := by decide
  simp only [Entry.ofRecord, tableRecordOf, entryOf, Uuid.fromBytesLe_toBytesLe, hstart,
    hlast, heligible]

include hhigh hp in
/-- **The used entries of the written table are the partitions.** -/
theorem usedEntries_image : usedEntries (tableImage ids parts) 128 = parts.mapIdx entryOf := by
  have hget : ∀ m ≤ 128, usedEntries (tableImage ids parts) m = (parts.mapIdx entryOf).take m := by
    intro m
    induction m with
    | zero => simp [usedEntries]
    | succ m ih =>
      intro hm
      rw [usedEntries_succ, ih (by omega), List.take_add_one, tableRecord_image hp (by omega)]
      congr 1
      by_cases h : m < parts.length
      · have hmem : entryOf m parts[m] ∈ parts.mapIdx entryOf :=
          List.mem_mapIdx.mpr ⟨m, h, rfl⟩
        have hlast := hp.last_le _ hmem
        rw [dif_pos h, ofRecord_tableRecordOf (by omega) (hp.ordered _ hmem), List.getElem?_mapIdx,
          List.getElem?_eq_getElem h]
        rfl
      · rw [dif_neg h, List.getElem?_eq_none (by simpa using h)]
  have hcount := hp.count
  rw [hget 128 (Nat.le_refl _), List.take_of_length_le (by simpa using hcount)]

/-- Entries that do not overlap are apart once they are sorted. -/
theorem sort_apart {l : List Entry} (ho : ∀ e ∈ l, e.start ≤ e.last)
    (h : l.Pairwise (fun a b => Apart a b ∨ Apart b a)) : (sortEntries l).Pairwise Apart := by
  have hsorted : (sortEntries l).Pairwise (fun a b => decide (a.start ≤ b.start) = true) :=
    List.pairwise_mergeSort (fun a b c hab hbc => by simp at *; omega) (fun a b => by simp; omega) l
  have hapart : (sortEntries l).Pairwise (fun a b => Apart a b ∨ Apart b a) :=
    ((List.mergeSort_perm l _).pairwise_iff (fun h => Or.symm h)).mpr h
  refine (hsorted.and hapart).imp_of_mem ?_
  rintro a b - hb ⟨hle, hab | hba⟩
  · exact hab
  · have := ho b (mem_sortEntries.mp hb)
    unfold Apart at hba
    simp only [decide_eq_true_eq] at hle
    omega

/-- Every block up to the last lies inside the device. -/
theorem readable_of_le {d : Bytes} {last lba : Nat} (hlength : (last + 1) * 4096 ≤ d.length)
    (hhigh : last < 2 ^ 52) (h : lba ≤ last) : Readable d lba := by
  refine ⟨?_, ?_⟩
  · omega
  · exact Nat.le_trans (Nat.mul_le_mul_right _ (Nat.succ_le_succ h)) hlength

include hlow hhigh hp in
/-- **The written tables are accepted**, and hold the partitions. -/
theorem written_entries :
    entries (device.writeAll (writes ids last parts))
      (headerOf ids last (tableImage ids parts) 1 last 2)
      (headerOf ids last (tableImage ids parts) last 1 (last - 4)) =
      .ok (sortEntries (parts.mapIdx entryOf)) := by
  have hused : usedEntries (tableImage ids parts) 128 = parts.mapIdx entryOf :=
    usedEntries_image hhigh hp
  have hlength : (last + 1) * 4096 ≤ (device.writeAll (writes ids last parts)).length :=
    written_length
  have hbackup : (headerOf ids last (tableImage ids parts) last 1 (last - 4)).partStart.toNat =
      last - 4 :=
    toNat_ofNat_lba (by omega)
  have hstart : (headerOf ids last (tableImage ids parts) 1 last 2).partStart.toNat = 2 := rfl
  have hparts : (headerOf ids last (tableImage ids parts) 1 last 2).numParts.toNat = 128 := rfl
  have hblocks := headerOf_tableBlocks ids last (tableImage ids parts) 1 last 2
  have hfirst : (headerOf ids last (tableImage ids parts) 1 last 2).firstUsable.toNat = 6 := rfl
  have hlast : (headerOf ids last (tableImage ids parts) 1 last 2).lastUsable.toNat = last - 5 :=
    toNat_ofNat_lba (by omega)
  rw [entries_eq_ok]
  refine ⟨tableImage ids parts, ⟨?_, ?_, ?_, ?_, rfl, rfl, ?_⟩, by rw [hparts, hused]⟩
  · intro i hi
    rw [hblocks] at hi
    rw [hstart, hbackup]
    exact ⟨readable_of_le hlength hhigh (by omega), readable_of_le hlength hhigh (by omega)⟩
  · rw [hstart, hparts, tableBytes]
    exact Bytes.slice_of_readAt (written_readAt hlow hp
      (by simp [writes, sectorSize]) (tableImage_length hp))
  · rw [hbackup, hparts, tableBytes]
    exact Bytes.slice_of_readAt (written_readAt hlow hp
      (by simp [writes, sectorSize]) (tableImage_length hp))
  · intro e he
    rw [hparts, hused] at he
    exact ⟨hp.ordered e he, by rw [hfirst]; exact hp.first e he, by rw [hlast]; exact hp.last_le e he⟩
  · rw [hparts, hused]
    exact sort_apart hp.ordered hp.apart

include hlow hp in
/-- **Reading a written disk is selecting among its partitions.** -/
theorem read_written {c : Carapace} {capacity : Nat} (hin : (last + 1) * 4096 ≤ capacity)
    (hmax : capacity ≤ c.zeroSizeBytes) (hmod : capacity % 4096 = 0) (rootType : Uuid) :
    read c (device.writeAll (writes ids last parts)) capacity rootType =
      select rootType (sortEntries (parts.mapIdx entryOf)) := by
  have hfits := c.fits
  have hbytes : c.zeroSizeBytes = c.zeroSizeSectors * 512 := rfl
  have hhigh : last < 2 ^ 52 := by omega
  have hlba : (headerOf ids last (tableImage ids parts) 1 last 2).backupLba.toNat = last :=
    toNat_ofNat_lba hhigh
  rw [read, if_neg (by unfold sectorSize; omega), headers_eq_ok.mpr
    (written_headers hlow hhigh hp hin), except_ok_bind]
  dsimp only
  rw [hlba, written_mbr hlow hhigh hp, except_ok_bind, written_entries hlow hhigh hp,
    except_ok_bind]

end Written

end Conglobate.Disk
