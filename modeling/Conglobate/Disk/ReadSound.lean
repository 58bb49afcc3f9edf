import Conglobate.Disk.Table
import Mathlib.Data.List.Pairwise

/- What an accepted disk is.

   `read_eq_ok` takes `Disk.read` apart into its checks. From the checks on the
   headers (`Geometry`) and on the tables (`TableOk`) every used entry is `Safe`:
   nonempty, inside the capacity and the usable range, and clear of the metadata
   and of every other used entry. The root and the ESP are two such entries. -/
namespace Conglobate.Disk

set_option maxRecDepth 4000

/-- The headers name each other and agree on everything else. -/
structure Agree (primary backup : Header) : Prop where
  current_lba : backup.currentLba = primary.backupLba
  backup_lba : backup.backupLba = primary.currentLba
  guid : backup.diskGuid = primary.diskGuid
  first : backup.firstUsable = primary.firstUsable
  last : backup.lastUsable = primary.lastUsable
  parts : backup.numParts = primary.numParts
  crc : backup.crc32Parts = primary.crc32Parts

/-- The order of the metadata and the usable range on the disk. -/
structure Geometry (primary backup : Header) : Prop where
  start : 2 ≤ primary.partStart.toNat
  start_le : primary.partStart.toNat ≤ backup.currentLba.toNat
  table : primary.partStart.toNat + primary.tableBlocks ≤ primary.firstUsable.toNat
  usable : primary.firstUsable.toNat ≤ primary.lastUsable.toNat
  backup_start : primary.lastUsable.toNat < backup.partStart.toNat
  backup_le : backup.partStart.toNat ≤ backup.currentLba.toNat
  backup_table : backup.partStart.toNat + primary.tableBlocks ≤ backup.currentLba.toNat

theorem validateHeaders_eq_ok {primary backup : Header} :
    validateHeaders primary backup = .ok () ↔ Agree primary backup ∧ Geometry primary backup := by
  unfold validateHeaders
  split
  · rename_i hbad
    constructor
    · intro h
      cases h
    · rintro ⟨⟨h1, h2, h3, h4, h5, h6, h7⟩, -⟩
      simp [h1, h2, h3, h4, h5, h6, h7] at hbad
  · rename_i hgood
    simp only [not_or, Decidable.not_not] at hgood
    obtain ⟨h1, h2, h3, h4, h5, h6, h7⟩ := hgood
    split
    · rename_i hbad
      constructor
      · intro h
        cases h
      · rintro ⟨-, ⟨g1, g2, g3, g4, g5, g6, g7⟩⟩
        omega
    · rename_i hok
      simp only [not_or, Nat.not_lt, Nat.not_le] at hok
      obtain ⟨g1, g2, g3, g4, g5, g6, g7⟩ := hok
      exact ⟨fun _ => ⟨⟨h1, h2, h3, h4, h5, h6, h7⟩, ⟨g1, g2, g3, g4, g5, g6, g7⟩⟩, fun _ => rfl⟩

/-- The checks on the two headers. -/
structure HeadersOk (device : Bytes) (capacity : Nat) (primary backup : Header) : Prop where
  primary_read : header device 1 .primary = .ok primary
  backup_read : header device primary.backupLba.toNat .backup = .ok backup
  current : primary.currentLba.toNat = 1
  low : 11 ≤ primary.backupLba.toNat
  high : primary.backupLba.toNat < capacity / 4096
  agree : Agree primary backup
  geometry : Geometry primary backup

theorem headers_eq_ok {device : Bytes} {capacity : Nat} {primary backup : Header} :
    headers device capacity = .ok (primary, backup) ↔ HeadersOk device capacity primary backup := by
  rw [headers, except_bind_eq_ok]
  constructor
  · rintro ⟨p, hp, h⟩
    split at h
    · cases h
    · rename_i hlba
      simp only [not_or, Decidable.not_not, ne_eq] at hlba
      obtain ⟨b, hb, h⟩ := except_bind_eq_ok.mp h
      obtain ⟨⟨⟩, hvalid, h⟩ := except_bind_eq_ok.mp h
      cases h
      obtain ⟨hagree, hgeometry⟩ := validateHeaders_eq_ok.mp hvalid
      exact ⟨hp, hb, hlba.1, hlba.2.1, hlba.2.2, hagree, hgeometry⟩
  · rintro ⟨hp, hb, hcurrent, hlow, hhigh, hagree, hgeometry⟩
    refine ⟨primary, hp, ?_⟩
    rw [if_neg (by simp only [not_or, Decidable.not_not, ne_eq]; exact ⟨hcurrent, hlow, hhigh⟩), hb,
      except_ok_bind, validateHeaders_eq_ok.mpr ⟨hagree, hgeometry⟩, except_ok_bind]

/-- `Disk.read`, taken apart. -/
theorem read_eq_ok {c : Carapace} {device : Bytes} {capacity : Nat} {rootType : Uuid} {d : Disk} :
    read c device capacity rootType = .ok d ↔
      (capacity ≤ c.zeroSizeBytes ∧ capacity % 4096 = 0 ∧ 12 * 4096 ≤ capacity) ∧
      ∃ primary backup, HeadersOk device capacity primary backup ∧
        protectiveMbr device (primary.backupLba.toNat + 1) = .ok () ∧
        ∃ es, entries device primary backup = .ok es ∧ select rootType es = .ok d := by
  unfold read sectorSize
  split
  · rename_i hbad
    constructor
    · intro h
      cases h
    · rintro ⟨⟨h1, h2, h3⟩, -⟩
      omega
  · rename_i hcapacity
    constructor
    · intro h
      obtain ⟨⟨primary, backup⟩, hheaders, h⟩ := except_bind_eq_ok.mp h
      obtain ⟨⟨⟩, hmbr, h⟩ := except_bind_eq_ok.mp h
      obtain ⟨es, hes, h⟩ := except_bind_eq_ok.mp h
      exact ⟨by omega, primary, backup, headers_eq_ok.mp hheaders, hmbr, es, hes, h⟩
    · rintro ⟨-, primary, backup, hheaders, hmbr, es, hes, h⟩
      rw [headers_eq_ok.mpr hheaders, except_ok_bind]
      dsimp only
      rw [hmbr, except_ok_bind, hes, except_ok_bind]
      exact h

/-! Extents. -/

/-- The extent of an entry, in sectors. -/
def Entry.extent (e : Entry) : Partition := ⟨e.start * 8, (e.last - e.start + 1) * 8⟩

/-- `count` logical blocks from `lba`, in sectors. -/
def blocks (lba count : Nat) : Partition := ⟨lba * 8, count * 8⟩

/-- Two extents share no sector. -/
def Partition.Disjoint (p q : Partition) : Prop :=
  p.start + p.sectors ≤ q.start ∨ q.start + q.sectors ≤ p.start

/-- An entry's extent is where an extent may be: inside the capacity and the usable
    range, clear of the metadata and of every other used entry. -/
structure Safe (capacity : Nat) (primary backup : Header) (used : List Entry) (e : Entry) :
    Prop where
  nonempty : 0 < e.extent.sectors
  inside : (e.extent.start + e.extent.sectors) * 512 ≤ capacity
  first : primary.firstUsable.toNat * 8 ≤ e.extent.start
  last : e.extent.start + e.extent.sectors ≤ (primary.lastUsable.toNat + 1) * 8
  mbr : e.extent.Disjoint (blocks 0 1)
  primary_header : e.extent.Disjoint (blocks primary.currentLba.toNat 1)
  backup_header : e.extent.Disjoint (blocks backup.currentLba.toNat 1)
  primary_table : e.extent.Disjoint (blocks primary.partStart.toNat primary.tableBlocks)
  backup_table : e.extent.Disjoint (blocks backup.partStart.toNat primary.tableBlocks)
  others : ∀ x ∈ used, x ≠ e → e.extent.Disjoint x.extent

/-- The last sector of an entry's extent. -/
theorem extent_last {e : Entry} (h : e.start ≤ e.last) :
    e.extent.start + e.extent.sectors = (e.last + 1) * 8 := by
  simp only [Entry.extent]
  omega

theorem apart_disjoint {a b : Entry} (ha : a.start ≤ a.last) (hb : b.start ≤ b.last)
    (h : Apart a b ∨ Apart b a) : a.extent.Disjoint b.extent := by
  unfold Apart at h
  rw [Partition.Disjoint, extent_last ha, extent_last hb]
  simp only [Entry.extent]
  omega

/-- Two entries that do not overlap lie one after the other. -/
theorem apart_of_mem {l : List Entry} (h : l.Pairwise Apart) {a b : Entry} (ha : a ∈ l) (hb : b ∈ l)
    (hne : a ≠ b) : Apart a b ∨ Apart b a := by
  have hsymm : l.Pairwise (fun a b => Apart a b ∨ Apart b a) := h.imp Or.inl
  have : Std.Symm (fun a b => Apart a b ∨ Apart b a) := ⟨fun _ _ => Or.symm⟩
  exact hsymm.forall ha hb hne

/-- **Every used entry of an accepted disk is safe.** -/
theorem usedEntry_safe {device table : Bytes} {capacity : Nat} {primary backup : Header} {e : Entry}
    (hheaders : HeadersOk device capacity primary backup)
    (htable : TableOk device primary backup table)
    (he : e ∈ usedEntries table primary.numParts.toNat) :
    Safe capacity primary backup (usedEntries table primary.numParts.toNat) e := by
  have huse := htable.usable e he
  have hlast := extent_last huse.ordered
  have hstart : e.extent.start = e.start * 8 := rfl
  have hcurrent : backup.currentLba.toNat = primary.backupLba.toNat := by
    rw [hheaders.agree.current_lba]
  have := huse.first
  have := huse.last
  have := hheaders.current
  have := hheaders.high
  obtain ⟨g1, g2, g3, g4, g5, g6, g7⟩ := hheaders.geometry
  refine ⟨?_, ?_, by omega, by omega, ?_, ?_, ?_, ?_, ?_, ?_⟩
  · simp only [Entry.extent]
    omega
  · rw [hlast]
    omega
  all_goals try (rw [Partition.Disjoint, hlast]; simp only [blocks]; omega)
  intro x hx hne
  have hapart := apart_of_mem htable.apart (mem_sortEntries.mpr he) (mem_sortEntries.mpr hx)
    (Ne.symm hne)
  exact apart_disjoint huse.ordered (htable.usable x hx).ordered hapart

/-! The selection. -/

theorem tryFrom_eq_ok {e : Entry} {p : Partition} (h : Partition.tryFrom e = .ok p) :
    p = e.extent := by
  unfold Partition.tryFrom at h
  split at h
  · cases h
    rfl
  · cases h

theorem tryFrom_safe {e : Entry} (ho : e.start ≤ e.last) (hb : (e.last + 1) * 8 < 2 ^ 64) :
    Partition.tryFrom e = .ok e.extent :=
  if_pos (by omega)

/-- The choice does not depend on the order of the entries. -/
theorem rootsOf_sort {kind : Uuid} {l : List Entry} {e : Entry} :
    rootsOf kind (sortEntries l) = [e] ↔ rootsOf kind l = [e] := by
  have hperm : (rootsOf kind (sortEntries l)).Perm (rootsOf kind l) :=
    (List.mergeSort_perm l _).filter _
  constructor
  · intro h
    rw [h] at hperm
    exact List.perm_singleton.mp hperm.symm
  · intro h
    rw [h] at hperm
    exact List.perm_singleton.mp hperm

theorem espsOf_sort {l esps : List Entry} (h : esps.length ≤ 1) :
    espsOf (sortEntries l) = esps ↔ espsOf l = esps := by
  have hperm : (espsOf (sortEntries l)).Perm (espsOf l) := (List.mergeSort_perm l _).filter _
  match esps, h with
  | [], _ =>
    constructor
    · intro h
      rw [h] at hperm
      exact hperm.symm.eq_nil
    · intro h
      rw [h] at hperm
      exact hperm.eq_nil
  | [e], _ =>
    constructor
    · intro h
      rw [h] at hperm
      exact List.perm_singleton.mp hperm.symm
    · intro h
      rw [h] at hperm
      exact List.perm_singleton.mp hperm

theorem selectRoot_eq_ok {kind : Uuid} {es : List Entry} {e : Entry} :
    selectRoot kind es = .ok e ↔ rootsOf kind es = [e] := by
  unfold selectRoot
  split
  · rename_i h
    simp [h]
  · rename_i h
    simp [h]
  · rename_i h
    simp [h]

theorem selectEsp_eq_ok {es : List Entry} {esp : Option Partition} (h : selectEsp es = .ok esp) :
    (espsOf es = [] ∧ esp = none) ∨ ∃ e, espsOf es = [e] ∧ esp = some e.extent := by
  unfold selectEsp at h
  split at h
  · rename_i hnil
    cases h
    exact .inl ⟨hnil, rfl⟩
  · rename_i e rest hcons
    obtain ⟨p, hp, h⟩ := except_bind_eq_ok.mp h
    split at h
    · cases h
    · rename_i hrest
      cases h
      rw [Decidable.not_not.mp hrest] at hcons
      exact .inr ⟨e, hcons, by rw [tryFrom_eq_ok hp]⟩

end Conglobate.Disk
