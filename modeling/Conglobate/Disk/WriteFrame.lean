import Conglobate.Disk.Props

/- What writing a disk leaves alone (`disk/layout.rs`, `Layout::write`).

   `Layout.write` gives the device of a write that succeeds. Here the write is
   followed block by block on a device that may fail anywhere, part of a block
   included, and the bytes outside the metadata are kept at every stop
   (`write_frame`). A finished run leaves what `Layout.write` says
   (`writeDevice_eq_ok`).

   Correspondence (Rust ↔ Lean):
     the closure `write(lba, ..)`   ↔ `writeBlock`
     its five calls                 ↔ `writeBlocks` over `writes`
     `writer.flush()`               ↔ `Faults.flush` -/
namespace Conglobate.Disk

/-- A write that fails once `written` of its bytes have reached the device. -/
structure WriteFault where
  error : IoError
  written : Nat
  deriving DecidableEq, Repr

/-- What the device refuses: the writes by their number, and the flush. -/
structure Faults where
  write : Nat → Option WriteFault
  flush : Option IoError

/-- A seek and a `write_all`. Writing nothing does not extend the device. -/
def writeBlock (fault : Option WriteFault) (device : Bytes) (w : Nat × Bytes) :
    Except IoError Unit × Bytes :=
  match fault with
  | none => (.ok (), device.writeAt w.1 w.2)
  | some f =>
    (.error f.error, if f.written = 0 then device else device.writeAt w.1 (w.2.take f.written))

/-- The blocks in order, up to the first that fails. -/
def writeBlocks (fault : Nat → Option WriteFault) :
    Nat → Bytes → List (Nat × Bytes) → Except IoError Unit × Bytes
  | _, device, [] => (.ok (), device)
  | round, device, w :: rest =>
    match writeBlock (fault round) device w with
    | (.ok (), device') => writeBlocks fault (round + 1) device' rest
    | (.error e, device') => (.error e, device')

/-- `Layout::write` on a device, with what the device holds afterwards. -/
def Layout.writeDevice {c : Carapace} (layout : Layout c) (arch : Arch) (ids : Identities)
    (faults : Faults) (device : Bytes) (capacity : Nat) : Except IoError Unit × Bytes :=
  if capacity < layout.bytes ∨ capacity > c.zeroSizeBytes ∨ capacity % sectorSize ≠ 0 then
    (.error (invalidLayout "disk layout does not fit the backing capacity"), device)
  else
    match writeBlocks faults.write 0 device (writes ids layout.lastBlock (layout.parts arch)) with
    | (.error e, device') => (.error e, device')
    | (.ok (), device') =>
      match faults.flush with
      | some e => (.error e, device')
      | none => (.ok (), device')

/-- Bytes of LBA 0, LBA 1, the primary table, the backup table and the backup header. -/
def Layout.Metadata {c : Carapace} (layout : Layout c) (i : Nat) : Prop :=
  i / sectorSize = 0 ∨ i / sectorSize = 1 ∨ (2 ≤ i / sectorSize ∧ i / sectorSize < 6) ∨
    (layout.lastBlock - 4 ≤ i / sectorSize ∧ i / sectorSize < layout.lastBlock) ∨
      i / sectorSize = layout.lastBlock

/-- Byte `i` lies in the partition. -/
def Partition.Holds (p : Partition) (i : Nat) :
    Prop := p.start * 512 ≤ i ∧ i < (p.start + p.sectors) * 512

/-- Byte `i` keeps its value; one the device did not reach to is still missing, or a zero. -/
def Kept (before after : Bytes) (i : Nat) : Prop :=
  after[i]? = before[i]? ∨ before[i]? = none ∧ after[i]? = some 0

/-! One write, and a run of them. -/

theorem Kept.refl (device : Bytes) (i : Nat) : Kept device device i := .inl rfl

theorem Kept.trans {a b c : Bytes} {i : Nat} (hab : Kept a b i) (hbc : Kept b c i) :
    Kept a c i := by
  cases hab with
  | inl hab =>
    rw [Kept, hab] at hbc
    exact hbc
  | inr hab =>
    cases hbc with
    | inl hbc => exact .inr ⟨hab.1, hbc.trans hab.2⟩
    | inr hbc => exact .inr ⟨hab.1, hbc.2⟩

theorem Kept.of_length {before after : Bytes} {i : Nat} (h : Kept before after i)
    (hi : i < before.length) :
    after[i]? = before[i]? := by
  cases h with
  | inl h => exact h
  | inr h => exact absurd (List.getElem?_eq_none_iff.mp h.1) (Nat.not_le.mpr hi)

/-- A write keeps the bytes outside it. -/
theorem writeAt_kept {device bs : Bytes} {off i : Nat} (h : i < off ∨ off + bs.length ≤ i) :
    Kept device (device.writeAt off bs) i := by
  by_cases hi : i < device.length
  · exact .inl (Bytes.writeAt_getElem?_off hi h)
  · have hnone : device[i]? = none := List.getElem?_eq_none (Nat.not_lt.mp hi)
    have hlen := Bytes.writeAt_prefix_length device off
    cases h with
    | inl h =>
      -- behind the old end and before the write: the gap is zeros
      refine .inr ⟨hnone, ?_⟩
      rw [Bytes.writeAt, List.getElem?_append_left (by omega), List.getElem?_take_of_lt h,
        List.getElem?_append_right (by omega), Bytes.zeros, List.getElem?_replicate,
          if_pos (by omega)]
    | inr h =>
      refine .inl ?_
      rw [hnone, List.getElem?_eq_none]
      rw [Bytes.writeAt_length]
      omega

/-- One write, finished or not, keeps the bytes outside its block. -/
theorem writeBlock_kept {fault : Option WriteFault} {device : Bytes} {w : Nat × Bytes} {i : Nat}
    (h : i < w.1 ∨ w.1 + w.2.length ≤ i) : Kept device (writeBlock fault device w).2 i := by
  cases fault with
  | none => exact writeAt_kept h
  | some f =>
    rw [writeBlock]
    dsimp only
    split
    · exact Kept.refl device i
    · apply writeAt_kept
      rw [List.length_take]
      omega

/-- One write does not extend the device past its block. -/
theorem writeBlock_length {fault : Option WriteFault} {device : Bytes} {w : Nat × Bytes} :
    (writeBlock fault device w).2.length ≤ max device.length (w.1 + w.2.length) := by
  cases fault with
  | none => exact Nat.le_of_eq (Bytes.writeAt_length device w.1 w.2)
  | some f =>
    rw [writeBlock]
    dsimp only
    split
    · exact Nat.le_max_left _ _
    · rw [Bytes.writeAt_length, List.length_take]
      omega

/-- **A run of writes, finished or not, keeps every byte outside all of them.** -/
theorem writeBlocks_kept {fault : Nat → Option WriteFault} {round i : Nat} {device : Bytes}
    {ws : List (Nat × Bytes)} (h : ∀ w ∈ ws, i < w.1 ∨ w.1 + w.2.length ≤ i) :
    Kept device (writeBlocks fault round device ws).2 i := by
  induction ws generalizing round device with
  | nil => exact Kept.refl device i
  | cons w rest ih =>
    have hstep : Kept device (writeBlock (fault round) device w).2 i :=
      writeBlock_kept (h w List.mem_cons_self)
    rw [writeBlocks]
    split
    · rename_i device' hw
      rw [hw] at hstep
      exact hstep.trans (ih (fun v hv => h v (List.mem_cons_of_mem _ hv)))
    · rename_i e device' hw
      rw [hw] at hstep
      exact hstep

theorem writeBlocks_length {fault : Nat → Option WriteFault} {round n : Nat} {device : Bytes}
    {ws : List (Nat × Bytes)} (h : ∀ w ∈ ws, w.1 + w.2.length ≤ n) :
    (writeBlocks fault round device ws).2.length ≤ max device.length n := by
  induction ws generalizing round device with
  | nil => exact Nat.le_max_left _ _
  | cons w rest ih =>
    have hstep : (writeBlock (fault round) device w).2.length ≤ _ := writeBlock_length
    have hw := h w List.mem_cons_self
    rw [writeBlocks]
    split
    · rename_i device' heq
      rw [heq] at hstep
      have hrest : (writeBlocks fault (round + 1) device' rest).2.length ≤ max device'.length n :=
        ih (fun v hv => h v (List.mem_cons_of_mem _ hv))
      dsimp only at hstep
      omega
    · rename_i e device' heq
      rw [heq] at hstep
      dsimp only at hstep ⊢
      omega

/-- A run that finishes has written every block. -/
theorem writeBlocks_eq_ok {fault : Nat → Option WriteFault} {round : Nat} {device written : Bytes}
    {ws : List (Nat × Bytes)} (h : writeBlocks fault round device ws = (.ok (), written)) :
    written = device.writeAll ws := by
  induction ws generalizing round device with
  | nil =>
    cases h
    rfl
  | cons w rest ih =>
    rw [writeBlocks] at h
    cases hf : fault round with
    | none =>
      rw [hf] at h
      exact ih h
    | some f =>
      rw [hf] at h
      cases h

/-! The blocks of a layout. -/

section Layout
variable {c : Carapace} (layout : Layout c) (arch : Arch) (ids : Identities)

/-- The blocks a layout writes are its metadata. -/
theorem writes_metadata {i : Nat} (hi : ¬ layout.Metadata i) :
    ∀ w ∈ writes ids layout.lastBlock (layout.parts arch), i < w.1 ∨ w.1 + w.2.length ≤ i := by
  have hm : (mbrImage layout.lastBlock).length = 4096 := mbrImage_length
  have ht : (tableImage ids (layout.parts arch)).length = 16384 :=
    tableImage_length (layout_parts_ok layout arch)
  simp only [Layout.Metadata, sectorSize] at hi
  simp only [writes, List.forall_mem_cons, sectorSize, Header.image_length, hm, ht]
  exact ⟨by omega, by omega, by omega, by omega, by omega, List.forall_mem_nil _⟩

/-- They end where the layout ends. -/
theorem writes_end :
    ∀ w ∈ writes ids layout.lastBlock (layout.parts arch), w.1 + w.2.length ≤ layout.bytes := by
  have hm : (mbrImage layout.lastBlock).length = 4096 := mbrImage_length
  have ht : (tableImage ids (layout.parts arch)).length = 16384 :=
    tableImage_length (layout_parts_ok layout arch)
  have hlast := lastBlock_succ layout
  have hroot := (layout_root_fits layout).end_le
  have hfirst := (layout_root_fits layout).first
  simp only [writes, List.forall_mem_cons, sectorSize, Header.image_length, hm, ht]
  exact ⟨by omega, by omega, by omega, by omega, by omega, List.forall_mem_nil _⟩

/-- A partition that fits holds no metadata. -/
theorem holds_not_metadata {p : Partition} (h : p.Fits layout.lastBlock) {i : Nat}
    (hi : p.Holds i) :
    ¬ layout.Metadata i := by
  obtain ⟨hlow, hhigh⟩ := hi
  have hfirst := h.first
  have hend := h.end_le
  have hpositive := h.positive
  simp only [Layout.Metadata, sectorSize]
  omega

theorem beyond_not_metadata {i : Nat} (hi : layout.bytes ≤ i) : ¬ layout.Metadata i := by
  have hlast := lastBlock_succ layout
  have hroot := (layout_root_fits layout).end_le
  have hfirst := (layout_root_fits layout).first
  simp only [Layout.Metadata, sectorSize]
  omega

variable (faults : Faults) (device : Bytes) (capacity : Nat)

/-- The device afterwards is the one before, or what a run of the writes left. -/
theorem writeDevice_device :
    (layout.writeDevice arch ids faults device capacity).2 = device ∨
      (layout.writeDevice arch ids faults device capacity).2 =
        (writeBlocks faults.write 0 device (writes ids layout.lastBlock
          (layout.parts arch))).2 := by
  rw [Layout.writeDevice]
  split
  · exact .inl rfl
  · right
    split
    · rename_i e device' h
      rw [h]
    · rename_i device' h
      rw [h]
      split <;> rfl

/-- **A write that succeeds leaves the device `Layout.write` describes.** -/
theorem writeDevice_eq_ok {written : Bytes}
    (h : layout.writeDevice arch ids faults device capacity = (.ok (), written)) :
    layout.write arch ids device capacity = .ok written := by
  rw [Layout.writeDevice] at h
  rw [Layout.write]
  split at h
  · cases h
  · rename_i hfits
    rw [if_neg hfits]
    split at h
    · cases h
    · rename_i device' hblocks
      split at h
      · cases h
      · cases h
        rw [writeBlocks_eq_ok hblocks]

/-- **Writing touches only metadata.** However far the write comes, every byte outside the
    metadata blocks is kept: those of each partition, and those from the layout's end on.
    A capacity that does not suit the layout changes nothing. -/
theorem write_frame :
    let after := (layout.writeDevice arch ids faults device capacity).2
    (∀ i, ¬ layout.Metadata i → Kept device after i) ∧
      (∀ p, p = layout.root ∨ layout.esp = some p → ∀ i, p.Holds i → Kept device after i) ∧
      (∀ i, layout.bytes ≤ i → after[i]? = device[i]?) ∧
      (capacity < layout.bytes ∨ capacity > c.zeroSizeBytes ∨ capacity % sectorSize ≠ 0 →
        after = device ∧ ∃ e, (layout.writeDevice arch ids faults device capacity).1 =
            .error e) := by
  intro after
  have hkept : ∀ i, ¬ layout.Metadata i → Kept device after i := by
    intro i hi
    show Kept device (layout.writeDevice arch ids faults device capacity).2 i
    cases writeDevice_device layout arch ids faults device capacity with
    | inl h =>
      rw [h]
      exact Kept.refl device i
    | inr h =>
      rw [h]
      exact writeBlocks_kept (writes_metadata layout arch ids hi)
  refine ⟨hkept, ?_, ?_, ?_⟩
  · intro p hp i hi
    apply hkept
    apply holds_not_metadata layout _ hi
    cases hp with
    | inl hp =>
      rw [hp]
      exact layout_root_fits layout
    | inr hp => exact layout_esp_fits layout hp
  · intro i hi
    -- the device is not extended past the layout, so a missing byte stays missing
    have hlength : after.length ≤ max device.length layout.bytes := by
      show (layout.writeDevice arch ids faults device capacity).2.length ≤ _
      cases writeDevice_device layout arch ids faults device capacity with
      | inl h =>
        rw [h]
        exact Nat.le_max_left _ _
      | inr h =>
        rw [h]
        exact writeBlocks_length (writes_end layout arch ids)
    by_cases hin : i < device.length
    · exact (hkept i (beyond_not_metadata layout hi)).of_length hin
    · rw [List.getElem?_eq_none (Nat.not_lt.mp hin), List.getElem?_eq_none]
      omega
  · intro hrejected
    show (layout.writeDevice arch ids faults device capacity).2 = device ∧
      ∃ e, (layout.writeDevice arch ids faults device capacity).1 = .error e
    rw [Layout.writeDevice, if_pos hrejected]
    exact ⟨rfl, _, rfl⟩

end Layout

end Conglobate.Disk
