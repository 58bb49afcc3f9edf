import Conglobate.Disk.RoundTrip

/- The results on GPT disks.

   Reading is sound on every device (`read_sound`), and reading what a layout
   wrote gives the layout back (`read_write`). The second rests on the written
   disk being accepted (`read_written`) and on a layout placing its partitions
   where the reader allows them (`layout_parts_ok`). -/
namespace Conglobate.Disk

set_option maxRecDepth 4000

/-! A layout's partitions. -/

/-- A partition of whole blocks in the usable range of a disk of last block `last`. -/
structure Partition.Fits (last : Nat) (p : Partition) : Prop where
  first : 48 ≤ p.start
  aligned : p.start % 8 = 0
  positive : 0 < p.sectors
  whole : p.sectors % 8 = 0
  end_le : p.start + p.sectors ≤ (last - 4) * 8

/-- The entry of a whole partition has the partition's extent. -/
theorem entryOf_extent {last : Nat} {part : Uuid × Partition} (h : part.2.Fits last) (slot : Nat) :
    (entryOf slot part).extent = part.2 := by
  obtain ⟨kind, start, sectors⟩ := part
  obtain ⟨h1, h2, h3, h4, h5⟩ := h
  simp only [Entry.extent, entryOf, Partition.mk.injEq] at *
  omega

theorem entryOf_ordered {last : Nat} {part : Uuid × Partition} (h : part.2.Fits last) (slot : Nat) :
    6 ≤ (entryOf slot part).start ∧ (entryOf slot part).start ≤ (entryOf slot part).last ∧
      (entryOf slot part).last ≤ last - 5 := by
  obtain ⟨h1, h2, h3, h4, h5⟩ := h
  simp only [entryOf]
  omega

/-- Partitions that fit and share no sector make an acceptable table. -/
theorem parts_ok {last : Nat} {parts : List (Uuid × Partition)} (hcount : parts.length ≤ 128)
    (hnamed : ∀ part ∈ parts, part.1 ≠ Uuid.nil) (hfits : ∀ part ∈ parts, part.2.Fits last)
    (hdisjoint : parts.Pairwise (fun a b => a.2.Disjoint b.2)) : PartsOk last parts := by
  have hentry : ∀ e ∈ parts.mapIdx entryOf, 6 ≤ e.start ∧ e.start ≤ e.last ∧ e.last ≤ last - 5 := by
    intro e he
    obtain ⟨slot, hslot, rfl⟩ := List.mem_mapIdx.mp he
    exact entryOf_ordered (hfits _ (List.getElem_mem hslot)) slot
  refine ⟨hcount, hnamed, fun e he => (hentry e he).2.1, fun e he => (hentry e he).1,
    fun e he => (hentry e he).2.2, ?_⟩
  rw [List.pairwise_iff_getElem] at hdisjoint ⊢
  intro i j hi hj hij
  rw [List.length_mapIdx] at hi hj
  rw [List.getElem_mapIdx, List.getElem_mapIdx]
  obtain ⟨a1, a2, a3, a4, a5⟩ := hfits _ (List.getElem_mem hi)
  obtain ⟨b1, b2, b3, b4, b5⟩ := hfits _ (List.getElem_mem hj)
  have := hdisjoint i j hi hj hij
  simp only [Partition.Disjoint, Apart, entryOf] at *
  omega

section Parts
variable {c : Carapace} (layout : Layout c) (arch : Arch)

theorem rootPartitionType_ne_esp (arch : Arch) : rootPartitionType arch ≠ espPartitionType := by
  cases arch <;> decide

/-- The last block is the one the disk's sectors end in. -/
theorem lastBlock_succ : (layout.lastBlock + 1) * 4096 = layout.bytes := by
  have := layout.placement.backup
  have := layout.placement.aligned
  unfold alignment at this
  unfold Layout.lastBlock Layout.bytes
  omega

theorem layout_root_fits : layout.root.Fits layout.lastBlock := by
  obtain ⟨h1, h2, h3, h4, -, -, -, -, h9, h10, h11⟩ := layout.placement
  unfold alignment at *
  unfold Layout.lastBlock
  exact ⟨by omega, by omega, h3, h4, by omega⟩

theorem layout_esp_fits {e : Partition} (h : layout.esp = some e) : e.Fits layout.lastBlock := by
  obtain ⟨h1, h2, h3, h4, h5, h6, h7, h8, h9, h10, h11⟩ := layout.placement
  have := h5 e h
  have := h8 e h
  unfold alignment at *
  unfold Layout.lastBlock
  exact ⟨by omega, by omega, h6 e h, h7 e h, by omega⟩

/-- **A layout places its partitions where the reader allows them.** -/
theorem layout_parts_ok : PartsOk layout.lastBlock (layout.parts arch) := by
  have hroot := layout_root_fits layout
  have hrootType : rootPartitionType arch ≠ Uuid.nil := by cases arch <;> decide
  have hespType : espPartitionType ≠ Uuid.nil := by decide
  cases hesp : layout.esp with
  | none =>
    have hparts : layout.parts arch = [(rootPartitionType arch, layout.root)] := by
      rw [Layout.parts, hesp]
      rfl
    rw [hparts]
    refine parts_ok (by simp) ?_ ?_ (List.pairwise_singleton _ _)
    · simpa using hrootType
    · simpa using hroot
  | some e =>
    have hparts : layout.parts arch = [(rootPartitionType arch, layout.root),
        (espPartitionType, e)] := by
      rw [Layout.parts, hesp]
      rfl
    have hbefore := layout.placement.esp_before e hesp
    rw [hparts]
    refine parts_ok (by simp) ?_ ?_ ?_
    · simpa using ⟨hrootType, hespType⟩
    · simpa using ⟨hroot, layout_esp_fits layout hesp⟩
    · simpa [Partition.Disjoint] using Or.inr hbefore

theorem tryFrom_entryOf {last slot : Nat} {part : Uuid × Partition} (h : part.2.Fits last)
    (hlast : last < 2 ^ 52) : Partition.tryFrom (entryOf slot part) = .ok part.2 := by
  have ho := entryOf_ordered h slot
  rw [tryFrom_safe ho.2.1 (by omega), entryOf_extent h]

theorem lastBlock_lt : layout.lastBlock < 2 ^ 52 := by
  have := c.fits
  have := layout.placement.fits
  unfold Layout.lastBlock
  omega

/-- **The selection finds a layout's partitions.** -/
theorem select_layout :
    select (rootPartitionType arch) (sortEntries ((layout.parts arch).mapIdx entryOf)) =
      .ok ⟨layout.root, layout.esp⟩ := by
  have hne := rootPartitionType_ne_esp arch
  have hroot : Partition.tryFrom (entryOf 0 (rootPartitionType arch, layout.root)) =
      .ok layout.root :=
    tryFrom_entryOf (layout_root_fits layout) (lastBlock_lt layout)
  have hroots : rootsOf (rootPartitionType arch) ((layout.parts arch).mapIdx entryOf) =
      [entryOf 0 (rootPartitionType arch, layout.root)] := by
    cases hesp : layout.esp with
    | none => simp [Layout.parts, hesp, rootsOf, entryOf]
    | some e => simp [Layout.parts, hesp, rootsOf, entryOf, hne.symm]
  have hesps : espsOf ((layout.parts arch).mapIdx entryOf) =
      layout.esp.toList.map (fun e => entryOf 1 (espPartitionType, e)) := by
    cases hesp : layout.esp with
    | none => simp [Layout.parts, hesp, espsOf, entryOf, hne]
    | some e => simp [Layout.parts, hesp, espsOf, entryOf, hne]
  have hchoice : selectEsp (sortEntries ((layout.parts arch).mapIdx entryOf)) = .ok layout.esp := by
    rw [selectEsp, (espsOf_sort (by cases layout.esp <;> simp)).mpr hesps]
    cases hesp : layout.esp with
    | none => rfl
    | some e =>
      have : Partition.tryFrom (entryOf 1 (espPartitionType, e)) = .ok e :=
        tryFrom_entryOf (layout_esp_fits layout hesp) (lastBlock_lt layout)
      simp [this, except_ok_bind]
  rw [select, selectRoot_eq_ok.mpr (rootsOf_sort.mpr hroots), except_ok_bind, hchoice,
    except_ok_bind, hroot, except_ok_bind]

/-- A written layout reads as its partitions. -/
theorem read_layout {ids : Identities} {device written : Bytes} {capacity : Nat}
    (hwrite : layout.write arch ids device capacity = .ok written) :
    read c written capacity (rootPartitionType arch) = .ok ⟨layout.root, layout.esp⟩ := by
  have hlast := lastBlock_succ layout
  have hlow : 11 ≤ layout.lastBlock := by
    have := layout.placement.root_start
    have := layout.placement.backup
    unfold alignment at *
    unfold Layout.lastBlock
    omega
  unfold Layout.write at hwrite
  split at hwrite
  · cases hwrite
  · rename_i hcapacity
    simp only [not_or, Nat.not_lt, Decidable.not_not, ne_eq] at hcapacity
    cases hwrite
    rw [read_written hlow (layout_parts_ok layout arch)
      (Nat.le_trans (Nat.le_of_eq hlast) hcapacity.1) hcapacity.2.1 hcapacity.2.2,
      select_layout]

end Parts

/-! Reading what was written. -/

theorem partitionSectors_eq_ok {c : Carapace} {bytes : Nat} {p : PartitionSectors}
    (h : partitionSectors c bytes = .ok p) : p.sectors * 512 = bytes := by
  unfold partitionSectors at h
  split at h
  · cases h
  · rename_i hbytes
    cases h
    unfold sectorSize at hbytes
    dsimp only
    omega

/-- A layout has the sizes it was made for. -/
theorem new_eq_ok {c : Carapace} {rootBytes : Nat} {espBytes : Option Nat} {layout : Layout c}
    (h : Layout.new c rootBytes espBytes = .ok layout) :
    layout.root.sectors * 512 = rootBytes ∧ layout.esp.map (fun e => e.sectors * 512) =
      espBytes := by
  unfold Layout.new at h
  obtain ⟨esp, hesp, h⟩ := except_bind_eq_ok.mp h
  obtain ⟨root, hroot, h⟩ := except_bind_eq_ok.mp h
  split at h
  · cases h
    refine ⟨partitionSectors_eq_ok hroot, ?_⟩
    cases espBytes with
    | none =>
      cases hesp
      rfl
    | some bytes =>
      cases hp : partitionSectors c bytes with
      | error e => simp [hp] at hesp
      | ok p =>
        simp only [Option.mapM_some, hp, Except.map_ok, Except.ok.injEq] at hesp
        subst hesp
        exact congrArg some (partitionSectors_eq_ok hp)
  · cases h

/-- **Writing a layout and reading the disk gives the layout's partitions**, of the sizes
    asked for, whatever the device held. -/
theorem read_write {c : Carapace} {rootBytes : Nat} {espBytes : Option Nat} {layout : Layout c}
    {arch : Arch} {ids : Identities} {device written : Bytes} {capacity : Nat}
    (hnew : Layout.new c rootBytes espBytes = .ok layout)
    (hwrite : layout.write arch ids device capacity = .ok written) :
    read c written capacity (rootPartitionType arch) = .ok ⟨layout.root, layout.esp⟩ ∧
      layout.root.sectors * 512 = rootBytes ∧ layout.esp.map (fun e => e.sectors * 512) =
        espBytes :=
  ⟨read_layout layout arch hwrite, new_eq_ok hnew⟩

/-- A backing extent of 512 MiB. -/
def sampleCarapace : Carapace := ⟨2 ^ 20, by decide⟩

def sampleIdentities : Identities := ⟨fun _ => espPartitionType, espPartitionType, by decide⟩

/-- A root of 8 KiB behind an ESP of 4 KiB. -/
def sampleLayout : Layout sampleCarapace where
  root := ⟨4096, 16⟩
  esp := some ⟨2048, 8⟩
  sectors := 6144
  placement := by
    have h := Layout.placement_of sampleCarapace (some ⟨8, by decide, rfl⟩)
      ⟨16, by decide, rfl⟩ (by decide)
    exact h

theorem read_write_sample : ∃ written, sampleLayout.write .x86_64 sampleIdentities [] 3145728 =
    .ok written ∧
    read sampleCarapace written 3145728 (rootPartitionType .x86_64) =
      .ok ⟨⟨4096, 16⟩, some ⟨2048, 8⟩⟩ ∧
    16 * 512 = 8192 ∧ some (8 * 512) = some 4096 :=
  ⟨_, rfl, @read_write _ _ _ sampleLayout _ _ _ _ _ rfl rfl⟩

/-! What an accepted disk is. -/

/-- What `read` returning `d` says of the device. -/
structure Sound (device : Bytes) (capacity : Nat) (rootType : Uuid) (d : Disk)
    (primary backup : Header) (table : Bytes) : Prop where
  primary_header : header device 1 .primary = .ok primary
  backup_header : header device primary.backupLba.toNat .backup = .ok backup
  table_length : table.length = primary.numParts.toNat * 128
  primary_table : tableBytes device primary.partStart.toNat (primary.numParts.toNat * 128) = table
  backup_table : tableBytes device backup.partStart.toNat (primary.numParts.toNat * 128) = table
  root : ∃ e, rootsOf rootType (usedEntries table primary.numParts.toNat) = [e] ∧
    d.root = e.extent ∧ Safe capacity primary backup (usedEntries table primary.numParts.toNat) e
  esp : (espsOf (usedEntries table primary.numParts.toNat) = [] ∧ d.esp = none) ∨
    ∃ e, espsOf (usedEntries table primary.numParts.toNat) = [e] ∧ d.esp = some e.extent ∧
      Safe capacity primary backup (usedEntries table primary.numParts.toNat) e ∧
      d.root.Disjoint e.extent

/-- **An accepted disk is sound**, whatever the device holds, when the root is looked for
    under a type of its own. -/
theorem read_sound {c : Carapace} {device : Bytes} {capacity : Nat} {rootType : Uuid} {d : Disk}
    (h : read c device capacity rootType = .ok d) (hne : rootType ≠ espPartitionType) :
    ∃ primary backup table, Sound device capacity rootType d primary backup table := by
  obtain ⟨-, primary, backup, hheaders, -, es, hes, hselect⟩ := read_eq_ok.mp h
  obtain ⟨table, htable, rfl⟩ := entries_eq_ok.mp hes
  obtain ⟨root, hroot, hselect⟩ := except_bind_eq_ok.mp hselect
  obtain ⟨esp, hesp, hselect⟩ := except_bind_eq_ok.mp hselect
  obtain ⟨p, hp, hselect⟩ := except_bind_eq_ok.mp hselect
  cases hselect
  have hroots := rootsOf_sort.mp (selectRoot_eq_ok.mp hroot)
  have hrootMem := List.mem_filter.mp (hroots ▸ List.mem_singleton_self root)
  have hsafe := usedEntry_safe hheaders htable hrootMem.1
  refine ⟨primary, backup, table, hheaders.primary_read, hheaders.backup_read, ?_,
    htable.primary_eq, htable.backup_eq, ⟨root, hroots, tryFrom_eq_ok hp, hsafe⟩, ?_⟩
  · rw [← htable.primary_eq]
    exact tableBytes_length (fun i hi => (htable.readable i hi).1)
  · rcases selectEsp_eq_ok hesp with ⟨hnil, rfl⟩ | ⟨e, hcons, rfl⟩
    · exact .inl ⟨(espsOf_sort (by simp)).mp hnil, rfl⟩
    · have hesps := (espsOf_sort (by simp)).mp hcons
      have hmem := List.mem_filter.mp (hesps ▸ List.mem_singleton_self e)
      have hdiff : e ≠ root := by
        rintro rfl
        have hkind : e.kind = rootType := by
          have := hrootMem.2
          simp only [Bool.and_eq_true, decide_eq_true_eq] at this
          exact this.1
        exact hne (hkind.symm.trans (by simpa using hmem.2))
      refine .inr ⟨e, hesps, rfl, usedEntry_safe hheaders htable hmem.1, ?_⟩
      rw [tryFrom_eq_ok hp]
      exact hsafe.others e hmem.1 hdiff

theorem read_sound_sample : ∃ device d,
    read sampleCarapace device 3145728 (rootPartitionType .x86_64) = .ok d ∧
      ∃ primary backup table, Sound device 3145728
        (rootPartitionType .x86_64) d primary backup table :=
  have hwrite : sampleLayout.write .x86_64 sampleIdentities [] 3145728 = .ok _ := rfl
  have hread := read_layout sampleLayout .x86_64 hwrite
  ⟨_, _, hread, read_sound hread (by decide)⟩

/-- Looked for under the ESP type, the one ESP is both root and ESP. -/
theorem read_sound_esp_type :
    ¬ ∀ (c : Carapace) (device : Bytes) (capacity : Nat) (rootType : Uuid) (d : Disk),
      read c device capacity rootType = .ok d →
        ∃ primary backup table, Sound device capacity rootType d primary backup table := by
  intro hsound
  have hok : PartsOk 1023 [(espPartitionType, ⟨2048, 2048⟩)] :=
    parts_ok (by simp) (by simpa using (by decide : espPartitionType ≠ Uuid.nil))
      (by simpa using ⟨by decide, by decide, by decide, by decide, by decide⟩)
        (List.pairwise_singleton _ _)
  have hread : read sampleCarapace
      (Bytes.writeAll [] (writes sampleIdentities 1023 [(espPartitionType, ⟨2048, 2048⟩)])) 4194304
      espPartitionType = .ok ⟨⟨2048, 2048⟩, some ⟨2048, 2048⟩⟩ := by
    rw [read_written (by decide) hok (by decide) (by decide) (by decide)]
    simp [sortEntries, entryOf, select, selectRoot, selectEsp, rootsOf, espsOf, Partition.tryFrom,
      except_ok_bind]
  obtain ⟨primary, backup, table, hs⟩ := hsound _ _ _ _ _ hread
  rcases hs.esp with ⟨-, h⟩ | ⟨e, -, he, -, hd⟩
  · cases h
  · rw [← Option.some.inj he] at hd
    simp [Partition.Disjoint] at hd

end Conglobate.Disk
