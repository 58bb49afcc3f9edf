import Conglobate.Storage.Compact

/- What `CompactSnapshot::new` leaves in the file.

   `Holds G recs p` is the invariant of the scan: of the original bytes `G` only
   the metadata areas filled so far are overwritten, they hold the surviving
   records `recs` in order, and the rest of `recs` is in the output buffer. One
   record keeps it (`keep_holds`), so a whole area does, and the scan ends with
   every survivor packed and nothing else changed (`new_planned`). -/
namespace Conglobate.Storage

set_option maxRecDepth 4000

theorem segment_append_full {recs : List Bytes} {r : Bytes} {k : Nat}
    (h : k * 256 + 256 ≤ recs.length) : segment (recs ++ [r]) k = segment recs k := by
  rw [segment, segment, List.drop_append_of_le_length (Nat.le_trans (Nat.le_add_right _ _) h),
    List.take_append_of_le_length (by rw [List.length_drop]; omega)]

theorem segment_append_open {recs : List Bytes} {r : Bytes} :
    segment (recs ++ [r]) (recs.length / 256) = segment recs (recs.length / 256) ++ [r] := by
  rw [segment, segment, List.drop_append_of_le_length (by omega),
    List.take_of_length_le (by rw [List.length_append, List.length_drop, List.length_singleton]; omega),
    List.take_of_length_le (by rw [List.length_drop]; omega)]

theorem segment_open_length (recs : List Bytes) :
    (segment recs (recs.length / 256)).length = recs.length % 256 := by
  rw [segment, List.length_take, List.length_drop]
  omega

theorem segment_fresh {recs : List Bytes} {k : Nat} (h : recs.length ≤ k * 256) :
    segment recs k = [] := by
  rw [segment, List.drop_eq_nil_of_le h, List.take_nil]

theorem areaBytes_nil : areaBytes [] = Bytes.zeros 4096 := by simp [areaBytes]

/-- Writing the next slot of an area adds its record. -/
theorem areaBytes_writeAt {recs : List Bytes} {r : Bytes} (hr : ∀ x ∈ recs, x.length = 16)
    (hl : recs.length < 256) (hw : r.length = 16) :
    (areaBytes recs).writeAt (recs.length * 16) r = areaBytes (recs ++ [r]) := by
  have hlen := Bytes.flatten_length hr
  have htotal := areaBytes_length hr (Nat.le_of_lt hl)
  have hsub : recs.length * 16 + r.length - recs.flatten.length = 16 := by omega
  have hzero : 4096 - recs.length * 16 - 16 = 4096 - (recs ++ [r]).length * 16 := by
    rw [List.length_append, List.length_singleton]
    omega
  rw [Bytes.writeAt, htotal, show recs.length * 16 - 4096 = 0 by omega]
  rw [areaBytes, List.take_append_of_le_length (by rw [List.length_append, hlen]; omega),
    List.take_append_of_le_length (by omega), List.take_of_length_le (by omega), List.drop_append,
    List.drop_eq_nil_of_le (by omega), List.nil_append, hsub, Bytes.zeros,
      List.drop_replicate, hzero,
    areaBytes, List.flatten_append, List.flatten_singleton, List.append_assoc, Bytes.zeros]

namespace CompactSnapshot

/-- No byte of the first `m` metadata areas. -/
def OutsideAreas (m i : Nat) : Prop :=
  ∀ k < m, i < areaChunk k * 4096 ∨ (areaChunk k + 1) * 4096 ≤ i

/-- The scan's invariant: the survivors `recs` packed behind it, all else as in `G`. -/
structure Holds (G : Bytes) (recs : List Bytes) (p : Packing) : Prop where
  kept : p.kept = recs.length
  width : ∀ r ∈ recs, r.length = 16
  length : p.source.bytes.length = G.length
  packed : ∀ k < recs.length / 256,
    p.source.bytes.readAt (areaChunk k * 4096) 4096 = some (areaBytes (segment recs k))
  frame : ∀ i, OutsideAreas (recs.length / 256) i → p.source.bytes[i]? = G[i]?
  output : p.output = areaBytes (segment recs (recs.length / 256))

/-- The result of the scan: every survivor packed, the terminator written. -/
structure Planned (G : Bytes) (recs : List Bytes) (source : File) : Prop where
  length : source.bytes.length = G.length
  packed : ∀ k ≤ recs.length / 256,
    source.bytes.readAt (areaChunk k * 4096) 4096 = some (areaBytes (segment recs k))
  frame : ∀ i, OutsideAreas (recs.length / 256 + 1) i → source.bytes[i]? = G[i]?

theorem areaChunk_mono {k l : Nat} (h : k ≤ l) : areaChunk k ≤ areaChunk l := by
  unfold areaChunk
  omega

/-- An area no later than one inside the store is inside it. -/
theorem area_inside {k l n : Nat} (h : k ≤ l) (hl : (areaChunk l + 1) * 4096 ≤ n) :
    (areaChunk k + 1) * 4096 ≤ n :=
  Nat.le_trans (Nat.mul_le_mul_right _ (Nat.succ_le_succ (areaChunk_mono h))) hl

theorem area_disjoint {k l : Nat} (h : k ≠ l) :
    areaChunk k * 4096 + 4096 ≤ areaChunk l * 4096 ∨ areaChunk l * 4096 + 4096 ≤
      areaChunk k * 4096 := by
  unfold areaChunk
  omega

/-- A chunk that is not one of the first `m` areas lies outside them. -/
theorem outside_of_chunk {m chunk i : Nat} (h : ∀ k < m, chunk ≠ areaChunk k)
    (hl : chunk * 4096 ≤ i) (hu : i < chunk * 4096 + 4096) : OutsideAreas m i := by
  intro k hk
  have := h k hk
  omega

/-- A chunk outside the overwritten areas reads as it did. -/
theorem Holds.read_frame {G : Bytes} {recs : List Bytes} {p : Packing} (h : Holds G recs p)
    {chunk : Nat} (hc : ∀ k < recs.length / 256, chunk ≠ areaChunk k)
    (hin : (chunk + 1) * 4096 ≤ G.length) :
    p.source.bytes.readAt (chunk * 4096) 4096 = G.readAt (chunk * 4096) 4096 := by
  apply Bytes.readAt_congr (by rw [h.length]; omega) (by omega)
  intro i hl hu
  exact h.frame i (outside_of_chunk hc hl hu)

theorem Planned.read_frame {G : Bytes} {recs : List Bytes} {source : File}
    (h : Planned G recs source) (chunk : Nat) (hc : ∀ k ≤ recs.length / 256, chunk ≠ areaChunk k)
    (hin : (chunk + 1) * 4096 ≤ G.length) :
    source.bytes.readAt (chunk * 4096) 4096 = G.readAt (chunk * 4096) 4096 := by
  apply Bytes.readAt_congr (by rw [h.length]; omega) (by omega)
  intro i hl hu
  exact h.frame i (outside_of_chunk (fun k hk => hc k (by omega)) hl hu)

theorem Holds.output_length {G : Bytes} {recs : List Bytes} {p : Packing} (h : Holds G recs p) :
    p.output.length = 4096 := by
  rw [h.output]
  exact areaBytes_length (segment_width h.width _) (segment_length_le _ _)

/-- Overwriting area `m` after the first `m` leaves the other areas and the rest. -/
theorem overwrite_area {G : Bytes} {g : File} {m : Nat} {out : Bytes} (hout : out.length = 4096)
    (hlen : g.bytes.length = G.length) (hin : (areaChunk m + 1) * 4096 ≤ G.length)
    (hframe : ∀ i, OutsideAreas m i → g.bytes[i]? = G[i]?) :
    ∃ g', g.writeAllAt (areaChunk m * 4096) out = .ok g' ∧ g'.bytes.length = G.length ∧
      g'.bytes.readAt (areaChunk m * 4096) 4096 = some out ∧
      (∀ k < m, g'.bytes.readAt (areaChunk k * 4096) 4096 =
        g.bytes.readAt (areaChunk k * 4096) 4096) ∧
      ∀ i, OutsideAreas (m + 1) i → g'.bytes[i]? = G[i]? := by
  obtain ⟨g', hw, hb⟩ := File.writeAllAt_inside (f := g) (o := areaChunk m * 4096)
    (b := out) (by omega)
  have hsame := Bytes.readAt_writeAt_same g.bytes (areaChunk m * 4096) out
  rw [hout] at hsame
  refine ⟨g', hw, ?_, by rw [hb]; exact hsame, ?_, ?_⟩
  · rw [hb, Bytes.writeAt_length]
    omega
  · intro k hk
    have hmono : areaChunk k ≤ areaChunk m := by unfold areaChunk; omega
    rw [hb]
    have := area_disjoint (Nat.ne_of_lt hk)
    exact Bytes.readAt_writeAt_off (by omega) (by omega)
  · intro i hi
    have hm := hi m (by omega)
    rw [← hframe i (fun k hk => hi k (by omega)), hb]
    by_cases hlt : i < g.bytes.length
    · exact Bytes.writeAt_getElem?_off hlt (by omega)
    · rw [List.getElem?_eq_none (by rw [Bytes.writeAt_length]; omega),
        List.getElem?_eq_none (by omega)]

/-- **Keeping a record adds it to the packed ones.** -/
theorem keep_holds {G : Bytes} {recs : List Bytes} {p : Packing} {record : Bytes}
    (h : Holds G recs p) (hw : record.length = 16)
    (hin : (areaChunk (recs.length / 256) + 1) * 4096 ≤ G.length) :
    ∃ p', keep p record = .ok (.next p') ∧ Holds G (recs ++ [record]) p' := by
  have hlen : (recs ++ [record]).length = recs.length + 1 := by simp
  have hwidth : ∀ r ∈ recs ++ [record], r.length = 16 := by
    intro r hr
    rcases List.mem_append.mp hr with hr | hr
    · exact h.width r hr
    · rw [List.mem_singleton.mp hr, hw]
  have hout : p.output.writeAt (p.kept % 256 * 16) record =
      areaBytes (segment (recs ++ [record]) (recs.length / 256)) := by
    rw [h.output, h.kept, ← segment_open_length, areaBytes_writeAt (segment_width h.width _)
      (by rw [segment_open_length]; exact Nat.mod_lt _ (by omega)) hw, segment_append_open]
  unfold keep
  split
  · -- the area is full: it is written, and the next one starts empty
    rename_i hfull
    rw [h.kept] at hfull
    have hm : (recs.length + 1) / 256 = recs.length / 256 + 1 := by omega
    have hout_len : (p.output.writeAt (p.kept % 256 * 16) record).length = 4096 := by
      rw [hout]
      exact areaBytes_length (segment_width hwidth _) (segment_length_le _ _)
    obtain ⟨g', hwrite, hglen, hsame, hother, hframe⟩ :=
      overwrite_area hout_len h.length hin h.frame
    rw [Nat.add_sub_cancel, show 1 + p.kept / 256 * 257 = areaChunk (recs.length / 256) by
      rw [h.kept, areaChunk], hwrite, except_ok_bind]
    refine ⟨_, rfl, by simp [h.kept], hwidth, hglen, ?_, ?_, ?_⟩
    · intro k hk
      rw [hlen, hm] at hk
      rcases Nat.lt_succ_iff_lt_or_eq.mp hk with hlt | rfl
      · rw [segment_append_full (by omega)]
        exact (hother k hlt).trans (h.packed k hlt)
      · rw [← hout]
        exact hsame
    · rw [hlen, hm]
      exact hframe
    · rw [hlen, hm, segment_fresh (by rw [hlen]; omega), areaBytes_nil]
  · rename_i hopen
    rw [h.kept] at hopen
    have hm : (recs.length + 1) / 256 = recs.length / 256 := by omega
    refine ⟨_, rfl, by simp [h.kept], hwidth, h.length, ?_, ?_, ?_⟩
    · intro k hk
      rw [hlen, hm] at hk
      rw [segment_append_full (by omega)]
      exact h.packed k hk
    · rw [hlen, hm]
      exact h.frame
    · rw [hlen, hm]
      exact hout

/-! The scan over a table. -/

/-- The origin as `read_origin` serves it. -/
def chunkOrigin (origin : Nat → Block) : ReadOrigin := fun offset => .ok (origin (offset / 4096))

/-- What entry `j` saves. -/
def savedAt (G : Bytes) (j : Nat) : Saved :=
  ⟨(exceptionAt G j).oldChunk, chunkAt G (exceptionAt G j).newChunk⟩

/-- The entries among the first `j` whose data differs from the origin. -/
def survivors (G : Bytes) (origin : Nat → Block) (j : Nat) : List Nat :=
  (List.range j).filter (fun i => (savedAt G i).differs origin)

def survivorRecords (G : Bytes) (origin : Nat → Block) (j : Nat) : List Bytes :=
  (survivors G origin j).map (recordAt G)

theorem survivors_succ (G : Bytes) (origin : Nat → Block) (j : Nat) :
    survivors G origin (j + 1) =
      survivors G origin j ++ if (savedAt G j).differs origin then [j] else [] := by
  rw [survivors, List.range_succ, List.filter_append, survivors]
  congr 1
  cases h : (savedAt G j).differs origin <;> simp [h]

theorem survivors_length_le (G : Bytes) (origin : Nat → Block) (j : Nat) :
    (survivors G origin j).length ≤ j := by
  have := List.length_filter_le (fun i => (savedAt G i).differs origin) (List.range j)
  simpa [survivors] using this

/-- Every entry of the table names a data chunk inside the store. -/
structure DataInside (G : Bytes) (n : Nat) : Prop where
  inside : ∀ j < n, ((exceptionAt G j).newChunk + 1) * 4096 ≤ G.length
  low : ∀ j < n, 2 ≤ (exceptionAt G j).newChunk
  data : ∀ j < n, ((exceptionAt G j).newChunk - 1) % 257 ≠ 0

theorem data_ne_area {chunk k : Nat} (hl : 2 ≤ chunk) (hd : (chunk - 1) % 257 ≠ 0) :
    chunk ≠ areaChunk k := by
  unfold areaChunk
  omega

theorem recordAt_length {G : Bytes} {n j : Nat} (ht : Table G n) (hj : j ≤ n) :
    (recordAt G j).length = 16 := by
  have := ht.inside
  unfold areaChunk at this
  rw [recordAt, List.length_take, List.length_drop, areaChunk]
  omega

/-- **One entry of the scan.** A live entry is kept exactly when its data differs. -/
theorem packException_step {G : Bytes} {origin : Nat → Block} {n j : Nat} {p : Packing}
    (ht : Table G n) (hd : DataInside G n) (hj : j < n)
    (h : Holds G (survivorRecords G origin j) p) :
    ∃ p', packException (chunkOrigin origin) p (recordAt G j) (exceptionAt G j) = .ok (.next p') ∧
      Holds G (survivorRecords G origin (j + 1)) p' := by
  have hread : p.source.readExactAt ((exceptionAt G j).newChunk * 4096) 4096 =
      .ok (chunkAt G (exceptionAt G j).newChunk) := by
    rw [File.readExactAt, Bytes.readExactAt_eq_ok,
      h.read_frame (fun k _ => data_ne_area (hd.low j hj) (hd.data j hj)) (hd.inside j hj)]
    exact chunkAt_readAt (hd.inside j hj)
  have horigin : chunkOrigin origin ((exceptionAt G j).oldChunk * 4096) =
      .ok (origin (exceptionAt G j).oldChunk) := by
    rw [chunkOrigin, Nat.mul_div_cancel _ (by omega)]
  have hlive := ht.live j hj
  rw [packException, if_neg hlive, hread, except_ok_bind, horigin, except_ok_bind, survivorRecords,
    survivors_succ]
  split
  · rename_i heq
    have hsame : (savedAt G j).differs origin = false := by simp [Saved.differs, savedAt, heq]
    refine ⟨p, rfl, ?_⟩
    rw [hsame, if_neg (by simp), List.append_nil]
    exact h
  · rename_i hne
    have hdiff : (savedAt G j).differs origin = true := by simp [Saved.differs, savedAt, hne]
    rw [hdiff, if_pos rfl, List.map_append, List.map_singleton]
    have hcount := survivors_length_le G origin j
    refine keep_holds h (recordAt_length ht (Nat.le_of_lt hj)) ?_
    rw [List.length_map]
    exact area_inside (by omega) ht.inside

/-- The terminator writes the last area and ends the scan. -/
theorem packException_end {G : Bytes} {recs : List Bytes} {o : Nat → Block} {n : Nat} {p : Packing}
    (ht : Table G n) (hr : recs.length ≤ n) (h : Holds G recs p) :
    ∃ source, packException (chunkOrigin o) p (recordAt G n) (exceptionAt G n) =
      .ok (.done (planned source recs.length)) ∧ Planned G recs source := by
  have hin : (areaChunk (recs.length / 256) + 1) * 4096 ≤ G.length :=
    area_inside (by omega) ht.inside
  obtain ⟨g', hwrite, hglen, hsame, hother, hframe⟩ :=
    overwrite_area h.output_length h.length hin h.frame
  refine ⟨g', ?_, hglen, ?_, hframe⟩
  · rw [packException, if_pos ht.ended, show 1 + p.kept / 256 * 257 =
        areaChunk (recs.length / 256) by
      rw [h.kept, areaChunk], hwrite, except_ok_bind, h.kept]
  · intro k hk
    rcases Nat.lt_or_eq_of_le hk with hlt | rfl
    · exact (hother k hlt).trans (h.packed k hlt)
    · rw [← h.output]
      exact hsame

/-- **One area of the scan**: the table ends in it, or the scan goes on. -/
theorem packArea_step {G : Bytes} {origin : Nat → Block} {n k : Nat} {p : Packing} (ht : Table G n)
    (hd : DataInside G n) (hk : k * 256 ≤ n) (h : Holds G (survivorRecords G origin (k * 256)) p) :
    (∃ source, packArea (chunkOrigin origin) p k =
        .ok (.done (planned source (survivorRecords G origin n).length)) ∧
        Planned G (survivorRecords G origin n) source) ∨
      ((k + 1) * 256 ≤ n ∧ ∃ p', packArea (chunkOrigin origin) p k = .ok (.next p') ∧
        Holds G (survivorRecords G origin ((k + 1) * 256)) p') := by
  have hcount := survivors_length_le G origin (k * 256)
  obtain ⟨metadata, horig⟩ := SnapshotExtent.readAt_area ht (k := k) (by omega)
  have hin := (Bytes.readAt_eq_some.mp horig).1
  have hread : p.source.readExactAt ((1 + k * 257) * 4096) 4096 = .ok metadata := by
    rw [File.readExactAt, Bytes.readExactAt_eq_ok, show 1 + k * 257 = areaChunk k from rfl,
      h.read_frame (fun l hl => ?_) (by omega), horig]
    rw [survivorRecords, List.length_map] at hl
    unfold areaChunk
    omega
  have hrec : ∀ i (hi : i < (records metadata).length), (records metadata)[i] =
      recordAt G (k * 256 + i) := by
    intro i hi
    rw [records_length] at hi
    rw [records_getElem, record_of_area horig hi]
  have hloop := Flow.each_total
    (fun i t => k * 256 + i ≤ n ∧ Holds G (survivorRecords G origin (k * 256 + i)) t)
    (fun r => ∃ source, r = planned source (survivorRecords G origin n).length ∧
      Planned G (survivorRecords G origin n) source)
    (f := packRecord (chunkOrigin origin)) (l := records metadata) (s := p)
    ⟨by omega, by rw [Nat.add_zero]; exact h⟩ (by
      rintro i hi t ⟨hle, hinv⟩
      rw [packRecord, hrec i hi]
      rcases Nat.lt_or_eq_of_le hle with hlt | heq
      · right
        obtain ⟨p', hp, hnext⟩ := packException_step ht hd hlt hinv
        rw [Nat.add_assoc] at hnext
        exact ⟨p', hp, by omega, hnext⟩
      · left
        rw [heq] at hinv ⊢
        have hr : (survivorRecords G origin n).length ≤ n := by
          rw [survivorRecords, List.length_map]
          exact survivors_length_le G origin n
        obtain ⟨source, hp, hplanned⟩ := packException_end (o := origin) ht hr hinv
        exact ⟨_, hp, source, rfl, hplanned⟩)
  rw [packArea, hread, except_ok_bind]
  rcases hloop with ⟨r, hr, source, rfl, hplanned⟩ | ⟨p', hr, hle, hinv⟩
  · exact .inl ⟨source, hr, hplanned⟩
  · rw [records_length] at hle hinv
    exact .inr ⟨by omega, p', hr, by rwa [Nat.succ_mul]⟩

/-- **The scan packs exactly the survivors.** On a store with a table of `n` entries
    whose data is inside it, `new` succeeds, and the file holds the surviving
    records in order and is unchanged outside the areas that hold them. -/
theorem new_planned (source : File) (origin : Nat → Block) {n : Nat} (ht : Table source.bytes n)
    (hd : DataInside source.bytes n) :
    ∃ packed, new source (chunkOrigin origin) =
        .ok (planned packed (survivorRecords source.bytes origin n).length) ∧
      Planned source.bytes (survivorRecords source.bytes origin n) packed := by
  have hinit : Holds source.bytes (survivorRecords source.bytes origin (0 * 256))
      ⟨source, Bytes.zeros 4096, 0⟩ := by
    refine ⟨rfl, by simp [survivorRecords, survivors], rfl, ?_, fun i _ => rfl, ?_⟩
    · intro k hk
      simp [survivorRecords, survivors] at hk
    · simp [survivorRecords, survivors, segment, areaBytes_nil]
  have hloop := Flow.each_total
    (fun k t => k * 256 ≤ n ∧ Holds source.bytes (survivorRecords source.bytes origin (k * 256)) t)
    (fun r => ∃ packed, r = planned packed (survivorRecords source.bytes origin n).length ∧
      Planned source.bytes (survivorRecords source.bytes origin n) packed)
    (f := packArea (chunkOrigin origin)) (l := List.range (source.bytes.length / 4096 + 1))
    (s := ⟨source, Bytes.zeros 4096, 0⟩) ⟨by omega, hinit⟩ (by
      rintro k hk t ⟨hle, hinv⟩
      rw [List.getElem_range]
      rcases packArea_step ht hd hle hinv with ⟨packed, hp, hplanned⟩ | ⟨hle', p', hp, hnext⟩
      · exact .inl ⟨_, hp, packed, rfl, hplanned⟩
      · exact .inr ⟨p', hp, hle', hnext⟩)
  rcases hloop with ⟨r, hr, packed, rfl, hplanned⟩ | ⟨p', hr, hle, -⟩
  · refine ⟨packed, ?_, hplanned⟩
    rw [new, hr, except_ok_bind]
  · -- no table has more areas than its store has chunks
    have hinside := ht.inside
    rw [List.length_range] at hle
    unfold areaChunk at hinside
    omega

end CompactSnapshot

end Conglobate.Storage
