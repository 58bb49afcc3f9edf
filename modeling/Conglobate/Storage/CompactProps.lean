import Conglobate.Storage.CompactStream

/- Compaction of an accepted store.

   A store the extent scan accepts is truncated to its extent, packed, and
   streamed. What comes out is `compacted f origin`: the packed store rendered
   from the saved chunks that differ from the origin (`compact_spec`). It
   presents the same device, is accepted again with itself as extent, and is
   its own compaction. -/
namespace Conglobate.Storage

set_option maxRecDepth 4000

/-- Reading until a read of some bytes comes back empty returned `out`. -/
def CompactSnapshot.Emits (s : CompactSnapshot) (out : Bytes) : Prop :=
  ∃ widths s' width s'', s.reads widths = .ok (out, s') ∧ 0 < width ∧ s'.read width = .ok ([], s'')

/-- The saved chunks that differ from the origin's. -/
def keptChunks (f : Bytes) (origin : Nat → Block) : List Saved :=
  (savedChunks f).filter (Saved.differs origin)

/-- The store compaction emits. -/
def compacted (f : Bytes) (origin : Nat → Block) :
    Bytes := render (chunkAt f 0) (keptChunks f origin)

namespace CompactSnapshot

/-! Truncating a store to its extent. -/

theorem recordAt_take {f : Bytes} {m j : Nat} (h : (areaChunk (j / 256) + 1) * 4096 ≤ m) :
    recordAt (f.take m) j = recordAt f j := by
  have hmod : j % 256 < 256 := Nat.mod_lt _ (by omega)
  rw [recordAt, recordAt, List.drop_take, List.take_take]
  congr 1
  omega

theorem chunkAt_take {f : Bytes} {m i : Nat} (h : (i + 1) * 4096 ≤ m) :
    chunkAt (f.take m) i = chunkAt f i := by
  rw [chunkAt, chunkAt, List.drop_take, List.take_take]
  congr 1
  omega

/-- What acceptance says of a store, in chunks. -/
structure Accepted (c : Carapace) (f : Bytes) (extent : SnapshotExtent) (n : Nat) : Prop where
  header : ValidHeader f
  table : Table f n
  placed : ∀ j < n, Placed c (f.length / 4096) (exceptionAt f j)
  bytes : extent.bytes = tableEnd f n * 4096

theorem Accepted.extent_le {c : Carapace} {f : Bytes} {extent : SnapshotExtent} {n : Nat}
    (h : Accepted c f extent n) : extent.bytes ≤ f.length := by
  have hdata : dataEnd f n ≤ f.length / 4096 := dataEnd_le.mpr (fun j hj => (h.placed j hj).high)
  have hinside := h.table.inside
  rw [h.bytes, tableEnd]
  rcases Nat.le_total (areaChunk (n / 256) + 1) (dataEnd f n) with hle | hle
  · rw [Nat.max_eq_right hle]
    exact Nat.le_trans (Nat.mul_le_mul_right _ hdata) (Nat.div_mul_le_self _ _)
  · rw [Nat.max_eq_left hle]
    exact hinside

theorem Accepted.area_le {c : Carapace} {f : Bytes} {extent : SnapshotExtent} {n : Nat}
    (h : Accepted c f extent n) : (areaChunk (n / 256) + 1) * 4096 ≤ extent.bytes := by
  rw [h.bytes]
  exact Nat.mul_le_mul_right _ (Nat.le_max_left _ _)

theorem Accepted.data_le {c : Carapace} {f : Bytes} {extent : SnapshotExtent} {n j : Nat}
    (h : Accepted c f extent n) (hj : j < n) :
    ((exceptionAt f j).newChunk + 1) * 4096 ≤ extent.bytes := by
  rw [h.bytes]
  exact Nat.mul_le_mul_right _ (Nat.le_trans (lt_dataEnd hj) (Nat.le_max_right _ _))

section Truncated
variable {c : Carapace} {f : Bytes} {extent : SnapshotExtent} {n : Nat} (h : Accepted c f extent n)

include h in
theorem Accepted.take_length : (f.take extent.bytes).length = extent.bytes := by
  rw [List.length_take]
  exact Nat.min_eq_left h.extent_le

include h in
theorem Accepted.take_record {j : Nat} (hj : j ≤ n) :
    recordAt (f.take extent.bytes) j = recordAt f j :=
  recordAt_take (area_inside (by omega) h.area_le)

include h in
theorem Accepted.take_exception {j : Nat} (hj : j ≤ n) :
    exceptionAt (f.take extent.bytes) j = exceptionAt f j := by
  rw [exceptionAt, exceptionAt, h.take_record hj]

include h in
/-- The truncated store has the same table, and its data inside it. -/
theorem Accepted.take_table :
    Table (f.take extent.bytes) n ∧ DataInside (f.take extent.bytes) n := by
  refine ⟨⟨?_, ?_, ?_⟩, ⟨?_, ?_, ?_⟩⟩
  · rw [h.take_length]
    exact h.area_le
  · intro j hj
    rw [h.take_exception (Nat.le_of_lt hj)]
    exact h.table.live j hj
  · rw [h.take_exception (Nat.le_refl _)]
    exact h.table.ended
  · intro j hj
    rw [h.take_exception (Nat.le_of_lt hj), h.take_length]
    exact h.data_le hj
  · intro j hj
    rw [h.take_exception (Nat.le_of_lt hj)]
    exact (h.placed j hj).low
  · intro j hj
    rw [h.take_exception (Nat.le_of_lt hj)]
    exact (h.placed j hj).data

include h in
theorem Accepted.take_saved {j : Nat} (hj : j < n) :
    savedAt (f.take extent.bytes) j = savedAt f j := by
  rw [savedAt, savedAt, h.take_exception (Nat.le_of_lt hj), chunkAt_take (h.data_le hj)]

include h in
/-- The records that survive save the chunks that differ. -/
theorem Accepted.survivors_saved (origin : Nat → Block) :
    savedOf (f.take extent.bytes) (survivorRecords (f.take extent.bytes) origin n) =
      keptChunks f origin := by
  have hmem : ∀ j ∈ List.range n, savedAt (f.take extent.bytes) j = savedAt f j :=
    fun j hj => h.take_saved (List.mem_range.mp hj)
  have hleft : savedOf (f.take extent.bytes) (survivorRecords (f.take extent.bytes) origin n) =
      ((List.range n).map (savedAt (f.take extent.bytes))).filter (Saved.differs origin) := by
    rw [savedOf, survivorRecords, survivors, List.map_map, List.filter_map]
    rfl
  have hright : keptChunks f origin = ((List.range n).map (savedAt f)).filter
      (Saved.differs origin) := by
    rw [keptChunks, savedChunks_eq h.table]
    rfl
  rw [hleft, hright, List.map_congr_left hmem]

end Truncated

theorem accepted_iff {c : Carapace} {f : Bytes} {extent : SnapshotExtent}
    (hlen : f.length < 2 ^ 64) :
    SnapshotExtent.read c f f.length = .ok extent ↔
      8192 ≤ f.length ∧ f.length % 4096 = 0 ∧ ∃ n, Accepted c f extent n := by
  rw [SnapshotExtent.read_eq_ok_iff hlen]
  constructor
  · rintro ⟨hmin, hmod, hheader, n, ht, hp, rfl⟩
    exact ⟨hmin, hmod, n, hheader, ht, hp, rfl⟩
  · rintro ⟨hmin, hmod, n, hheader, ht, hp, hb⟩
    exact ⟨hmin, hmod, hheader, n, ht, hp, by cases extent; simpa using hb⟩

/-- **A packed store is accepted, with itself as extent.** -/
theorem render_accepted {c : Carapace} {header : Bytes} {saved : List Saved}
    (hv : ValidHeader (render header saved)) (hh : header.length = 4096)
    (hs : ∀ s ∈ saved, s.data.length = 4096 ∧ s.old < c.zeroSizeBytes / 4096)
    (hn : packedChunks saved.length < 256 ^ 8) :
    Accepted c (render header saved) ⟨(render header saved).length⟩ saved.length := by
  have hw : ∀ s ∈ saved, s.data.length = 4096 := fun s h => (hs s h).1
  have hold : ∀ s ∈ saved, s.old < 256 ^ 8 := by
    intro s h
    have := (hs s h).2
    have := c.fits
    unfold Carapace.zeroSizeBytes at *
    omega
  have hlength := render_length hh hw
  refine ⟨hv, render_table hh hw hold hn, ?_, ?_⟩
  · intro j hj
    rw [render_exception hh hw hj (hold _ (List.getElem_mem hj)) hn, hlength,
      Nat.mul_div_cancel _ (by omega)]
    exact ⟨(hs _ (List.getElem_mem hj)).2, by simp only [dataChunk]; omega,
      by simp only [dataChunk, packedChunks]; omega, dataChunk_mod j⟩
  · rw [render_tableEnd hh hw hold hn, hlength]

/-! What is kept. -/

theorem keptChunks_width {c : Carapace} {f : Bytes} {extent : SnapshotExtent} {n : Nat}
    (h : Accepted c f extent n) (origin : Nat → Block) :
    ∀ s ∈ keptChunks f origin, s.data.length = 4096 ∧ s.old < c.zeroSizeBytes / 4096 := by
  intro s hs
  have hs := (List.mem_filter.mp hs).1
  rw [savedChunks_eq h.table] at hs
  obtain ⟨j, hj, rfl⟩ := List.mem_map.mp hs
  have hj := List.mem_range.mp hj
  exact ⟨chunkAt_length (Nat.le_trans (h.data_le hj) h.extent_le), (h.placed j hj).old⟩

theorem keptChunks_length_le {c : Carapace} {f : Bytes} {extent : SnapshotExtent} {n : Nat}
    (h : Accepted c f extent n) (origin : Nat → Block) : (keptChunks f origin).length ≤ n := by
  have hle := List.length_filter_le (Saved.differs origin) (savedChunks f)
  rw [savedChunks_eq h.table, List.length_map, List.length_range] at hle
  rw [keptChunks, savedChunks_eq h.table]
  exact hle

theorem header_length {c : Carapace} {f : Bytes} {extent : SnapshotExtent} {n : Nat}
    (h : Accepted c f extent n) : (chunkAt f 0).length = 4096 := by
  exact chunkAt_length (Nat.le_trans (Nat.mul_le_mul_right _
    (by unfold areaChunk; omega)) h.table.inside)

/-- The packed store of the survivors is short enough to be numbered. -/
theorem packedChunks_lt {c : Carapace} {f : Bytes} {extent : SnapshotExtent} {n : Nat}
    (h : Accepted c f extent n) (hlen : f.length < 2 ^ 63) (origin : Nat → Block) :
    packedChunks (keptChunks f origin).length * 4096 < 2 ^ 64 := by
  have hinside := h.table.inside
  have hle := keptChunks_length_le h origin
  unfold areaChunk at hinside
  unfold packedChunks
  omega

section Emitted
variable {c : Carapace} {f : Bytes} {extent : SnapshotExtent} {n : Nat} (h : Accepted c f extent n)
  (hlen : f.length < 2 ^ 63)

include h hlen in
theorem emitted_bounds (origin : Nat → Block) :
    (∀ s ∈ keptChunks f origin, s.data.length = 4096) ∧
      (∀ s ∈ keptChunks f origin, s.old < 256 ^ 8) ∧
      packedChunks (keptChunks f origin).length < 256 ^ 8 := by
  have hbound := packedChunks_lt h hlen origin
  refine ⟨fun s hs => (keptChunks_width h origin s hs).1, fun s hs => ?_, by omega⟩
  have := (keptChunks_width h origin s hs).2
  have := c.fits
  unfold Carapace.zeroSizeBytes at *
  omega

include h hlen in
theorem compacted_length (origin : Nat → Block) :
    (compacted f origin).length = packedChunks (keptChunks f origin).length * 4096 :=
  render_length (header_length h) (emitted_bounds h hlen origin).1

include h hlen in
/-- **The emitted store holds exactly the saved chunks that differ.** -/
theorem compacted_savedChunks (origin : Nat → Block) :
    savedChunks (compacted f origin) = keptChunks f origin := by
  obtain ⟨hw, hold, hn⟩ := emitted_bounds h hlen origin
  exact savedChunks_render (header_length h) hw hold hn

include h hlen in
/-- The emitted store's header chunk is the original's. -/
theorem compacted_header (origin : Nat → Block) :
    chunkAt (compacted f origin) 0 = chunkAt f 0 ∧ ValidHeader (compacted f origin) := by
  obtain ⟨hw, -, -⟩ := emitted_bounds h hlen origin
  have hhead : (compacted f origin).take 4096 = chunkAt f 0 := render_header (header_length h) hw
  refine ⟨by rw [← hhead, chunkAt, Nat.zero_mul, List.drop_zero], ?_⟩
  have hsame : (compacted f origin).take 16 = f.take 16 := by
    have := congrArg (List.take 16) hhead
    rwa [List.take_take, chunkAt, Nat.zero_mul, List.drop_zero, List.take_take] at this
  rw [ValidHeader, hsame]
  exact h.header

include h hlen in
/-- **The emitted store is accepted, with itself as extent.** -/
theorem compacted_accepted (origin : Nat → Block) :
    Accepted c (compacted f origin) ⟨(compacted f origin).length⟩ (keptChunks f origin).length := by
  obtain ⟨hw, -, hn⟩ := emitted_bounds h hlen origin
  exact render_accepted (compacted_header h hlen origin).2 (header_length h)
    (fun s hs => (keptChunks_width h origin s hs)) hn

include h hlen in
/-- Everything kept differs from the origin, so compacting again keeps it all. -/
theorem compacted_compacted (origin : Nat → Block) :
    compacted (compacted f origin) origin = compacted f origin := by
  have hkept : keptChunks (compacted f origin) origin = keptChunks f origin := by
    rw [keptChunks, compacted_savedChunks h hlen, keptChunks, List.filter_filter]
    simp
  rw [compacted, (compacted_header h hlen origin).1, hkept]
  rfl

end Emitted

/-! The stream over an accepted store. -/

theorem compact_source {c : Carapace} {f packed : File} {extent : SnapshotExtent} {n : Nat}
    (h : Accepted c f.bytes extent n) (origin : Nat → Block)
    (hp : Planned (f.truncate extent.bytes).bytes
      (survivorRecords (f.truncate extent.bytes).bytes origin n) packed) :
    Source (f.truncate extent.bytes).bytes
      (survivorRecords (f.truncate extent.bytes).bytes origin n) packed := by
  obtain ⟨ht, hd⟩ := h.take_table
  have hmem : ∀ r ∈ survivorRecords (f.truncate extent.bytes).bytes origin n,
      ∃ j < n, r = recordAt (f.truncate extent.bytes).bytes j := by
    intro r hr
    obtain ⟨j, hj, rfl⟩ := List.mem_map.mp hr
    exact ⟨j, List.mem_range.mp (List.mem_filter.mp hj).1, rfl⟩
  refine ⟨hp, ?_, ?_, ?_⟩
  · intro r hr
    obtain ⟨j, hj, rfl⟩ := hmem r hr
    exact recordAt_length ht (Nat.le_of_lt hj)
  · exact Nat.le_trans (by unfold areaChunk; omega) ht.inside
  · intro r hr
    obtain ⟨j, hj, rfl⟩ := hmem r hr
    exact ⟨hd.low j hj, hd.data j hj, hd.inside j hj⟩

/-- **Compaction.** Over the truncated store `new` succeeds, and the stream it
    returns has exactly the compacted store to give. -/
theorem compact_spec {c : Carapace} {f : File} {extent : SnapshotExtent} {n : Nat}
    (h : Accepted c f.bytes extent n) (origin : Nat → Block) :
    ∃ s G recs, new (f.truncate extent.bytes) (chunkOrigin origin) = .ok s ∧
      Streaming G recs s ∧ pending G recs s = compacted f.bytes origin ∧
      s.sizeBytes = packedChunks (keptChunks f.bytes origin).length * 4096 := by
  obtain ⟨ht, hd⟩ := h.take_table
  obtain ⟨packed, hnew, hp⟩ := new_planned (f.truncate extent.bytes) origin ht hd
  obtain ⟨hs, hpend⟩ := planned_streaming (compact_source h origin hp)
  have hsaved : savedOf (f.truncate extent.bytes).bytes
      (survivorRecords (f.truncate extent.bytes).bytes origin n) =
      keptChunks f.bytes origin := h.survivors_saved origin
  have hcount := congrArg List.length hsaved
  rw [savedOf_length] at hcount
  have hhead : chunkAt (f.truncate extent.bytes).bytes 0 = chunkAt f.bytes 0 := by
    refine chunkAt_take (Nat.le_trans ?_ h.area_le)
    unfold areaChunk
    omega
  refine ⟨_, _, _, hnew, hs, ?_, ?_⟩
  · rw [hpend, emitted, hsaved, hhead, compacted]
  · rw [sizeBytes, ← hcount]
    rfl

/-- **What reading a stream returns**, however it is sliced: a prefix of what it has to
    give, all of it once enough bytes were asked for, and all of it at its end. -/
theorem streaming_reads {G : Bytes} {recs : List Bytes} {s : CompactSnapshot} {out : Bytes}
    (h : Streaming G recs s) (hout : pending G recs s = out) :
    (∀ widths, ∃ bytes s', s.reads widths = .ok (bytes, s') ∧ bytes <+: out ∧
      (out.length ≤ widths.countP (0 < ·) → bytes = out)) ∧
    s.Emits out ∧ (∀ bytes, s.Emits bytes → bytes = out) := by
  refine ⟨?_, ?_, ?_⟩
  · intro widths
    obtain ⟨bytes, s', hreads, -, hpend, hcount⟩ := reads_spec h widths
    rw [hout] at hpend
    refine ⟨bytes, s', hreads, ⟨_, hpend.symm⟩, ?_⟩
    intro henough
    have hlen := congrArg List.length hpend
    rw [List.length_append] at hlen
    have hnil : pending G recs s' = [] := by
      rcases hcount with hnil | hle
      · exact hnil
      · exact List.length_eq_zero_iff.mp (by omega)
    rw [hpend, hnil, List.append_nil]
  · obtain ⟨bytes, s', hreads, hs', hpend, hcount⟩ :=
      reads_spec h (List.replicate (out.length + 1) 1)
    have hnil : pending G recs s' = [] := by
      rcases hcount with hnil | hle
      · exact hnil
      · have hlen := congrArg List.length hpend
        rw [hout, List.length_append] at hlen
        rw [List.countP_replicate, if_pos (by decide)] at hle
        omega
    obtain ⟨rest, s'', hread, -, hend, -, -⟩ := read_spec hs' 1
    rw [hnil, eq_comm, List.append_eq_nil_iff] at hend
    rw [hout, hnil, List.append_nil] at hpend
    rw [hend.1] at hread
    rw [← hpend] at hreads
    exact ⟨_, s', 1, s'', hreads, by omega, hread⟩
  · rintro bytes ⟨widths, s', width, s'', hreads, hpos, hread⟩
    obtain ⟨bytes', t, hreads', ht, hpend, -⟩ := reads_spec h widths
    rw [hreads, Except.ok.injEq, Prod.mk.injEq] at hreads'
    obtain ⟨rfl, rfl⟩ := hreads'
    obtain ⟨rest, t', hread', -, -, -, hempty⟩ := read_spec ht width
    rw [hread, Except.ok.injEq, Prod.mk.injEq] at hread'
    obtain ⟨rfl, rfl⟩ := hread'
    rcases hempty rfl with h0 | hnil
    · omega
    · rw [← hout, hpend, hnil, List.append_nil]

/-! The two results. -/

/-- **Compaction preserves the device.** Over any origin, the store the stream of an
    accepted store emits presents the block the original store does, for every chunk. -/
theorem compaction_preserves_device {c : Carapace} {f : File} {extent : SnapshotExtent}
    (origin : Nat → Block) (h : SnapshotExtent.read c f.bytes f.bytes.length = .ok extent)
    (hd : ((exceptions f.bytes).map Exception.oldChunk).Nodup) :
    ∃ s, new (f.truncate extent.bytes) (chunkOrigin origin) = .ok s ∧ (∃ out, s.Emits out) ∧
      ∀ out, s.Emits out → ∀ chunk,
        device (savedChunks out) origin chunk = device (savedChunks f.bytes) origin chunk := by
  obtain ⟨-, -, n, ha⟩ := (accepted_iff (Nat.lt_trans f.fits (by decide))).mp h
  obtain ⟨s, G, recs, hnew, hs, hpend, -⟩ := compact_spec ha origin
  obtain ⟨-, hemits, hall⟩ := streaming_reads hs hpend
  refine ⟨s, hnew, ⟨_, hemits⟩, ?_⟩
  intro out hout chunk
  have hnodup : ((savedChunks f.bytes).map Saved.old).Nodup := by
    rw [savedChunks, List.map_map]
    exact hd
  rw [hall out hout, compacted_savedChunks ha f.fits]
  exact device_filter origin hnodup chunk

/-- The entries whose data differs from the origin's. -/
def keptExceptions (f : Bytes) (origin : Nat → Block) : List Exception :=
  (exceptions f).filter (fun e => chunkAt f e.newChunk ≠ (origin e.oldChunk).bytes)

/-- A store as compaction over `origin` leaves it, `kept` the entries it keeps. -/
structure Canonical (c : Carapace) (origin : Nat → Block) (kept : List Exception) (out : Bytes) :
    Prop where
  length : out.length = (2 + kept.length + kept.length / 256) * 4096
  accepted : SnapshotExtent.read c out out.length = .ok ⟨out.length⟩
  entries : exceptions out = kept.mapIdx (fun k e => ⟨e.oldChunk, 2 + k + k / 256⟩)
  unused : ∀ area ≤ kept.length / 256, ∀ slot < 256, kept.length ≤ area * 256 + slot →
    recordAt out (area * 256 + slot) = Bytes.zeros 16
  differ : ∀ e ∈ exceptions out, chunkAt out e.newChunk ≠ (origin e.oldChunk).bytes

theorem keptChunks_eq (f : Bytes) (origin : Nat → Block) :
    keptChunks f origin = (keptExceptions f origin).map
      (fun e => ⟨e.oldChunk, chunkAt f e.newChunk⟩) := by
  rw [keptChunks, savedChunks, List.filter_map, keptExceptions]
  congr 2
  funext e
  simp [Saved.differs, bne, beq_eq_decide]

/-- **What compaction emits is canonical.** -/
theorem compacted_canonical {c : Carapace} {f : File} {extent : SnapshotExtent} {n : Nat}
    (h : Accepted c f.bytes extent n) (origin : Nat → Block) :
    Canonical c origin (keptExceptions f.bytes origin) (compacted f.bytes origin) := by
  obtain ⟨hw, hold, hn⟩ := emitted_bounds h f.fits origin
  have hcount : (keptChunks f.bytes origin).length = (keptExceptions f.bytes origin).length := by
    rw [keptChunks_eq, List.length_map]
  have hlength := compacted_length h f.fits origin
  have haccept := compacted_accepted h f.fits origin
  have hbound := packedChunks_lt h f.fits origin
  have hentry : ∀ j (hj : j < (keptChunks f.bytes origin).length),
      exceptionAt (compacted f.bytes origin) j = ⟨(keptChunks f.bytes origin)[j].old,
          dataChunk j⟩ :=
    fun j hj => render_exception (header_length h) hw hj (hold _ (List.getElem_mem hj)) hn
  refine ⟨by rw [hlength, hcount, packedChunks], ?_, ?_, ?_, ?_⟩
  · rw [accepted_iff (by rw [hlength]; exact hbound)]
    refine ⟨?_, ?_, _, haccept⟩
    · rw [hlength, packedChunks]
      omega
    · rw [hlength, Nat.mul_mod_left]
  · rw [exceptions_eq haccept.table]
    apply List.ext_getElem (by simp [hcount])
    intro j h1 h2
    have hj : j < (keptChunks f.bytes origin).length := by simpa using h1
    rw [List.getElem_map, List.getElem_range, hentry j hj, List.getElem_mapIdx]
    simp only [keptChunks_eq, List.getElem_map, dataChunk]
  · intro area harea slot hslot hfree
    rw [← hcount] at harea hfree
    rw [compacted, render_record (header_length h) hw (by omega), dif_neg (by omega)]
  · intro e he
    have hmem : (⟨e.oldChunk, chunkAt (compacted f.bytes origin) e.newChunk⟩ : Saved) ∈
        savedChunks (compacted f.bytes origin) := List.mem_map.mpr ⟨e, he, rfl⟩
    rw [compacted_savedChunks h f.fits] at hmem
    have hdiff := (List.mem_filter.mp hmem).2
    simpa [Saved.differs] using hdiff

/-- **Compaction output is canonical**, however its consumer slices the reads, and
    compacting it again over the same origin gives it back. -/
theorem compaction_canonical {c : Carapace} {f : File} {extent : SnapshotExtent}
    (origin : Nat → Block) (h : SnapshotExtent.read c f.bytes f.bytes.length = .ok extent) :
    ∃ s out, new (f.truncate extent.bytes) (chunkOrigin origin) = .ok s ∧
      out.length = s.sizeBytes ∧
      (∀ widths, ∃ bytes s', s.reads widths = .ok (bytes, s') ∧ bytes <+: out ∧
        (out.length ≤ widths.countP (0 < ·) → bytes = out)) ∧
      (∀ bytes, s.Emits bytes ↔ bytes = out) ∧
      Canonical c origin (keptExceptions f.bytes origin) out ∧
      ∀ g : File, g.bytes = out → ∃ t, new (g.truncate out.length) (chunkOrigin origin) = .ok t ∧
        ∀ bytes, t.Emits bytes ↔ bytes = out := by
  obtain ⟨-, -, n, ha⟩ := (accepted_iff (Nat.lt_trans f.fits (by decide))).mp h
  obtain ⟨s, G, recs, hnew, hs, hpend, hsize⟩ := compact_spec ha origin
  obtain ⟨hreads, hemits, hall⟩ := streaming_reads hs hpend
  refine ⟨s, compacted f.bytes origin, hnew, ?_, hreads, ?_, compacted_canonical ha origin, ?_⟩
  · rw [hsize, compacted_length ha f.fits]
  · exact fun bytes => ⟨hall bytes, fun hb => hb ▸ hemits⟩
  · intro g hg
    have hagain := compacted_accepted ha f.fits origin
    rw [← hg] at hagain
    obtain ⟨t, G', recs', hnew', ht, hpend', -⟩ := compact_spec hagain origin
    rw [hg, compacted_compacted ha f.fits] at hpend'
    obtain ⟨-, hemits', hall'⟩ := streaming_reads ht hpend'
    rw [hg] at hnew'
    exact ⟨t, hnew', fun bytes => ⟨hall' bytes, fun hb => hb ▸ hemits'⟩⟩

/-! A store of one exception, to run the results on. -/

/-- A carapace of 16 chunks. -/
def smallCarapace : Carapace := ⟨128, by decide⟩

def zeroBlock : Block := ⟨Bytes.zeros 4096, Bytes.zeros_length _⟩

def sampleHeader : Bytes := Header.encode ⟨true, 4096⟩ ++ Bytes.zeros 4080

/-- The second chunk is as a zero origin has it. -/
def sampleSaved : List Saved :=
  [⟨9, List.replicate 4096 1⟩, ⟨5, List.replicate 4096 0⟩, ⟨7, List.replicate 4096 2⟩]

theorem sampleHeader_length : sampleHeader.length = 4096 := by
  rw [sampleHeader, List.length_append, Header.encode_length, Bytes.zeros_length]

theorem sampleSaved_placed :
    ∀ s ∈ sampleSaved, s.data.length = 4096 ∧ s.old < smallCarapace.zeroSizeBytes / 4096 := by
  intro s hs
  rw [sampleSaved, List.mem_cons, List.mem_cons, List.mem_singleton] at hs
  obtain rfl | rfl | rfl := hs
  · exact ⟨List.length_replicate, by decide⟩
  · exact ⟨List.length_replicate, by decide⟩
  · exact ⟨List.length_replicate, by decide⟩

def sampleStore : File where
  bytes := render sampleHeader sampleSaved
  fits := by
    rw [render_length sampleHeader_length (fun s hs => (sampleSaved_placed s hs).1)]
    decide

theorem sampleStore_accepted :
    SnapshotExtent.read smallCarapace sampleStore.bytes sampleStore.bytes.length =
      .ok ⟨sampleStore.bytes.length⟩ := by
  have hw : ∀ s ∈ sampleSaved, s.data.length = 4096 := fun s hs => (sampleSaved_placed s hs).1
  have hlen : sampleStore.bytes.length = 20480 := render_length sampleHeader_length hw
  have hvalid : ValidHeader sampleStore.bytes := by
    have hhead := congrArg (List.take 16) (render_header sampleHeader_length hw)
    rw [List.take_take, sampleHeader, List.take_left' (Header.encode_length _)] at hhead
    exact ⟨⟨true, 4096⟩, hhead ▸ Header.decode_encode (by decide) (by decide), rfl, rfl⟩
  rw [accepted_iff (Nat.lt_trans sampleStore.fits (by decide))]
  exact ⟨by omega, by omega, _, render_accepted hvalid sampleHeader_length sampleSaved_placed (by decide)⟩

theorem sampleStore_distinct : ((exceptions sampleStore.bytes).map Exception.oldChunk).Nodup := by
  have hw : ∀ s ∈ sampleSaved, s.data.length = 4096 := fun s hs => (sampleSaved_placed s hs).1
  have hsaved : savedChunks sampleStore.bytes = sampleSaved :=
    savedChunks_render sampleHeader_length hw (by decide) (by decide)
  have hold := congrArg (List.map Saved.old) hsaved
  rw [savedChunks, List.map_map] at hold
  change (exceptions sampleStore.bytes).map Exception.oldChunk = [9, 5, 7] at hold
  rw [hold]
  decide

theorem compaction_preserves_device_sample :
    ∃ s, new (sampleStore.truncate sampleStore.bytes.length)
      (chunkOrigin fun _ => zeroBlock) = .ok s ∧
      (∃ out, s.Emits out) ∧ ∀ out, s.Emits out → ∀ chunk,
        device (savedChunks out) (fun _ => zeroBlock) chunk =
          device (savedChunks sampleStore.bytes) (fun _ => zeroBlock) chunk :=
  compaction_preserves_device (fun _ => zeroBlock) sampleStore_accepted sampleStore_distinct

theorem compaction_canonical_sample :
    ∃ s out, new (sampleStore.truncate sampleStore.bytes.length)
      (chunkOrigin fun _ => zeroBlock) = .ok s ∧ out.length = s.sizeBytes ∧
      (∀ widths, ∃ bytes s', s.reads widths = .ok (bytes, s') ∧ bytes <+: out ∧
        (out.length ≤ widths.countP (0 < ·) → bytes = out)) ∧
      (∀ bytes, s.Emits bytes ↔ bytes = out) ∧
      Canonical smallCarapace (fun _ => zeroBlock)
        (keptExceptions sampleStore.bytes fun _ => zeroBlock) out ∧
      ∀ g : File, g.bytes = out → ∃ t,
        new (g.truncate out.length) (chunkOrigin fun _ => zeroBlock) = .ok t ∧
        ∀ bytes, t.Emits bytes ↔ bytes = out :=
  compaction_canonical (fun _ => zeroBlock) sampleStore_accepted

end CompactSnapshot

end Conglobate.Storage
