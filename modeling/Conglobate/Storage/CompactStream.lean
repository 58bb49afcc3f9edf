import Conglobate.Storage.CompactPlan
import Mathlib.Data.List.GetD

/- What reading a packed store's stream returns.

   `Planned` leaves the surviving records in the file's metadata areas, still
   naming the data where it was. `savedOf G recs` is what those records save.
   `nextChunk` turns the file's next chunk into chunk `next` of the store
   rendered from that list (`nextChunk_spec`), and a read of any width takes
   bytes off the front of what is left (`read_spec`), so a sequence of reads
   returns a prefix of the rendered store, and all of it once a read comes back
   empty (`reads_spec`). -/
namespace Conglobate.Storage

set_option maxRecDepth 4000

/-- A metadata area is its records laid end to end. -/
theorem records_flatten {b : Bytes} (h : b.length = 4096) : (records b).flatten = b := by
  rw [records, Bytes.blocks_flatten, List.take_of_length_le (by omega)]

/-- What table records save: their old chunks, the data where they name it. -/
def savedOf (G : Bytes) (recs : List Bytes) : List Saved :=
  recs.map (fun r => ⟨(Exception.decode r).oldChunk, chunkAt G (Exception.decode r).newChunk⟩)

@[simp] theorem savedOf_length (G : Bytes) (recs : List Bytes) :
    (savedOf G recs).length = recs.length := by
  simp [savedOf]

theorem segment_length (recs : List Bytes) (k : Nat) :
    (segment recs k).length = min (recs.length - k * 256) 256 := by
  rw [segment, List.length_take, List.length_drop]
  omega

theorem segment_getElem {recs : List Bytes} {k slot : Nat} (hs : slot < (segment recs k).length) :
    ∃ h : k * 256 + slot < recs.length, (segment recs k)[slot] = recs[k * 256 + slot] := by
  have hlt : slot < 256 := Nat.lt_of_lt_of_le hs (segment_length_le _ _)
  have hget : (segment recs k)[slot]? = _ := segment_getElem? hlt
  rw [List.getElem?_eq_getElem hs, eq_comm, List.getElem?_eq_some_iff] at hget
  obtain ⟨h, heq⟩ := hget
  exact ⟨h, heq.symm⟩

theorem packedRecords_getElem {saved : List Saved} {m : Nat}
    (h : m < (packedRecords saved).length) :
    (packedRecords saved)[m] =
      Exception.encode ⟨(saved.get ⟨m, by rwa [packedRecords_length] at h⟩).old, dataChunk m⟩ := by
  simp [packedRecords]

namespace CompactSnapshot

/-- **Renumbering an area of the file gives the area of the rendered store.** -/
theorem renumber_area {G : Bytes} {recs : List Bytes} (hw : ∀ r ∈ recs, r.length = 16) (k : Nat) :
    renumber (areaChunk k) (min (recs.length - k * 256) 256) (areaBytes (segment recs k)) =
      areaBytes (segment (packedRecords (savedOf G recs)) k) := by
  have hpacked : (segment (packedRecords (savedOf G recs)) k).length =
      min (recs.length - k * 256) 256 := by
    rw [segment_length, packedRecords_length, savedOf_length]
  have hout := areaBytes_length (segment_width (packedRecords_width (savedOf G recs)) k)
    (segment_length_le _ k)
  rw [← records_flatten hout, renumber]
  refine congrArg List.flatten (List.ext_getElem (by simp) ?_)
  intro slot h1 h2
  rw [records_length] at h2
  rw [List.getElem_mapIdx, records_getElem, records_getElem,
    areaBytes_record (segment_width hw _) h2, areaBytes_record (segment_width
      (packedRecords_width _) _) h2]
  by_cases hlive : slot < min (recs.length - k * 256) 256
  · -- a live slot: the record's data moves to its packed place
    have hlive' : slot < (segment (packedRecords (savedOf G recs)) k).length := by rwa [hpacked]
    rw [if_pos hlive]
    rw [← segment_length] at hlive
    obtain ⟨hin, hrec⟩ := segment_getElem hlive
    obtain ⟨hin', hrec'⟩ := segment_getElem hlive'
    have hchunk : areaChunk k + 1 + slot = dataChunk (k * 256 + slot) := by
      unfold areaChunk dataChunk
      omega
    rw [dif_pos hlive, dif_pos hlive', hrec, hrec', packedRecords_getElem, hchunk]
    simp [savedOf]
  · rw [if_neg hlive, dif_neg (by rwa [segment_length]), dif_neg (by rwa [hpacked])]

theorem originals_getD {recs : List Bytes} (hw : ∀ r ∈ recs, r.length = 16) {k slot : Nat}
    (sourceChunks : List Nat) (h : k * 256 + slot < recs.length) (hs : slot < 256) :
    (originals (min (recs.length - k * 256) 256) (areaBytes
      (segment recs k)) sourceChunks).getD slot 0 =
      (Exception.decode recs[k * 256 + slot]).newChunk := by
  have hlive : slot < (segment recs k).length := by rw [segment_length]; omega
  obtain ⟨_, hrec⟩ := segment_getElem hlive
  rw [originals, List.getD_eq_getElem _ _ (by simpa using hs), List.getElem_mapIdx,
    if_pos (by omega),
    records_getElem, areaBytes_record (segment_width hw _) hs, dif_pos hlive, hrec]

/-! The stream's invariant. -/

/-- What the stream reads: the packed records, and the data where they name it. -/
structure Source (G : Bytes) (recs : List Bytes) (source : File) : Prop where
  planned : Planned G recs source
  width : ∀ r ∈ recs, r.length = 16
  head : 4096 ≤ G.length
  data : ∀ r ∈ recs, 2 ≤ (Exception.decode r).newChunk ∧
    ((Exception.decode r).newChunk - 1) % 257 ≠ 0 ∧
    ((Exception.decode r).newChunk + 1) * 4096 ≤ G.length

/-- The store the stream emits. -/
def emitted (G : Bytes) (recs : List Bytes) : Bytes := render (chunkAt G 0) (savedOf G recs)

/-- Chunk `i` of it. -/
def emittedChunk (G : Bytes) (recs : List Bytes) (i : Nat) : Bytes :=
  renderChunk (chunkAt G 0) (savedOf G recs) i

/-- The stream between two reads: inside an area, it knows where the area's data is. -/
structure Streaming (G : Bytes) (recs : List Bytes) (s : CompactSnapshot) : Prop where
  source : Source G recs s.source
  kept : s.kept = recs.length
  chunks : s.chunks = packedChunks recs.length
  next : s.next ≤ s.chunks
  buffer : s.buffer.length = 4096
  position : s.position ≤ 4096
  located : ∀ slot < 256, ∀ h : (s.next - 2) / 257 * 256 + slot < recs.length, 2 ≤ s.next →
    s.sourceChunks.getD slot 0 = (Exception.decode recs[(s.next - 2) / 257 * 256 + slot]).newChunk

/-- The bytes still to be returned. -/
def pending (G : Bytes) (recs : List Bytes) (s : CompactSnapshot) : Bytes :=
  s.buffer.drop s.position ++
    ((List.range' s.next (s.chunks - s.next)).map (emittedChunk G recs)).flatten

theorem Source.head_readAt {G : Bytes} {recs : List Bytes} {source : File}
    (h : Source G recs source) :
    source.bytes.readAt 0 4096 = some (chunkAt G 0) := by
  have hframe := h.planned.read_frame 0 (fun k _ => by unfold areaChunk; omega) (by
    have := h.head
    omega)
  rw [Nat.zero_mul] at hframe
  rw [hframe, Bytes.readAt_of_le (by have := h.head; omega), chunkAt, Nat.zero_mul]

theorem Source.data_readAt {G : Bytes} {recs : List Bytes} {source : File}
    (h : Source G recs source) {r : Bytes} (hr : r ∈ recs) :
    source.bytes.readAt ((Exception.decode r).newChunk * 4096) 4096 =
      some (chunkAt G (Exception.decode r).newChunk) := by
  obtain ⟨hl, hd, hin⟩ := h.data r hr
  rw [h.planned.read_frame _ (fun k _ => data_ne_area hl hd) hin]
  exact chunkAt_readAt hin

theorem savedOf_data_length {G : Bytes} {recs : List Bytes} {source : File}
    (h : Source G recs source) :
    ∀ s ∈ savedOf G recs, s.data.length = 4096 := by
  intro s hs
  obtain ⟨r, hr, rfl⟩ := List.mem_map.mp hs
  exact chunkAt_length (h.data r hr).2.2

theorem emittedChunk_length {G : Bytes} {recs : List Bytes} {source : File}
    (h : Source G recs source) (i : Nat) : (emittedChunk G recs i).length = 4096 :=
  renderChunk_length (chunkAt_length (by have := h.head; omega)) (savedOf_data_length h) i

/-- **The next chunk of the stream is the next chunk of the rendered store.** -/
theorem nextChunk_spec {G : Bytes} {recs : List Bytes} {s : CompactSnapshot}
    (h : Streaming G recs s) (hn : s.next < s.chunks) :
    ∃ s', s.nextChunk = .ok s' ∧ Streaming G recs s' ∧ s'.next = s.next + 1 ∧ s'.position = 0 ∧
      s'.buffer = emittedChunk G recs s.next := by
  have hchunks := h.chunks
  unfold packedChunks at hchunks
  rw [nextChunk]
  split
  · -- the header
    rename_i h0
    rw [File.readExactAt, Bytes.readExactAt_eq_ok.mpr h.source.head_readAt, except_ok_bind]
    refine ⟨_, rfl, ⟨h.source, h.kept, h.chunks, hn, ?_, Nat.zero_le _, ?_⟩, rfl, rfl, ?_⟩
    · exact chunkAt_length (by have := h.source.head; omega)
    · intro slot _ _ h2
      simp only at h2
      omega
    · rw [h0, emittedChunk, renderChunk, if_pos rfl]
  · rename_i hpos
    split
    · -- a metadata area: its records are renumbered, their data located
      rename_i harea
      obtain ⟨k, hk⟩ : ∃ k, s.next = areaChunk k := ⟨(s.next - 1) / 257, by unfold areaChunk; omega⟩
      have hidx : (s.next - 1) / 257 = k := by rw [hk]; unfold areaChunk; omega
      have hread := h.source.planned.packed k (by unfold areaChunk at hk; omega)
      rw [← hk] at hread
      rw [File.readExactAt, Bytes.readExactAt_eq_ok.mpr hread, except_ok_bind, hidx, h.kept]
      have hbuf : renumber s.next (min (recs.length - k * 256) 256) (areaBytes (segment recs k)) =
          emittedChunk G recs s.next := by
        rw [hk, emittedChunk, renderChunk_area]
        exact renumber_area h.source.width k
      refine ⟨_, rfl, ⟨h.source, rfl, h.chunks, hn, ?_, Nat.zero_le _, ?_⟩, rfl, rfl, ?_⟩
      · dsimp only
        rw [hbuf]
        exact emittedChunk_length h.source _
      · intro slot hs hin _
        have hcur : (s.next + 1 - 2) / 257 = k := by omega
        simp only [hcur] at hin ⊢
        exact originals_getD h.source.width _ hin hs
      · dsimp only
        exact hbuf
    · -- a data chunk, where its record said it was
      rename_i hdata
      have hcur : (s.next + 1 - 2) / 257 = (s.next - 2) / 257 := by omega
      have hin : (s.next - 2) / 257 * 256 + (s.next - 2) % 257 < recs.length := by omega
      have hloc := h.located ((s.next - 2) % 257) (by omega) hin (by omega)
      have hread := h.source.data_readAt (List.getElem_mem hin)
      rw [hloc, File.readExactAt, Bytes.readExactAt_eq_ok.mpr hread, except_ok_bind]
      refine ⟨_, rfl, ⟨h.source, h.kept, h.chunks, hn, ?_, Nat.zero_le _, ?_⟩, rfl, rfl, ?_⟩
      · exact Bytes.readAt_length hread
      · intro slot hs hin' _
        simp only [hcur] at hin' ⊢
        exact h.located slot hs hin' (by omega)
      · have hsaved : (savedOf G recs)[(s.next - 1) / 257 * 256 + (s.next - 2) % 257]? =
            some ⟨(Exception.decode recs[(s.next - 2) / 257 * 256 + (s.next - 2) % 257]).oldChunk,
              chunkAt G (Exception.decode recs[(s.next - 2) / 257 * 256 +
                  (s.next - 2) % 257]).newChunk⟩ := by
          have hsame : (s.next - 1) / 257 = (s.next - 2) / 257 := by omega
          rw [hsame, savedOf, List.getElem?_map, List.getElem?_eq_getElem hin]
          rfl
        rw [emittedChunk, renderChunk, if_neg hpos, if_neg hdata, hsaved]

/-- Loading the next chunk moves it from what is to come into the buffer. -/
theorem nextChunk_pending {G : Bytes} {recs : List Bytes} {s s' : CompactSnapshot}
    (hn : s.next < s.chunks) (hp : s.position = s.buffer.length) (hnext : s'.next = s.next + 1)
    (hpos : s'.position = 0) (hbuf : s'.buffer = emittedChunk G recs s.next)
    (hc : s'.chunks = s.chunks) :
    pending G recs s' = pending G recs s := by
  obtain ⟨m, hm⟩ : ∃ m, s.chunks - s.next = m + 1 := ⟨s.chunks - s.next - 1, by omega⟩
  have hm' : s.chunks - (s.next + 1) = m := by omega
  rw [pending, pending, hpos, hbuf, hnext, hc, hm, hm', List.drop_zero, hp, List.drop_length,
    List.nil_append, List.range'_succ, List.map_cons, List.flatten_cons]

/-- Copying out of the buffer takes bytes off the front of what is left. -/
theorem copyOut_spec {G : Bytes} {recs : List Bytes} {s : CompactSnapshot} (h : Streaming G recs s)
    {width : Nat} (hw : 0 < width) (hopen : s.position < 4096) :
    Streaming G recs (s.copyOut width).2 ∧
      pending G recs s = (s.copyOut width).1 ++ pending G recs (s.copyOut width).2 ∧
      (s.copyOut width).1.length ≤ width ∧ (s.copyOut width).1 ≠ [] := by
  have hb := h.buffer
  refine ⟨⟨h.source, h.kept, h.chunks, h.next, h.buffer, ?_, h.located⟩, ?_, ?_, ?_⟩
  · simp only [copyOut]
    omega
  · simp only [copyOut, pending]
    rw [← List.append_assoc, ← List.drop_drop, List.take_append_drop]
  · simp only [copyOut, List.length_take]
    omega
  · intro hnil
    have := congrArg List.length hnil
    simp only [copyOut, List.length_take, List.length_drop, List.length_nil] at this
    omega

/-- **One read**, of any width: it returns the front of what is left, and nothing
    only when it asks for nothing or nothing is left. -/
theorem read_spec {G : Bytes} {recs : List Bytes} {s : CompactSnapshot} (h : Streaming G recs s)
    (width : Nat) :
    ∃ bytes s', s.read width = .ok (bytes, s') ∧ Streaming G recs s' ∧
      pending G recs s = bytes ++ pending G recs s' ∧ bytes.length ≤ width ∧
      (bytes = [] → width = 0 ∨ pending G recs s = []) := by
  unfold read
  split
  · exact ⟨[], s, rfl, h, rfl, Nat.zero_le _, fun _ => .inl ‹_›⟩
  · rename_i hw
    split
    · rename_i hempty
      split
      · rename_i hend
        refine ⟨[], s, rfl, h, rfl, Nat.zero_le _, fun _ => .inr ?_⟩
        rw [pending, hempty, List.drop_length, hend, Nat.sub_self]
        rfl
      · rename_i hmore
        have hn : s.next < s.chunks := Nat.lt_of_le_of_ne h.next hmore
        obtain ⟨t, hload, ht, hnext, hpos, hbuf⟩ := nextChunk_spec h hn
        obtain ⟨hs', hpend, hle, hne⟩ := copyOut_spec ht (Nat.pos_of_ne_zero hw) (by omega)
        have hsame := nextChunk_pending hn hempty hnext hpos hbuf (ht.chunks.trans h.chunks.symm)
        rw [hload, except_ok_bind]
        exact ⟨_, _, rfl, hs', hsame.symm.trans hpend, hle, fun hnil => absurd hnil hne⟩
    · rename_i hopen
      have hlt : s.position < 4096 := by
        have := h.position
        rw [h.buffer] at hopen
        omega
      obtain ⟨hs', hpend, hle, hne⟩ := copyOut_spec h (Nat.pos_of_ne_zero hw) hlt
      exact ⟨_, _, rfl, hs', hpend, hle, fun hnil => absurd hnil hne⟩

/-- **A run of reads** of any widths returns the front of what is left, at least a
    byte for every read that asks for one while there is one. -/
theorem reads_spec {G : Bytes} {recs : List Bytes} {s : CompactSnapshot} (h : Streaming G recs s)
    (widths : List Nat) :
    ∃ bytes s', s.reads widths = .ok (bytes, s') ∧ Streaming G recs s' ∧
      pending G recs s = bytes ++ pending G recs s' ∧
      (pending G recs s' = [] ∨ widths.countP (0 < ·) ≤ bytes.length) := by
  induction widths generalizing s with
  | nil => exact ⟨[], s, rfl, h, rfl, .inr (by simp)⟩
  | cons width widths ih =>
    obtain ⟨bytes, t, hread, ht, hpend, -, hnil⟩ := read_spec h width
    obtain ⟨rest, u, hreads, hu, hpend', hcount⟩ := ih ht
    refine ⟨bytes ++ rest, u, ?_, hu, by rw [hpend, hpend', List.append_assoc], ?_⟩
    · rw [reads, hread, except_ok_bind]
      simp only [hreads, except_ok_bind]
    · rcases hcount with hdone | hcount
      · exact .inl hdone
      · by_cases hb : bytes = []
        · rcases hnil hb with h0 | hend
          · right
            rw [hb, h0, List.nil_append]
            simpa using hcount
          · left
            rw [hend, eq_comm, List.append_eq_nil_iff, hpend', List.append_eq_nil_iff] at hpend
            exact hpend.2.2
        · right
          have hpos : 0 < bytes.length := List.length_pos_iff.mpr hb
          rw [List.length_append, List.countP_cons]
          split <;> omega

/-- A fresh stream has the whole rendered store left. -/
theorem planned_streaming {G : Bytes} {recs : List Bytes} {source : File}
    (h : Source G recs source) :
    Streaming G recs (planned source recs.length) ∧
      pending G recs (planned source recs.length) = emitted G recs := by
  refine ⟨⟨h, rfl, rfl, Nat.zero_le _, Bytes.zeros_length _, Nat.le_refl _, ?_⟩, ?_⟩
  · intro slot _ _ h2
    simp only [planned] at h2
    omega
  · rw [pending, emitted, render, savedOf_length]
    simp only [planned]
    rw [List.drop_eq_nil_of_le (by rw [Bytes.zeros_length]), List.nil_append, Nat.sub_zero,
      List.range_eq_range', packedChunks]
    rfl

end CompactSnapshot

end Conglobate.Storage
