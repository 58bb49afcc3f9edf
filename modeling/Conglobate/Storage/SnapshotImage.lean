import Conglobate.Storage.SnapshotExtent

/- What a snapshot store means, and the packed store that means it.

   A store over an origin presents a device: chunk `c` is the data of the
   exception whose old chunk is `c`, or the origin's chunk. `savedChunks` is the
   list of old chunks and data a store holds, `device` the device such a list
   presents, and `render` the store that holds a list packed: chunk `2 + k + k/256`
   for the `k`-th data, metadata areas renumbered to match. `render_table` and
   `savedChunks_render` say a packed store holds exactly the list it was rendered
   from, `device_filter` that dropping chunks equal to the origin's presents the
   same device. -/
namespace Conglobate.Storage

/-- A 4096-byte block. -/
structure Block where
  bytes : Bytes
  length_eq : bytes.length = 4096

/-- Chunk `i` of a store. -/
def chunkAt (f : Bytes) (i : Nat) : Bytes := (f.drop (i * 4096)).take 4096

theorem chunkAt_readAt {f : Bytes} {i : Nat} (h : (i + 1) * 4096 ≤ f.length) :
    f.readAt (i * 4096) 4096 = some (chunkAt f i) :=
  Bytes.readAt_of_le (by omega)

theorem chunkAt_length {f : Bytes} {i : Nat} (h : (i + 1) * 4096 ≤ f.length) :
    (chunkAt f i).length = 4096 :=
  Bytes.readAt_length (chunkAt_readAt h)

/-- The live entries of a store's table. -/
def exceptions (f : Bytes) : List Exception :=
  ((List.range (f.length / 16)).map (exceptionAt f)).takeWhile (fun e => e.newChunk ≠ 0)

/-- An old chunk and the data a store holds for it. -/
structure Saved where
  old : Nat
  data : Bytes
  deriving DecidableEq, Repr

/-- What a store holds, in table order. -/
def savedChunks (f : Bytes) : List Saved :=
  (exceptions f).map (fun e => ⟨e.oldChunk, chunkAt f e.newChunk⟩)

/-- The device a list of saved chunks presents over an origin. -/
def device (saved : List Saved) (origin : Nat → Block) (c : Nat) : Bytes :=
  match saved.find? (fun s => s.old == c) with
  | some s => s.data
  | none => (origin c).bytes

/-- Whether a saved chunk differs from the origin's. -/
def Saved.differs (origin : Nat → Block) (s : Saved) : Bool := s.data != (origin s.old).bytes

/-- **Chunks equal to the origin's are not needed.** With distinct old chunks,
    dropping them presents the same device. -/
theorem device_filter {saved : List Saved} (origin : Nat → Block)
    (hd : (saved.map Saved.old).Nodup) (c : Nat) :
    device (saved.filter (Saved.differs origin)) origin c = device saved origin c := by
  induction saved with
  | nil => rfl
  | cons s rest ih =>
    rw [List.map_cons, List.nodup_cons] at hd
    have ih := ih hd.2
    unfold device at ih ⊢
    by_cases hc : s.old = c
    · subst hc
      have hnone : rest.find? (fun x => x.old == s.old) = none := by
        rw [List.find?_eq_none]
        intro x hx heq
        exact hd.1 (List.mem_map.mpr ⟨x, hx, by simpa using heq⟩)
      rw [hnone] at ih
      cases hdiff : s.differs origin with
      | true => simp [hdiff]
      | false =>
        have hdata : s.data = (origin s.old).bytes := by simpa [Saved.differs] using hdiff
        rw [List.filter_cons, hdiff, if_neg (by simp), ih, List.find?_cons_of_pos (by simp)]
        exact hdata.symm
    · cases hdiff : s.differs origin with
      | true =>
        rw [List.filter_cons, hdiff, if_pos rfl, List.find?_cons_of_neg (by simpa using hc),
          List.find?_cons_of_neg (by simpa using hc)]
        exact ih
      | false =>
        rw [List.filter_cons, hdiff, if_neg (by simp), List.find?_cons_of_neg (by simpa using hc)]
        exact ih

/-! Tables and what they hold. -/

theorem Table.lt_records {f : Bytes} {n : Nat} (h : Table f n) : n < f.length / 16 := by
  have := h.inside
  unfold areaChunk at this
  omega

theorem exceptions_eq {f : Bytes} {n : Nat} (h : Table f n) :
    exceptions f = (List.range n).map (exceptionAt f) := by
  obtain ⟨m, hm⟩ : ∃ m, f.length / 16 = n + (m + 1) :=
    ⟨f.length / 16 - n - 1, by have := h.lt_records; omega⟩
  have hsplit : (List.range (f.length / 16)).map (exceptionAt f) =
      (List.range n).map (exceptionAt f) ++
        exceptionAt f n :: ((List.range m).map (fun i => exceptionAt f (n + (i + 1)))) := by
    rw [hm, List.range_add, List.map_append, List.range_succ_eq_map]
    simp [Function.comp_def]
  rw [exceptions, hsplit, List.takeWhile_append_of_pos, List.takeWhile_cons_of_neg, List.append_nil]
  · simpa using h.ended
  · intro e he
    obtain ⟨j, hj, rfl⟩ := List.mem_map.mp he
    simpa using h.live j (List.mem_range.mp hj)

theorem savedChunks_eq {f : Bytes} {n : Nat} (h : Table f n) :
    savedChunks f = (List.range n).map
      (fun j => ⟨(exceptionAt f j).oldChunk, chunkAt f (exceptionAt f j).newChunk⟩) := by
  rw [savedChunks, exceptions_eq h, List.map_map]
  rfl

/-! Metadata areas. -/

/-- A metadata area holding `recs`, the rest of it zero. -/
def areaBytes (recs : List Bytes) : Bytes := recs.flatten ++ Bytes.zeros (4096 - recs.length * 16)

/-- The records area `k` holds. -/
def segment (recs : List Bytes) (k : Nat) : List Bytes := (recs.drop (k * 256)).take 256

theorem mem_segment {recs : List Bytes} {k : Nat} {r : Bytes} (h : r ∈ segment recs k) : r ∈ recs :=
  List.mem_of_mem_drop (List.mem_of_mem_take h)

theorem segment_length_le (recs : List Bytes) (k : Nat) : (segment recs k).length ≤ 256 := by
  simp only [segment, List.length_take]
  omega

theorem areaBytes_length {recs : List Bytes} (hr : ∀ r ∈ recs, r.length = 16)
    (hl : recs.length ≤ 256) : (areaBytes recs).length = 4096 := by
  rw [areaBytes, List.length_append, Bytes.flatten_length hr, Bytes.zeros_length]
  omega

/-- The record in `slot` of an area: a live one, or zero. -/
theorem areaBytes_record {recs : List Bytes} (hr : ∀ r ∈ recs, r.length = 16) {slot : Nat}
    (hs : slot < 256) : ((areaBytes recs).drop (slot * 16)).take 16 =
      if h : slot < recs.length then recs[slot] else Bytes.zeros 16 := by
  have hlen := Bytes.flatten_length hr
  split
  · rename_i h
    have hread := Bytes.readAt_flatten hr h
    rw [← Bytes.readAt_append_left (Bytes.zeros (4096 - recs.length * 16)) (by omega)] at hread
    exact (Bytes.readAt_eq_some.mp hread).2.symm
  · rename_i h
    rw [areaBytes, List.drop_append, List.drop_eq_nil_of_le (by omega), List.nil_append,
      Bytes.zeros, List.drop_replicate, List.take_replicate, Bytes.zeros]
    congr 1
    omega

/-! The packed store. -/

/-- The records of a packed store: data in order, no chunk skipped. -/
def packedRecords (saved : List Saved) : List Bytes :=
  saved.mapIdx (fun m s => Exception.encode ⟨s.old, dataChunk m⟩)

/-- The number of chunks of a packed store of `n` exceptions. -/
def packedChunks (n : Nat) : Nat := 2 + n + n / 256

/-- Chunk `i` of the packed store. -/
def renderChunk (header : Bytes) (saved : List Saved) (i : Nat) : Bytes :=
  if i = 0 then header
  else if (i - 1) % 257 = 0 then areaBytes (segment (packedRecords saved) ((i - 1) / 257))
  else match saved[(i - 1) / 257 * 256 + (i - 2) % 257]? with
    | some s => s.data
    | none => Bytes.zeros 4096

/-- The packed store holding `saved` under `header`. -/
def render (header : Bytes) (saved : List Saved) : Bytes :=
  ((List.range (packedChunks saved.length)).map (renderChunk header saved)).flatten

@[simp] theorem packedRecords_length (saved : List Saved) :
    (packedRecords saved).length = saved.length := by
  simp [packedRecords]

theorem packedRecords_width (saved : List Saved) : ∀ r ∈ packedRecords saved, r.length = 16 := by
  intro r hr
  obtain ⟨m, hm, rfl⟩ := List.mem_mapIdx.mp hr
  exact Exception.encode_length _

theorem segment_width {recs : List Bytes} (hr : ∀ r ∈ recs, r.length = 16) (k : Nat) :
    ∀ r ∈ segment recs k, r.length = 16 :=
  fun r h => hr r (mem_segment h)

theorem segment_getElem? {recs : List Bytes} {k slot : Nat} (hs : slot < 256) :
    (segment recs k)[slot]? = recs[k * 256 + slot]? := by
  rw [segment, List.getElem?_take_of_lt hs, List.getElem?_drop]

/-- The chunks of the data and of the metadata never meet. -/
theorem dataChunk_mod (m : Nat) : (dataChunk m - 1) % 257 ≠ 0 := by
  unfold dataChunk
  omega

theorem dataChunk_index (m : Nat) : (dataChunk m - 1) / 257 * 256 +
    (dataChunk m - 2) % 257 = m := by
  unfold dataChunk
  omega

section Packed
variable {header : Bytes} {saved : List Saved}
  (hh : header.length = 4096) (hw : ∀ s ∈ saved, s.data.length = 4096)

include hh hw in
theorem renderChunk_length (i : Nat) : (renderChunk header saved i).length = 4096 := by
  unfold renderChunk
  split
  · exact hh
  · split
    · exact areaBytes_length (segment_width (packedRecords_width _) _) (segment_length_le _ _)
    · split
      · rename_i s hs
        exact hw s (List.mem_of_getElem? hs)
      · exact Bytes.zeros_length _

include hh hw in
theorem render_length : (render header saved).length = packedChunks saved.length * 4096 := by
  rw [render, Bytes.flatten_length (w := 4096)]
  · simp
  · intro b hb
    obtain ⟨i, -, rfl⟩ := List.mem_map.mp hb
    exact renderChunk_length hh hw i

include hh hw in
theorem render_readAt {i : Nat} (hi : i < packedChunks saved.length) :
    (render header saved).readAt (i * 4096) 4096 = some (renderChunk header saved i) := by
  have h := Bytes.readAt_flatten (l := (List.range (packedChunks saved.length)).map
    (renderChunk header saved)) (w := 4096) (by
      intro b hb
      obtain ⟨i, -, rfl⟩ := List.mem_map.mp hb
      exact renderChunk_length hh hw i) (i := i) (by simpa using hi)
  rw [render, h, List.getElem_map, List.getElem_range]

include hh hw in
theorem render_chunkAt {i : Nat} (hi : i < packedChunks saved.length) :
    chunkAt (render header saved) i = renderChunk header saved i :=
  (Bytes.readAt_eq_some.mp (render_readAt hh hw hi)).2.symm

theorem renderChunk_area (k : Nat) :
    renderChunk header saved (areaChunk k) = areaBytes (segment (packedRecords saved) k) := by
  have hk : (areaChunk k - 1) / 257 = k := by unfold areaChunk; omega
  rw [renderChunk, if_neg (by unfold areaChunk; omega), if_pos (by unfold areaChunk; omega), hk]

theorem renderChunk_data {m : Nat} {s : Saved} (hs : saved[m]? = some s) :
    renderChunk header saved (dataChunk m) = s.data := by
  rw [renderChunk, if_neg (by unfold dataChunk; omega), if_neg (dataChunk_mod m),
    dataChunk_index, hs]

include hh hw in
/-- Record `j` of a packed store: an entry, or an unused slot of the last area. -/
theorem render_record {j : Nat} (hj : j / 256 ≤ saved.length / 256) :
    recordAt (render header saved) j =
      if h : j < saved.length then
        Exception.encode ⟨saved[j].old, dataChunk j⟩
      else
        Bytes.zeros 16 := by
  have hmod : j % 256 < 256 := Nat.mod_lt _ (by omega)
  have hchunk : areaChunk (j / 256) < packedChunks saved.length := by
    unfold areaChunk packedChunks
    omega
  have hread := render_readAt hh hw hchunk
  have hrec := record_of_area hread hmod
  have hidx : j / 256 * 256 + j % 256 = j := by omega
  rw [hidx, renderChunk_area, areaBytes_record (segment_width
    (packedRecords_width _) _) hmod] at hrec
  rw [← hrec]
  have hget : (segment (packedRecords saved) (j / 256))[j % 256]? = (packedRecords saved)[j]? := by
    rw [segment_getElem? hmod, hidx]
  by_cases h : j < saved.length
  · have hp : j < (packedRecords saved).length := by rwa [packedRecords_length]
    rw [List.getElem?_eq_getElem hp] at hget
    obtain ⟨hlt, hval⟩ := List.getElem?_eq_some_iff.mp hget
    rw [dif_pos hlt, dif_pos h, hval]
    simp [packedRecords]
  · have hnone : (packedRecords saved)[j]? = none := by
      rw [List.getElem?_eq_none_iff, packedRecords_length]
      omega
    rw [hnone, List.getElem?_eq_none_iff] at hget
    rw [dif_neg (by omega), dif_neg h]

include hh hw in
theorem render_exception {j : Nat} (hj : j < saved.length) (hold : saved[j].old < 256 ^ 8)
    (hn : packedChunks saved.length < 256 ^ 8) :
    exceptionAt (render header saved) j = ⟨saved[j].old, dataChunk j⟩ := by
  have hnew : dataChunk j < 256 ^ 8 := by
    unfold packedChunks at hn
    unfold dataChunk
    omega
  rw [exceptionAt, render_record hh hw (Nat.div_le_div_right (Nat.le_of_lt hj)), dif_pos hj]
  exact Exception.decode_encode hold hnew

include hh hw in
/-- **A packed store's table holds exactly its list.** -/
theorem render_table (hold : ∀ s ∈ saved, s.old < 256 ^ 8)
    (hn : packedChunks saved.length < 256 ^ 8) :
    Table (render header saved) saved.length := by
  refine ⟨?_, ?_, ?_⟩
  · rw [render_length hh hw]
    unfold areaChunk packedChunks
    omega
  · intro j hj
    rw [render_exception hh hw hj (hold _ (List.getElem_mem hj)) hn]
    simp only [dataChunk]
    omega
  · rw [exceptionAt, render_record hh hw (Nat.le_refl _), dif_neg (by omega)]
    exact Exception.decode_zeros

include hh hw in
theorem render_dataEnd (hold : ∀ s ∈ saved, s.old < 256 ^ 8)
    (hn : packedChunks saved.length < 256 ^ 8) {n : Nat} (hle : n ≤ saved.length) :
    dataEnd (render header saved) n = if n = 0 then 0 else dataChunk (n - 1) + 1 := by
  induction n with
  | zero => rfl
  | succ n ih =>
    rw [dataEnd, ih (by omega), render_exception hh hw (by omega) (hold _ (List.getElem_mem _)) hn]
    simp only [dataChunk, Nat.add_sub_cancel]
    split <;> split <;> omega

include hh hw in
/-- The extent of a packed store is the whole of it. -/
theorem render_tableEnd (hold : ∀ s ∈ saved, s.old < 256 ^ 8)
    (hn : packedChunks saved.length < 256 ^ 8) :
    tableEnd (render header saved) saved.length = packedChunks saved.length := by
  rw [tableEnd, render_dataEnd hh hw hold hn (Nat.le_refl _)]
  unfold areaChunk dataChunk packedChunks
  split <;> omega

include hh hw in
/-- **Reading a packed store back gives the list it was rendered from.** -/
theorem savedChunks_render (hold : ∀ s ∈ saved, s.old < 256 ^ 8)
    (hn : packedChunks saved.length < 256 ^ 8) :
    savedChunks (render header saved) = saved := by
  rw [savedChunks_eq (render_table hh hw hold hn)]
  apply List.ext_getElem (by simp)
  intro j h1 h2
  rw [List.getElem_map, List.getElem_range, render_exception hh hw h2
    (hold _ (List.getElem_mem h2)) hn]
  have hlt : dataChunk j < packedChunks saved.length := by
    unfold dataChunk packedChunks
    omega
  rw [render_chunkAt hh hw hlt, renderChunk_data (List.getElem?_eq_getElem h2)]

include hh hw in
theorem render_header : (render header saved).take 4096 = header := by
  have h := render_readAt hh hw (i := 0) (by unfold packedChunks; omega)
  obtain ⟨-, h⟩ := Bytes.readAt_eq_some.mp h
  rw [Nat.zero_mul, List.drop_zero] at h
  exact h.symm

end Packed

end Conglobate.Storage
