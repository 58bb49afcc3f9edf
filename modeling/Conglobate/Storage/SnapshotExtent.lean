import Conglobate.Carapace
import Conglobate.Lib.File
import Conglobate.Lib.Flow
import Conglobate.Lib.LittleEndian
import Mathlib.Tactic.Ring

/- The persistent snapshot store and the extent a sealed store uses
   (`storage/sealed.rs`, `SnapshotExtent::read`).

   A store is a file of 4096-byte chunks. Chunk 0 starts with the header; the
   exception table is kept in metadata areas of 256 records at chunks
   `1 + 257 k`, and every other chunk is data. The table ends at the first
   record whose `new_chunk` is zero. `Table f n` says the table of `f` has
   exactly `n` live entries; `read_eq_ok_iff` characterises what the extent
   scan accepts and the extent it returns by the table alone.

   Correspondence (Rust ↔ Lean):
     `devmap_snapshot::Exception`, `Header`  ↔ `Exception`, `Header` (the 16-byte
                                               little-endian on-disk codec)
     `SnapshotExtent::read`                  ↔ `SnapshotExtent.read` -/
namespace Conglobate.Storage

/-- One record of the exception table: chunk `oldChunk` of the device is held in
    chunk `newChunk` of the store. -/
structure Exception where
  oldChunk : Nat
  newChunk : Nat
  deriving DecidableEq, Repr

namespace Exception

def decode (record : Bytes) : Exception where
  oldChunk := Bytes.ofLe (record.take 8)
  newChunk := Bytes.ofLe ((record.drop 8).take 8)

def encode (e : Exception) : Bytes := Bytes.le 8 e.oldChunk ++ Bytes.le 8 e.newChunk

@[simp] theorem encode_length (e : Exception) : e.encode.length = 16 := by
  simp [encode]

theorem decode_encode {e : Exception} (hold : e.oldChunk < 256 ^ 8) (hnew : e.newChunk < 256 ^ 8) :
    decode e.encode = e := by
  rw [decode, encode, List.take_left' (Bytes.le_length _ _), List.drop_left' (Bytes.le_length _ _),
    List.take_of_length_le (by simp), Bytes.ofLe_le hold, Bytes.ofLe_le hnew]

theorem decode_zeros : (decode (Bytes.zeros 16)).newChunk = 0 := by decide

end Exception

/-- The header record. -/
structure Header where
  valid : Bool
  chunkSize : Nat
  deriving DecidableEq, Repr

namespace Header

/-- Decode the on-disk header: magic `SnAp`, validity, version 1 and the chunk
    size in sectors, four little-endian words. -/
def decode (record : Bytes) : Except IoError Header :=
  if Bytes.ofLe (record.take 4) ≠ 0x70416e53 then .error (.invalidData "invalid snapshot magic")
  else if Bytes.ofLe ((record.drop 8).take 4) ≠ 1 then
    .error (.invalidData "unsupported snapshot version")
  else .ok {
    valid := Bytes.ofLe ((record.drop 4).take 4) ≠ 0
    chunkSize := Bytes.ofLe ((record.drop 12).take 4) * 512 }

def encode (h : Header) : Bytes :=
  Bytes.le 4 0x70416e53 ++ (Bytes.le 4 (if h.valid then 1 else 0) ++ (Bytes.le 4 1 ++ Bytes.le 4
    (h.chunkSize / 512)))

@[simp] theorem encode_length (h : Header) : h.encode.length = 16 := by
  simp [encode]

theorem decode_encode {h : Header} (hmod : h.chunkSize % 512 = 0)
    (hfits : h.chunkSize / 512 < 256 ^ 4) :
    decode h.encode = .ok h := by
  have hsize : h.chunkSize / 512 * 512 = h.chunkSize := by omega
  have hmagic : Bytes.ofLe (h.encode.take 4) = 0x70416e53 := by
    rw [encode, List.take_left' (Bytes.le_length _ _), Bytes.ofLe_le (by omega)]
  have hvalid : (h.encode.drop 4).take 4 = Bytes.le 4 (if h.valid then 1 else 0) := by
    rw [encode, List.drop_left' (Bytes.le_length _ _), List.take_left' (Bytes.le_length _ _)]
  have hversion : (h.encode.drop 8).take 4 = Bytes.le 4 1 := by
    rw [encode, ← List.append_assoc, List.drop_left' (by simp),
      List.take_left' (Bytes.le_length _ _)]
  have hchunk : (h.encode.drop 12).take 4 = Bytes.le 4 (h.chunkSize / 512) := by
    rw [encode, ← List.append_assoc, ← List.append_assoc, List.drop_left' (by simp),
      List.take_of_length_le (by simp)]
  rw [decode, hmagic, hversion, hvalid, hchunk, Bytes.ofLe_le hfits,
    Bytes.ofLe_le (by omega), hsize, if_neg (by simp), if_neg (by simp)]
  cases h with
  | mk valid chunkSize => cases valid <;> simp [Bytes.le, Bytes.ofLe]

def exceptionsPerChunk (h : Header) : Nat := h.chunkSize / 16

/-- The chunk of metadata area `index`, checked to be a `u64`. -/
def metadataChunkIndex (h : Header) (index : Nat) : Except IoError Nat :=
  if 1 + (h.exceptionsPerChunk + 1) * index < 2 ^ 64 then
    .ok (1 + (h.exceptionsPerChunk + 1) * index)
  else .error (.invalidData "metadata chunk index overflow")

end Header

/-- The 256 records of a metadata area (`as_chunks::<16>().0`). -/
def records (metadata : Bytes) : List Bytes :=
  (List.range 256).map (fun slot => (metadata.drop (slot * 16)).take 16)

@[simp] theorem records_length (metadata : Bytes) : (records metadata).length = 256 := by
  simp [records]

theorem records_getElem (metadata : Bytes) (slot : Nat) (h : slot < (records metadata).length) :
    (records metadata)[slot] = (metadata.drop (slot * 16)).take 16 := by
  simp [records]

/-- The used extent of a store. -/
structure SnapshotExtent where
  bytes : Nat
  deriving DecidableEq, Repr

namespace SnapshotExtent

/-- One decoded record of the scan; `last` is the extent's end so far, in chunks. -/
def scanException (c : Carapace) (chunks stride last : Nat) (exception : Exception) :
    Except IoError (Flow SnapshotExtent Nat) :=
  if exception.newChunk = 0 then .ok (.done ⟨last * 4096⟩)
  else if exception.oldChunk ≥ c.zeroSizeBytes / 4096 ∨ exception.newChunk < 2 ∨
      exception.newChunk ≥ chunks ∨ (exception.newChunk - 1) % stride = 0 then
    .error (.invalidData "snapshot exception outside data geometry")
  else .ok (.next (max last (exception.newChunk + 1)))

def scanRecord (c : Carapace) (chunks stride last : Nat) (record : Bytes) :
    Except IoError (Flow SnapshotExtent Nat) :=
  scanException c chunks stride last (Exception.decode record)

/-- One metadata area of the scan. -/
def scanArea (c : Carapace) (input : Bytes) (header : Header) (chunks last index : Nat) :
    Except IoError (Flow SnapshotExtent Nat) := do
  let area ← header.metadataChunkIndex index
  if area ≥ chunks then .error (.invalidData "snapshot lacks terminating metadata")
  else do
    let metadata ← input.readExactAt (area * 4096) 4096
    Flow.each (scanRecord c chunks (header.exceptionsPerChunk + 1)) (max last (area + 1))
      (records metadata)

def read (c : Carapace) (input : Bytes) (capacity : Nat) : Except IoError SnapshotExtent :=
  if capacity < 8192 ∨ capacity % 4096 ≠ 0 then .error (.invalidData "invalid snapshot capacity")
  else do
    let record ← input.readExactAt 0 16
    let header ← Header.decode record
    if !header.valid || header.chunkSize != 4096 then
      .error (.invalidData "invalid snapshot header")
    else do
      match ← Flow.each (scanArea c input header (capacity / 4096)) 2
          (List.range (capacity / 4096)) with
      | .done extent => .ok extent
      | .next _ => .error (.invalidData "snapshot metadata exceeds capacity")

end SnapshotExtent

/-! The exception table of a store, as its bytes hold it. -/

/-- The chunk of metadata area `k`. -/
def areaChunk (k : Nat) : Nat := 1 + k * 257

/-- The chunk the `m`-th exception's data takes in a packed store. -/
def dataChunk (m : Nat) : Nat := 2 + m + m / 256

/-- Record `j` of the table of `f`. -/
def recordAt (f : Bytes) (j : Nat) : Bytes :=
  (f.drop (areaChunk (j / 256) * 4096 + j % 256 * 16)).take 16

def exceptionAt (f : Bytes) (j : Nat) : Exception := Exception.decode (recordAt f j)

/-- The table of `f` has exactly `n` live entries, its last area inside `f`. -/
structure Table (f : Bytes) (n : Nat) : Prop where
  inside : (areaChunk (n / 256) + 1) * 4096 ≤ f.length
  live : ∀ j < n, (exceptionAt f j).newChunk ≠ 0
  ended : (exceptionAt f n).newChunk = 0

/-- An entry the scan accepts in a store of `chunks` chunks. -/
structure Placed (c : Carapace) (chunks : Nat) (e : Exception) : Prop where
  old : e.oldChunk < c.zeroSizeBytes / 4096
  low : 2 ≤ e.newChunk
  high : e.newChunk < chunks
  data : (e.newChunk - 1) % 257 ≠ 0

/-- One past the highest data chunk the first `n` entries name. -/
def dataEnd (f : Bytes) : Nat → Nat
  | 0 => 0
  | n + 1 => max (dataEnd f n) ((exceptionAt f n).newChunk + 1)

theorem dataEnd_le {f : Bytes} {n m : Nat} :
    dataEnd f n ≤ m ↔ ∀ j < n, (exceptionAt f j).newChunk + 1 ≤ m := by
  induction n with
  | zero => simp [dataEnd]
  | succ n ih =>
    simp only [dataEnd, Nat.max_le, ih]
    constructor
    · rintro ⟨h, hn⟩ j hj
      rcases Nat.lt_succ_iff_lt_or_eq.mp hj with hlt | rfl
      · exact h j hlt
      · exact hn
    · intro h
      exact ⟨fun j hj => h j (by omega), h n (by omega)⟩

theorem lt_dataEnd {f : Bytes} {n j : Nat} (h : j < n) : (exceptionAt f j).newChunk < dataEnd f n :=
  dataEnd_le.mp (Nat.le_refl _) j h

/-- The extent of a store with `n` entries, in chunks. -/
def tableEnd (f : Bytes) (n : Nat) : Nat := max (areaChunk (n / 256) + 1) (dataEnd f n)

/-- The store's header is one the scan accepts. -/
def ValidHeader (f : Bytes) : Prop :=
  ∃ header, Header.decode (f.take 16) = .ok header ∧ header.valid = true ∧ header.chunkSize = 4096

/-- A record of a metadata area is a record of the table. -/
theorem record_of_area {f metadata : Bytes} {k slot : Nat}
    (h : f.readAt (areaChunk k * 4096) 4096 = some metadata) (hs : slot < 256) :
    (metadata.drop (slot * 16)).take 16 = recordAt f (k * 256 + slot) := by
  have hlen := Bytes.readAt_length h
  have hr := Bytes.readAt_readAt h (i := slot * 16) (m := 16) (by omega)
  obtain ⟨hle, -⟩ := Bytes.readAt_eq_some.mp h
  rw [Bytes.readAt_of_le (by omega), Bytes.readAt_of_le (by omega)] at hr
  have hk : (k * 256 + slot) / 256 = k := by omega
  have hm : (k * 256 + slot) % 256 = slot := by omega
  rw [recordAt, hk, hm]
  exact Option.some.inj hr

namespace SnapshotExtent

/-! The scan, from the table's side. -/

theorem scanException_eq_done {c : Carapace} {chunks last : Nat} {x : Exception}
    {e : SnapshotExtent} :
    scanException c chunks 257 last x = .ok (.done e) ↔ x.newChunk = 0 ∧ e = ⟨last * 4096⟩ := by
  unfold scanException
  split
  · simp [*, eq_comm]
  · split <;> simp [*]

theorem scanException_eq_next {c : Carapace} {chunks last next : Nat} {x : Exception} :
    scanException c chunks 257 last x = .ok (.next next) ↔
      x.newChunk ≠ 0 ∧ Placed c chunks x ∧ next = max last (x.newChunk + 1) := by
  unfold scanException
  split
  · simp [*]
  · rename_i hz
    split
    · rename_i hbad
      simp only [reduceCtorEq, false_iff, not_and]
      rintro _ ⟨h1, h2, h3, h4⟩
      omega
    · rename_i hok
      push Not at hok
      obtain ⟨h1, h2, h3, h4⟩ := hok
      simp only [Except.ok.injEq, Flow.next.injEq]
      constructor
      · intro h
        exact ⟨hz, ⟨h1, h2, h3, h4⟩, h.symm⟩
      · rintro ⟨-, -, h⟩
        exact h.symm

/-- The end of the extent when area `k` is open and `j` entries are read. -/
def endWhile (f : Bytes) (k j : Nat) : Nat := max (areaChunk k + 1) (dataEnd f j)

/-- The scan before entry `j` of area `k`: every earlier entry is live and placed. -/
structure Scanned (c : Carapace) (f : Bytes) (chunks k j last : Nat) : Prop where
  live : ∀ i < j, (exceptionAt f i).newChunk ≠ 0
  placed : ∀ i < j, Placed c chunks (exceptionAt f i)
  last_eq : last = endWhile f k j

theorem Scanned.next {c : Carapace} {f : Bytes} {chunks k j last next : Nat}
    (h : Scanned c f chunks k j last)
    (hx : scanException c chunks 257 last (exceptionAt f j) = .ok (.next next)) :
    Scanned c f chunks k (j + 1) next := by
  obtain ⟨hlive, hplaced, hnext⟩ := scanException_eq_next.mp hx
  refine ⟨?_, ?_, ?_⟩
  · intro i hi
    rcases Nat.lt_succ_iff_lt_or_eq.mp hi with hlt | rfl
    · exact h.live i hlt
    · exact hlive
  · intro i hi
    rcases Nat.lt_succ_iff_lt_or_eq.mp hi with hlt | rfl
    · exact h.placed i hlt
    · exact hplaced
  · rw [hnext, h.last_eq, endWhile, endWhile, dataEnd, Nat.max_assoc]

/-- Opening the next area after a full one. -/
theorem Scanned.open {c : Carapace} {f : Bytes} {chunks k last : Nat}
    (h : Scanned c f chunks (k - 1) (k * 256) last) :
    Scanned c f chunks k (k * 256) (max last (areaChunk k + 1)) := by
  refine ⟨h.live, h.placed, ?_⟩
  have : areaChunk (k - 1) + 1 ≤ areaChunk k + 1 := by unfold areaChunk; omega
  rw [h.last_eq, endWhile, endWhile]
  omega

theorem metadataChunkIndex_eq {h : Header} (hsize : h.chunkSize = 4096) {k area : Nat} :
    h.metadataChunkIndex k = .ok area ↔ areaChunk k < 2 ^ 64 ∧ area = areaChunk k := by
  have hx : 1 + (h.exceptionsPerChunk + 1) * k = areaChunk k := by
    simp only [Header.exceptionsPerChunk, hsize, areaChunk]
    omega
  unfold Header.metadataChunkIndex
  rw [hx]
  split
  · rename_i hlt
    rw [Except.ok.injEq]
    exact ⟨fun h => ⟨hlt, h.symm⟩, fun h => h.2.symm⟩
  · rename_i hge
    exact ⟨fun h => (by cases h), fun h => absurd h.1 hge⟩

/-- What a scanned area says: either the table ends in it, or it is full. -/
theorem scanArea_sound {c : Carapace} {f : Bytes} {header : Header} {chunks k last : Nat}
    {o : Flow SnapshotExtent Nat} (hsize : header.chunkSize = 4096)
    (hs : Scanned c f chunks (k - 1) (k * 256) last)
    (h : scanArea c f header chunks last k = .ok o) :
    areaChunk k < chunks ∧
    match o with
    | .next last' => Scanned c f chunks k ((k + 1) * 256) last'
    | .done e => ∃ n, n / 256 = k ∧ Table f n ∧ (∀ j < n, Placed c chunks (exceptionAt f j)) ∧
        e = ⟨tableEnd f n * 4096⟩ := by
  obtain ⟨area, harea, h⟩ := except_bind_eq_ok.mp h
  obtain ⟨-, rfl⟩ := (metadataChunkIndex_eq hsize).mp harea
  split at h
  · cases h
  · rename_i hlt
    obtain ⟨metadata, hread, h⟩ := except_bind_eq_ok.mp h
    rw [Bytes.readExactAt_eq_ok] at hread
    have hstride : header.exceptionsPerChunk + 1 = 257 := by simp [Header.exceptionsPerChunk, hsize]
    rw [hstride] at h
    refine ⟨by omega, ?_⟩
    have hrec : ∀ i (hi : i < (records metadata).length), Exception.decode (records metadata)[i] =
        exceptionAt f (k * 256 + i) := by
      intro i hi
      rw [records_length] at hi
      rw [records_getElem, exceptionAt, record_of_area hread hi]
    obtain ⟨hnext, hdone⟩ := Flow.each_partial (fun i => Scanned c f chunks k (k * 256 + i))
      (f := scanRecord c chunks 257) (l := records metadata)
      (by rw [Nat.add_zero]; exact hs.open) (by
        intro i hi t t' hinv hbody
        rw [scanRecord, hrec i hi] at hbody
        have := hinv.next hbody
        rwa [Nat.add_assoc] at this)
    cases o with
    | next last' =>
      have := hnext last' h
      rw [records_length] at this
      rw [Nat.succ_mul]
      exact this
    | done e =>
      obtain ⟨i, hi, t, hinv, hbody⟩ := hdone e h
      have hi' : i < 256 := by rwa [records_length] at hi
      rw [scanRecord, hrec i hi] at hbody
      obtain ⟨hend, he⟩ := scanException_eq_done.mp hbody
      have hk : (k * 256 + i) / 256 = k := by omega
      have hle := (Bytes.readAt_eq_some.mp hread).1
      refine ⟨k * 256 + i, hk, ⟨?_, hinv.live, hend⟩, hinv.placed, ?_⟩
      · rw [hk]; omega
      · rw [he, hinv.last_eq, tableEnd, hk, endWhile]

/-- The areas of a table all lie in the store. -/
theorem readAt_area {f : Bytes} {n k : Nat} (ht : Table f n) (hk : k ≤ n / 256) :
    ∃ metadata, f.readAt (areaChunk k * 4096) 4096 = some metadata := by
  have := ht.inside
  have hmono : areaChunk k ≤ areaChunk (n / 256) := by unfold areaChunk; omega
  exact ⟨_, Bytes.readAt_of_le (by omega)⟩

/-- A table's area scans: full areas go on, the last one ends the scan. -/
theorem scanArea_complete {c : Carapace} {f : Bytes} {header : Header} {chunks k n last : Nat}
    (hsize : header.chunkSize = 4096) (ht : Table f n)
    (hp : ∀ j < n, Placed c chunks (exceptionAt f j)) (hchunks : areaChunk (n / 256) < chunks)
    (hbound : chunks < 2 ^ 64) (hk : k ≤ n / 256) (hs : Scanned c f chunks (k - 1) (k * 256) last) :
    (scanArea c f header chunks last k = .ok (.done ⟨tableEnd f n * 4096⟩)) ∨
      (k < n / 256 ∧ ∃ last', scanArea c f header chunks last k = .ok (.next last') ∧
        Scanned c f chunks k ((k + 1) * 256) last') := by
  have hmono : areaChunk k ≤ areaChunk (n / 256) := by unfold areaChunk; omega
  obtain ⟨metadata, hread⟩ := readAt_area ht hk
  have hread' := Bytes.readExactAt_eq_ok.mpr hread
  have harea : header.metadataChunkIndex k = .ok (areaChunk k) :=
    (metadataChunkIndex_eq hsize).mpr ⟨by omega, rfl⟩
  have hstride : header.exceptionsPerChunk + 1 = 257 := by simp [Header.exceptionsPerChunk, hsize]
  have hrec : ∀ i (hi : i < (records metadata).length), Exception.decode (records metadata)[i] =
      exceptionAt f (k * 256 + i) := by
    intro i hi
    rw [records_length] at hi
    rw [records_getElem, exceptionAt, record_of_area hread hi]
  have hstart : scanArea c f header chunks last k =
      Flow.each (scanRecord c chunks 257) (max last (areaChunk k + 1)) (records metadata) := by
    rw [scanArea, harea, except_ok_bind, if_neg (by omega), hread', except_ok_bind, hstride]
  have hloop := Flow.each_total (fun i t => k * 256 + i ≤ n ∧ Scanned c f chunks k (k * 256 + i) t)
    (fun e => e = ⟨tableEnd f n * 4096⟩) (f := scanRecord c chunks 257) (l := records metadata)
    (s := max last (areaChunk k + 1)) ⟨by omega, by rw [Nat.add_zero]; exact hs.open⟩ (by
      rintro i hi t ⟨hle, hinv⟩
      have hi' : i < 256 := by rwa [records_length] at hi
      rw [scanRecord, hrec i hi]
      rcases Nat.lt_or_eq_of_le hle with hlt | heq
      · right
        have hx : scanException c chunks 257 t (exceptionAt f (k * 256 + i)) =
            .ok (.next (max t ((exceptionAt f (k * 256 + i)).newChunk + 1))) :=
          scanException_eq_next.mpr ⟨ht.live _ hlt, hp _ hlt, rfl⟩
        have hnext := hinv.next hx
        rw [Nat.add_assoc] at hnext
        exact ⟨_, hx, by omega, hnext⟩
      · left
        have hkn : n / 256 = k := by omega
        have hx : scanException c chunks 257 t (exceptionAt f (k * 256 + i)) =
            .ok (.done ⟨t * 4096⟩) :=
          scanException_eq_done.mpr ⟨by rw [heq]; exact ht.ended, rfl⟩
        refine ⟨_, hx, ?_⟩
        rw [hinv.last_eq, endWhile, tableEnd, hkn, heq])
  rw [hstart]
  rcases hloop with ⟨r, hr, rfl⟩ | ⟨last', hr, hle, hinv⟩
  · exact .inl hr
  · rw [records_length] at hle hinv
    exact .inr ⟨by omega, last', hr, by rwa [Nat.succ_mul]⟩

/-- **What the extent scan accepts**, and the extent it returns: a store with a valid
    header and a table whose entries all name data chunks inside the capacity. -/
theorem read_eq_ok_iff {c : Carapace} {f : Bytes} {e : SnapshotExtent} (hlen : f.length < 2 ^ 64) :
    read c f f.length = .ok e ↔
      8192 ≤ f.length ∧ f.length % 4096 = 0 ∧ ValidHeader f ∧
      ∃ n, Table f n ∧ (∀ j < n, Placed c (f.length / 4096) (exceptionAt f j)) ∧
        e = ⟨tableEnd f n * 4096⟩ := by
  have hinit : Scanned c f (f.length / 4096) (0 - 1) (0 * 256) 2 :=
    ⟨by simp, by simp, by simp [endWhile, areaChunk, dataEnd]⟩
  constructor
  · intro h
    unfold read at h
    split at h
    · cases h
    · obtain ⟨record, hrec, h⟩ := except_bind_eq_ok.mp h
      rw [Bytes.readExactAt_eq_ok] at hrec
      obtain ⟨-, rfl⟩ := Bytes.readAt_eq_some.mp hrec
      obtain ⟨header, hdec, h⟩ := except_bind_eq_ok.mp h
      split at h
      · cases h
      · rename_i hcap hvalid
        simp only [Bool.or_eq_true, Bool.not_eq_true', bne_iff_ne, ne_eq, not_or, Bool.not_eq_false,
          Decidable.not_not] at hvalid
        obtain ⟨o, ho, h⟩ := except_bind_eq_ok.mp h
        have hloop := (Flow.each_partial (fun k => Scanned c f (f.length / 4096) (k - 1) (k * 256))
          (f := scanArea c f header (f.length / 4096)) (l := List.range (f.length / 4096)) hinit (by
            intro k hk t t' hinv hbody
            rw [List.getElem_range] at hbody
            exact (scanArea_sound hvalid.2 hinv hbody).2)).2
        cases o with
        | next last => cases h
        | done extent =>
          obtain ⟨k, hk, t, hinv, hbody⟩ := hloop extent ho
          rw [List.getElem_range] at hbody
          obtain ⟨-, n, -, ht, hp, he⟩ := scanArea_sound hvalid.2 hinv hbody
          cases h
          exact ⟨by omega, by omega, ⟨header, by simpa using hdec, hvalid⟩, n, ht, hp, he⟩
  · rintro ⟨hmin, hmod, ⟨header, hdec, hvalid, hsize⟩, n, ht, hp, rfl⟩
    have hinside := ht.inside
    have hchunks : areaChunk (n / 256) < f.length / 4096 := by omega
    have hloop := Flow.each_total
      (fun k t => k ≤ n / 256 ∧ Scanned c f (f.length / 4096) (k - 1) (k * 256) t)
      (fun e => e = ⟨tableEnd f n * 4096⟩) (f := scanArea c f header (f.length / 4096))
      (l := List.range (f.length / 4096)) (s := 2) ⟨by omega, hinit⟩ (by
        rintro k hk t ⟨hle, hinv⟩
        rw [List.getElem_range]
        rcases scanArea_complete hsize ht hp hchunks
          (by omega) hle hinv with h | ⟨hlt, t', h, hinv'⟩
        · exact .inl ⟨_, h, rfl⟩
        · exact .inr ⟨t', h, by omega, hinv'⟩)
    have hrec : f.readExactAt 0 16 = .ok (f.take 16) := by
      rw [Bytes.readExactAt_eq_ok, Bytes.readAt_of_le (by omega), List.drop_zero]
    have hhead : (!header.valid || header.chunkSize != 4096) = false := by simp [hvalid, hsize]
    rw [read, if_neg (by omega), hrec, except_ok_bind, hdec, except_ok_bind, hhead,
      if_neg (by simp)]
    rcases hloop with ⟨r, hr, rfl⟩ | ⟨last, hr, hle, -⟩
    · rw [hr, except_ok_bind]
    · rw [List.length_range] at hle
      unfold areaChunk at hchunks
      omega

end SnapshotExtent

end Conglobate.Storage
