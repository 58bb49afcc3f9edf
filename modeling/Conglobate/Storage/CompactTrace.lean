import Conglobate.Storage.CompactProps

/- What `CompactSnapshot::new` does to the file on its way (`storage/compact.rs`), wherever it
   stops.

   The scan is run again with its accesses on record and with a medium that may
   refuse any of them: a refused write leaves some of its bytes in the file. A
   stop carries the locals, so that what is in the file then can be told.
   `newTraced_steady` connects this run to `new`: on a medium that refuses
   nothing they return the same.

   Correspondence (Rust ↔ Lean):
     `read_exact_at`, `write_all_at`, `read_origin`  ↔ `Trace.readExactAt`, `Trace.writeAllAt`,
                                                       `Trace.readOrigin`
     the scan of `CompactSnapshot::new`              ↔ `keepTraced`, `packExceptionTraced`,
                                                       `packRecordTraced`, `packAreaTraced`, `newTraced`

   Numbered result:
     1. the writer never catches up with the reader: whatever stops the scan, it has written
        only metadata areas it had buffered, and read only inside the extent
        (`compaction_behind_scan`). -/
namespace Conglobate.Storage

namespace CompactSnapshot

/-- An access of the scan, of 4096 bytes at a byte offset of the store or of the origin. -/
inductive Access where
  | read (offset : Nat)
  | write (offset : Nat)
  | origin (offset : Nat)
  deriving DecidableEq, Repr

/-- What becomes of the access made after `n` others. A write may stop half way. -/
structure Medium where
  read : Nat → Option IoError
  write : Nat → Option (Nat × IoError)
  origin : Nat → ReadOrigin

/-- The scan's locals, the accesses it made, and how many areas it has buffered. -/
structure Trace where
  packing : Packing
  accesses : List Access
  buffered : Nat

/-- Why the scan stopped, and in what state. -/
abbrev Stopped := IoError × Trace

namespace Trace

def record (t : Trace) (access : Access) : Trace := { t with accesses := t.accesses ++ [access] }

def withSource (t : Trace) (source : File) : Trace :=
  { t with packing := { t.packing with source := source } }

@[simp] theorem record_packing (t : Trace) (a : Access) : (t.record a).packing = t.packing := rfl
@[simp] theorem record_buffered (t : Trace) (a : Access) : (t.record a).buffered = t.buffered := rfl
@[simp] theorem withSource_accesses (t : Trace) (f : File) :
    (t.withSource f).accesses = t.accesses := rfl
@[simp] theorem withSource_buffered (t : Trace) (f : File) :
    (t.withSource f).buffered = t.buffered := rfl

def readExactAt (m : Medium) (t : Trace) (offset : Nat) : Except Stopped (Bytes × Trace) :=
  match m.read t.accesses.length with
  | some e => .error (e, t.record (.read offset))
  | none =>
    match t.packing.source.readExactAt offset 4096 with
    | .error e => .error (e, t.record (.read offset))
    | .ok bytes => .ok (bytes, t.record (.read offset))

/-- A refused write has put `count` of its bytes into the file. -/
def writeAllAt (m : Medium) (t : Trace) (offset : Nat) (bytes : Bytes) : Except Stopped Trace :=
  match m.write t.accesses.length with
  | some (count, e) =>
    match t.packing.source.writeAllAt offset (bytes.take count) with
    | .error _ => .error (e, t.record (.write offset))
    | .ok source => .error (e, (t.record (.write offset)).withSource source)
  | none =>
    match t.packing.source.writeAllAt offset bytes with
    | .error e => .error (e, t.record (.write offset))
    | .ok source => .ok ((t.record (.write offset)).withSource source)

def readOrigin (m : Medium) (t : Trace) (offset : Nat) : Except Stopped (Block × Trace) :=
  match m.origin t.accesses.length offset with
  | .error e => .error (e, t.record (.origin offset))
  | .ok block => .ok (block, t.record (.origin offset))

end Trace

def keepTraced (m : Medium) (t : Trace) (record : Bytes) :
    Except Stopped (Flow (CompactSnapshot × Trace) Trace) :=
  if (t.packing.kept + 1) % 256 = 0 then do
    let t' ← t.writeAllAt m ((1 + (t.packing.kept + 1 - 1) / 256 * 257) * 4096)
      (t.packing.output.writeAt (t.packing.kept % 256 * 16) record)
    .ok (.next { t' with packing := ⟨t'.packing.source, Bytes.zeros 4096, t.packing.kept + 1⟩ })
  else
    .ok (.next { t with packing := ⟨t.packing.source,
      t.packing.output.writeAt (t.packing.kept % 256 * 16) record, t.packing.kept + 1⟩ })

def packExceptionTraced (m : Medium) (t : Trace) (record : Bytes) (exception : Exception) :
    Except Stopped (Flow (CompactSnapshot × Trace) Trace) :=
  if exception.newChunk = 0 then do
    let t' ← t.writeAllAt m ((1 + t.packing.kept / 256 * 257) * 4096) t.packing.output
    .ok (.done (planned t'.packing.source t.packing.kept, t'))
  else do
    let block ← t.readExactAt m (exception.newChunk * 4096)
    let origin ← block.2.readOrigin m (exception.oldChunk * 4096)
    if block.1 = origin.1.bytes then .ok (.next origin.2) else keepTraced m origin.2 record

def packRecordTraced (m : Medium) (t : Trace) (record : Bytes) :
    Except Stopped (Flow (CompactSnapshot × Trace) Trace) :=
  packExceptionTraced m t record (Exception.decode record)

def packAreaTraced (m : Medium) (t : Trace) (area : Nat) :
    Except Stopped (Flow (CompactSnapshot × Trace) Trace) := do
  let metadata ← t.readExactAt m ((1 + area * 257) * 4096)
  Flow.each (packRecordTraced m) { metadata.2 with buffered := area + 1 } (records metadata.1)

def newTraced (m : Medium) (source : File) : Except Stopped (CompactSnapshot × Trace) := do
  match ← Flow.each (packAreaTraced m) ⟨⟨source, Bytes.zeros 4096, 0⟩, [], 0⟩
      (List.range (source.bytes.length / 4096 + 1)) with
  | .done s => .ok s
  | .next t => .error (⟨.other, "unreachable"⟩, t)

/-! On a medium that refuses nothing, the run is `new`. -/

/-- Refuses nothing; the origin answers as `readOrigin` does. -/
def steady (readOrigin : ReadOrigin) : Medium := ⟨fun _ => none, fun _ => none, fun _ => readOrigin⟩

/-- What is left of a run when its record is dropped. -/
def forget : Except Stopped (Flow (CompactSnapshot × Trace) Trace) →
    Except IoError (Flow CompactSnapshot Packing)
  | .error stopped => .error stopped.1
  | .ok (.done r) => .ok (.done r.1)
  | .ok (.next t) => .ok (.next t.packing)

theorem forget_bind {α β : Type} {x : Except Stopped α}
    {f : α → Except Stopped (Flow (CompactSnapshot × Trace) Trace)} {y : Except IoError β}
    {g : β → Except IoError (Flow CompactSnapshot Packing)}
    (herror : ∀ e, x = .error e → y = .error e.1)
    (hok : ∀ a, x = .ok a → ∃ b, y = .ok b ∧ forget (f a) = g b) :
    forget (x >>= f) = y >>= g := by
  cases x with
  | error e =>
    rw [herror e rfl]
    rfl
  | ok a =>
    obtain ⟨b, hy, hf⟩ := hok a rfl
    rw [hy, except_ok_bind, except_ok_bind, hf]

theorem forget_each {α : Type}
    {f : Trace → α → Except Stopped (Flow (CompactSnapshot × Trace) Trace)}
    {g : Packing → α → Except IoError (Flow CompactSnapshot Packing)}
    (h : ∀ t a, forget (f t a) = g t.packing a) (l : List α) (t : Trace) :
    forget (Flow.each f t l) = Flow.each g t.packing l := by
  induction l generalizing t with
  | nil => rfl
  | cons a rest ih =>
    rw [Flow.each, Flow.each, ← h t a]
    cases hf : f t a with
    | error e => rfl
    | ok o =>
      cases o with
      | done r => rfl
      | next t' => exact ih t'

section Steady
variable {readOrigin : ReadOrigin} {t : Trace}

theorem writeAllAt_steady {offset : Nat} {bytes : Bytes}
    {f : Trace → Except Stopped (Flow (CompactSnapshot × Trace) Trace)}
    {g : File → Except IoError (Flow CompactSnapshot Packing)}
    (h : ∀ source, forget (f ((t.record (.write offset)).withSource source)) = g source) :
    forget (t.writeAllAt (steady readOrigin) offset bytes >>= f) =
      t.packing.source.writeAllAt offset bytes >>= g := by
  apply forget_bind
  · intro e he
    simp only [Trace.writeAllAt, steady] at he
    split at he
    · rename_i e' hw
      cases he
      exact hw
    · cases he
  · intro t' ht'
    simp only [Trace.writeAllAt, steady] at ht'
    split at ht'
    · cases ht'
    · rename_i source hw
      cases ht'
      exact ⟨source, hw, h source⟩

theorem readExactAt_steady {offset : Nat}
    {f : Bytes × Trace → Except Stopped (Flow (CompactSnapshot × Trace) Trace)}
    {g : Bytes → Except IoError (Flow CompactSnapshot Packing)}
    (h : ∀ bytes, forget (f (bytes, t.record (.read offset))) = g bytes) :
    forget (t.readExactAt (steady readOrigin) offset >>= f) =
      t.packing.source.readExactAt offset 4096 >>= g := by
  apply forget_bind
  · intro e he
    simp only [Trace.readExactAt, steady] at he
    split at he
    · rename_i e' hr
      cases he
      exact hr
    · cases he
  · intro r hr
    simp only [Trace.readExactAt, steady] at hr
    split at hr
    · cases hr
    · rename_i bytes hread
      cases hr
      exact ⟨bytes, hread, h bytes⟩

theorem readOrigin_steady {offset : Nat}
    {f : Block × Trace → Except Stopped (Flow (CompactSnapshot × Trace) Trace)}
    {g : Block → Except IoError (Flow CompactSnapshot Packing)}
    (h : ∀ block, forget (f (block, t.record (.origin offset))) = g block) :
    forget (t.readOrigin (steady readOrigin) offset >>= f) = readOrigin offset >>= g := by
  apply forget_bind
  · intro e he
    simp only [Trace.readOrigin, steady] at he
    split at he
    · rename_i e' hr
      cases he
      exact hr
    · cases he
  · intro r hr
    simp only [Trace.readOrigin, steady] at hr
    split at hr
    · cases hr
    · rename_i block hread
      cases hr
      exact ⟨block, hread, h block⟩

theorem keepTraced_steady (t : Trace) (record : Bytes) :
    forget (keepTraced (steady readOrigin) t record) = keep t.packing record := by
  rw [keepTraced, keep]
  split
  · exact writeAllAt_steady (fun source => rfl)
  · rfl

theorem packRecordTraced_steady (t : Trace) (record : Bytes) :
    forget (packRecordTraced (steady readOrigin) t record) =
      packRecord readOrigin t.packing record := by
  rw [packRecordTraced, packRecord, packExceptionTraced, packException]
  split
  · exact writeAllAt_steady (fun source => rfl)
  · apply readExactAt_steady
    intro block
    apply readOrigin_steady
    intro origin
    split
    · rfl
    · exact keepTraced_steady _ record

theorem packAreaTraced_steady (t : Trace) (area : Nat) :
    forget (packAreaTraced (steady readOrigin) t area) = packArea readOrigin t.packing area := by
  rw [packAreaTraced, packArea]
  apply readExactAt_steady
  intro metadata
  exact forget_each packRecordTraced_steady _ _

/-- **The recorded run returns what `new` returns**, when nothing is refused. -/
theorem newTraced_steady (source : File) (readOrigin : ReadOrigin) :
    ((newTraced (steady readOrigin) source).map Prod.fst).mapError Prod.fst =
      new source readOrigin := by
  have hstep : ∀ t area, forget (packAreaTraced (steady readOrigin) t area) =
      packArea readOrigin t.packing area :=
    packAreaTraced_steady
  have hloop := forget_each hstep (List.range (source.bytes.length / 4096 + 1))
    ⟨⟨source, Bytes.zeros 4096, 0⟩, [], 0⟩
  rw [newTraced, new, ← hloop]
  cases Flow.each (packAreaTraced (steady readOrigin)) ⟨⟨source, Bytes.zeros 4096, 0⟩, [], 0⟩
      (List.range (source.bytes.length / 4096 + 1)) with
  | error e => rfl
  | ok o => cases o <;> rfl

end Steady

/-! What a stop leaves. -/

section Behind
variable {t : Trace}

/-- The writer is behind the reader: of the original bytes `G` only areas already buffered
    are overwritten, and nothing outside them is read. -/
structure Behind (G : Bytes) (t : Trace) : Prop where
  length : t.packing.source.bytes.length = G.length
  frame : ∀ i, OutsideAreas t.buffered i → t.packing.source.bytes[i]? = G[i]?
  reads : ∀ offset, .read offset ∈ t.accesses → offset + 4096 ≤ G.length
  writes : ∀ offset, .write offset ∈ t.accesses → ∃ k < t.buffered, offset = areaChunk k * 4096

/-- The scan between two records, `j` of them done. -/
structure Scanning (G : Bytes) (j : Nat) (t : Trace) : Prop extends Behind G t where
  kept : t.packing.kept ≤ j
  output : t.packing.output.length = 4096

theorem mem_record {t : Trace} {a b : Access} :
    b ∈ (t.record a).accesses ↔ b ∈ t.accesses ∨ b = a := by
  rw [Trace.record, List.mem_append, List.mem_singleton]

theorem Behind.read {G : Bytes} {offset : Nat} (h : Behind G t) (hin : offset + 4096 ≤ G.length) :
    Behind G (t.record (.read offset)) := by
  refine ⟨h.length, h.frame, ?_, ?_⟩
  · intro o ho
    rcases mem_record.mp ho with ho | ho
    · exact h.reads o ho
    · cases ho
      exact hin
  · intro o ho
    rcases mem_record.mp ho with ho | ho
    · exact h.writes o ho
    · cases ho

theorem Behind.readOrigin {G : Bytes} (h : Behind G t) (offset : Nat) :
    Behind G (t.record (.origin offset)) := by
  refine ⟨h.length, h.frame, ?_, ?_⟩
  · intro o ho
    rcases mem_record.mp ho with ho | ho
    · exact h.reads o ho
    · cases ho
  · intro o ho
    rcases mem_record.mp ho with ho | ho
    · exact h.writes o ho
    · cases ho

/-- A write to a buffered area, begun or refused. -/
theorem Behind.write {G : Bytes} {k : Nat} (h : Behind G t) (hk : k < t.buffered) :
    Behind G (t.record (.write (areaChunk k * 4096))) := by
  refine ⟨h.length, h.frame, ?_, ?_⟩
  · intro o ho
    rcases mem_record.mp ho with ho | ho
    · exact h.reads o ho
    · cases ho
  · intro o ho
    rcases mem_record.mp ho with ho | ho
    · exact h.writes o ho
    · cases ho
      exact ⟨k, hk, rfl⟩

/-- Bytes put into a buffered area, all of a block or some of it. -/
theorem Behind.withSource {G bytes : Bytes} {k : Nat} {source : File} (h : Behind G t)
    (hk : k < t.buffered) (hin : (areaChunk k + 1) * 4096 ≤ G.length) (hlen : bytes.length ≤ 4096)
    (hw : t.packing.source.writeAllAt (areaChunk k * 4096) bytes = .ok source) :
    Behind G (t.withSource source) := by
  have hlength := h.length
  obtain ⟨g, hg, hb⟩ := File.writeAllAt_inside (f := t.packing.source) (o := areaChunk k * 4096)
    (b := bytes) (by omega)
  rw [hg] at hw
  cases hw
  refine ⟨?_, ?_, h.reads, h.writes⟩
  · change source.bytes.length = G.length
    rw [hb, Bytes.writeAt_length]
    omega
  · intro i hi
    have hout := hi k hk
    rw [← h.frame i hi]
    change source.bytes[i]? = _
    rw [hb]
    by_cases hlt : i < t.packing.source.bytes.length
    · exact Bytes.writeAt_getElem?_off hlt (by omega)
    · rw [List.getElem?_eq_none (by rw [Bytes.writeAt_length]; omega),
        List.getElem?_eq_none (by omega)]

/-! One rule for each kind of access: what it may stop in, and what it goes on in. -/

/-- A stop behind the reader. -/
def StoppedBehind (G : Bytes) (stopped : Stopped) : Prop := Behind G stopped.2

theorem readExactAt_ends {G : Bytes} {m : Medium} {offset : Nat} (h : Behind G t)
    (hin : offset + 4096 ≤ G.length) :
    Ends (StoppedBehind G) (fun r => r.2 = t.record (.read offset) ∧
      t.packing.source.bytes.readAt offset 4096 = some r.1) (t.readExactAt m offset) := by
  rw [Trace.readExactAt]
  split
  · exact Ends.error (h.read hin)
  · split
    · exact Ends.error (h.read hin)
    · rename_i bytes hread
      exact Ends.ok ⟨rfl, Bytes.readExactAt_eq_ok.mp hread⟩

theorem readOrigin_ends {G : Bytes} {m : Medium} {offset : Nat} (h : Behind G t) :
    Ends (StoppedBehind G) (fun r => r.2 = t.record (.origin offset)) (t.readOrigin m offset) := by
  rw [Trace.readOrigin]
  split
  · exact Ends.error (h.readOrigin offset)
  · exact Ends.ok rfl

theorem writeAllAt_ends {G bytes : Bytes} {m : Medium} {k : Nat} (h : Behind G t)
    (hk : k < t.buffered) (hin : (areaChunk k + 1) * 4096 ≤ G.length) (hlen : bytes.length = 4096) :
    Ends (StoppedBehind G) (fun t' => Behind G t' ∧ t'.buffered = t.buffered)
      (t.writeAllAt m (areaChunk k * 4096) bytes) := by
  have hwrite := h.write hk
  rw [Trace.writeAllAt]
  split
  · -- refused half way: what was put into the file is in the buffered area
    split
    · exact Ends.error hwrite
    · rename_i count e source hw
      apply Ends.error
      exact hwrite.withSource hk hin (by rw [List.length_take]; omega) hw
  · split
    · exact Ends.error hwrite
    · rename_i source hw
      exact Ends.ok ⟨hwrite.withSource hk hin (Nat.le_of_eq hlen) hw, rfl⟩

/-! The scan of a table of `n` entries whose data is inside the store. -/

/-- The scan in area `k`, which it has buffered. -/
structure InArea (G : Bytes) (n k j : Nat) (t : Trace) : Prop extends Scanning G j t where
  buffered : t.buffered = k + 1
  bound : j ≤ n

/-- Survivors never exceed the entries read, so a full area goes where the scan has been. -/
theorem keepTraced_ends {G record : Bytes} {m : Medium} {n k j : Nat} (h : InArea G n k j t)
    (hj : j / 256 = k) (hw : record.length = 16) (hlt : j < n)
    (hin : (areaChunk k + 1) * 4096 ≤ G.length) :
    Ends (StoppedBehind G) (Flow.Meets (fun r => Behind G r.2) (InArea G n k (j + 1)))
      (keepTraced m t record) := by
  have hkept := h.kept
  have houtput := h.output
  have hlen : (t.packing.output.writeAt (t.packing.kept % 256 * 16) record).length = 4096 := by
    rw [Bytes.writeAt_length]
    omega
  have hslot : t.packing.kept / 256 ≤ k := by omega
  rw [keepTraced]
  split
  · -- the area is full: its number is at most that of the buffered one
    have harea : 1 + (t.packing.kept + 1 - 1) / 256 * 257 = areaChunk (t.packing.kept / 256) := rfl
    rw [harea]
    apply Ends.bind (writeAllAt_ends h.toBehind (by rw [h.buffered]; omega)
      (area_inside hslot hin) hlen)
    intro t' ht'
    apply Ends.ok
    refine ⟨⟨⟨ht'.1.length, ht'.1.frame, ht'.1.reads,
      ht'.1.writes⟩, by simpa using hkept, Bytes.zeros_length _⟩, ?_, hlt⟩
    exact ht'.2.trans h.buffered
  · apply Ends.ok
    exact ⟨⟨⟨h.length, h.frame, h.reads, h.writes⟩, by simpa using hkept, hlen⟩, h.buffered, hlt⟩

/-- One entry of the scan. -/
theorem packRecordTraced_ends {G : Bytes} {m : Medium} {n k j : Nat} (ht : Table G n)
    (hd : DataInside G n) (h : InArea G n k j t) (hj : j / 256 = k) :
    Ends (StoppedBehind G) (Flow.Meets (fun r => Behind G r.2) (InArea G n k (j + 1)))
      (packRecordTraced m t (recordAt G j)) := by
  have hbound := h.bound
  have hkept := h.kept
  have hin : (areaChunk k + 1) * 4096 ≤ G.length := area_inside (by omega) ht.inside
  rw [packRecordTraced, packExceptionTraced]
  split
  · -- the terminator: the last area is written
    have harea : 1 + t.packing.kept / 256 * 257 = areaChunk (t.packing.kept / 256) := rfl
    rw [harea]
    apply Ends.bind (writeAllAt_ends h.toBehind (by rw [h.buffered]; omega)
      (area_inside (by omega) hin) h.output)
    intro t' ht'
    exact Ends.ok ht'.1
  · rename_i hlive
    have hlt : j < n := by
      rcases Nat.lt_or_eq_of_le hbound with hlt | rfl
      · exact hlt
      · exact absurd ht.ended hlive
    have hdata : (exceptionAt G j).newChunk * 4096 + 4096 ≤ G.length := by
      have := hd.inside j hlt
      omega
    apply Ends.bind (readExactAt_ends h.toBehind hdata)
    intro block hblock
    have hread : Behind G block.2 := hblock.1 ▸ h.toBehind.read hdata
    apply Ends.bind (readOrigin_ends hread)
    intro origin horigin
    have hnow : InArea G n k j origin.2 := by
      rw [horigin]
      refine ⟨⟨hread.readOrigin _, ?_, ?_⟩, ?_, hbound⟩
      · rw [Trace.record_packing, hblock.1]
        exact hkept
      · rw [Trace.record_packing, hblock.1]
        exact h.output
      · rw [Trace.record_buffered, hblock.1]
        exact h.buffered
    split
    · exact Ends.ok ⟨⟨hnow.toBehind, Nat.le_succ_of_le hnow.kept, hnow.output⟩, hnow.buffered, hlt⟩
    · exact keepTraced_ends hnow hj (recordAt_length ht hbound) hlt hin

/-- The scan between two areas, `k` of them done. -/
structure Between (G : Bytes) (n k : Nat) (t : Trace) : Prop extends Scanning G (k * 256) t where
  buffered : t.buffered = k
  bound : k * 256 ≤ n

/-- **One area of the scan**: it is buffered unchanged, and scanned behind the reader. -/
theorem packAreaTraced_ends {G : Bytes} {m : Medium} {n k : Nat} (ht : Table G n)
    (hd : DataInside G n) (h : Between G n k t) :
    Ends (StoppedBehind G) (Flow.Meets (fun r => Behind G r.2) (Between G n (k + 1)))
      (packAreaTraced m t k) := by
  have hbound := h.bound
  have hk : k ≤ n / 256 := (Nat.le_div_iff_mul_le (by decide)).mpr hbound
  have hin : (areaChunk k + 1) * 4096 ≤ G.length := area_inside hk ht.inside
  have hinside : areaChunk k * 4096 + 4096 ≤ G.length := by
    rw [Nat.succ_mul] at hin
    exact hin
  have harea : 1 + k * 257 = areaChunk k := rfl
  rw [packAreaTraced, harea]
  apply Ends.bind (readExactAt_ends h.toBehind hinside)
  intro metadata hmetadata
  obtain ⟨hstate, hread⟩ := hmetadata
  -- no area from the `k`-th on has been written: what is buffered is what the store held
  have horig : G.readAt (areaChunk k * 4096) 4096 = some metadata.1 := by
    rw [← hread]
    apply Bytes.readAt_congr hinside (by rw [h.length]; exact hinside)
    intro i hl hu
    have hout : OutsideAreas t.buffered i := by
      apply outside_of_chunk _ hl hu
      intro l hlt
      rw [h.buffered] at hlt
      unfold areaChunk
      omega
    exact (h.frame i hout).symm
  have hrec : ∀ i (hi : i < (records metadata.1).length), (records metadata.1)[i] =
      recordAt G (k * 256 + i) := by
    intro i hi
    rw [records_length] at hi
    rw [records_getElem, record_of_area horig hi]
  have hstart : InArea G n k (k * 256 + 0) { metadata.2 with buffered := k + 1 } := by
    rw [hstate, Nat.add_zero]
    have hnow := h.toBehind.read hinside
    refine ⟨⟨⟨hnow.length, ?_, hnow.reads, ?_⟩, h.kept, h.output⟩, rfl, hbound⟩
    · intro i hi
      have hless : OutsideAreas (k + 1) i := hi
      apply hnow.frame i
      intro l hl
      rw [Trace.record_buffered, h.buffered] at hl
      exact hless l (Nat.lt_succ_of_lt hl)
    · intro offset ho
      obtain ⟨l, hl, he⟩ := hnow.writes offset ho
      rw [Trace.record_buffered, h.buffered] at hl
      exact ⟨l, Nat.lt_succ_of_lt hl, he⟩
  apply (Ends.each (fun i => InArea G n k (k * 256 + i)) (fun r => Behind G r.2) hstart ?_).imp
    (fun e he => he)
  · intro o ho
    cases o with
    | done r => exact ho
    | next t' =>
      have hend : InArea G n k ((k + 1) * 256) t' := by
        change InArea G n k (k * 256 + _) t' at ho
        rwa [records_length, ← Nat.succ_mul] at ho
      exact ⟨hend.toScanning, hend.buffered, hend.bound⟩
  · intro i hi t' ht'
    have hslot : i < 256 := Nat.lt_of_lt_of_eq hi (records_length _)
    have harea : (k * 256 + i) / 256 = k := by omega
    rw [hrec i hi]
    have hrecord := packRecordTraced_ends (m := m) ht hd ht' harea
    rwa [Nat.add_assoc] at hrecord

/-- The scan stops in `t`: it succeeds, or an access is refused. -/
def Stops (m : Medium) (source : File) (t : Trace) : Prop :=
  (∃ s, newTraced m source = .ok (s, t)) ∨ ∃ e, newTraced m source = .error (e, t)

theorem Stops.behind {m : Medium} {source : File} {n : Nat} (ht : Table source.bytes n)
    (hd : DataInside source.bytes n) (h : Stops m source t) : Behind source.bytes t := by
  have hinit : Between source.bytes n 0 ⟨⟨source, Bytes.zeros 4096, 0⟩, [], 0⟩ := by
    refine ⟨⟨⟨rfl, fun i _ => rfl, ?_, ?_⟩, Nat.zero_le _, Bytes.zeros_length _⟩, rfl, by omega⟩
    · intro offset ho
      exact absurd ho List.not_mem_nil
    · intro offset ho
      exact absurd ho List.not_mem_nil
  have hloop := Ends.each (fun k => Between source.bytes n k) (fun r => Behind source.bytes r.2)
    (f := packAreaTraced m) (l := List.range (source.bytes.length / 4096 + 1))
      (P := StoppedBehind source.bytes) hinit
    (by
      intro k hk t' ht'
      rw [List.getElem_range]
      exact packAreaTraced_ends ht hd ht')
  have hends : Ends (StoppedBehind source.bytes) (fun r => Behind source.bytes r.2)
      (newTraced m source) := by
    apply Ends.bind hloop
    intro o ho
    cases o with
    | done s => exact Ends.ok ho
    | next t' =>
      apply Ends.error
      exact ho.toBehind
  rcases h with ⟨s, hs⟩ | ⟨e, he⟩
  · exact hends.2 _ hs
  · exact hends.1 _ he

/-- **Compaction never destroys unread state.** Wherever the scan of an accepted store stops,
    the chunks it wrote are metadata areas it had buffered, every other chunk is as it was,
    and all it read of the store is inside the extent. -/
theorem compaction_behind_scan {c : Carapace} {f : File} {extent : SnapshotExtent} (m : Medium)
    (h : SnapshotExtent.read c f.bytes f.bytes.length = .ok extent)
    (hs : Stops m (f.truncate extent.bytes) t) :
    (∀ offset, .write offset ∈ t.accesses → ∃ k < t.buffered, offset = (1 + 257 * k) * 4096) ∧
    (∀ chunk, (chunk + 1) * 4096 ≤ extent.bytes → (∀ k < t.buffered, chunk ≠ 1 + 257 * k) →
      chunkAt t.packing.source.bytes chunk = chunkAt f.bytes chunk) ∧
    t.packing.source.bytes.length = extent.bytes ∧
    ∀ offset, .read offset ∈ t.accesses → offset + 4096 ≤ extent.bytes := by
  obtain ⟨-, -, n, ha⟩ := (accepted_iff (Nat.lt_trans f.fits (by decide))).mp h
  obtain ⟨ht, hd⟩ := ha.take_table
  have hbehind : Behind (f.bytes.take extent.bytes) t := hs.behind ht hd
  have hlength := ha.take_length
  refine ⟨?_, ?_, hbehind.length.trans hlength, ?_⟩
  · intro offset ho
    obtain ⟨k, hk, he⟩ := hbehind.writes offset ho
    refine ⟨k, hk, ?_⟩
    rw [he, areaChunk, Nat.mul_comm k]
  · intro chunk hin hne
    have hsame : t.packing.source.bytes.readAt (chunk * 4096) 4096 =
        Bytes.readAt (f.bytes.take extent.bytes) (chunk * 4096) 4096 := by
      apply Bytes.readAt_congr (by rw [hbehind.length, hlength]; omega) (by rw [hlength]; omega)
      intro i hl hu
      apply hbehind.frame i (outside_of_chunk (fun k hk => ?_) hl hu)
      have := hne k hk
      unfold areaChunk
      omega
    rw [chunkAt_readAt (by rw [hbehind.length, hlength]; exact hin),
      chunkAt_readAt (by rw [hlength]; exact hin), chunkAt_take hin] at hsame
    exact Option.some.inj hsame
  · intro offset ho
    rw [← hlength]
    exact hbehind.reads offset ho

/-- The sample store, its data chunk refused: the scan stops with one area buffered. -/
theorem compaction_behind_scan_sample :
    ∃ t, Stops ⟨fun n => if n = 0 then none else some .fileTooLarge, fun _ => none,
      fun _ => chunkOrigin fun _ => zeroBlock⟩
        (sampleStore.truncate sampleStore.bytes.length) t ∧
      (∀ offset, .write offset ∈ t.accesses → ∃ k < t.buffered, offset = (1 + 257 * k) * 4096) ∧
      (∀ chunk, (chunk + 1) * 4096 ≤ sampleStore.bytes.length →
        (∀ k < t.buffered, chunk ≠ 1 + 257 * k) →
        chunkAt t.packing.source.bytes chunk = chunkAt sampleStore.bytes chunk) ∧
      t.packing.source.bytes.length = sampleStore.bytes.length ∧
      ∀ offset, .read offset ∈ t.accesses → offset + 4096 ≤ sampleStore.bytes.length := by
  have hstops : ∀ m source, ∃ t, Stops m source t := by
    intro m source
    cases hrun : newTraced m source with
    | error e => exact ⟨e.2, .inr ⟨e.1, hrun⟩⟩
    | ok r => exact ⟨r.2, .inl ⟨r.1, hrun⟩⟩
  obtain ⟨t, ht⟩ := hstops
    ⟨fun n => if n = 0 then none else some .fileTooLarge, fun _ => none,
      fun _ => chunkOrigin fun _ => zeroBlock⟩
    (sampleStore.truncate sampleStore.bytes.length)
  exact ⟨t, ht, compaction_behind_scan _ sampleStore_accepted ht⟩

end Behind

end CompactSnapshot

end Conglobate.Storage
