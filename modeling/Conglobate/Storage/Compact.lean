import Conglobate.Storage.SnapshotImage

/- In-place packing of a validated, detached snapshot store (`storage/compact.rs`).

   `CompactSnapshot::new` scans the exception table and writes the surviving
   records back over it, always behind the scan; data chunks stay where they
   are. `next_chunk` then streams the packed store: each metadata area is
   renumbered as it is read, and remembers where its data chunks are.

   Correspondence (Rust ↔ Lean):
     locals of `CompactSnapshot::new`  ↔ `Packing`
     its `for record in ..` body       ↔ `packRecord`
     its `for area in 0..` body        ↔ `packArea`
     `CompactSnapshot::next_chunk`     ↔ `nextChunk`
     `Read::read`                      ↔ `CompactSnapshot.read` -/
namespace Conglobate.Storage

/-- Reads the 4096 bytes of the origin at a byte offset. -/
abbrev ReadOrigin := Nat → Except IoError Block

/-- Final-order bytes of a validated, detached 4-KiB persistent snapshot. -/
structure CompactSnapshot where
  source : File
  kept : Nat
  chunks : Nat
  next : Nat
  sourceChunks : List Nat
  buffer : Bytes
  position : Nat

/-- The locals of the scan: the file, the metadata area being filled, and how
    many exceptions survived. -/
structure Packing where
  source : File
  output : Bytes
  kept : Nat

namespace CompactSnapshot

/-- The state `new` returns. -/
def planned (source : File) (kept : Nat) : CompactSnapshot where
  source := source
  kept := kept
  chunks := 2 + kept + kept / 256
  next := 0
  sourceChunks := List.replicate 256 0
  buffer := Bytes.zeros 4096
  position := 4096

/-- A surviving record is copied to its slot; a full area is written. -/
def keep (p : Packing) (record : Bytes) : Except IoError (Flow CompactSnapshot Packing) :=
  if (p.kept + 1) % 256 = 0 then do
    let source ← p.source.writeAllAt ((1 + (p.kept + 1 - 1) / 256 * 257) * 4096)
      (p.output.writeAt (p.kept % 256 * 16) record)
    .ok (.next ⟨source, Bytes.zeros 4096, p.kept + 1⟩)
  else .ok (.next ⟨p.source, p.output.writeAt (p.kept % 256 * 16) record, p.kept + 1⟩)

/-- One decoded record of the scan. -/
def packException (readOrigin : ReadOrigin) (p : Packing) (record : Bytes) (exception : Exception) :
    Except IoError (Flow CompactSnapshot Packing) :=
  if exception.newChunk = 0 then do
    let source ← p.source.writeAllAt ((1 + p.kept / 256 * 257) * 4096) p.output
    .ok (.done (planned source p.kept))
  else do
    let block ← p.source.readExactAt (exception.newChunk * 4096) 4096
    let origin ← readOrigin (exception.oldChunk * 4096)
    if block = origin.bytes then .ok (.next p) else keep p record

def packRecord (readOrigin : ReadOrigin) (p : Packing) (record : Bytes) :
    Except IoError (Flow CompactSnapshot Packing) :=
  packException readOrigin p record (Exception.decode record)

def packArea (readOrigin : ReadOrigin) (p : Packing) (area : Nat) :
    Except IoError (Flow CompactSnapshot Packing) := do
  let metadata ← p.source.readExactAt ((1 + area * 257) * 4096) 4096
  Flow.each (packRecord readOrigin) p (records metadata)

/-- `for area in 0..`: reading an area past the end of the file fails, so no more
    areas than the file has chunks are ever begun. -/
def new (source : File) (readOrigin : ReadOrigin) : Except IoError CompactSnapshot := do
  match ← Flow.each (packArea readOrigin) ⟨source, Bytes.zeros 4096, 0⟩
      (List.range (source.bytes.length / 4096 + 1)) with
  | .done s => .ok s
  | .next _ => .error ⟨.other, "unreachable"⟩

def sizeBytes (s : CompactSnapshot) : Nat := s.chunks * 4096

/-- The first `count` records of an area, renumbered for the output. -/
def renumber (next count : Nat) (buffer : Bytes) : Bytes :=
  ((records buffer).mapIdx (fun slot record =>
    if slot < count then
      Exception.encode ⟨(Exception.decode record).oldChunk, next + 1 + slot⟩
    else record)).flatten

/-- Where the data of those records is in the source. -/
def originals (count : Nat) (buffer : Bytes) (sourceChunks : List Nat) : List Nat :=
  (records buffer).mapIdx (fun slot record =>
    if slot < count then (Exception.decode record).newChunk else sourceChunks.getD slot 0)

def nextChunk (s : CompactSnapshot) : Except IoError CompactSnapshot :=
  if s.next = 0 then do
    let buffer ← s.source.readExactAt 0 4096
    .ok { s with buffer := buffer, next := s.next + 1, position := 0 }
  else if (s.next - 1) % 257 = 0 then do
    let buffer ← s.source.readExactAt (s.next * 4096) 4096
    .ok { s with
      sourceChunks := originals (min (s.kept - (s.next - 1) / 257 * 256) 256) buffer s.sourceChunks
      buffer := renumber s.next (min (s.kept - (s.next - 1) / 257 * 256) 256) buffer
      next := s.next + 1
      position := 0 }
  else do
    let buffer ← s.source.readExactAt (s.sourceChunks.getD ((s.next - 2) % 257) 0 * 4096) 4096
    .ok { s with buffer := buffer, next := s.next + 1, position := 0 }

/-- Copy out of the buffer what a `width`-byte read takes. -/
def copyOut (s : CompactSnapshot) (width : Nat) : Bytes × CompactSnapshot :=
  let count := min width (s.buffer.length - s.position)
  ((s.buffer.drop s.position).take count, { s with position := s.position + count })

/-- `Read::read` into a buffer of `width` bytes. -/
def read (s : CompactSnapshot) (width : Nat) : Except IoError (Bytes × CompactSnapshot) :=
  if width = 0 then .ok ([], s)
  else if s.position = s.buffer.length then
    if s.next = s.chunks then .ok ([], s)
    else do
      let s' ← s.nextChunk
      .ok (s'.copyOut width)
  else .ok (s.copyOut width)

/-- The bytes a sequence of reads returns, and the state after them. -/
def reads (s : CompactSnapshot) : List Nat → Except IoError (Bytes × CompactSnapshot)
  | [] => .ok ([], s)
  | width :: widths => do
    let (bytes, s') ← s.read width
    let (rest, s'') ← s'.reads widths
    .ok (bytes ++ rest, s'')

end CompactSnapshot

end Conglobate.Storage
