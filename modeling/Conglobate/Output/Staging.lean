import Conglobate.Cache.Content
import Conglobate.Pipeline.Output

/- The private staging layout and the writes into it (`output/mod.rs`).

   Staging is its digest-named blobs, by name, and its two files beside them. A
   blob is written under the name of the digest its bytes were hashed to, or under
   the one a sealed scute was measured to have. Temporary files are left out: they
   have other names, and one that fails to become a blob is removed. What is read
   from outside, and what the file system refuses, are parameters (`Files`).

   Correspondence (Rust ↔ Lean):
     `blobs/sha256`                        ↔ `Staging.blobs`
     `write_file` of a blob                ↔ `writeBlob`
     `store_blob`, `copy_blob`             ↔ `storeBlob`, `copyBlob`
     `store_verified`, `install_scute`     ↔ `storeVerified`, `installScute`
     `remove_file`                         ↔ `removeBlob`
     `anyhow!(..)`, `ensure!(..)`          ↔ one constructor of `AssemblyError` a text -/
namespace Conglobate.Output

open Artifact Content Storage Pipeline

structure Staging where
  blobs : OrdMap Text Bytes
  index : Option Bytes
  layout : Option Bytes

namespace Staging

def empty : Staging := ⟨OrdMap.empty, none, none⟩

/-- The staged blobs, opened as a cache. -/
def read (s : Staging) : Blobs := fun digest =>
  match s.blobs.get? digest.hex with
  | some bytes => .ok ⟨bytes.length, bytes⟩
  | none => .error ⟨.other, "No such file or directory"⟩

end Staging

/-- What an assembly reads, and what is refused to it. -/
structure Files where
  sha256 : Sha256
  /-- The input cache. -/
  blob : Blobs
  /-- `FirmwareFile::reader`. -/
  firmware : FirmwareFile → Except IoError Bytes
  /-- A sealed scute's encoded stream, on its way to its name. -/
  encoded : SealedScute → Except IoError Bytes
  write : Staging → Text → Except IoError Unit
  remove : Staging → Text → Except IoError Unit

def Files.digest (w : Files) (bytes : Bytes) : Digest := ⟨w.sha256 bytes⟩

inductive AssemblyError where
  | io (error : IoError)
  | cache (error : CacheError)
  | digest (error : DigestParseError)
  /-- A manifest's bytes are no `serde_json::Value`. -/
  | json (error : JsonError)
  /-- Not an error of the source, which panics: `expect(message)`. -/
  | panicked (message : String)
  /-- "invalid manifest annotations" -/
  | annotations
  /-- A verity parameter is no number. -/
  | parameter (key : Text)
  /-- "selected root base has no scutes" -/
  | noScutes
  /-- "produced scute parent differs from selected root" -/
  | parent
  /-- "selected root hash differs from scute ancestry" -/
  | ancestry
  /-- "source chain uses incompatible verity parameter {key}" -/
  | incompatible (key : Text)
  /-- "bootconfig requires PMI" -/
  | configWithoutPmi
  /-- "unsupported Git commit algorithm" -/
  | commitAlgorithm
  /-- "context is not UTF-8" -/
  | contextText
  /-- "plan path is not UTF-8" -/
  | planText
  /-- "lock path is not UTF-8" -/
  | lockText
  /-- "build binding changed the scute graph" -/
  | rebound

section Writes
variable (w : Files)

def writeBlob (s : Staging) (digest : Digest) (bytes : Bytes) : Except AssemblyError Staging := do
  (w.write s digest.hex).mapError AssemblyError.io
  .ok { s with blobs := s.blobs.insert digest.hex bytes }

def storeBlob (s : Staging) (bytes : Bytes) :
    Except AssemblyError Staging := writeBlob w s (w.digest bytes) bytes

def copyBlob (s : Staging) (digest : Digest) (size : UInt64) : Except AssemblyError Staging := do
  let bytes ← (copyVerified w.sha256 w.blob digest size).mapError AssemblyError.cache
  writeBlob w s digest bytes

/-- A stream's bytes, when they are of the size and digest. -/
def checkStream (bytes : Bytes) (digest : Digest) (size : UInt64) : Except CacheError Unit :=
  if bytes.length < size.toNat then .error (.invalid "truncated produced scute")
  else if size.toNat < bytes.length ∨ w.sha256 bytes ≠ digest.sha256 then
    .error (.invalid "produced scute content mismatch")
  else .ok ()

def storeVerified (s : Staging) (read : Except IoError Bytes) (digest : Digest) (size : UInt64) :
    Except AssemblyError Staging := do
  let bytes ← read.mapError (fun e => AssemblyError.cache (.io e))
  (checkStream w bytes digest size).mapError AssemblyError.cache
  writeBlob w s digest bytes

def installScute (s : Staging) (scute : SealedScute) : Except AssemblyError Staging := do
  let digest ← (parseDigest "invalid produced scute digest" scute.descriptor.digest).mapError
    AssemblyError.cache
  let bytes ← (w.encoded scute).mapError (fun e => AssemblyError.cache (.io e))
  writeBlob w s digest bytes

def removeBlob (s : Staging) (digest : Digest) : Except AssemblyError Staging :=
  if s.blobs.contains digest.hex then do
    (w.remove s digest.hex).mapError AssemblyError.io
    .ok { s with blobs := s.blobs.erase digest.hex }
  else .error (.io ⟨.other, "No such file or directory"⟩)

end Writes

end Conglobate.Output
