import Conglobate.Artifact.Index
import Conglobate.Input.CheckedImage

/- Content read from a directory of blobs (`cache/mod.rs`, `cache/resolve.rs`).

   A blob is read as a stream: the length its file has when it is opened, and the
   bytes its reads give. Nothing is taken from the name: what is copied has been
   hashed, and what is captured as metadata is bounded as well. SHA-256 is a
   parameter. An index, and the manifest it names, read back as the values they
   were written from.

   Correspondence (Rust ↔ Lean):
     `Cache`, as `blobs/sha256`            ↔ `Blobs`
     `Cache::blob` and the file's metadata ↔ `Blobs`, `Stream.length`
     `copy_verified`, `verify`             ↔ `copyVerified`, `verify`
     `Cache::metadata`                     ↔ `metadata`
     `HostArchitecture::matches`           ↔ `HostArchitecture.accepts`
     the choice in `Cache::resolve`        ↔ `selectManifest`
     `Cache::verify_metadata`              ↔ `verifyMetadata` -/
namespace Conglobate.Content

open Artifact

/-- An opened file: its length, and what its reads give up to the end. -/
structure Stream where
  length : Nat
  bytes : Bytes

abbrev Blobs := Digest → Except IoError Stream

abbrev Sha256 := Bytes → Hash

/-- `MAX_METADATA_BYTES`. -/
def maxMetadataBytes : Nat := 16 * 1024 * 1024

/-- The bytes of a blob of the size and digest. -/
def copyVerified (sha256 : Sha256) (blobs : Blobs) (digest : Digest) (size : UInt64) :
    Except CacheError Bytes := do
  let file ← (blobs digest).mapError CacheError.io
  if file.length ≠ size.toNat then .error (.invalid "blob size mismatch")
  else if file.bytes.length < size.toNat then .error (.invalid "blob truncated during read")
  else if size.toNat < file.bytes.length ∨ sha256 file.bytes ≠ digest.sha256 then
    .error (.invalid "blob content mismatch")
  else .ok file.bytes

/-- Copied to nowhere. -/
def verify (sha256 : Sha256) (blobs : Blobs) (digest : Digest) (size : UInt64) :
    Except CacheError Unit := do
  let _ ← copyVerified sha256 blobs digest size
  .ok ()

/-- Small content, of an expected size where there is one. -/
def metadata (sha256 : Sha256) (blobs : Blobs) (digest : Digest) (expected : Option UInt64) :
    Except CacheError Bytes := do
  let file ← (blobs digest).mapError CacheError.io
  if maxMetadataBytes < file.length ∨ expected.any (fun size => decide
    (size.toNat ≠ file.length)) then
    .error (.invalid "metadata size mismatch or limit exceeded")
  else if (file.bytes.take (file.length + 1)).length ≠ file.length then
    .error (.invalid "metadata content mismatch")
  else if sha256 (file.bytes.take (file.length + 1)) ≠ digest.sha256 then
    .error (.invalid "metadata content mismatch")
  else .ok (file.bytes.take (file.length + 1))

inductive HostArchitecture where
  | amd64
  | arm64
  deriving DecidableEq, Repr

namespace HostArchitecture

def ociName : HostArchitecture → Text
  | .amd64 => ['a', 'm', 'd', '6', '4']
  | .arm64 => ['a', 'r', 'm', '6', '4']

def pichi : Text := ['p', 'i', 'c', 'h', 'i']

def variantAllowed (a : HostArchitecture) : Option Text → Bool
  | none => true
  | some variant => variant = [] || (variant = ['v', '8'] && a = .arm64)

/-- `matches`. -/
def accepts (a : HostArchitecture) (p : Platform) : Bool :=
  p.os = pichi && p.architecture = a.ociName && a.variantAllowed p.variant

end HostArchitecture

/-- The host's only image in an index. -/
def selectManifest (a : HostArchitecture) (index : Index) : Except CacheError IndexDescriptor :=
  if index.schemaVersion ≠ 2 ∨ index.mediaType ≠ mediaTypeOciIndexV1 then
    .error (.invalid "lock must reference an OCI image index")
  else
    match index.manifests.filter (fun d => d.artifactType = some mediaTypePichiArtifactV1 &&
        d.platform.any a.accepts) with
    | [] => .error (.invalid "index has no compatible host platform")
    | _ :: _ :: _ => .error (.invalid "index has ambiguous host platform entries")
    | [selected] =>
      if selected.mediaType ≠ mediaTypeOciManifestV1 then
        .error (.invalid "selected descriptor is not an image manifest")
      else .ok selected

/-- A resolved image: its manifest as a value, and as read. -/
structure ResolvedImage where
  json : Json
  digest : Digest
  manifest : Manifest
  root : Option Hash

/-- The manifest's checks, once its bytes are there. -/
def resolveManifest (json : Json) (digest : Digest) : Except CacheError ResolvedImage := do
  let manifest ← (Manifest.ofJson json).mapError CacheError.json
  manifest.validate.mapError CacheError.manifest
  if manifest.schemaVersion ≠ 2 ∨ manifest.mediaType ≠ mediaTypeOciManifestV1 then
    .error (.invalid "invalid manifest envelope")
  else do
    let root ← manifest.carapaceRoot.mapError CacheError.manifest
    .ok ⟨json, digest, manifest, root⟩

/-- A parsed digest, or the error of the one who needed it. -/
def parseDigest (message : String) (text : Text) : Except CacheError Digest :=
  (Digest.fromStr text).mapError (fun _ => CacheError.invalid message)

/-- `Cache::resolve` of an index with one manifest. -/
def resolve (sha256 : Sha256) (blobs : Blobs) (a : HostArchitecture) (pin : Digest) (index : Index)
    (manifest : Json) :
    Except CacheError ResolvedImage := do
  let _ ← metadata sha256 blobs pin none
  let selected ← selectManifest a index
  let digest ← parseDigest "invalid manifest digest" selected.digest
  let _ ← metadata sha256 blobs digest (some selected.size)
  resolveManifest manifest digest

def verifyConfig (sha256 : Sha256) (blobs : Blobs) (config : ConfigDescriptor) :
    Except CacheError Unit :=
  if config.isEmpty then .ok ()
  else do
    let digest ← parseDigest "invalid config digest" config.digest
    verify sha256 blobs digest config.size

def verifyLayer (sha256 : Sha256) (blobs : Blobs) (l : Layer) : Except CacheError Unit :=
  if l.scute?.isSome then .ok ()
  else do
    let digest ← parseDigest "invalid layer digest" l.digestStr
    verify sha256 blobs digest l.size

/-- Every small input but the scutes. -/
def verifyMetadata (sha256 : Sha256) (blobs : Blobs) (image : ResolvedImage) :
    Except CacheError Unit := do
  verifyConfig sha256 blobs image.manifest.config
  image.manifest.layers.forM (verifyLayer sha256 blobs)

end Conglobate.Content
