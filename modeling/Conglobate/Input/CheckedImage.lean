import Conglobate.Artifact.ManifestProps
import Conglobate.Image
import Conglobate.Planner.Order

/- Resolved inputs (`input/mod.rs`, `cache/resolve.rs`, `firmware/output.rs`).

   A `CheckedImage` carries what resolving and verifying it established: its
   manifest is the reading of its JSON, valid, in the OCI envelope, and every blob
   but a scute's has a well-formed digest. A typed reading skips the members it does not
   know; a reading as a `serde_json::Value` does not, and refuses there what a value
   cannot hold (a number out of range, half a surrogate pair, deep nesting), so it may
   fail on the same bytes (`unread`). A `ResolvedBuild` holds an image for every
   remote input of its plan. The architecture of an image, file handles and the
   cache's directory are left out: a cache is what reading metadata from it gives.

   Correspondence (Rust ↔ Lean):
     `ResolvedImage`, `CheckedImage`      ↔ `CheckedImage`
     `image.manifest_bytes()`             ↔ `CheckedImage.json`
     `from_slice::<serde_json::Value>` of them ↔ `CheckedImage.value`
     `plan.remote_sources()`              ↔ `Plan.remoteSources`
     `BuildGraph::execution_required`     ↔ `Plan.executionRequired` -/
namespace Conglobate

open Artifact

inductive CacheError where
  /-- "invalid OCI JSON: {0}" -/
  | json (error : JsonError)
  /-- "invalid artifact manifest: {0}" -/
  | manifest (error : ManifestValidationError)
  /-- "cache I/O: {0}" -/
  | io (error : IoError)
  /-- "invalid cache content: {0}" -/
  | invalid (message : String)
  deriving DecidableEq, Repr

/-- What `Cache::metadata` reads. -/
structure Cache where
  metadata : Digest → Option UInt64 → Except CacheError Bytes

/-- One locked image with authenticated metadata. -/
structure CheckedImage where
  json : Json
  /-- Why the bytes are no `serde_json::Value`, if they are none. -/
  unread : Option JsonError
  manifest : Manifest
  root : Option Hash
  decoded : Manifest.ofJson json = .ok manifest
  valid : manifest.validate = .ok ()
  envelope : manifest.schemaVersion = 2 ∧ manifest.mediaType = mediaTypeOciManifestV1
  committed : manifest.carapaceRoot = .ok root
  configDigest : manifest.config.isEmpty = false →
    ∃ d, Digest.fromStr manifest.config.digest = .ok d
  layerDigests : ∀ l ∈ manifest.layers, l.scute? = none → ∃ d, Digest.fromStr l.digestStr = .ok d

namespace CheckedImage

/-- The manifest's bytes, read as a `serde_json::Value`. -/
def value (i : CheckedImage) : Except JsonError Json :=
  match i.unread with
  | none => .ok i.json
  | some error => .error error

/-- The first PMI layer. -/
def pmiLayer (i : CheckedImage) : Option Layer := i.manifest.layers.find? Layer.isPmi

/-- The descriptor of the first boot configuration layer. -/
def bootConfigDescriptor (i : CheckedImage) : Option BootConfigDescriptor :=
  i.manifest.layers.findSome? (fun l =>
    match l with
    | .bootConfig d => some d
    | _ => none)

/-- The bytes of a descriptor's blob. -/
def readBootConfig (cache : Cache) (d : BootConfigDescriptor) : Except CacheError Bytes :=
  match Digest.fromStr d.digest with
  | .ok digest => cache.metadata digest (some d.size)
  | .error _ => .error (.invalid "invalid bootconfig digest")

/-- Capture selected native config. -/
def bootconfig (i : CheckedImage) (cache : Cache) : Except CacheError (Option Bytes) :=
  match i.bootConfigDescriptor with
  | none => .ok none
  | some d => some <$> readBootConfig cache d

/-! An image of one scute and a PMI. -/

def sampleRoot : Hash := Vector.replicate 32 17

/-- A base scute of one block, sealed on nothing. -/
def sampleScute : ScuteDescriptor where
  digest := Digest.toString ⟨Vector.replicate 32 34⟩
  size := 4096
  annotations := ⟨⟨1, by decide⟩, Hex.encode (List.replicate 64 0)⟩

def samplePmi : PmiDescriptor := ⟨Digest.toString ⟨Vector.replicate 32 51⟩, 9⟩

def sampleManifest : Manifest where
  schemaVersion := 2
  mediaType := mediaTypeOciManifestV1
  artifactType := mediaTypePichiArtifactV1
  config := .canonical
  layers := [.scute sampleScute, .pmi samplePmi]
  annotations := OrdMap.empty.insert carapaceRootAnnotation (Digest.toString ⟨sampleRoot⟩)

def sampleFields : OrdMap Text Json :=
  (((((OrdMap.empty.insert Field.schemaVersion (Json.natural 2)).insert Field.mediaType
    (Json.string mediaTypeOciManifestV1)).insert Field.artifactType
      (Json.string mediaTypePichiArtifactV1)).insert
    Field.config ConfigDescriptor.canonical.toJson).insert Field.layers
    (Json.array [(Layer.scute sampleScute).toJson,
      (Layer.pmi samplePmi).toJson])).insert Field.annotations
    (Json.object [( carapaceRootAnnotation, .string (Digest.toString ⟨sampleRoot⟩))])

theorem sample_decoded : Manifest.ofJson (Json.ofMap sampleFields) = .ok sampleManifest := by rfl

theorem sample_valid : sampleManifest.validate = .ok () := by rfl

theorem sample_root : sampleManifest.carapaceRoot = .ok (some sampleRoot) := by rfl

def sample : CheckedImage where
  json := Json.ofMap sampleFields
  unread := none
  manifest := sampleManifest
  root := some sampleRoot
  decoded := sample_decoded
  valid := sample_valid
  envelope := ⟨rfl, rfl⟩
  committed := sample_root
  configDigest := by
    intro h
    cases h
  layerDigests := by
    intro l hl hscute
    rcases List.mem_cons.mp hl with rfl | hl
    · cases hscute
    · rw [List.mem_singleton.mp hl]
      exact ⟨_, Digest.fromStr_toString _⟩

end CheckedImage

namespace Planner

/-- The sources of the stages in order, with their bootstrap marks, then the image's. -/
def Plan.remoteSources (p : Plan) : List (Plan.Remote × Bool) :=
  (p.order.filterMap p.stages.get?).filterMap (fun stage => remote stage.source stage.bootstrap) ++
    p.image.sources.filterMap (fun source => remote source false)
where
  remote : Plan.ImageRef → Bool → Option (Plan.Remote × Bool)
    | .remote remote, bootstrap => some (remote, bootstrap)
    | .stage _, _ => none

def Plan.commandsRequired (p : Plan) : Bool := !p.order.isEmpty

def Plan.rootReaderRequired (p : Plan) : Bool :=
  match p.image with
  | .components _ (some (.extract _ _)) => true
  | _ => false

def Plan.executionRequired (p : Plan) : Bool := p.commandsRequired || p.rootReaderRequired

end Planner

/-- A plan with every input resolved. -/
structure ResolvedBuild where
  plan : Planner.Plan
  images : OrdMap ImageReference CheckedImage
  cache : Cache
  resolved : ∀ input ∈ plan.remoteSources, (images.get? (ImageReference.ofRemote input.1)).isSome

end Conglobate
