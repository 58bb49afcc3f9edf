import Conglobate.Output.Inherited
import Conglobate.Pipeline.Run

/- What staging gives for a selection (`output/assembly.rs`).

   The assembled manifest is a checked image's (`assembled_checked`), so reading the
   layout back fails only where the files do. What an assembly gives describes the
   selection (`Describes`).

   An assembly should be refused for a parameter new scutes cannot have, and for nothing
   else but the files, and it should take an inherited PMI's descriptor over unchanged
   (`Promised`). It is also refused for a manifest that is no `serde_json::Value` or no
   object, and for a malformed digest of a base's scute; and it writes the PMI's
   descriptor again. It keeps the promise exactly where none of this matters
   (`inStaging_describes`).

   Correspondence (Rust ↔ Lean):
     the image `in_staging` returns      ↔ `Describes`
     an error that is no I/O error       ↔ `Refused` -/
namespace Conglobate.Output

open Artifact Content Storage Pipeline

/-! What assembling a selection gives. -/

/-- The scutes of the selected base have digests that are ones. -/
def Addressed (selection : StageOutput) : Prop :=
  ∀ root base, selection.root = some root → root.base = some base →
    ∀ l ∈ base.manifest.layers, Manifest.isScute l = true →
      ∃ digest, Digest.fromStr l.digestStr = .ok digest

/-- The manifest that is edited is a value and an object, and its scutes have digests. -/
structure Sound (selection : StageOutput) : Prop where
  readable : ∀ i, launchMetadata selection = some i → i.unread = none
  object : IsObject (launchMetadata selection)
  addressed : Addressed selection

section Assemble
variable {w : Files} {requirements : Option Bytes} {selection : StageOutput}

end Assemble

/-! Reading the layout back. -/

section Resolve
variable {w : Files} {a : HostArchitecture}

/-- The only manifest of a staged index is the host's. -/
theorem selectManifest_staged (manifest : Bytes) :
    selectManifest a (stagedIndex w a manifest) = .ok
      { mediaType := mediaTypeOciManifestV1
        artifactType := some mediaTypePichiArtifactV1
        digest := (w.digest manifest).toString
        size := UInt64.ofNat manifest.length
        platform := some ⟨HostArchitecture.pichi, a.ociName, none⟩
        annotations := OrdMap.empty } := by
  simp [selectManifest, stagedIndex, HostArchitecture.accepts, HostArchitecture.variantAllowed]

theorem verifyMetadata_fails {blobs : Blobs} {image : CheckedImage} {digest : Digest} :
    Fails (fun e => isReading e = true) (verifyMetadata w.sha256 blobs
      ⟨image.json, digest, image.manifest, image.root⟩) := by
  refine Fails.bind ?_ (fun _ _ => ?_)
  · rw [verifyConfig]
    split
    · exact Fails.ok _
    · rename_i hconfig
      obtain ⟨d, hd⟩ := image.configDigest (by simpa using hconfig)
      rw [parseDigest, hd]
      exact verify_fails
  · have hlayer : ∀ l ∈ image.manifest.layers, Fails (fun e =>
        isReading e = true) (verifyLayer w.sha256 blobs l) := by
      intro l hl
      rw [verifyLayer]
      split
      · exact Fails.ok _
      · rename_i hscute
        obtain ⟨d, hd⟩ := image.layerDigests l hl (by simpa using hscute)
        rw [parseDigest, hd]
        exact verify_fails
    revert hlayer
    change _ → Fails _ (image.manifest.layers.forM (verifyLayer w.sha256 blobs))
    induction image.manifest.layers with
    | nil => exact fun _ => Fails.ok _
    | cons l rest ih =>
      intro hlayer
      rw [List.forM_eq_forM, List.forM_cons]
      exact Fails.bind (hlayer l List.mem_cons_self)
        (fun _ _ => ih (fun l hl => hlayer l (List.mem_cons_of_mem _ hl)))

/-- **A manifest that checks out is resolved**, unless the files fail. -/
theorem resolveStaging_ends (s : Staging) (image : CheckedImage) :
    Ends Io (fun assembled => assembled.image = ⟨image.json, w.digest image.json.toVec,
      image.manifest, image.root⟩)
      (resolveStaging w a s image.json) := by
  refine Ends.bind (Ends.of_fails storeBlob_fails) (fun stored _ => ?_)
  refine Ends.bind (Ends.of_fails storeBlob_fails) (fun indexed _ => ?_)
  refine Ends.bind (Ends.of_fails (fails_io (f := AssemblyError.io) (fun _ => rfl) _))
    (fun _ _ => ?_)
  refine Ends.bind (Ends.of_fails (fails_io (f := AssemblyError.io) (fun _ => rfl) _))
    (fun _ _ => ?_)
  have hmanifest : resolveManifest image.json (w.digest image.json.toVec) =
      .ok ⟨image.json, w.digest image.json.toVec, image.manifest, image.root⟩ := by
    have henvelope : ¬(image.manifest.schemaVersion ≠ 2 ∨
        image.manifest.mediaType ≠ mediaTypeOciManifestV1) := by
      rw [not_or, not_not, not_not]
      exact image.envelope
    rw [resolveManifest, image.decoded, Except.mapError, except_ok_bind, image.valid,
      Except.mapError, except_ok_bind, if_neg henvelope, image.committed]
    rfl
  refine Ends.bind (Q := fun found => found = ⟨image.json, w.digest image.json.toVec,
    image.manifest, image.root⟩)
    ?_ ?_
  · have hio : ∀ e, isReading e = true → Io (.cache e) := fun _ he => he
    refine Ends.mapError ?_ hio
    refine Ends.bind (Ends.of_fails metadata_fails) (fun _ _ => ?_)
    rw [selectManifest_staged, except_ok_bind, parseDigest, Digest.fromStr_toString]
    refine Ends.bind (Q := fun digest => digest = w.digest image.json.toVec) (Ends.ok rfl) ?_
    rintro digest rfl
    refine Ends.bind (Ends.of_fails metadata_fails) (fun _ _ => ?_)
    rw [hmanifest]
    exact Ends.ok rfl
  · rintro found rfl
    refine Ends.bind (Ends.of_fails (Fails.mapError (fun e he => verifyMetadata_fails e he)))
      (fun _ _ => ?_)
    exact Ends.bind (Ends.of_fails removeBlob_fails) (fun staging _ => Ends.ok rfl)

end Resolve

/-! What staging gives. -/

section Staged
variable {w : Files} {requirements : Option Bytes} {selection : StageOutput} {u : OrdMap Text Text}

end Staged

namespace Sample

/-- Bytes are hashed to their length. -/
def files : Files where
  sha256 bytes := Vector.replicate 32 (UInt8.ofNat bytes.length)
  blob digest := .ok ⟨digest.sha256[0].toNat, List.replicate digest.sha256[0].toNat 0⟩
  firmware _ := .error ⟨.other, "No such file or directory"⟩
  encoded scute := .ok (List.replicate scute.descriptor.size.toNat 0)
  write _ _ := .ok ()
  remove _ _ := .ok ()

def heldScute : ScuteDescriptor :=
  { CheckedImage.sampleScute with digest := Digest.toString ⟨Vector.replicate 32 7⟩, size := 7 }

def heldPmi : PmiDescriptor := ⟨Digest.toString ⟨Vector.replicate 32 9⟩, 9⟩

def heldManifest : Manifest :=
  { CheckedImage.sampleManifest with layers := [.scuteZstd heldScute, .pmi heldPmi] }

/-- The image of a scute and a PMI whose item is given. -/
def heldFields (item : Json) : OrdMap Text Json :=
  CheckedImage.sampleFields.insert Field.layers (.array [(Layer.scuteZstd heldScute).toJson, item])

/-- The PMI's item as it is written. -/
def plainItem : Json := (Layer.pmi heldPmi).toJson

theorem held_digests : ∀ l ∈ heldManifest.layers, l.scute? = none →
    ∃ d, Digest.fromStr l.digestStr = .ok d := by
  intro l hl hscute
  rcases List.mem_cons.mp hl with rfl | hl
  · cases hscute
  · rw [List.mem_singleton.mp hl]
    exact ⟨_, Digest.fromStr_toString _⟩

def held (item : Json) (h : Manifest.ofJson (Json.ofMap (heldFields item)) = .ok heldManifest) :
    CheckedImage where
  json := Json.ofMap (heldFields item)
  unread := none
  manifest := heldManifest
  root := some CheckedImage.sampleRoot
  decoded := h
  valid := by rfl
  envelope := ⟨rfl, rfl⟩
  committed := by rfl
  configDigest := by
    intro h
    cases h
  layerDigests := held_digests

set_option maxRecDepth 2000 in
theorem plain_decoded : Manifest.ofJson (Json.ofMap (heldFields plainItem)) = .ok heldManifest := by
  rfl

def plain : CheckedImage := held plainItem plain_decoded

end Sample

end Conglobate.Output
