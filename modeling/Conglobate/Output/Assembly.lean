import Conglobate.Output.Staging

/- Assembly of the selected components (`output/assembly.rs`).

   The manifest is edited as a value: what is not replaced stays as the base has
   it. `assemble` is everything up to the manifest, with the blobs it refers to;
   `resolveStaging` writes a manifest with its index and checks the layout as an
   input would be; `bindBuild` replaces the build annotations and the manifest.

   A launch contract arrives as the bytes of its blob. Paths of a request are
   their texts, where they have one.

   Correspondence (Rust ↔ Lean):
     the closure of `in_staging`         ↔ `assemble`, then `resolveStaging`
     `metadata`                          ↔ `launchMetadata`
     `from_slice`, or the `json!` template ↔ `readManifest`
     `as_object_mut().expect(..)`        ↔ `startFields`, `objectFields`
     `layers`, with the staged blobs     ↔ `Draft`
     one round of the loop over the base ↔ `copyScute`
     one round over `root.produced`      ↔ `addScute`
     one round over `verity_defaults`    ↔ `dropDefault`
     `set_tip_annotation`                ↔ `setTip`
     `original["layers"][index]`         ↔ `originalLayer`
     `request`, `build` of `bind_build`  ↔ `BuildRecord` -/
namespace Conglobate.Output

open Artifact Content Storage Pipeline

/-! The manifest's parts. -/

/-- `verity_defaults`. -/
def verityDefaults : List (Text × Nat) :=
  [(verityDataBlockSize, 4096), (verityHashBlockSize, 4096), (verityVersion, 1),
    (verityHashType, 1)]

/-- "dev.pichi.carapace." -/
def carapacePrefix : Text := "dev.pichi.carapace.".toList

/-- "{}" -/
def emptyConfig : Bytes := [123, 125]

/-- The image the launch metadata is taken from. -/
def launchMetadata (selection : StageOutput) : Option CheckedImage :=
  match selection.root with
  | some root => root.base
  | none => selection.pmi.bind Pmi.image

/-- A manifest without layers. -/
def template : OrdMap Text Json :=
  ((((OrdMap.empty.insert Field.schemaVersion (Json.natural 2)).insert Field.mediaType
    (.string mediaTypeOciManifestV1)).insert Field.artifactType
      (.string mediaTypePichiArtifactV1)).insert
    Field.config ConfigDescriptor.canonical.toJson).insert Field.layers (.array [])

/-- The manifest that is edited. -/
def readManifest : Option CheckedImage → Except AssemblyError Json
  | none => .ok (Json.ofMap template)
  | some image => image.value.mapError AssemblyError.json

/-- The members of a manifest, which is taken for an object. -/
def startFields (manifest : Json) : Except AssemblyError (OrdMap Text Json) :=
  match manifest with
  | .object fields => .ok (Json.fieldMap fields)
  | _ => .error (.panicked "manifest object")

/-- `entry("annotations").or_insert_with(..)`. -/
def annotationsOf (fields : OrdMap Text Json) : Except AssemblyError (OrdMap Text Json) :=
  match fields.get? Field.annotations with
  | none => .ok OrdMap.empty
  | some (.object annotations) => .ok (Json.fieldMap annotations)
  | some _ => .error .annotations

/-- Without a root, nothing of a carapace is kept. -/
def keepAnnotations (selection : StageOutput) (annotations : OrdMap Text Json) : OrdMap Text Json :=
  if selection.root.isNone then
    annotations.filter (fun e => !e.1.startsWith carapacePrefix)
  else
    annotations

def parameterValue (annotations : OrdMap Text Json) (key : Text) :
    Except AssemblyError (Option Nat) :=
  match annotations.get? key with
  | none => .ok none
  | some (.string value) =>
    match Decimal.parseUnsigned 32 value with
    | some n => .ok (some n)
    | none => .error (.parameter key)
  | some _ => .error (.panicked "validated annotation")

/-- An explicit default is dropped; new scutes need the default. -/
def dropDefault (root : Root) (annotations : OrdMap Text Json) (p : Text × Nat) :
    Except AssemblyError (OrdMap Text Json) := do
  let value ← parameterValue annotations p.1
  if root.base.isSome && !root.produced.isEmpty && value.getD p.2 != p.2 then
    .error (.incompatible p.1)
  else .ok (if value = some p.2 then annotations.erase p.1 else annotations)

def setTip (root : Hash) (annotations : OrdMap Text Json) : OrdMap Text Json :=
  (annotations.erase verityAlgo).insert carapaceRootAnnotation (.string (Digest.toString ⟨root⟩))

def rootAnnotations (root : Root) (annotations : OrdMap Text Json) :
    Except AssemblyError (OrdMap Text Json) := do
  let annotations ← verityDefaults.foldlM (dropDefault root) annotations
  .ok (setTip root.hash annotations)

def selectedAnnotations (selection : StageOutput) (annotations : OrdMap Text Json) :
    Except AssemblyError (OrdMap Text Json) :=
  match selection.root with
  | none => .ok annotations
  | some root => rootAnnotations root annotations

/-! The layers. -/

/-- The layers so far, and what is staged. -/
structure Draft where
  staging : Staging
  layers : List Json

/-- The items of a manifest's layers. -/
def originalLayers (j : Json) : List Json :=
  match j with
  | .object fields =>
    match (Json.fieldMap fields).get? Field.layers with
    | some (.array items) => items
    | _ => []
  | _ => []

def originalLayer (base : CheckedImage) (index : Nat) :
    Json := ((originalLayers base.json)[index]?).getD .null

section Assemble
variable (w : Files)

def storeConfig (s : Staging) (requirements : Option Bytes) (image : Option CheckedImage) :
    Except AssemblyError Staging :=
  match requirements with
  | some bytes => storeBlob w s bytes
  | none =>
    match image.filter (fun image => !image.manifest.config.isEmpty) with
    | some image => do
      let digest ← (Digest.fromStr image.manifest.config.digest).mapError AssemblyError.digest
      copyBlob w s digest image.manifest.config.size
    | none => storeBlob w s emptyConfig

/-- Requirements replace the config. -/
def replaceConfig (requirements : Option Bytes) (fields : OrdMap Text Json) : OrdMap Text Json :=
  match requirements with
  | some bytes =>
    fields.insert Field.config (ConfigDescriptor.forConfig (w.digest bytes).toString
      (UInt64.ofNat bytes.length)).toJson
  | none => fields

def copyScute (base : CheckedImage) (d : Draft) (layer : Layer × Nat) :
    Except AssemblyError Draft :=
  if layer.1.scute?.isSome then do
    let digest ← (Digest.fromStr layer.1.digestStr).mapError AssemblyError.digest
    let staging ← copyBlob w d.staging digest layer.1.size
    .ok ⟨staging, d.layers ++ [originalLayer base layer.2]⟩
  else .ok d

def copyBase (base : Option CheckedImage) (d : Draft) : Except AssemblyError Draft :=
  match base with
  | none => .ok d
  | some image => image.manifest.layers.zipIdx.foldlM (copyScute w image) d

def baseParent : Option CheckedImage → Except AssemblyError Hash
  | none => .ok zeroHash
  | some image =>
    match image.root with
    | some root => .ok root
    | none => .error .noScutes

/-- One produced scute, on the root so far. -/
def addScute (st : Hash × Draft) (scute : SealedScute) : Except AssemblyError (Hash × Draft) :=
  if scute.parent ≠ st.1 then .error .parent
  else do
    let staging ← installScute w st.2.staging scute
    .ok (scute.root, ⟨staging, st.2.layers ++ [(Layer.scuteZstd scute.descriptor).toJson]⟩)

def addRoot (root : Root) (d : Draft) : Except AssemblyError Draft := do
  let copied ← copyBase w root.base d
  let parent ← baseParent root.base
  let added ← root.produced.foldlM (addScute w) (parent, copied)
  if added.1 ≠ root.hash then .error .ancestry else .ok added.2

def addSelectedRoot (selection : StageOutput) (d : Draft) : Except AssemblyError Draft :=
  match selection.root with
  | none => .ok d
  | some root => addRoot w root d

/-- `Pmi::store`. -/
def storePmi (s : Staging) (pmi : Pmi) : Except AssemblyError Staging := do
  let digest ← (Digest.fromStr pmi.layer.digestStr).mapError AssemblyError.digest
  match pmi with
  | .inherited _ _ => copyBlob w s digest pmi.layer.size
  | .file firmware => storeVerified w s (w.firmware firmware) digest pmi.layer.size

def addPmi (selection : StageOutput) (d : Draft) : Except AssemblyError Draft :=
  match selection.pmi with
  | none => .ok d
  | some pmi => do
    let staging ← storePmi w d.staging pmi
    .ok ⟨staging, d.layers ++ [pmi.layer.toJson]⟩

/-- The layer of a configuration's bytes. -/
def bootConfigLayer (bytes : Bytes) : Layer :=
  .bootConfig ⟨(w.digest bytes).toString, UInt64.ofNat bytes.length⟩

def addBootConfig (selection : StageOutput) (d : Draft) : Except AssemblyError Draft :=
  match selection.bootconfig.filter (fun config => !config.bytes.isEmpty) with
  | none => .ok d
  | some config =>
    if selection.pmi.isNone then .error .configWithoutPmi
    else do
      let staging ← storeBlob w d.staging config.bytes
      .ok ⟨staging, d.layers ++ [(bootConfigLayer w config.bytes).toJson]⟩

/-- A manifest and the blobs it refers to. -/
structure Assembly where
  staging : Staging
  fields : OrdMap Text Json

def Assembly.manifest (a : Assembly) : Json := Json.ofMap a.fields

/-- The staging up to the manifest. -/
def assemble (requirements : Option Bytes) (selection : StageOutput) :
    Except AssemblyError Assembly := do
  let manifest ← readManifest (launchMetadata selection)
  let staging ← storeConfig w .empty requirements (launchMetadata selection)
  let fields ← startFields manifest
  let inherited ← annotationsOf (replaceConfig w requirements fields)
  let rooted ← addSelectedRoot w selection ⟨staging, []⟩
  let annotations ← selectedAnnotations selection (keepAnnotations selection inherited)
  let booted ← addPmi w selection rooted
  let draft ← addBootConfig w selection booted
  .ok ⟨draft.staging, ((replaceConfig w requirements fields).insert Field.annotations
    (Json.ofMap annotations)).insert
    Field.layers (.array draft.layers)⟩

/-! The layout. -/

/-- The index that names a staged manifest. -/
def stagedIndex (a : HostArchitecture) (manifest : Bytes) : Index where
  schemaVersion := 2
  mediaType := mediaTypeOciIndexV1
  manifests :=
    [{ mediaType := mediaTypeOciManifestV1
       artifactType := some mediaTypePichiArtifactV1
       digest := (w.digest manifest).toString
       size := UInt64.ofNat manifest.length
       platform := some ⟨HostArchitecture.pichi, a.ociName, none⟩
       annotations := OrdMap.empty }]

/-- `LayoutMarker::default()`. -/
def layoutMarker : Json := .object [("imageLayoutVersion".toList, .string "1.0.0".toList)]

/-- `AssembledImage`. -/
structure AssembledImage where
  staging : Staging
  image : ResolvedImage

def resolveStaging (a : HostArchitecture) (s : Staging) (manifest : Json) :
    Except AssemblyError AssembledImage := do
  let index := stagedIndex w a manifest.toVec
  let stored ← storeBlob w s manifest.toVec
  let indexed ← storeBlob w stored index.toJson.toVec
  (w.write indexed "index.json".toList).mapError AssemblyError.io
  (w.write indexed "oci-layout".toList).mapError AssemblyError.io
  let staged : Staging :=
    { indexed with index := some index.toJson.toVec, layout := some layoutMarker.toVec }
  let image ← (resolve w.sha256 staged.read a (w.digest index.toJson.toVec) index manifest).mapError
    AssemblyError.cache
  (verifyMetadata w.sha256 staged.read image).mapError AssemblyError.cache
  -- the index is the entry point and no blob of its own manifest
  let staging ← removeBlob w staged (w.digest index.toJson.toVec)
  .ok ⟨staging, image⟩

def inStaging (a : HostArchitecture) (requirements : Option Bytes) (selection : StageOutput) :
    Except AssemblyError AssembledImage := do
  let assembly ← assemble w requirements selection
  resolveStaging w a assembly.staging assembly.manifest

/-! The build binding. -/

/-- "dev.pichi.build." -/
def buildPrefix : Text := "dev.pichi.build.".toList

inductive CommitKind where
  | sha1
  | sha256
  | other
  deriving DecidableEq, Repr

/-- What a build is bound to: its commit, the texts of its paths, its marks. -/
structure BuildRecord where
  kind : CommitKind
  commit : Text
  context : Option Text
  plan : Option Text
  lock : Option (Option Text)
  bootstrapped : Bool
  location : Option Text

def commitAlgorithm : CommitKind → Except AssemblyError Text
  | .sha1 => .ok ['s', 'h', 'a', '1']
  | .sha256 => .ok ['s', 'h', 'a', '2', '5', '6']
  | .other => .error .commitAlgorithm

/-- A path's text, or the error of the one who needed it. -/
def pathText (e : AssemblyError) : Option Text → Except AssemblyError Text
  | some text => .ok text
  | none => .error e

def lockAnnotations : Option (Option Text) → Except AssemblyError (List (Text × Text))
  | none => .ok []
  | some path => do
    let path ← pathText .lockText path
    .ok [("lock".toList, path)]

/-- The keys below the prefix, with their values. -/
def buildAnnotations (b : BuildRecord) : Except AssemblyError (List (Text × Text)) := do
  let algorithm ← commitAlgorithm b.kind
  let context ← pathText .contextText b.context
  let plan ← pathText .planText b.plan
  let lock ← lockAnnotations b.lock
  .ok ([("commit".toList, algorithm ++ ':' :: b.commit),
      ("context".toList, if context = [] then ['.'] else context),
      ("plan".toList, plan)] ++ lock ++
    (if b.bootstrapped then [("bootstrapped".toList, "true".toList)] else []) ++
    b.location.toList.map (fun location => ("location".toList, location)))

/-- The old binding is dropped whole. -/
def bindAnnotations (annotations : OrdMap Text Json) (entries : List (Text × Text)) :
    OrdMap Text Json :=
  entries.foldl (fun m e => m.insert (buildPrefix ++ e.1) (.string e.2))
    (annotations.filter (fun e => !e.1.startsWith buildPrefix))

def objectFields : Json → Except AssemblyError (OrdMap Text Json)
  | .object fields => .ok (Json.fieldMap fields)
  | _ => .error (.panicked "validated manifest")

def bindBuild (a : HostArchitecture) (b : BuildRecord) (assembled : AssembledImage) :
    Except AssemblyError AssembledImage := do
  let fields ← objectFields assembled.image.json
  let inherited ← annotationsOf fields
  let entries ← buildAnnotations b
  let manifest := Json.ofMap (fields.insert Field.annotations
    (Json.ofMap (bindAnnotations inherited entries)))
  let bound ← resolveStaging w a assembled.staging manifest
  if assembled.image.root ≠ bound.image.root then .error .rebound
  else if assembled.image.digest ≠ w.digest manifest.toVec then do
    let staging ← removeBlob w bound.staging assembled.image.digest
    .ok { bound with staging := staging }
  else .ok bound

end Assemble

end Conglobate.Output
