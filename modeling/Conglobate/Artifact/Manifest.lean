import Conglobate.Artifact.Digest
import Conglobate.Lib.Flow

/- The image manifest (`artifact/manifest.rs`, `artifact/media_type.rs`,
   `artifact/boot_config_descriptor.rs`): its schema, how it is read from JSON, and
   its validation.

   Fields of `u64` are `UInt64` and a data-block count is nonzero by its type, so
   no descriptor that could not be read can be built. A layer written as JSON
   reads back (`Layer.ofJson_toJson`).

   Correspondence (Rust ↔ Lean):
     `Deserialize`, `Serialize`      ↔ `ofJson`, `toJson`
     `Layer`'s `mediaType` tag       ↔ `Layer.mediaTypeStr`
     `Manifest::validate`            ↔ `checkArtifactType`, `checkConfig`, `carapaceRoot`,
                                       `checkParameters`, `checkCounts`, `checkScute` in turn
     `layers.iter().any(matches!(..))` ↔ `hasScutes` -/
namespace Conglobate.Artifact

/-! Wire strings. -/

def mediaTypePichiArtifactV1 : Text := "application/vnd.pichi.artifact.v1+json".toList
def mediaTypePichiScuteV1 : Text := "application/vnd.pichi.scute.v1".toList
def mediaTypePichiScuteV1Zstd : Text := "application/vnd.pichi.scute.v1+zstd".toList
def mediaTypePichiPmiV1 : Text := "application/vnd.pichi.pmi.v1".toList
def mediaTypePichiPmiV1Zstd : Text := "application/vnd.pichi.pmi.v1+zstd".toList
def mediaTypePichiBootconfigV1Zstd : Text := "application/vnd.pichi.bootconfig.v1+zstd".toList
def mediaTypePichiConfigV1 : Text := "application/vnd.pichi.config.v1+json".toList
def mediaTypeOciEmptyV1 : Text := "application/vnd.oci.empty.v1+json".toList
def mediaTypeOciManifestV1 : Text := "application/vnd.oci.image.manifest.v1+json".toList

def verityAlgo : Text := "dev.pichi.carapace.verity.algo".toList
def verityDataBlockSize : Text := "dev.pichi.carapace.verity.data-block-size".toList
def verityHashBlockSize : Text := "dev.pichi.carapace.verity.hash-block-size".toList
def verityVersion : Text := "dev.pichi.carapace.verity.version".toList
def verityHashType : Text := "dev.pichi.carapace.verity.hash-type".toList

/-- `CARAPACE_ROOT_ANNOTATION`. -/
def carapaceRootAnnotation : Text := "dev.pichi.carapace.verity.hash".toList

def scuteDataBlocks : Text := "dev.pichi.scute.verity.data-blocks".toList
def scuteSalt : Text := "dev.pichi.scute.verity.salt".toList

def emptyConfigDigest : Text :=
  "sha256:44136fa355b3678a1146ad16f7e8649e94fb4fc21fe77e8310c060f61caaff8a".toList
def emptyConfigDataBase64 : Text := "e30=".toList

namespace Field

def schemaVersion : Text := "schemaVersion".toList
def mediaType : Text := "mediaType".toList
def artifactType : Text := "artifactType".toList
def config : Text := "config".toList
def layers : Text := "layers".toList
def annotations : Text := "annotations".toList
def digest : Text := "digest".toList
def size : Text := "size".toList
def data : Text := "data".toList

end Field

/-! The config descriptor. -/

structure ConfigDescriptor where
  mediaType : Text
  digest : Text
  size : UInt64
  data : Option Text
  deriving DecidableEq, Repr

namespace ConfigDescriptor

/-- The OCI 1.1 empty-config descriptor. -/
def canonical : ConfigDescriptor :=
  ⟨mediaTypeOciEmptyV1, emptyConfigDigest, 2, some emptyConfigDataBase64⟩

def forConfig (digest : Text) (size : UInt64) :
    ConfigDescriptor := ⟨mediaTypePichiConfigV1, digest, size, none⟩

def isEmpty (c : ConfigDescriptor) : Bool := c.mediaType == mediaTypeOciEmptyV1

/-- An absent or null `data` is none. -/
def dataOfJson : Option Json → Except JsonError (Option Text)
  | none => .ok none
  | some .null => .ok none
  | some j => some <$> j.asString

def ofJson (j : Json) : Except JsonError ConfigDescriptor := do
  let m ← j.asStruct [Field.mediaType, Field.digest, Field.size, Field.data]
  let mediaType ← (← Json.field m Field.mediaType).asString
  let digest ← (← Json.field m Field.digest).asString
  let size ← (← Json.field m Field.size).asUnsigned 64
  let data ← dataOfJson (m.get? Field.data)
  .ok ⟨mediaType, digest, UInt64.ofNat size, data⟩

def fields (c : ConfigDescriptor) : OrdMap Text Json :=
  let m := ((OrdMap.empty.insert Field.mediaType (Json.string c.mediaType)).insert Field.digest
    (Json.string c.digest)).insert Field.size (Json.natural c.size.toNat)
  match c.data with
  | some data => m.insert Field.data (.string data)
  | none => m

def toJson (c : ConfigDescriptor) : Json := Json.ofMap c.fields

end ConfigDescriptor

/-! Layers. -/

/-- `NonZeroU64`. -/
abbrev NonZeroU64 := { n : UInt64 // n ≠ 0 }

structure ScuteAnnotations where
  dataBlocks : NonZeroU64
  salt : Text
  deriving DecidableEq

namespace ScuteAnnotations

/-- `deserialize_blocks`. -/
def deserializeBlocks (j : Json) : Except JsonError NonZeroU64 := do
  let value ← j.asString
  match (Decimal.parseDigits value).filter (· < 2 ^ 64) with
  | some n => if h : UInt64.ofNat n ≠ 0 then .ok ⟨UInt64.ofNat n, h⟩ else .error .invalidValue
  | none => .error .invalidValue

/-- `serialize_blocks`. -/
def serializeBlocks (blocks : NonZeroU64) : Json := .string (Decimal.write blocks.val.toNat)

def ofJson (j : Json) : Except JsonError ScuteAnnotations := do
  let m ← j.asStruct [scuteDataBlocks, scuteSalt]
  let dataBlocks ← deserializeBlocks (← Json.field m scuteDataBlocks)
  let salt ← (← Json.field m scuteSalt).asString
  .ok ⟨dataBlocks, salt⟩

def toJson (a : ScuteAnnotations) : Json :=
  Json.ofMap ((OrdMap.empty.insert scuteDataBlocks (serializeBlocks a.dataBlocks)).insert scuteSalt
    (.string a.salt))

end ScuteAnnotations

structure ScuteDescriptor where
  digest : Text
  size : UInt64
  annotations : ScuteAnnotations
  deriving DecidableEq

structure PmiDescriptor where
  digest : Text
  size : UInt64
  deriving DecidableEq, Repr

structure BootConfigDescriptor where
  digest : Text
  size : UInt64
  deriving DecidableEq, Repr

inductive Layer where
  | scute (descriptor : ScuteDescriptor)
  | scuteZstd (descriptor : ScuteDescriptor)
  | pmi (descriptor : PmiDescriptor)
  | pmiZstd (descriptor : PmiDescriptor)
  | bootConfig (descriptor : BootConfigDescriptor)
  deriving DecidableEq

namespace Layer

def digestStr : Layer → Text
  | .scute d => d.digest
  | .scuteZstd d => d.digest
  | .pmi d => d.digest
  | .pmiZstd d => d.digest
  | .bootConfig d => d.digest

def size : Layer → UInt64
  | .scute d => d.size
  | .scuteZstd d => d.size
  | .pmi d => d.size
  | .pmiZstd d => d.size
  | .bootConfig d => d.size

def mediaTypeStr : Layer → Text
  | .scute _ => mediaTypePichiScuteV1
  | .scuteZstd _ => mediaTypePichiScuteV1Zstd
  | .pmi _ => mediaTypePichiPmiV1
  | .pmiZstd _ => mediaTypePichiPmiV1Zstd
  | .bootConfig _ => mediaTypePichiBootconfigV1Zstd

/-- `matches!(layer, Scute(_) | ScuteZstd(_))`, with the descriptor. -/
def scute? : Layer → Option ScuteDescriptor
  | .scute d => some d
  | .scuteZstd d => some d
  | _ => none

/-- `matches!(layer, Pmi(_) | PmiZstd(_))`. -/
def isPmi : Layer → Bool
  | .pmi _ => true
  | .pmiZstd _ => true
  | _ => false

/-- `matches!(layer, BootConfig(_))`. -/
def isBootConfig : Layer → Bool
  | .bootConfig _ => true
  | _ => false

/-- The digest and size every descriptor has. -/
def blobOfJson (m : OrdMap Text Json) : Except JsonError (Text × UInt64) := do
  let digest ← (← Json.field m Field.digest).asString
  let size ← (← Json.field m Field.size).asUnsigned 64
  .ok (digest, UInt64.ofNat size)

def scuteOfJson (j : Json) : Except JsonError ScuteDescriptor := do
  let m ← j.asStruct [Field.mediaType, Field.digest, Field.size, Field.annotations]
  let blob ← blobOfJson m
  let annotations ← ScuteAnnotations.ofJson (← Json.field m Field.annotations)
  .ok ⟨blob.1, blob.2, annotations⟩

/-- A PMI's and a boot configuration's descriptor. -/
def plainOfJson (j : Json) : Except JsonError (Text × UInt64) := do
  let m ← j.asStruct [Field.mediaType, Field.digest, Field.size]
  blobOfJson m

/-- The `mediaType` of an object, or an array's first item. -/
def tagOfJson : Json → Except JsonError Text
  | .object fields => do (← Json.field (Json.fieldMap fields) Field.mediaType).asString
  | .array (tag :: _) => tag.asString
  | _ => .error .invalidType

def ofJson (j : Json) : Except JsonError Layer := do
  let tag ← tagOfJson j
  if tag = mediaTypePichiScuteV1 then scute <$> scuteOfJson j
  else if tag = mediaTypePichiScuteV1Zstd then scuteZstd <$> scuteOfJson j
  else if tag = mediaTypePichiPmiV1 then (fun b => pmi ⟨b.1, b.2⟩) <$> plainOfJson j
  else if tag = mediaTypePichiPmiV1Zstd then (fun b => pmiZstd ⟨b.1, b.2⟩) <$> plainOfJson j
  else if tag = mediaTypePichiBootconfigV1Zstd then
    (fun b => bootConfig ⟨b.1, b.2⟩) <$> plainOfJson j
  else .error (.unknownVariant tag)

/-- The fields every layer is written with. -/
def fields (l : Layer) : OrdMap Text Json :=
  ((OrdMap.empty.insert Field.mediaType (Json.string l.mediaTypeStr)).insert Field.digest
    (Json.string l.digestStr)).insert Field.size (Json.natural l.size.toNat)

def toJson (l : Layer) : Json :=
  match l.scute? with
  | some d => Json.ofMap (l.fields.insert Field.annotations d.annotations.toJson)
  | none => Json.ofMap l.fields

end Layer

/-! The manifest. -/

structure Manifest where
  schemaVersion : UInt32
  mediaType : Text
  artifactType : Text
  config : ConfigDescriptor
  layers : List Layer
  annotations : OrdMap Text Text

namespace Manifest

/-- Absent annotations are none. -/
def annotationsOfJson : Option Json → Except JsonError (OrdMap Text Text)
  | none => .ok OrdMap.empty
  | some j => j.asStrings

def layersOfJson (j : Json) : Except JsonError (List Layer) := do
  let items ← j.asArray
  items.mapM Layer.ofJson

/-- The manifest a map of fields holds. -/
def ofFields (m : OrdMap Text Json) : Except JsonError Manifest := do
  let schemaVersion ← (← Json.field m Field.schemaVersion).asUnsigned 32
  let mediaType ← (← Json.field m Field.mediaType).asString
  let artifactType ← (← Json.field m Field.artifactType).asString
  let config ← ConfigDescriptor.ofJson (← Json.field m Field.config)
  let layers ← layersOfJson (← Json.field m Field.layers)
  let annotations ← annotationsOfJson (m.get? Field.annotations)
  .ok ⟨UInt32.ofNat schemaVersion, mediaType, artifactType, config, layers, annotations⟩

def ofJson (j : Json) : Except JsonError Manifest := do
  let m ← j.asStruct
    [Field.schemaVersion, Field.mediaType, Field.artifactType, Field.config, Field.layers,
      Field.annotations]
  ofFields m

end Manifest

inductive ManifestValidationError where
  /-- "artifactType must be {expected}, got {actual}" -/
  | wrongArtifactType (expected actual : Text)
  /-- "config descriptor mediaType {media_type} is not the OCI empty config or .." -/
  | badConfig (mediaType : Text)
  /-- "missing required chain annotation: {0}" -/
  | missingChainAnnotation (key : Text)
  /-- "chain annotation {key} is malformed: {value}" -/
  | badChainAnnotation (key value : Text)
  /-- "artifact has more than one PMI layer (got {0}); .." -/
  | multiplePmi (count : Nat)
  /-- "artifact has more than one boot configuration layer (got {0})" -/
  | multipleBootConfig (count : Nat)
  /-- "boot configuration requires a PMI" -/
  | bootConfigWithoutPmi
  /-- "scute salt must contain a hex-encoded parent root: {0}" -/
  | badSalt (salt : Text)
  /-- "scutes must appear in base-to-tip order: {0}" -/
  | badScuteOrder (digest : Text)
  /-- "invalid data-block count for scute {0}" -/
  | badScuteBlocks (digest : Text)
  deriving DecidableEq, Repr

namespace Manifest

def hasScutes (m : Manifest) : Bool := m.layers.any (fun l => l.scute?.isSome)

/-- The root's qualified spelling: its own, or a bare one the algorithm qualifies. -/
def wire (value : Text) (algo : Option Text) : Option Text :=
  match value.contains ':', algo with
  | true, none => some value
  | false, some algo => if algo = "sha256".toList then some (Digest.algorithm ++ value) else none
  | _, _ => none

/-- The chain-tip commitment. -/
def carapaceRoot (m : Manifest) : Except ManifestValidationError (Option Hash) :=
  match m.annotations.get? carapaceRootAnnotation with
  | none =>
    if m.hasScutes then
      .error <| ManifestValidationError.missingChainAnnotation carapaceRootAnnotation
    else .ok none
  | some value =>
    match wire value (m.annotations.get? verityAlgo) with
    | none => .error <| ManifestValidationError.badChainAnnotation carapaceRootAnnotation value
    | some wire =>
      match Digest.fromStr wire with
      | .error _ =>
        .error <| ManifestValidationError.badChainAnnotation carapaceRootAnnotation value
      | .ok digest =>
        if m.hasScutes && digest.toString == wire && digest.sha256 != zeroHash then
          .ok (some digest.sha256)
        else .error <| ManifestValidationError.badChainAnnotation carapaceRootAnnotation value

/-- Rule 1. -/
def checkArtifactType (m : Manifest) : Except ManifestValidationError Unit :=
  if m.artifactType = mediaTypePichiArtifactV1 then .ok ()
  else .error (.wrongArtifactType mediaTypePichiArtifactV1 m.artifactType)

/-- Rule 2. -/
def checkConfig (c : ConfigDescriptor) : Except ManifestValidationError Unit :=
  if c = ConfigDescriptor.canonical ∨ c.mediaType = mediaTypePichiConfigV1 then
    .ok ()
  else
    .error (.badConfig c.mediaType)

/-- A reconstruction parameter is absent or an unsigned integer. -/
def checkParameter (annotations : OrdMap Text Text) (key : Text) :
    Except ManifestValidationError Unit :=
  match annotations.get? key with
  | none => .ok ()
  | some value =>
    match Decimal.parseUnsigned 32 value with
    | some _ => .ok ()
    | none => .error <| ManifestValidationError.badChainAnnotation key value

def checkParameters (m : Manifest) : Except ManifestValidationError Unit :=
  if m.hasScutes then do
    checkParameter m.annotations verityHashBlockSize
    checkParameter m.annotations verityVersion
    checkParameter m.annotations verityHashType
  else .ok ()

def pmiCount (m : Manifest) : Nat := m.layers.countP Layer.isPmi

def bootConfigCount (m : Manifest) : Nat := m.layers.countP Layer.isBootConfig

/-- Rule 5. -/
def checkCounts (m : Manifest) : Except ManifestValidationError Unit :=
  if m.pmiCount > 1 then .error (.multiplePmi m.pmiCount)
  else if m.bootConfigCount > 1 then .error (.multipleBootConfig m.bootConfigCount)
  else if m.bootConfigCount ≠ 0 ∧ m.pmiCount = 0 then .error .bootConfigWithoutPmi
  else .ok ()

/-- The text of the data-block size, or its default. -/
def dataBlockSize (annotations : OrdMap Text Text) :
    Text := (annotations.get? verityDataBlockSize).getD "4096".toList

def checkBlockSize (annotations : OrdMap Text Text) : Except ManifestValidationError Nat :=
  match (Decimal.parseUnsigned 32 (dataBlockSize annotations)).filter (· != 0) with
  | some size => .ok size
  | none =>
    .error <| ManifestValidationError.badChainAnnotation verityDataBlockSize
      (dataBlockSize annotations)

/-- The block count fits, and is a raw blob's own. -/
def checkBlocks (blockSize : Nat) (l : Layer) (d : ScuteDescriptor) :
    Except ManifestValidationError Unit :=
  if d.annotations.dataBlocks.val.toNat * blockSize ≥ 2 ^ 64 ∨
      (l = .scute d ∧ d.annotations.dataBlocks.val.toNat ≠
        (d.size.toNat + blockSize - 1) / blockSize) then
    .error (.badScuteBlocks d.digest)
  else .ok ()

/-- The parent root a salt starts with. -/
def saltParent (salt : Text) : Except ManifestValidationError Bytes :=
  match Hex.decode salt with
  | some bytes => if bytes.length < 32 then .error (.badSalt salt) else .ok (bytes.take 32)
  | none => .error (.badSalt salt)

/-- One layer of the last loop; `first` is `first_scute`. -/
def checkScute (annotations : OrdMap Text Text) (first : Bool) (l : Layer) :
    Except ManifestValidationError Bool :=
  match l.scute? with
  | none => .ok first
  | some d => do
    let blockSize ← checkBlockSize annotations
    checkBlocks blockSize l d
    let parent ← saltParent d.annotations.salt
    if first != parent.all (· == 0) then .error (.badScuteOrder d.digest) else .ok false

def checkScutes (m : Manifest) : Except ManifestValidationError Bool :=
  m.layers.foldlM (checkScute m.annotations) true

def validate (m : Manifest) : Except ManifestValidationError Unit := do
  m.checkArtifactType
  checkConfig m.config
  let _ ← m.carapaceRoot
  m.checkParameters
  m.checkCounts
  let _ ← m.checkScutes
  .ok ()

end Manifest

end Conglobate.Artifact
