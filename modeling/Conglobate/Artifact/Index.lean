import Conglobate.Artifact.Manifest

/- The image index (`artifact/index.rs`). A field that is absent is not written. -/
namespace Conglobate.Artifact

def mediaTypeOciIndexV1 : Text := "application/vnd.oci.image.index.v1+json".toList

namespace Field

def manifests : Text := "manifests".toList
def platform : Text := "platform".toList
def os : Text := "os".toList
def architecture : Text := "architecture".toList
def variant : Text := "variant".toList

end Field

structure Platform where
  os : Text
  architecture : Text
  variant : Option Text
  deriving DecidableEq, Repr

structure IndexDescriptor where
  mediaType : Text
  artifactType : Option Text
  digest : Text
  size : UInt64
  platform : Option Platform
  annotations : OrdMap Text Text
  deriving DecidableEq

structure Index where
  schemaVersion : UInt32
  mediaType : Text
  manifests : List IndexDescriptor
  deriving DecidableEq

/-- A field that is written where there is a value. -/
def optionalField (name : Text) (value : Option Json) :
    List (Text × Json) := value.toList.map (fun j => (name, j))

def Platform.toJson (p : Platform) : Json :=
  .object ([(Field.os, .string p.os), (Field.architecture, .string p.architecture)] ++
    optionalField Field.variant (p.variant.map Json.string))

def IndexDescriptor.toJson (d : IndexDescriptor) : Json :=
  .object ([(Field.mediaType, .string d.mediaType)] ++ optionalField Field.artifactType
    (d.artifactType.map Json.string) ++
    [(Field.digest, .string d.digest), (Field.size, .natural d.size.toNat)] ++
    optionalField Field.platform (d.platform.map Platform.toJson) ++
    optionalField Field.annotations (if d.annotations.entries.isEmpty then none
      else some (Json.ofStrings d.annotations)))

/-- The fields in the order of the declaration. -/
def Index.toJson (i : Index) : Json :=
  .object [(Field.schemaVersion, .natural i.schemaVersion.toNat),
    (Field.mediaType, .string i.mediaType),
    (Field.manifests, .array (i.manifests.map IndexDescriptor.toJson))]

end Conglobate.Artifact
