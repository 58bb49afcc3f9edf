import Conglobate.BootConfig.Basic
import Conglobate.Lib.Text
import Mathlib.Data.Char
import Mathlib.Logic.Relation

/- The authored plan (`plan/*.rs`).

   The types carry what their `new` checks, so a value of one has passed it. Text
   that the crate walks by characters is `Text`; boot configuration keys and
   values are bytes, as in `BootConfig`. Decoding from YAML is not modelled: a
   `Document` is what it gives. The document's launch requirements are passed
   through and not read here.

   Correspondence (Rust ↔ Lean):
     `String`                       ↔ `Text`
     `BTreeMap`                     ↔ `OrdMap`
     `StageRef::new`, `ImagePath::new`, `Key::new`
                                    ↔ the `valid` fields
     a field `from`, `use`, `extend`, `into`
                                    ↔ `source`, `tool`, `base`, `destination`
     `plan::Plan`                   ↔ `Document` -/
namespace Conglobate

namespace Plan

/-- A stage's name. -/
structure StageRef where
  name : Text
  valid : name ≠ [] ∧ name ≠ ['.'] ∧ name ≠ ['.', '.'] ∧
    name.all (fun c => c.isAlphanum || c == '_' || c == '.' || c == '-') = true

namespace StageRef

theorem name_injective : Function.Injective StageRef.name := by
  rintro ⟨a, _⟩ ⟨b, _⟩ h
  exact (StageRef.mk.injEq ..).mpr h

instance instLinearOrder : LinearOrder StageRef := LinearOrder.lift' name name_injective

end StageRef

/-- A path inside an image. -/
structure ImagePath where
  path : Text
  valid : path ≠ [] ∧ '\x00' ∉ path ∧ ['.', '.'] ∉ path.splitOn '/'

namespace ImagePath

theorem path_injective : Function.Injective ImagePath.path := by
  rintro ⟨a, _⟩ ⟨b, _⟩ h
  exact (ImagePath.mk.injEq ..).mpr h

instance instLinearOrder : LinearOrder ImagePath := LinearOrder.lift' path path_injective

/-- The named parts of a path, without empty ones and dots. -/
def components (path : Text) : List Text :=
  (path.splitOn '/').filter (fun part => part ≠ [] && part ≠ ['.'])

/-- The path compared within its namespace. -/
def normalized (p : ImagePath) : Text := '/' :: ['/'].intercalate (components p.path)

end ImagePath

/-- `ReferenceKind`: a tag, or a SHA-256 digest's bytes. -/
inductive Selector where
  | tag (tag : Text)
  | digest (digest : Vector UInt8 32)
  deriving DecidableEq, Repr

/-- A fully qualified image. -/
structure Remote where
  registry : Text
  repository : Text
  selector : Selector
  deriving DecidableEq, Repr

/-- Disjoint local-stage and qualified-registry namespaces. -/
inductive ImageRef where
  | stage (name : StageRef)
  | remote (remote : Remote)

/-- A boot configuration key. -/
structure Key where
  name : Bytes
  valid : BootConfig.keyValid name = true

namespace Key

theorem name_injective : Function.Injective Key.name := by
  rintro ⟨a, _⟩ ⟨b, _⟩ h
  exact (Key.mk.injEq ..).mpr h

instance instLinearOrder : LinearOrder Key := LinearOrder.lift' name name_injective

end Key

inductive Value where
  | string (value : Bytes)
  | list (values : List Bytes)
  deriving DecidableEq, Repr

/-- One step of a stage; the timeout is in nanoseconds. -/
inductive Directive where
  | copy (source : Option StageRef) (path destination : ImagePath)
  | exec (command : Text) (network : Bool) (timeout : Nat)

inductive Mount where
  | esp
  | tmpfs
  deriving DecidableEq, Repr

/-- Positive filesystem capacity in whole MiB. -/
structure FilesystemSize where
  mib : Nat
  positive : 0 < mib
  fits : mib < 2 ^ 32

def FilesystemSize.bytes (s : FilesystemSize) : Nat := s.mib * 2 ^ 20

inductive Filesystem where
  | ext4
  deriving DecidableEq, Repr

/-- Root filesystem settings. -/
structure Format where
  filesystem : Filesystem
  size : FilesystemSize
  label : Text
  esp : Option FilesystemSize

/-- A creation stage's tool carapace. -/
inductive Tool where
  | bootstrap (remote : Remote)
  | image (reference : ImageRef)

inductive Stage where
  | create (tool : Tool) (format : Format) (mounts : OrdMap ImagePath Mount)
      (steps : List Directive)
  | extend (base : ImageRef) (mounts : OrdMap ImagePath Mount) (steps : List Directive)

structure Extract where
  source : ImageRef
  path : ImagePath

/-- Boot configuration always belongs to the selected immutable PMI. -/
inductive Boot where
  | shorthand (source : ImageRef)
  | inherit (source : ImageRef)
  | inheritDefined (source : ImageRef) (define : OrdMap Key Value)
  | inheritExtended (source : ImageRef) (overlay : OrdMap Key (Option Value))
  | extract (file : Extract) (define : OrdMap Key Value)

inductive Image where
  | shorthand (source : ImageRef)
  | components (root : Option ImageRef) (boot : Option Boot)

/-- The authored document. -/
structure Document where
  stages : OrdMap StageRef Stage
  image : Image

/-- The image a boot directive takes its PMI, or the file of it, from. -/
def Boot.source : Boot → ImageRef
  | .shorthand source => source
  | .inherit source => source
  | .inheritDefined source _ => source
  | .inheritExtended source _ => source
  | .extract file _ => file.source

/-- `image_sources`. -/
def Image.sources : Image → List ImageRef
  | .shorthand source => [source]
  | .components root boot => root.toList ++ boot.toList.map Boot.source

/-! What a document says of its stages. -/

/-- The stages a stage names: its local source and the sources of its COPYs. -/
def Stage.localSources : Stage → List StageRef
  | .create tool _ _ steps => toolSource tool ++ steps.flatMap copySource
  | .extend base _ steps => imageSource base ++ steps.flatMap copySource
where
  imageSource : ImageRef → List StageRef
    | .stage name => [name]
    | .remote _ => []
  toolSource : Tool → List StageRef
    | .image reference => imageSource reference
    | .bootstrap _ => []
  copySource : Directive → List StageRef
    | .copy source _ _ => source.toList
    | .exec _ _ _ => []

namespace Document

/-- Stage `a` names stage `b`. -/
def DependsOn (d : Document) (a b : StageRef) :
    Prop := ∃ stage, d.stages.get? a = some stage ∧ b ∈ stage.localSources

/-- An image selector names stage `a`. -/
def Selects (d : Document) (a : StageRef) : Prop := ImageRef.stage a ∈ d.image.sources

/-- Every stage named anywhere exists. -/
def Complete (d : Document) : Prop :=
  (∀ a b, d.DependsOn a b → (d.stages.get? b).isSome) ∧ ∀ a, d.Selects a → (d.stages.get? a).isSome

/-- Some stage depends on itself, directly or through others. -/
def Cyclic (d : Document) : Prop := ∃ a, Relation.TransGen d.DependsOn a a

end Document

end Plan

end Conglobate
