import Conglobate.Copy.Pattern
import Conglobate.Formatter
import Conglobate.Lib.DepthFirst

/- Validated plans (`planner/mod.rs`).

   `Plan.tryFrom` converts every stage, searches from every stage for unknown
   names and cycles, and last from the image's selectors for the order. Both
   searches are the depth-first walk of `Lib.DepthFirst` over the stages'
   dependencies: the first forgets the order of each search, the second keeps it.

   Correspondence (Rust ↔ Lean):
     `PlanError::Invalid(text)`       ↔ one constructor a text
     a `BTreeSet` of stage names      ↔ `OrdMap StageRef Unit`
     `Copy::from`, `Stage::from`      ↔ `Copy.source`, `Stage.source`
     `ImageRef::Local`                ↔ `ImageRef.stage`
     the body of `walk`'s loop        ↔ `DepthFirst.round`
     the `for` over `plan.stages`     ↔ `check`
     the `for` over `image_sources`   ↔ `orderOf` -/
namespace Conglobate.Planner

open Conglobate.Plan Formatter

inductive PlanError where
  /-- "invalid format: {0}" -/
  | format (error : IoError)
  /-- "mounts cannot replace the root, runtime controls, or another mount" -/
  | mounts
  /-- "ESP mount requires format.esp" -/
  | espMount
  /-- "image contains neither root nor PMI" -/
  | noImage
  /-- "unknown stage {name}" -/
  | unknownStage (name : StageRef)
  /-- "stage dependency cycle at {name}" -/
  | cycle (name : StageRef)
  | pattern (error : Copy.PatternError)
  /-- Not an error of the source: the fuel of a loop ran out. -/
  | outOfFuel

structure Copy where
  source : Option StageRef
  path : ImagePath
  sources : List Copy.SourcePattern
  destination : ImagePath

structure Exec where
  exec : Text
  network : Bool
  timeout : Nat

inductive Directive where
  | exec (exec : Exec)
  | copy (copy : Copy)

namespace Directive

/-- A COPY from the context selects by a pattern, one from a stage by the path itself. -/
def copySources (source : Option StageRef) (path : ImagePath) :
    Except PlanError (List Copy.SourcePattern) :=
  match source with
  | none =>
    (fun pattern => [pattern]) <$> (Copy.SourcePattern.fromStr path.normalized).mapError PlanError.pattern
  | some _ => .ok []

def tryFrom : Plan.Directive → Except PlanError Directive
  | .exec command network timeout => .ok (.exec ⟨command, network, timeout⟩)
  | .copy source path destination => do
    let sources ← copySources source path
    .ok (.copy ⟨source, path, sources, destination⟩)

end Directive

structure Stage where
  source : ImageRef
  bootstrap : Bool
  format : Option Format
  mount : OrdMap ImagePath Mount
  derive : List Directive

namespace Stage

/-- The first part of a normalized path. -/
def firstPart (path : Text) : Text := (path.dropWhile (· == '/')).takeWhile (· != '/')

def runtimeControls : List Text := [['d', 'e', 'v'], ['p', 'r', 'o', 'c'], ['s', 'y', 's']]

/-- One mount's check; the paths of those before it are kept. -/
def checkMount (format : Option Format) (paths : List Text) (path : ImagePath) :
    Except PlanError (List Text) :=
  if path.normalized = ['/'] ∨ (format.isNone ∧ runtimeControls.contains
      (firstPart path.normalized)) ∨ paths.contains path.normalized then .error .mounts
  else .ok (path.normalized :: paths)

def checkFormat (c : Carapace) (format : Option Format) (mount : OrdMap ImagePath Mount) :
    Except PlanError Unit :=
  match format with
  | none => .ok ()
  | some spec => do
    let _ ← ((Ext4Format.ofFormat spec).layout c).mapError PlanError.format
    if spec.esp.isNone ∧ mount.entries.any (fun e => e.2 == .esp) then .error .espMount else .ok ()

def convert (c : Carapace) (source : ImageRef) (bootstrap : Bool) (format : Option Format)
    (mount : OrdMap ImagePath Mount) (steps : List Plan.Directive) : Except PlanError Stage := do
  let _ ← mount.keys.foldlM (checkMount format) []
  checkFormat c format mount
  let derive ← steps.mapM Directive.tryFrom
  .ok ⟨source, bootstrap, format, mount, derive⟩

def tryFrom (c : Carapace) : Plan.Stage → Except PlanError Stage
  | .create (.image source) format mounts steps => convert c source false (some format) mounts steps
  | .create (.bootstrap remote) format mounts steps =>
    convert c (.remote remote) true (some format) mounts steps
  | .extend base mounts steps => convert c base false none mounts steps

/-- A directive's stage, added to the set. -/
def addCopy (names : OrdMap StageRef Unit) : Directive → OrdMap StageRef Unit
  | .copy ⟨some name, _, _, _⟩ => names.insert name ()
  | _ => names

/-- The local stage a stage is built on. -/
def base (stage : Stage) : OrdMap StageRef Unit :=
  match stage.source with
  | .stage name => OrdMap.empty.insert name ()
  | .remote _ => OrdMap.empty

/-- `dependencies` in `walk`, in name order. -/
def dependencies (stage : Stage) : List StageRef := (stage.derive.foldl addCopy stage.base).keys

end Stage

abbrev Stages := OrdMap StageRef Stage

namespace Stages

/-- What a name's entry makes `walk` push, when there is one. -/
def deps (stages : Stages) (name : StageRef) :
    Option (List StageRef) := (stages.get? name).map Stage.dependencies

def names (stages : Stages) : Finset StageRef := stages.keys.toFinset

end Stages

def PlanError.ofFailure : DepthFirst.Failure StageRef → PlanError
  | .unknown name => .unknownStage name
  | .cycle name => .cycle name
  | .outOfFuel => .outOfFuel

/-- Search from every stage. -/
def check (stages : Stages) : Except PlanError (Finset StageRef) :=
  (DepthFirst.checks stages.deps stages.names stages.keys ∅).mapError PlanError.ofFailure

/-- The stages an image's selectors name. -/
def selected (image : Image) : List StageRef :=
  image.sources.filterMap (fun source =>
    match source with
    | .stage name => some name
    | .remote _ => none)

/-- Search from the selectors, in their order. -/
def orderOf (stages : Stages) (image : Image) :
    Except PlanError (Finset StageRef × List StageRef) :=
  (DepthFirst.walks stages.deps stages.names (selected image) ∅ []).mapError PlanError.ofFailure

/-- The image selects nothing. -/
def noComponents : Image → Bool
  | .components none none => true
  | _ => false

/-- A validated plan. -/
structure Plan where
  stages : Stages
  image : Image
  order : List StageRef

def Plan.tryFrom (c : Carapace) (raw : Document) : Except PlanError Plan :=
  if noComponents raw.image then .error .noImage
  else do
    let stages ← raw.stages.mapM (Stage.tryFrom c)
    let _ ← check stages
    let (_, order) ← orderOf stages raw.image
    .ok ⟨stages, raw.image, order⟩

end Conglobate.Planner
