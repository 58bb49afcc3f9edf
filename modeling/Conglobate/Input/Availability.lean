import Conglobate.Input.CheckedImage

/- Component availability (`input/availability.rs`). What each stage and the image's
   selectors will have is computed from the plan and the images alone, before
   anything runs.

   Correspondence (Rust ↔ Lean):
     `InputError::Components(text)`        ↔ one constructor a text
     the body of `validate`'s loop         ↔ `addStage`
     the loop                              ↔ `stages`
     the `match` on the image              ↔ `validateImage`, `validateRoot`, `validateBoot` -/
namespace Conglobate.Input

inductive InputError where
  /-- "stage {name} is not available" -/
  | notAvailable (name : Plan.StageRef)
  /-- "stage {name} requires a carapace input" -/
  | requiresCarapace (name : Plan.StageRef)
  /-- "image contains neither root nor PMI" -/
  | noImage
  /-- "selected root source has no carapace" -/
  | noRoot
  /-- "PMI file source has no carapace" -/
  | noFileRoot
  /-- "selected boot source has no PMI" -/
  | noPmi
  /-- Not an error of the source: indexing the plan's stages would panic. -/
  | unknownStage (name : Plan.StageRef)
  /-- Not an error of the source: indexing the images would panic. -/
  | unknownImage (reference : ImageReference)

/-- Component presence only. -/
structure Availability where
  root : Bool
  boot : Bool
  deriving DecidableEq, Repr

namespace Availability

def ofImage (i : CheckedImage) : Availability :=
  ⟨i.root.isSome, i.manifest.layers.any Artifact.Layer.isPmi⟩

section Validate
variable (plan : Planner.Plan) (images : OrdMap ImageReference CheckedImage)

def source (stages : OrdMap Plan.StageRef Availability) :
    Plan.ImageRef → Except InputError Availability
  | .stage name =>
    match stages.get? name with
    | some available => .ok available
    | none => .error (.notAvailable name)
  | .remote reference =>
    match images.get? (.ofRemote reference) with
    | some image => .ok (ofImage image)
    | none => .error (.unknownImage (.ofRemote reference))

/-- A stage's output has a root; what it is created for has nothing else. -/
def addStage (stages : OrdMap Plan.StageRef Availability) (name : Plan.StageRef) :
    Except InputError (OrdMap Plan.StageRef Availability) :=
  match plan.stages.get? name with
  | none => .error (.unknownStage name)
  | some stage => do
    let source ← source images stages stage.source
    if !source.root then .error (.requiresCarapace name)
    else .ok (stages.insert name (if stage.format.isSome then ⟨true, false⟩ else source))

/-- What every stage in order will have. -/
def stages : Except InputError (OrdMap Plan.StageRef Availability) :=
  plan.order.foldlM (addStage plan images) OrdMap.empty

def validateRoot (stages : OrdMap Plan.StageRef Availability) :
    Option Plan.ImageRef → Except InputError Unit
  | none => .ok ()
  | some reference => do
    let source ← source images stages reference
    if !source.root then .error .noRoot else .ok ()

def validateBoot (stages : OrdMap Plan.StageRef Availability) :
    Option Plan.Boot → Except InputError Unit
  | none => .ok ()
  | some (.extract extract _) => do
    let source ← source images stages extract.source
    if !source.root then .error .noFileRoot else .ok ()
  | some boot => do
    let source ← source images stages boot.source
    if !source.boot then .error .noPmi else .ok ()

def validateImage (stages : OrdMap Plan.StageRef Availability) : Plan.Image → Except InputError Unit
  | .shorthand reference => do
    let selected ← source images stages reference
    if !selected.root && !selected.boot then .error .noImage else .ok ()
  | .components root boot => do
    validateRoot images stages root
    validateBoot images stages boot

def validate : Except InputError Unit := do
  let stages ← stages plan images
  validateImage images stages plan.image

end Validate

end Availability

end Conglobate.Input
