import Conglobate.Input.CheckedImage

/- The build's inputs (`graph.rs`, `lock.rs`).

   `BuildGraph.new` collects the remote images a plan selects, one for each
   reference, pinned by the lock unless it is a bootstrap; then it marks those a
   stage starts from and lists the networked commands.

   Correspondence (Rust ↔ Lean):
     `inputs.entry(..).or_insert(..)`  ↔ `entry`, inserted by `addPinned`
     the body over `remote_sources`    ↔ `addInput`
     the loop over `remote_sources`    ↔ a fold of `addInput`
     the loop over `plan.order`        ↔ a fold of `addStage`
     `derive.iter().enumerate()`       ↔ `zipIdx` in `stageSteps`
     `&plan.stages[name]`, `expect("selected source")` ↔ `LockError.absent` -/
namespace Conglobate

open Planner (Directive Stage)

/-- The digest of an image index. -/
abbrev IndexDigest := Hash

inductive LockError where
  /-- "missing image pin: {0}" -/
  | missing (reference : Text)
  /-- "image is both ordinary and bootstrap: {0}" -/
  | mixed (reference : Text)
  /-- Not an error of the source: a lookup that panics. -/
  | absent
  deriving DecidableEq

/-- Committed index pins. -/
structure ImageLock where
  images : OrdMap ImageReference IndexDigest

def ImageLock.resolve (lock : ImageLock) (reference : ImageReference) :
    Except LockError IndexDigest :=
  match lock.images.get? reference with
  | some digest => .ok digest
  | none => .error (.missing reference.text)

structure ImageInput where
  reference : ImageReference
  index : Option IndexDigest
  rootRequired : Bool

structure BuildGraph where
  plan : Planner.Plan
  inputs : List ImageInput
  networkSteps : List (Plan.StageRef × Nat)

namespace BuildGraph

abbrev Inputs := OrdMap ImageReference ImageInput

/-- A bootstrap has no pin. -/
def pin (lock : ImageLock) (reference : ImageReference) (bootstrap : Bool) :
    Except LockError (Option IndexDigest) :=
  if bootstrap then .ok none else some <$> lock.resolve reference

/-- The input of a reference, found or new. -/
def entry (inputs : Inputs) (reference : ImageReference) (index : Option IndexDigest) :
    ImageInput :=
  (inputs.get? reference).getD ⟨reference, index, false⟩

/-- An input found or made for a reference, if it has the use's bootstrap mark. -/
def addPinned (inputs : Inputs) (reference : ImageReference) (bootstrap : Bool)
    (index : Option IndexDigest) :
    Except LockError Inputs :=
  if (entry inputs reference index).index.isNone = bootstrap then
    .ok (inputs.insert reference (entry inputs reference index))
  else .error (.mixed (entry inputs reference index).reference.text)

/-- One remote source, with its bootstrap mark. -/
def addInput (lock : ImageLock) (inputs : Inputs) (source : Plan.Remote × Bool) :
    Except LockError Inputs :=
  pin lock (ImageReference.ofRemote source.1) source.2 >>=
    addPinned inputs (ImageReference.ofRemote source.1) source.2

/-- The input a stage starts from needs its root. -/
def requireRoot (inputs : Inputs) (stage : Stage) : Except LockError Inputs :=
  match stage.source with
  | .stage _ => .ok inputs
  | .remote remote =>
    match inputs.get? (ImageReference.ofRemote remote) with
    | some input =>
      .ok (inputs.insert (ImageReference.ofRemote remote) { input with rootRequired := true })
    | none => .error .absent

def networked : Directive → Bool
  | .exec exec => exec.network
  | .copy _ => false

/-- The positions of a stage's networked commands. -/
def stageSteps (name : Plan.StageRef) (stage : Stage) : List (Plan.StageRef × Nat) :=
  stage.derive.zipIdx.filterMap (fun d => if networked d.1 then some (name, d.2) else none)

/-- One stage of the order. -/
def addStage (plan : Planner.Plan) (found : Inputs × List (Plan.StageRef × Nat))
    (name : Plan.StageRef) :
    Except LockError (Inputs × List (Plan.StageRef × Nat)) :=
  match plan.stages.get? name with
  | none => .error .absent
  | some stage => do
    let inputs ← requireRoot found.1 stage
    .ok (inputs, found.2 ++ stageSteps name stage)

def new (plan : Planner.Plan) (lock : ImageLock) : Except LockError BuildGraph := do
  let inputs ← plan.remoteSources.foldlM (addInput lock) OrdMap.empty
  let found ← plan.order.foldlM (addStage plan) (inputs, [])
  .ok ⟨plan, found.1.entries.map Prod.snd, found.2⟩

def executionRequired (graph : BuildGraph) : Bool := graph.plan.executionRequired

end BuildGraph

end Conglobate
