import Conglobate.Pipeline.BootConfig
import Conglobate.Storage.Sealed

/- Stage outputs, their execution and the final selection (`pipeline/mod.rs`,
   `pipeline/output.rs`, `pipeline/root.rs`, `pipeline/pmi.rs`).

   What the kernel does for a build is a parameter: an `Execution` says what preparing
   an image's chain, activating a root, running a creation or an extending stage and
   extracting a file give. It may answer differently for every stage and every state
   of the outputs, so a statement about all executions is one about all runs. What a
   stage's own COPYs and commands do is inside it.

   A `Root` and an inherited `Pmi` carry what their accessors expect, so neither a
   root without a hash nor an inherited PMI without a layer can be built.

   Correspondence (Rust ↔ Lean):
     `Pipeline::run`, `execute`           ↔ `run`, `execute`
     the body of `execute`'s loop         ↔ `runStage`, `stageBody`
     `StageOutput::select`                ↔ `compose` up to the first `ensure!`, then `finish`
     `reader`                             ↔ `Option Reader`
     `anyhow!(..)`, `ensure!(..)`         ↔ one constructor of `PipelineError` a text -/
namespace Conglobate.Pipeline

open Artifact Storage

inductive PipelineError where
  | cache (error : CacheError)
  | config (error : ConfigError)
  /-- A failure of the devices, the commands or the files of a stage. -/
  | execution (error : IoError)
  /-- "stage {name} has not completed" -/
  | notCompleted (name : Plan.StageRef)
  /-- "remote source is not resolved" -/
  | notResolved
  /-- "stage {name} has no carapace source" -/
  | noCarapace (name : Plan.StageRef)
  /-- "produced scute parent differs from input chain" -/
  | parent
  /-- "selected source has no root" -/
  | noRoot
  /-- "PMI file source has no root" -/
  | noFileRoot
  /-- "PMI extraction requires a reader runtime" -/
  | noReader
  /-- "selected source has no PMI" -/
  | noPmi
  /-- "image contains neither root nor PMI" -/
  | noImage
  /-- "bootconfig requires PMI" -/
  | configWithoutPmi
  /-- Not an error of the source: indexing the plan's stages would panic. -/
  | unknownStage (name : Plan.StageRef)
  /-- The context "stage {name}". -/
  | stage (name : Plan.StageRef) (error : PipelineError)

/-- A base image's chain and the scutes produced on it. -/
structure Root where
  base : Option CheckedImage
  produced : List SealedScute
  hashed : ((produced.getLast?.map SealedScute.root).or (base.bind CheckedImage.root)).isSome

namespace Root

def hash (r : Root) : Hash :=
  ((r.produced.getLast?.map SealedScute.root).or (r.base.bind CheckedImage.root)).get r.hashed

/-- The chain `base` and `produced` with one more scute. -/
def extend (base : Option CheckedImage) (produced : List SealedScute) (scute : SealedScute) :
    Root where
  base := base
  produced := produced ++ [scute]
  hashed := by simp

/-- The chain of an image that has one. -/
def ofImage (i : CheckedImage) (h : i.root.isSome) : Root where
  base := some i
  produced := []
  hashed := h

end Root

structure FirmwareFile where
  digest : Digest
  size : UInt64

def FirmwareFile.descriptor (f : FirmwareFile) : PmiDescriptor := ⟨f.digest.toString, f.size⟩

inductive Pmi where
  | inherited (image : CheckedImage) (selected : image.pmiLayer.isSome)
  | file (firmware : FirmwareFile)

namespace Pmi

def layer : Pmi → Layer
  | .inherited image selected => image.pmiLayer.get selected
  | .file firmware => .pmi firmware.descriptor

def root : Pmi → Option Hash
  | .inherited image _ => image.root
  | .file _ => none

/-- `Pmi::inherited`. -/
def image : Pmi → Option CheckedImage
  | .inherited image _ => some image
  | .file _ => none

end Pmi

structure StageOutput where
  root : Option Root
  pmi : Option Pmi
  bootconfig : Option BootConfig

abbrev Outputs := OrdMap Plan.StageRef StageOutput

/-- What reading a file of a root gives. -/
abbrev Reader := Root → Plan.ImagePath → Except IoError FirmwareFile

/-- What a build's kernel work gives. -/
structure Execution where
  /-- `Chain::from_index`, apart from the root it takes from the image. -/
  prepare : CheckedImage → Except CacheError Unit
  /-- `ReadOnlyChain::activate`. -/
  activate : Root → Except IoError Unit
  /-- `BootstrapBuild::execute`. -/
  bootstrap : Plan.StageRef → Planner.Stage → Outputs → Root → Except IoError Sealing
  /-- `DerivedCarapace::derive`. -/
  derive : Plan.StageRef → Planner.Stage → Outputs → Root → Except IoError Sealing
  reader : Reader

namespace StageOutput

/-- The image's own root. -/
def imageRoot (i : CheckedImage) : Option Root :=
  if h : i.root.isSome then some (.ofImage i h) else none

/-- The image's own PMI. -/
def imagePmi (i : CheckedImage) : Option Pmi :=
  if h : i.pmiLayer.isSome then some (.inherited i h) else none

/-- `inherited` through an option. -/
def inheritedConfig (z : Zstd) (root : Option Hash) :
    Option Bytes → Except ConfigError (Option BootConfig)
  | none => .ok none
  | some bytes => some <$> BootConfig.inherited z bytes root

/-- `filter(|config| !config.bytes.is_empty())`. -/
def nonempty (config : Option BootConfig) : Option BootConfig :=
  config.filter (fun c => !c.bytes.isEmpty)

def remote (z : Zstd) (base : CheckedImage) (cache : Cache) : Except PipelineError StageOutput := do
  let bytes ← (base.bootconfig cache).mapError PipelineError.cache
  let config ← (inheritedConfig z base.root bytes).mapError PipelineError.config
  .ok ⟨imageRoot base, imagePmi base, nonempty config⟩

def resolve (z : Zstd) (build : ResolvedBuild) (outputs : Outputs) :
    Plan.ImageRef → Except PipelineError StageOutput
  | .stage name =>
    match outputs.get? name with
    | some output => .ok output
    | none => .error (.notCompleted name)
  | .remote reference =>
    match build.images.get? (.ofRemote reference) with
    | some image => remote z image build.cache
    | none => .error .notResolved

def bind (z : Zstd) (output : StageOutput) : Except PipelineError StageOutput :=
  match output.root, output.bootconfig with
  | some root, some config => do
    let bound ← (config.bind z root.hash).mapError PipelineError.config
    .ok { output with bootconfig := some bound }
  | _, _ => .ok output

section Select
variable (z : Zstd) (build : ResolvedBuild) (outputs : Outputs) (reader : Option Reader)

def selectRoot : Option Plan.ImageRef → Except PipelineError (Option Root)
  | none => .ok none
  | some reference => do
    let source ← resolve z build outputs reference
    match source.root with
    | some root => .ok (some root)
    | none => .error .noRoot

/-- The file of an `Extract`. -/
def extractPmi (extract : Plan.Extract) : Except PipelineError Pmi := do
  let source ← resolve z build outputs extract.source
  match source.root with
  | none => .error .noFileRoot
  | some root =>
    match reader with
    | none => .error .noReader
    | some read => Pmi.file <$> (read root extract.path).mapError PipelineError.execution

/-- The configuration a boot directive that is no `Extract` gives its source's PMI. -/
def inheritConfig (source : StageOutput) : Plan.Boot → Except PipelineError (Option BootConfig)
  | .inheritDefined _ define =>
    some <$> (BootConfig.overlay z none (define.entries.map
      (fun e => (e.1, some e.2)))).mapError PipelineError.config
  | .inheritExtended _ overlay =>
    some <$> (BootConfig.overlay z source.bootconfig overlay.entries).mapError PipelineError.config
  | _ => .ok source.bootconfig

/-- The PMI and configuration of a boot directive. -/
def selectBoot : Option Plan.Boot → Except PipelineError (Option Pmi × Option BootConfig)
  | none => .ok (none, none)
  | some (.extract extract define) => do
    let pmi ← extractPmi z build outputs reader extract
    let config ← (BootConfig.overlay z none (define.entries.map
      (fun e => (e.1, some e.2)))).mapError
      PipelineError.config
    .ok (some pmi, some config)
  | some boot => do
    let source ← resolve z build outputs boot.source
    match source.pmi with
    | none => .error .noPmi
    | some pmi => do
      let config ← inheritConfig z source boot
      .ok (some pmi, config)

/-- What the image's selectors choose, before it is bound. -/
def compose : Except PipelineError StageOutput :=
  match build.plan.image with
  | .shorthand reference => resolve z build outputs reference
  | .components root boot => do
    let root ← selectRoot z build outputs root
    let boot ← selectBoot z build outputs reader boot
    .ok ⟨root, boot.1, nonempty boot.2⟩

end Select

/-- The selected root is not the one its components were made for. -/
def changed (output : StageOutput) (root : Root) : Bool :=
  !root.produced.isEmpty || output.pmi.any (fun pmi => pmi.root != some root.hash) ||
    output.bootconfig.any (fun config => config.root != some root.hash)

/-- The checks of a composed output, and its binding. -/
def finish (z : Zstd) (output : StageOutput) : Except PipelineError StageOutput :=
  if output.root.isNone && output.pmi.isNone then .error .noImage
  else if output.bootconfig.isSome && output.pmi.isNone then .error .configWithoutPmi
  else
    match output.root with
    | none => .ok output
    | some root => if output.changed root then output.bind z else .ok output

def select (z : Zstd) (build : ResolvedBuild) (outputs : Outputs) (reader : Option Reader) :
    Except PipelineError StageOutput := do
  let output ← compose z build outputs reader
  finish z output

end StageOutput

/-- `ReadOnlyChain::append`. -/
def append (root : Hash) (scute : SealedScute) : Except PipelineError Hash :=
  if root = scute.parent then .ok scute.root else .error .parent

/-- The root of a base's chain, or of none. -/
def baseRoot (x : Execution) : Option CheckedImage → Except PipelineError Hash
  | none => .ok zeroHash
  | some image =>
    match image.root with
    | none => .error (.cache (.invalid "indexed image has no carapace"))
    | some root => do
      (x.prepare image).mapError PipelineError.cache
      .ok root

/-- `Root::activate`: the active chain's root. -/
def Root.activate (x : Execution) (r : Root) : Except PipelineError Hash := do
  let base ← baseRoot x r.base
  let root ← r.produced.foldlM append base
  (x.activate r).mapError PipelineError.execution
  .ok root

/-- A stage's work on its source, whose output keeps `input`'s other components. -/
def stageBody (z : Zstd) (x : Execution) (outputs : Outputs) (name : Plan.StageRef)
    (stage : Planner.Stage) (input : StageOutput) (source : Root) :
    Except PipelineError StageOutput := do
  let active ← source.activate x
  match stage.format with
  | some _ => do
    let result ← (x.bootstrap name stage outputs source).mapError PipelineError.execution
    .ok ⟨some (.extend none [] (sealSnapshot zeroHash result)), none, none⟩
  | none => do
    let derived ← (x.derive name stage outputs source).mapError PipelineError.execution
    StageOutput.bind z { input with
      root := some (.extend source.base source.produced (sealSnapshot active derived)) }

/-- One stage of the plan's order. -/
def runStage (z : Zstd) (x : Execution) (build : ResolvedBuild) (outputs : Outputs)
    (name : Plan.StageRef) :
    Except PipelineError Outputs :=
  match build.plan.stages.get? name with
  | none => .error (.unknownStage name)
  | some stage => do
    let input ← StageOutput.resolve z build outputs stage.source
    match input.root with
    | none => .error (.noCarapace name)
    | some source => do
      let output ← (stageBody z x outputs name stage input source).mapError
        (PipelineError.stage name)
      .ok (outputs.insert name output)

/-- The outputs of every stage in order. -/
def stageOutputs (z : Zstd) (x : Execution) (build : ResolvedBuild) :
    Except PipelineError Outputs :=
  build.plan.order.foldlM (runStage z x build) OrdMap.empty

def execute (z : Zstd) (x : Execution) (build : ResolvedBuild) :
    Except PipelineError StageOutput := do
  let outputs ← stageOutputs z x build
  StageOutput.select z build outputs (some x.reader)

/-- The output a build assembles. -/
def run (z : Zstd) (x : Execution) (build : ResolvedBuild) : Except PipelineError StageOutput :=
  if build.plan.executionRequired then execute z x build
  else StageOutput.select z build OrdMap.empty none

end Conglobate.Pipeline
