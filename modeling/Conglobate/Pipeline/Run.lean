import Conglobate.Pipeline.Output

/- What a run's stages leave behind.

   `StageDone` says what a finished stage did: it created a root, or extended its
   source's with what it sealed (`Root.sealed`) and bound the configuration.
   `stageOutputs_inv` is the one induction over a run: what holds of no outputs and
   survives a finished stage holds of a run's. -/
namespace Conglobate.Pipeline

open Storage

section Run
variable {z : Zstd} {x : Execution} {build : ResolvedBuild}

/-- A root with what was sealed on it. -/
def Root.sealed (r : Root) (s : Sealing) : Root := .extend r.base r.produced (sealSnapshot r.hash s)

/-- The new root's hash is the one that was sealed. -/
theorem Root.sealed_hash (r : Root) (s : Sealing) : (r.sealed s).hash = s.root := by
  simp [Root.sealed, Root.extend, Root.hash, sealSnapshot]

/-- Appending ends at the last scute's root. -/
theorem foldlM_append {scutes : List SealedScute} {start last : Hash}
    (h : scutes.foldlM append start = .ok last) :
    last = (scutes.getLast?.map SealedScute.root).getD start := by
  induction scutes generalizing start with
  | nil =>
    cases h
    rfl
  | cons scute rest ih =>
    rw [List.foldlM_cons] at h
    obtain ⟨next, hnext, h⟩ := except_bind_eq_ok.mp h
    rw [append] at hnext
    split at hnext
    · cases hnext
      rw [ih h, List.getLast?_cons]
      cases rest.getLast? <;> rfl
    · cases hnext

/-- **A root is active at its own hash.** -/
theorem activate_hash {r : Root} {active : Hash} (h : r.activate x = .ok active) :
    active = r.hash := by
  obtain ⟨base, hbase, h⟩ := except_bind_eq_ok.mp h
  obtain ⟨last, hlast, h⟩ := except_bind_eq_ok.mp h
  obtain ⟨_, -, h⟩ := except_bind_eq_ok.mp h
  cases h
  have hget : some r.hash = (r.produced.getLast?.map SealedScute.root).or
      (r.base.bind CheckedImage.root) :=
    Option.some_get _
  rw [foldlM_append hlast]
  cases hproduced : r.produced.getLast? with
  | some scute =>
    rw [hproduced] at hget
    exact (Option.some.inj hget).symm
  | none =>
    rw [hproduced, Option.map_none, Option.none_or] at hget
    cases hr : r.base with
    | none =>
      rw [hr] at hget
      cases hget
    | some image =>
      rw [hr, Option.bind_some] at hget
      rw [hr, baseRoot, ← hget] at hbase
      obtain ⟨_, -, hbase⟩ := except_bind_eq_ok.mp hbase
      cases hbase
      rfl

/-- Outputs that were there before others. -/
def Earlier (before outputs : Outputs) : Prop :=
  ∀ name output, before.get? name = some output → outputs.get? name = some output

theorem Earlier.insert {before outputs : Outputs} (h : Earlier before outputs)
    {name : Plan.StageRef} (hfresh : outputs.get? name = none) (output : StageOutput) :
    Earlier before (outputs.insert name output) := by
  intro other result hget
  have hthere := h other result hget
  have hne : other ≠ name := by
    rintro rfl
    rw [hfresh] at hthere
    cases hthere
  rwa [OrdMap.get?_insert, if_neg hne]

/-- What running a stage with `outputs` before it gave. -/
inductive StageDone (z : Zstd) (x : Execution) (build : ResolvedBuild) (outputs : Outputs)
    (name : Plan.StageRef) :
    StageOutput → Prop
  | created {stage : Planner.Stage} {input : StageOutput} {source : Root} {before : Outputs}
      (sealing : Sealing) :
      build.plan.stages.get? name = some stage →
      StageOutput.resolve z build outputs stage.source = .ok input → input.root = some source →
      stage.format.isSome → Earlier before outputs → x.bootstrap name stage before source =
        .ok sealing →
      StageDone z x build outputs name ⟨some (.extend none []
        (sealSnapshot Artifact.zeroHash sealing)), none, none⟩
  | extended {stage : Planner.Stage} {input : StageOutput} {source : Root} {before : Outputs}
      {sealing : Sealing} {output : StageOutput} :
      build.plan.stages.get? name = some stage →
      StageOutput.resolve z build outputs stage.source = .ok input → input.root = some source →
      stage.format = none → Earlier before outputs → x.derive name stage before source =
        .ok sealing →
      StageOutput.bind z { input with root := some (source.sealed sealing) } = .ok output →
      StageDone z x build outputs name output

/-- **A stage that runs** adds the output of a finished stage. -/
theorem runStage_done {outputs outputs' : Outputs} {name : Plan.StageRef}
    (h : runStage z x build outputs name = .ok outputs') :
    ∃ output, StageDone z x build outputs name output ∧ outputs' = outputs.insert name output := by
  unfold runStage at h
  split at h
  · cases h
  · rename_i stage hstage
    obtain ⟨input, hinput, h⟩ := except_bind_eq_ok.mp h
    split at h
    · cases h
    · rename_i source hsource
      obtain ⟨output, hbody, h⟩ := except_bind_eq_ok.mp h
      cases h
      refine ⟨output, ?_, rfl⟩
      obtain ⟨active, hactive, hbody⟩ := except_bind_eq_ok.mp (except_mapError_eq_ok.mp hbody)
      split at hbody
      · rename_i format hformat
        obtain ⟨sealing, hsealing, hbody⟩ := except_bind_eq_ok.mp hbody
        cases hbody
        exact .created sealing hstage hinput hsource (by rw [hformat]; rfl) (fun _ _ hget => hget)
          (except_mapError_eq_ok.mp hsealing)
      · rename_i hformat
        obtain ⟨sealing, hsealing, hbody⟩ := except_bind_eq_ok.mp hbody
        rw [activate_hash hactive] at hbody
        exact .extended hstage hinput hsource hformat (fun _ _ hget => hget)
          (except_mapError_eq_ok.mp hsealing) hbody

theorem resolve_stage {outputs : Outputs} {name : Plan.StageRef} {r : StageOutput} :
    StageOutput.resolve z build outputs (.stage name) = .ok r ↔ outputs.get? name = some r := by
  rw [StageOutput.resolve]
  cases outputs.get? name <;> simp

/-- Further outputs change nothing that was resolved before. -/
theorem resolve_insert {outputs : Outputs} {name : Plan.StageRef} {output : StageOutput}
    {reference : Plan.ImageRef} {r : StageOutput} (hfresh : outputs.get? name = none)
    (h : StageOutput.resolve z build outputs reference = .ok r) :
    StageOutput.resolve z build (outputs.insert name output) reference = .ok r := by
  cases reference with
  | remote reference => exact h
  | stage other =>
    rw [resolve_stage] at h ⊢
    have hne : other ≠ name := by
      rintro rfl
      rw [hfresh] at h
      cases h
    rwa [OrdMap.get?_insert, if_neg hne]

theorem StageDone.insert {outputs : Outputs} {name other : Plan.StageRef} {output : StageOutput}
    {later : StageOutput} (hfresh : outputs.get? other = none)
    (h : StageDone z x build outputs name output) :
    StageDone z x build (outputs.insert other later) name output := by
  cases h with
  | created sealing hstage hinput hsource hformat hbefore hsealing =>
    exact .created sealing hstage (resolve_insert hfresh hinput) hsource hformat
      (hbefore.insert hfresh later) hsealing
  | extended hstage hinput hsource hformat hbefore hsealing hbind =>
    exact .extended hstage (resolve_insert hfresh hinput) hsource hformat
      (hbefore.insert hfresh later) hsealing hbind

/-- **Induction over a run.** -/
theorem stageOutputs_inv (Inv : Outputs → Prop) (hinit : Inv OrdMap.empty)
    (hnodup : build.plan.order.Nodup)
    (hstep : ∀ outputs name output, outputs.get? name = none → Inv outputs →
      StageDone z x build outputs name output → Inv (outputs.insert name output))
    {outputs : Outputs} (h : stageOutputs z x build = .ok outputs) :
    (∀ name, (outputs.get? name).isSome ↔ name ∈ build.plan.order) ∧ Inv outputs := by
  refine Flow.foldlM_partial (fun front outputs => (∀ name, (outputs.get? name).isSome ↔
    name ∈ front) ∧ Inv outputs)
    ⟨fun name => ⟨fun h => (Bool.false_ne_true h).elim, fun h => (List.not_mem_nil h).elim⟩,
      hinit⟩ ?_ h
  intro front name rest before after hsplit hbefore hrun
  obtain ⟨hkeys, hinv⟩ := hbefore
  obtain ⟨output, hdone, rfl⟩ := runStage_done hrun
  have hfresh : before.get? name = none := by
    rw [hsplit, List.nodup_append] at hnodup
    rw [← Option.not_isSome_iff_eq_none, hkeys name]
    exact fun hmem => hnodup.2.2 name hmem name List.mem_cons_self rfl
  refine ⟨?_, hstep before name output hfresh hinv hdone⟩
  intro other
  rw [OrdMap.get?_insert, List.mem_append, List.mem_singleton]
  by_cases hother : other = name
  · simp [hother]
  · simp [hother, hkeys other]

/-- **Every output of a run** is a finished stage's, and those of the order are there. -/
theorem stageOutputs_done (hnodup : build.plan.order.Nodup) {outputs : Outputs}
    (h : stageOutputs z x build = .ok outputs) :
    (∀ name, (outputs.get? name).isSome ↔ name ∈ build.plan.order) ∧
      ∀ name output, outputs.get? name = some output → StageDone z x build outputs name output := by
  refine stageOutputs_inv
    (fun outputs => ∀ name output, outputs.get? name = some output →
      StageDone z x build outputs name output)
    (fun _ _ h => by cases h) hnodup ?_ h
  intro outputs name output hfresh hinv hdone other result hget
  rw [OrdMap.get?_insert] at hget
  split at hget
  · rename_i heq
    cases hget
    rw [heq]
    exact hdone.insert hfresh
  · exact (hinv other result hget).insert hfresh

/-- **A run** is its stages' outputs and a selection from them. -/
theorem run_eq_ok {selected : StageOutput} (h : run z x build = .ok selected) :
    ∃ outputs reader, stageOutputs z x build = .ok outputs ∧
      StageOutput.select z build outputs reader = .ok selected ∧
      (build.plan.rootReaderRequired = true → reader.isSome) := by
  unfold run at h
  split at h
  · obtain ⟨outputs, houtputs, h⟩ := except_bind_eq_ok.mp h
    exact ⟨outputs, some x.reader, houtputs, h, fun _ => rfl⟩
  · rename_i hnone
    rw [Planner.Plan.executionRequired, Bool.not_eq_true, Bool.or_eq_false_iff] at hnone
    have horder : build.plan.order = [] := by
      have := hnone.1
      simpa [Planner.Plan.commandsRequired] using this
    refine ⟨OrdMap.empty, none, ?_, h, ?_⟩
    · rw [stageOutputs, horder]
      rfl
    · intro hreader
      rw [hnone.2] at hreader
      cases hreader

end Run

/-! A run of one stage on an image, whose PMI the stage's root is joined to. -/

namespace Sample

open Artifact Planner

def document : Plan.Document where
  stages := OrdMap.empty.insert sampleBase (.extend (.remote sampleRemote) .empty [])
  image := .components (some (.stage sampleBase)) (some (.shorthand (.remote sampleRemote)))

def build : ResolvedBuild where
  plan :=
    { stages := OrdMap.empty.insert sampleBase ⟨.remote sampleRemote, false, none, .empty, []⟩
      image := document.image
      order := [sampleBase] }
  images := OrdMap.empty.insert (.ofRemote sampleRemote) CheckedImage.sample
  cache := ⟨fun _ _ => .error (.invalid "blob size mismatch")⟩
  resolved := by decide

def zstd : Zstd := ⟨fun bytes => .ok (bytes.tail, []), fun text => 0 :: text⟩

theorem zstd_lawful : zstd.Lawful := ⟨fun _ => rfl, fun _ h => by cases h⟩

def sealing : Sealing where
  digest := ⟨Vector.replicate 32 85⟩
  size := 40
  bytes := 12288
  nonempty := by decide
  suffix := Vector.replicate 32 1
  root := Vector.replicate 32 68

/-- Everything the kernel is asked for works, but reading a file. -/
def execution : Execution where
  prepare _ := .ok ()
  activate _ := .ok ()
  bootstrap _ _ _ _ := .ok sealing
  derive _ _ _ _ := .ok sealing
  reader _ _ := .error ⟨.other, "no such file"⟩

theorem planned : Plan.tryFrom ⟨2 ^ 20, by decide⟩ document = .ok build.plan := by rfl

end Sample

end Conglobate.Pipeline
