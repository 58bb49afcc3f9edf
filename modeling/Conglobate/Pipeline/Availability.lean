import Conglobate.Input.Availability
import Conglobate.Pipeline.Run

/- What is predicted before a run is what the run has.

   `Fits` says that an output has the components an availability names, and a PMI
   for its configuration. A reference that was found available resolves to an output
   that fits (`resolve_ends`), so the outputs of a run fit what was predicted of them
   (`stageOutputs_ends`) and nothing that is selected is missing
   (**`availability_predicts`**). -/
namespace Conglobate.Pipeline

open Input

/-- A component, a stage or an input that is not there. -/
def PipelineError.isMissing : PipelineError → Bool
  | .notCompleted _ => true
  | .notResolved => true
  | .noCarapace _ => true
  | .noRoot => true
  | .noFileRoot => true
  | .noReader => true
  | .noPmi => true
  | .noImage => true
  | .configWithoutPmi => true
  | .unknownStage _ => true
  | .stage _ error => error.isMissing
  | .cache _ => false
  | .config _ => false
  | .execution _ => false
  | .parent => false

/-- A failure of something that is there. -/
def Present (e : PipelineError) : Prop := e.isMissing = false

namespace StageOutput

/-- The components an output has. -/
def available (o : StageOutput) : Availability := ⟨o.root.isSome, o.pmi.isSome⟩

structure Fits (o : StageOutput) (a : Availability) : Prop where
  available : o.available = a
  config : o.bootconfig.isSome → o.pmi.isSome

theorem Fits.root {o : StageOutput} {a : Availability} (h : o.Fits a) : o.root.isSome = a.root :=
  congrArg Availability.root h.available

theorem Fits.pmi {o : StageOutput} {a : Availability} (h : o.Fits a) : o.pmi.isSome = a.boot :=
  congrArg Availability.boot h.available

end StageOutput

/-- Every output fits what was predicted, and none is there that was not. -/
def Agrees (outputs : Outputs) (predicted : OrdMap Plan.StageRef Availability) : Prop :=
  ∀ name, Option.Rel StageOutput.Fits (outputs.get? name) (predicted.get? name)

section Ends
variable {z : Zstd} {x : Execution} {build : ResolvedBuild} {outputs : Outputs}
  {predicted : OrdMap Plan.StageRef Availability}

theorem present_mapError {ε α : Type} {f : ε → PipelineError} (hf : ∀ e, Present (f e))
    (r : Except ε α) :
    Fails Present (r.mapError f) :=
  Fails.mapError (fun e _ => hf e)

theorem imageRoot_isSome (i : CheckedImage) : (StageOutput.imageRoot i).isSome = i.root.isSome := by
  rw [StageOutput.imageRoot]
  split
  · rename_i h
    exact h.symm
  · rename_i h
    exact (Bool.eq_false_iff.mpr h).symm

theorem imagePmi_isSome (i : CheckedImage) :
    (StageOutput.imagePmi i).isSome = i.manifest.layers.any Artifact.Layer.isPmi := by
  have hfind : i.pmiLayer.isSome = i.manifest.layers.any Artifact.Layer.isPmi := by
    rw [Bool.eq_iff_iff, CheckedImage.pmiLayer, List.find?_isSome, List.any_eq_true]
  rw [← hfind, StageOutput.imagePmi]
  split
  · rename_i h
    exact h.symm
  · rename_i h
    exact (Bool.eq_false_iff.mpr h).symm

/-- A valid image has a PMI for its boot configuration. -/
theorem bootConfigDescriptor_pmi {i : CheckedImage} (h : i.bootConfigDescriptor.isSome) :
    i.manifest.layers.any Artifact.Layer.isPmi = true := by
  obtain ⟨d, hd⟩ := Option.isSome_iff_exists.mp h
  obtain ⟨l, hl, hdesc⟩ := List.exists_of_findSome?_eq_some hd
  have hboot : l.isBootConfig = true := by
    cases l with
    | bootConfig d' => rfl
    | scute d' => cases hdesc
    | scuteZstd d' => cases hdesc
    | pmi d' => cases hdesc
    | pmiZstd d' => cases hdesc
  have hcount : i.manifest.bootConfigCount ≠ 0 := by
    rw [Artifact.Manifest.bootConfigCount, ← Nat.pos_iff_ne_zero, List.countP_pos_iff]
    exact ⟨l, hl, hboot⟩
  obtain ⟨-, -, -, -, hcounts, -⟩ := Artifact.Manifest.validate_eq_ok.mp i.valid
  have hpmi := (Artifact.Manifest.checkCounts_eq_ok.mp hcounts).2.2 hcount
  rw [Artifact.Manifest.pmiCount, ← Nat.pos_iff_ne_zero, List.countP_pos_iff] at hpmi
  exact List.any_eq_true.mpr hpmi

/-- **An image's output has the components it was found to have.** -/
theorem remote_ends (image : CheckedImage) :
    Ends Present (fun o => o.Fits (Availability.ofImage image))
      (StageOutput.remote z image build.cache) := by
  have hbytes : Ends Present (fun bytes => bytes.isSome → image.bootConfigDescriptor.isSome)
      ((image.bootconfig build.cache).mapError PipelineError.cache) := by
    refine ⟨present_mapError (f := PipelineError.cache) (fun _ => rfl) _, ?_⟩
    intro bytes hread hsome
    have hread := except_mapError_eq_ok.mp hread
    rw [CheckedImage.bootconfig] at hread
    split at hread
    · cases hread
      cases hsome
    · rename_i d hd
      rw [hd]
      rfl
  refine Ends.bind hbytes (fun bytes hconfigured => ?_)
  have hconfig : Ends Present (fun config => config.isSome → bytes.isSome)
      ((StageOutput.inheritedConfig z image.root bytes).mapError PipelineError.config) := by
    refine ⟨present_mapError (f := PipelineError.config) (fun _ => rfl) _, ?_⟩
    intro config hparsed hsome
    have hparsed := except_mapError_eq_ok.mp hparsed
    cases bytes with
    | none =>
      cases hparsed
      cases hsome
    | some bytes => rfl
  refine Ends.bind hconfig (fun config hinherited => Ends.ok ⟨?_, ?_⟩)
  · show Availability.mk (StageOutput.imageRoot image).isSome (StageOutput.imagePmi image).isSome =
      _
    rw [imageRoot_isSome, imagePmi_isSome]
    rfl
  · intro hnonempty
    show (StageOutput.imagePmi image).isSome = true
    rw [imagePmi_isSome]
    apply bootConfigDescriptor_pmi
    apply hconfigured
    apply hinherited
    exact Option.isSome_of_isSome_filter _ _ hnonempty

/-- **What was found available resolves.** -/
theorem resolve_ends (hagrees : Agrees outputs predicted) {reference : Plan.ImageRef}
    {a : Availability} (h : Availability.source build.images predicted reference = .ok a) :
    Ends Present (fun o => o.Fits a) (StageOutput.resolve z build outputs reference) := by
  cases reference with
  | stage name =>
    have hname := hagrees name
    rw [Availability.source] at h
    rw [StageOutput.resolve]
    cases hname' : predicted.get? name with
    | none =>
      rw [hname'] at h
      cases h
    | some b =>
      rw [hname'] at h hname
      cases h
      cases houtput : outputs.get? name with
      | none =>
        rw [houtput] at hname
        cases hname
      | some output =>
        rw [houtput] at hname
        cases hname with
        | some hfits => exact Ends.ok hfits
  | remote reference =>
    rw [Availability.source] at h
    rw [StageOutput.resolve]
    cases himage : build.images.get? (.ofRemote reference) with
    | none =>
      rw [himage] at h
      cases h
    | some image =>
      rw [himage] at h
      cases h
      exact remote_ends image

/-- Binding keeps the components. -/
theorem bind_ends {o : StageOutput} {a : Availability} (h : o.Fits a) :
    Ends Present (fun bound => bound.Fits a) (o.bind z) := by
  rw [StageOutput.bind]
  split
  · rename_i root config hroot hconfig
    refine Ends.bind (Ends.of_fails (present_mapError (f := PipelineError.config) (fun _ => rfl) _))
      (fun bound _ => Ends.ok ⟨h.available, fun _ => ?_⟩)
    exact h.config (by rw [hconfig]; rfl)
  · exact Ends.ok h

theorem activate_fails (source : Root) : Fails Present (source.activate x) := by
  have hbase : Fails Present (baseRoot x source.base) := by
    rw [baseRoot.eq_def]
    split
    · exact Fails.ok _
    · split
      · exact Fails.error rfl
      · exact Fails.bind (present_mapError (f := PipelineError.cache) (fun _ => rfl) _)
          (fun _ _ => Fails.ok _)
  refine Fails.bind hbase (fun base _ => ?_)
  refine Fails.bind (Fails.foldlM (fun root scute _ => ?_)) (fun root _ => ?_)
  · rw [append]
    split
    · exact Fails.ok _
    · exact Fails.error rfl
  · exact Fails.bind (present_mapError (f := PipelineError.execution) (fun _ => rfl) _)
      (fun _ _ => Fails.ok _)

/-- **A stage's work** gives an output with a root, and the PMI of its source unless
    it creates the root. -/
theorem stageBody_ends {name : Plan.StageRef} {stage : Planner.Stage} {input : StageOutput}
    {source : Root} {a : Availability} (h : input.Fits a) (hroot : a.root = true) :
    Ends Present (fun o => o.Fits (if stage.format.isSome then ⟨true, false⟩ else a))
      (stageBody z x outputs name stage input source) := by
  refine Ends.bind (Ends.of_fails (activate_fails source)) (fun active _ => ?_)
  cases stage.format with
  | some format =>
    refine Ends.bind (Ends.of_fails (present_mapError
      (f := PipelineError.execution) (fun _ => rfl) _))
      (fun result _ => Ends.ok ⟨rfl, fun hconfig => ?_⟩)
    cases hconfig
  | none =>
    refine Ends.bind (Ends.of_fails (present_mapError
      (f := PipelineError.execution) (fun _ => rfl) _))
      (fun derived _ => bind_ends ⟨?_, h.config⟩)
    show Availability.mk true input.pmi.isSome = a
    rw [h.pmi, ← hroot]

/-- **One stage of a run follows its prediction.** -/
theorem runStage_ends {name : Plan.StageRef} {predicted' : OrdMap Plan.StageRef Availability}
    (hagrees : Agrees outputs predicted)
    (h : Availability.addStage build.plan build.images predicted name = .ok predicted') :
    Ends Present (fun outputs' => Agrees outputs' predicted')
      (runStage z x build outputs name) := by
  rw [Availability.addStage] at h
  rw [runStage]
  cases hstage : build.plan.stages.get? name with
  | none =>
    rw [hstage] at h
    cases h
  | some stage =>
    rw [hstage] at h
    obtain ⟨a, hsource, h⟩ := except_bind_eq_ok.mp h
    split at h
    · cases h
    rename_i hroot
    cases h
    rw [Bool.not_eq_true', Bool.not_eq_false] at hroot
    refine Ends.bind (resolve_ends hagrees hsource) (fun input hinput => ?_)
    have hsome : input.root.isSome = true := hinput.root.trans hroot
    obtain ⟨source, hinputRoot⟩ := Option.isSome_iff_exists.mp hsome
    rw [hinputRoot]
    have hbody : Ends Present (fun o => o.Fits (if stage.format.isSome then ⟨true, false⟩ else a))
        (stageBody z x outputs name stage input source) := stageBody_ends hinput hroot
    refine Ends.bind (Ends.mapError hbody (fun e he => he)) (fun output houtput => Ends.ok ?_)
    intro other
    rw [OrdMap.get?_insert, OrdMap.get?_insert]
    by_cases hother : other = name
    · rw [if_pos hother, if_pos hother]
      exact .some houtput
    · rw [if_neg hother, if_neg hother]
      exact hagrees other

/-- **A run follows its prediction**, stage by stage. -/
theorem stageOutputs_ends (h : Availability.stages build.plan build.images = .ok predicted) :
    Ends Present (fun outputs => Agrees outputs predicted) (stageOutputs z x build) :=
  Ends.foldlM (f := runStage z x build) (g := Availability.addStage build.plan build.images) Agrees
    (fun _ _ _ _ hagrees hstep => runStage_ends hagrees hstep) (fun _ => .none) h

/-! The selection. -/

theorem selectRoot_ends (hagrees : Agrees outputs predicted) {reference : Option Plan.ImageRef}
    (h : Availability.validateRoot build.images predicted reference = .ok ()) :
    Ends Present (fun root => root.isSome = reference.isSome)
      (StageOutput.selectRoot z build outputs reference) := by
  cases reference with
  | none => exact Ends.ok rfl
  | some reference =>
    obtain ⟨a, hsource, h⟩ := except_bind_eq_ok.mp h
    split at h
    · cases h
    rename_i hroot
    rw [Bool.not_eq_true', Bool.not_eq_false] at hroot
    refine Ends.bind (resolve_ends hagrees hsource) (fun source hfits => ?_)
    obtain ⟨root, hsome⟩ := Option.isSome_iff_exists.mp (hfits.root.trans hroot)
    rw [hsome]
    exact Ends.ok rfl

theorem inheritConfig_fails (source : StageOutput) (boot : Plan.Boot) :
    Fails Present (StageOutput.inheritConfig z source boot) := by
  rw [StageOutput.inheritConfig.eq_def]
  split
  · exact Fails.map _ (present_mapError (f := PipelineError.config) (fun _ => rfl) _)
  · exact Fails.map _ (present_mapError (f := PipelineError.config) (fun _ => rfl) _)
  · exact Fails.ok _

/-- A boot directive's PMI is there, and so is what a file is read with. -/
theorem selectBoot_ends (hagrees : Agrees outputs predicted) {boot : Option Plan.Boot}
    {reader : Option Reader} (h : Availability.validateBoot build.images predicted boot = .ok ())
    (hreader : ∀ extract define, boot = some (.extract extract define) → reader.isSome) :
    Ends Present (fun chosen => chosen.1.isSome = boot.isSome ∧ (chosen.2.isSome → chosen.1.isSome))
      (StageOutput.selectBoot z build outputs reader boot) := by
  rw [StageOutput.selectBoot.eq_def]
  rw [Availability.validateBoot.eq_def] at h
  split
  · exact Ends.ok ⟨rfl, fun hconfig => by cases hconfig⟩
  · rename_i extract define
    obtain ⟨a, hsource, h⟩ := except_bind_eq_ok.mp h
    split at h
    · cases h
    rename_i hroot
    rw [Bool.not_eq_true', Bool.not_eq_false] at hroot
    obtain ⟨read, hread⟩ := Option.isSome_iff_exists.mp (hreader extract define rfl)
    have hfile : Ends Present (fun _ => True) (StageOutput.extractPmi z build outputs reader extract) := by
      refine Ends.bind (resolve_ends hagrees hsource) (fun source hfits => ?_)
      obtain ⟨root, hsome⟩ := Option.isSome_iff_exists.mp (hfits.root.trans hroot)
      rw [hsome, hread]
      exact Ends.of_fails (Fails.map _ (present_mapError
        (f := PipelineError.execution) (fun _ => rfl) _))
    refine Ends.bind hfile (fun pmi _ => ?_)
    exact Ends.bind (Ends.of_fails (present_mapError (f := PipelineError.config) (fun _ => rfl) _))
      (fun config _ => Ends.ok ⟨rfl, fun _ => rfl⟩)
  · rename_i boot hinherit
    have hboot : ∃ a, Availability.source build.images predicted boot.source = .ok a ∧
        a.boot = true := by
      cases boot with
      | extract file define => exact (hinherit file define rfl).elim
      | _ =>
        obtain ⟨a, hsource, h⟩ := except_bind_eq_ok.mp h
        split at h
        · cases h
        · rename_i hpmi
          rw [Bool.not_eq_true', Bool.not_eq_false] at hpmi
          exact ⟨a, hsource, hpmi⟩
    obtain ⟨a, hsource, hpmi⟩ := hboot
    refine Ends.bind (resolve_ends hagrees hsource) (fun source hfits => ?_)
    obtain ⟨pmi, hsome⟩ := Option.isSome_iff_exists.mp (hfits.pmi.trans hpmi)
    rw [hsome]
    exact Ends.bind (Ends.of_fails (inheritConfig_fails source boot))
      (fun config _ => Ends.ok ⟨rfl, fun _ => rfl⟩)

theorem finish_fails {o : StageOutput} {a : Availability} (hfits : o.Fits a)
    (hsome : a.root = true ∨ a.boot = true) :
    Fails Present (StageOutput.finish z o) := by
  have himage : ¬ (o.root.isNone && o.pmi.isNone) = true := by
    rw [Bool.and_eq_true, ← Option.not_isSome, ← Option.not_isSome, hfits.root, hfits.pmi]
    rcases hsome with h | h <;> simp [h]
  have hconfig : ¬ (o.bootconfig.isSome && o.pmi.isNone) = true := by
    rw [Bool.and_eq_true, ← Option.not_isSome]
    intro h
    rw [hfits.config h.1] at h
    cases h.2
  rw [StageOutput.finish, if_neg himage, if_neg hconfig]
  split
  · exact Fails.ok _
  · split
    · exact (bind_ends hfits).1
    · exact Fails.ok _

/-- **Nothing that is selected is missing.** -/
theorem select_fails (hagrees : Agrees outputs predicted) {reader : Option Reader}
    (h : Availability.validateImage build.images predicted build.plan.image = .ok ())
    (hcomponents : Planner.noComponents build.plan.image = false)
    (hreader : build.plan.rootReaderRequired = true → reader.isSome) :
    Fails Present (StageOutput.select z build outputs reader) := by
  rw [StageOutput.select, StageOutput.compose]
  cases himage : build.plan.image with
  | shorthand reference =>
    rw [himage] at h
    obtain ⟨a, hsource, h⟩ := except_bind_eq_ok.mp h
    split at h
    · cases h
    rename_i hsome
    have hsome : a.root = true ∨ a.boot = true := by
      cases hroot : a.root <;> cases hboot : a.boot <;> simp_all
    exact (Ends.bind (resolve_ends hagrees hsource)
      (fun o hfits => Ends.of_fails (finish_fails hfits hsome))).1
  | components root boot =>
    rw [himage] at h hcomponents
    obtain ⟨_, hroot, hboot⟩ := except_bind_eq_ok.mp h
    have hextract : ∀ extract define, boot = some (.extract extract define) → reader.isSome := by
      intro extract define heq
      refine hreader ?_
      rw [Planner.Plan.rootReaderRequired, himage, heq]
    have hselected : Ends Present (fun o : StageOutput => o.Fits ⟨root.isSome, boot.isSome⟩) (do
        let root ← StageOutput.selectRoot z build outputs root
        let boot ← StageOutput.selectBoot z build outputs reader boot
        .ok ⟨root, boot.1, StageOutput.nonempty boot.2⟩) := by
      refine Ends.bind (selectRoot_ends hagrees hroot) (fun selected hselected => ?_)
      refine Ends.bind (selectBoot_ends hagrees hboot hextract)
        (fun chosen hchosen => Ends.ok ⟨?_, ?_⟩)
      · show Availability.mk selected.isSome chosen.1.isSome = _
        rw [hselected, hchosen.1]
      · exact fun hconfig => hchosen.2 (Option.isSome_of_isSome_filter _ _ hconfig)
    have hsome : root.isSome = true ∨ boot.isSome = true := by
      cases root with
      | some reference => exact .inl rfl
      | none =>
        cases boot with
        | some directive => exact .inr rfl
        | none => cases hcomponents
    exact (Ends.bind hselected (fun o hfits => Ends.of_fails (finish_fails hfits hsome))).1

/-- Every reference of the image was looked at. -/
theorem validateImage_source {image : Plan.Image}
    (h : Availability.validateImage build.images predicted image = .ok ())
    {reference : Plan.ImageRef} (hmem : reference ∈ image.sources) :
    ∃ a, Availability.source build.images predicted reference = .ok a := by
  cases image with
  | shorthand source =>
    obtain ⟨a, hsource, -⟩ := except_bind_eq_ok.mp h
    rw [List.mem_singleton.mp hmem]
    exact ⟨a, hsource⟩
  | components root boot =>
    obtain ⟨_, hroot, hboot⟩ := except_bind_eq_ok.mp h
    rcases List.mem_append.mp hmem with hmem | hmem
    · cases root with
      | none => cases hmem
      | some source =>
        obtain ⟨a, hsource, -⟩ := except_bind_eq_ok.mp hroot
        rw [List.mem_singleton.mp hmem]
        exact ⟨a, hsource⟩
    · cases boot with
      | none => cases hmem
      | some boot =>
        rw [List.mem_singleton.mp hmem]
        cases boot with
        | _ =>
          obtain ⟨a, hsource, -⟩ := except_bind_eq_ok.mp hboot
          exact ⟨a, hsource⟩

/-- What is predicted is of the stages in order. -/
theorem stages_known (h : Availability.stages build.plan build.images = .ok predicted)
    (name : Plan.StageRef) :
    (predicted.get? name).isSome ↔ name ∈ build.plan.order := by
  refine Flow.foldlM_partial (f := Availability.addStage build.plan build.images)
    (fun front predicted => (predicted.get? name).isSome ↔ name ∈ front) ?_ ?_ h
  · exact iff_of_false (fun hsome => by cases hsome) List.not_mem_nil
  · intro front other rest before after _ hbefore hstep
    rw [Availability.addStage] at hstep
    split at hstep
    · cases hstep
    obtain ⟨a, -, hstep⟩ := except_bind_eq_ok.mp hstep
    split at hstep
    · cases hstep
    cases hstep
    rw [OrdMap.get?_insert, List.mem_append, List.mem_singleton]
    by_cases hname : name = other
    · simp [hname]
    · simp [hname, hbefore]

end Ends

theorem noComponents_of_tryFrom {c : Carapace} {raw : Plan.Document} {plan : Planner.Plan}
    (h : Planner.Plan.tryFrom c raw = .ok plan) : Planner.noComponents plan.image = false := by
  rw [Planner.Plan.tryFrom] at h
  split at h
  · cases h
  · rename_i hcomponents
    obtain ⟨stages, -, h⟩ := except_bind_eq_ok.mp h
    obtain ⟨_, -, h⟩ := except_bind_eq_ok.mp h
    obtain ⟨order, -, h⟩ := except_bind_eq_ok.mp h
    cases h
    exact Bool.eq_false_iff.mpr hcomponents

/-- **Availability predicts selection.** Where the availability of an accepted plan's
    components was validated, a run fails of nothing that is missing: not at a stage,
    not where the image's references are resolved, and not where its output is
    selected. Every stage's output has the root and the boot components that were
    predicted of it. -/
theorem availability_predicts (z : Zstd) (x : Execution) (build : ResolvedBuild) {c : Carapace}
    {raw : Plan.Document} (hplan : Planner.Plan.tryFrom c raw = .ok build.plan)
    (havailable : Availability.validate build.plan build.images = .ok ()) :
    Fails Present (run z x build) ∧
      ∃ predicted, Availability.stages build.plan build.images = .ok predicted ∧
        (∀ name, (predicted.get? name).isSome ↔ name ∈ build.plan.order) ∧
        ∀ outputs, stageOutputs z x build = .ok outputs →
          (∀ name, (outputs.get? name).map StageOutput.available = predicted.get? name) ∧
          (∀ reference ∈ build.plan.image.sources, Fails Present
            (StageOutput.resolve z build outputs reference)) ∧
          Fails Present (StageOutput.select z build outputs (some x.reader)) := by
  obtain ⟨predicted, hstages, himage⟩ := except_bind_eq_ok.mp havailable
  have hcomponents := noComponents_of_tryFrom hplan
  have hselect : ∀ outputs, Agrees outputs predicted →
      Fails Present (StageOutput.select z build outputs (some x.reader)) :=
    fun outputs hagrees => select_fails hagrees himage hcomponents (fun _ => rfl)
  refine ⟨?_, predicted, hstages, stages_known hstages, ?_⟩
  · rw [run]
    split
    · exact (Ends.bind (stageOutputs_ends hstages)
        (fun outputs hagrees => Ends.of_fails (hselect outputs hagrees))).1
    · -- without stages and files to read nothing is executed
      rename_i hrequired
      rw [Planner.Plan.executionRequired, Bool.not_eq_true, Bool.or_eq_false_iff,
        Planner.Plan.commandsRequired] at hrequired
      have horder : build.plan.order = [] := by simpa using hrequired.1
      have hempty : Agrees OrdMap.empty predicted := by
        rw [Availability.stages, horder] at hstages
        cases hstages
        exact fun _ => .none
      refine select_fails hempty himage hcomponents (fun hreader => ?_)
      rw [hrequired.2] at hreader
      cases hreader
  · intro outputs houtputs
    have hagrees := (stageOutputs_ends hstages).2 outputs houtputs
    refine ⟨fun name => ?_, fun reference hmem => ?_, hselect outputs hagrees⟩
    · have hname := hagrees name
      generalize outputs.get? name = output at hname ⊢
      generalize predicted.get? name = a at hname ⊢
      cases hname with
      | none => rfl
      | some hfits => exact congrArg some hfits.available
    · obtain ⟨a, hsource⟩ := validateImage_source himage hmem
      exact (resolve_ends hagrees hsource).1

theorem availability_predicts_sample :
    Fails Present (run Sample.zstd Sample.execution Sample.build) ∧
      ∃ predicted, Availability.stages Sample.build.plan Sample.build.images = .ok predicted ∧
        predicted.get? Planner.sampleBase = some ⟨true, true⟩ := by
  obtain ⟨hrun, predicted, hstages, -, -⟩ :=
    availability_predicts Sample.zstd Sample.execution Sample.build Sample.planned (by rfl)
  refine ⟨hrun, predicted, hstages, ?_⟩
  cases hstages
  rfl

end Conglobate.Pipeline
