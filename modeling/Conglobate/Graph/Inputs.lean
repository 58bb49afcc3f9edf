import Conglobate.Graph.Basic

/- The inputs of a build graph are exact (`inputs_exact`).

   What a plan uses is said of the plan alone: the source of a stage in its order
   (`StageSource`) or an image selector (`SelectorSource`). Each fold of
   `BuildGraph.new` has one invariant of the uses met so far: `Collected` for the
   references and pins, `requireRoots` for the root marks. Neither mentions the
   order in which the uses are met. -/
namespace Conglobate.BuildGraph

open Planner (Directive Stage)

/-! What a plan uses. -/

section Uses
variable (plan : Planner.Plan)

/-- The remote image a stage starts from. -/
def sourceOf (name : Plan.StageRef) : Option ImageReference :=
  (plan.stages.get? name).bind (fun stage =>
    match stage.source with
    | .remote remote => some (ImageReference.ofRemote remote)
    | .stage _ => none)

/-- A stage of the order starts from the reference, as a bootstrap or not. -/
def StageSource (reference : ImageReference) (bootstrap : Bool) : Prop :=
  ∃ name ∈ plan.order, ∃ stage remote, plan.stages.get? name = some stage ∧
    stage.source = .remote remote ∧
    stage.bootstrap = bootstrap ∧ ImageReference.ofRemote remote = reference

/-- An image selector (root, boot or extraction source) names the reference. -/
def SelectorSource (reference : ImageReference) : Prop :=
  ∃ remote, Plan.ImageRef.remote remote ∈ plan.image.sources ∧
    ImageReference.ofRemote remote = reference

def BootstrapUse (reference : ImageReference) : Prop := StageSource plan reference true

def OrdinaryUse (reference : ImageReference) :
    Prop := StageSource plan reference false ∨ SelectorSource plan reference

/-- The graph's inputs and network steps are those the plan uses, pinned as the lock says. -/
structure Exact (lock : ImageLock) (graph : BuildGraph) : Prop where
  same_plan : graph.plan = plan
  distinct : (graph.inputs.map ImageInput.reference).Nodup
  used : ∀ reference, reference ∈ graph.inputs.map ImageInput.reference ↔
    BootstrapUse plan reference ∨ OrdinaryUse plan reference
  unpinned : ∀ input ∈ graph.inputs, input.index = none ↔ BootstrapUse plan input.reference
  pinned : ∀ input ∈ graph.inputs, ∀ digest, input.index = some digest →
    lock.images.get? input.reference = some digest
  root : ∀ input ∈ graph.inputs, input.rootRequired = true ↔
    ∃ bootstrap, StageSource plan input.reference bootstrap
  step : ∀ name i, (name, i) ∈ graph.networkSteps ↔ name ∈ plan.order ∧
    ∃ stage exec, plan.stages.get? name = some stage ∧ stage.derive[i]? = some (.exec exec) ∧
      exec.network = true
  step_order : graph.networkSteps.Pairwise (fun a b =>
    plan.order.idxOf a.1 < plan.order.idxOf b.1 ∨ a.1 = b.1 ∧ a.2 < b.2)

variable {plan}

theorem mem_remote {source : Plan.ImageRef} {bootstrap : Bool} {s : Plan.Remote × Bool} :
    Planner.Plan.remoteSources.remote source bootstrap = some s ↔ source = .remote s.1 ∧
      bootstrap = s.2 := by
  obtain ⟨remote, b⟩ := s
  cases source with
  | stage name => simp [Planner.Plan.remoteSources.remote]
  | remote r => simp [Planner.Plan.remoteSources.remote]

/-- A remote source of the plan is a stage's or a selector. -/
theorem mem_remoteSources {s : Plan.Remote × Bool} : s ∈ plan.remoteSources ↔
    (∃ name ∈ plan.order, ∃ stage, plan.stages.get? name = some stage ∧ stage.source = .remote s.1 ∧
      stage.bootstrap = s.2) ∨
    Plan.ImageRef.remote s.1 ∈ plan.image.sources ∧ s.2 = false := by
  rw [Planner.Plan.remoteSources, List.mem_append, List.mem_filterMap, List.mem_filterMap]
  apply or_congr
  · constructor
    · rintro ⟨stage, hstage, hs⟩
      obtain ⟨name, hname, hget⟩ := List.mem_filterMap.mp hstage
      exact ⟨name, hname, stage, hget, mem_remote.mp hs⟩
    · rintro ⟨name, hname, stage, hget, hs⟩
      exact ⟨stage, List.mem_filterMap.mpr ⟨name, hname, hget⟩, mem_remote.mpr hs⟩
  · constructor
    · rintro ⟨source, hsource, hs⟩
      obtain ⟨rfl, hfalse⟩ := mem_remote.mp hs
      exact ⟨hsource, hfalse.symm⟩
    · rintro ⟨hsource, hfalse⟩
      exact ⟨_, hsource, mem_remote.mpr ⟨rfl, hfalse.symm⟩⟩

theorem bootstrapUse_iff {reference : ImageReference} :
    BootstrapUse plan reference ↔ ∃ remote, (remote, true) ∈ plan.remoteSources ∧
      ImageReference.ofRemote remote = reference := by
  simp only [mem_remoteSources, BootstrapUse, StageSource]
  constructor
  · rintro ⟨name, hname, stage, remote, hget, hsource, hboot, href⟩
    exact ⟨remote, .inl ⟨name, hname, stage, hget, hsource, hboot⟩, href⟩
  · rintro ⟨remote, ⟨name, hname, stage, hget, hsource, hboot⟩ | ⟨-, hfalse⟩, href⟩
    · exact ⟨name, hname, stage, remote, hget, hsource, hboot, href⟩
    · cases hfalse

theorem ordinaryUse_iff {reference : ImageReference} :
    OrdinaryUse plan reference ↔ ∃ remote, (remote, false) ∈ plan.remoteSources ∧
      ImageReference.ofRemote remote = reference := by
  simp only [mem_remoteSources, OrdinaryUse, StageSource, SelectorSource]
  constructor
  · rintro (⟨name, hname, stage, remote, hget, hsource, hboot, href⟩ | ⟨remote, hsource, href⟩)
    · exact ⟨remote, .inl ⟨name, hname, stage, hget, hsource, hboot⟩, href⟩
    · exact ⟨remote, .inr ⟨hsource, trivial⟩, href⟩
  · rintro ⟨remote, ⟨name, hname, stage, hget, hsource, hboot⟩ | ⟨hsource, -⟩, href⟩
    · exact .inl ⟨name, hname, stage, remote, hget, hsource, hboot, href⟩
    · exact .inr ⟨remote, hsource, href⟩

theorem sourceOf_eq_some {name : Plan.StageRef} {reference : ImageReference} :
    sourceOf plan name = some reference ↔
    ∃ stage remote, plan.stages.get? name = some stage ∧ stage.source = .remote remote ∧
      ImageReference.ofRemote remote = reference := by
  rw [sourceOf, Option.bind_eq_some_iff]
  constructor
  · rintro ⟨stage, hget, hs⟩
    cases hsource : stage.source with
    | stage n =>
      rw [hsource] at hs
      cases hs
    | remote remote =>
      rw [hsource] at hs
      exact ⟨stage, remote, hget, hsource, Option.some.inj hs⟩
  · rintro ⟨stage, remote, hget, hsource, href⟩
    exact ⟨stage, hget, by rw [hsource, ← href]⟩

end Uses

/-! The first fold: references and pins. -/

/-- The inputs after the sources in `front`. -/
structure Collected (lock : ImageLock) (front : List (Plan.Remote × Bool)) (inputs : Inputs) :
    Prop where
  known : ∀ reference, (inputs.get? reference).isSome ↔
    ∃ s ∈ front, ImageReference.ofRemote s.1 = reference
  named : ∀ reference input, inputs.get? reference = some input → input.reference = reference
  unmarked : ∀ reference input, inputs.get? reference = some input → input.rootRequired = false
  marks : ∀ reference input, inputs.get? reference = some input →
    ∀ s ∈ front, ImageReference.ofRemote s.1 = reference → input.index.isNone = s.2
  pins : ∀ reference input, inputs.get? reference = some input →
    ∀ digest, input.index = some digest → lock.images.get? reference = some digest

section Collect
variable {lock : ImageLock} {front : List (Plan.Remote × Bool)} {inputs inputs' : Inputs}
    {s : Plan.Remote × Bool}

theorem collected_nil : Collected lock [] OrdMap.empty where
  known reference := by simp
  named reference input h := by cases h
  unmarked reference input h := by cases h
  marks reference input h := by cases h
  pins reference input h := by cases h

theorem pin_eq_ok {reference : ImageReference} {bootstrap : Bool} {index : Option IndexDigest}
    (h : pin lock reference bootstrap = .ok index) :
    index.isNone = bootstrap ∧ ∀ digest, index = some digest → lock.images.get? reference =
      some digest := by
  cases bootstrap with
  | true =>
    cases h
    exact ⟨rfl, fun digest h => by cases h⟩
  | false =>
    obtain ⟨digest, hdigest, rfl⟩ := except_map_eq_ok.mp h
    refine ⟨rfl, ?_⟩
    intro d hd
    rw [← Option.some.inj hd]
    rw [ImageLock.resolve] at hdigest
    split at hdigest
    · rename_i found hget
      cases hdigest
      exact hget
    · cases hdigest

/-- **One source collected.** -/
theorem addInput_collected (h : Collected lock front inputs)
    (hadd : addInput lock inputs s = .ok inputs') :
    Collected lock (front ++ [s]) inputs' := by
  obtain ⟨index, hindex, hadd⟩ := except_bind_eq_ok.mp hadd
  obtain ⟨hnone, hsome⟩ := pin_eq_ok hindex
  -- what the entry of the source's reference holds, found or new
  obtain ⟨input, hinput⟩ : ∃ input, entry inputs (ImageReference.ofRemote s.1) index = input :=
    ⟨_, rfl⟩
  rw [addPinned, hinput] at hadd
  rw [entry] at hinput
  have hfields : input.reference = ImageReference.ofRemote s.1 ∧ input.rootRequired = false ∧
      (∀ t ∈ front, ImageReference.ofRemote t.1 = ImageReference.ofRemote s.1 →
        input.index.isNone = t.2) ∧
      ∀ digest, input.index = some digest → lock.images.get? (ImageReference.ofRemote s.1) =
          some digest := by
    cases hget : inputs.get? (ImageReference.ofRemote s.1) with
    | some found =>
      rw [hget, Option.getD_some] at hinput
      subst hinput
      exact ⟨h.named _ _ hget, h.unmarked _ _ hget, h.marks _ _ hget, h.pins _ _ hget⟩
    | none =>
      rw [hget, Option.getD_none] at hinput
      subst hinput
      refine ⟨rfl, rfl, ?_, hsome⟩
      intro t ht href
      have := (h.known (ImageReference.ofRemote s.1)).mpr ⟨t, ht, href⟩
      rw [hget] at this
      cases this
  obtain ⟨href, hroot, hmarks, hpins⟩ := hfields
  split at hadd
  · rename_i hmark
    cases hadd
    refine ⟨?_, ?_, ?_, ?_, ?_⟩
    · intro reference
      rw [OrdMap.get?_insert]
      by_cases hr : reference = ImageReference.ofRemote s.1
      · rw [if_pos hr]
        exact iff_of_true rfl ⟨s, by simp, hr.symm⟩
      · rw [if_neg hr, h.known]
        simp [Ne.symm hr]
    all_goals
      intro reference i hget
      rw [OrdMap.get?_insert] at hget
      split at hget
    · rename_i hr
      rw [← Option.some.inj hget, hr]
      exact href
    · exact h.named _ _ hget
    · rw [← Option.some.inj hget]
      exact hroot
    · exact h.unmarked _ _ hget
    · rename_i hr
      intro t ht htr
      rw [← Option.some.inj hget]
      rcases List.mem_append.mp ht with ht | ht
      · exact hmarks t ht (htr.trans hr)
      · rw [List.mem_singleton.mp ht]
        exact hmark
    · rename_i hr
      intro t ht htr
      rcases List.mem_append.mp ht with ht | ht
      · exact h.marks _ _ hget t ht htr
      · rw [List.mem_singleton.mp ht] at htr
        exact absurd htr.symm hr
    · rename_i hr
      rw [← Option.some.inj hget, hr]
      exact hpins
    · exact h.pins _ _ hget
  · cases hadd

/-- **No source fails** that the lock pins if need be, and whose reference was met with the same mark only. -/
theorem addInput_succeeds (h : Collected lock front inputs)
    (hpin : s.2 = false → (lock.images.get? (ImageReference.ofRemote s.1)).isSome)
    (hsame : ∀ t ∈ front, ImageReference.ofRemote t.1 = ImageReference.ofRemote s.1 → t.2 = s.2) :
    ∃ inputs', addInput lock inputs s = .ok inputs' := by
  have hindex : ∃ index, pin lock (ImageReference.ofRemote s.1) s.2 = .ok index := by
    cases hboot : s.2 with
    | true => exact ⟨none, rfl⟩
    | false =>
      obtain ⟨digest, hdigest⟩ := Option.isSome_iff_exists.mp (hpin hboot)
      exact ⟨some digest, by rw [pin, if_neg (by simp), ImageLock.resolve, hdigest]; rfl⟩
  obtain ⟨index, hindex⟩ := hindex
  have hmark : (entry inputs (ImageReference.ofRemote s.1) index).index.isNone = s.2 := by
    rw [entry]
    cases hget : inputs.get? (ImageReference.ofRemote s.1) with
    | some found =>
      obtain ⟨t, ht, href⟩ := (h.known _).mp (by rw [hget]; rfl)
      rw [Option.getD_some, h.marks _ _ hget t ht href]
      exact hsame t ht href
    | none => exact (pin_eq_ok hindex).1
  exact ⟨_, by rw [addInput, hindex, except_ok_bind, addPinned, if_pos hmark]⟩

end Collect

/-! The second fold: root marks and networked commands. -/

/-- An input marked when one of the stages starts from it. -/
def markRoot (plan : Planner.Plan) (names : List Plan.StageRef) (input : ImageInput) : ImageInput :=
  { input with
    rootRequired := input.rootRequired || names.any
      (fun name => decide (sourceOf plan name = some input.reference)) }

/-- The networked commands of a named stage. -/
def networkOf (plan : Planner.Plan) (name : Plan.StageRef) : List (Plan.StageRef × Nat) :=
  ((plan.stages.get? name).map (stageSteps name)).getD []

section Visit
variable {plan : Planner.Plan} {collected : Inputs} {front : List Plan.StageRef}
  {found found' : Inputs × List (Plan.StageRef × Nat)} {name : Plan.StageRef}

/-- What the second fold has made of the collected inputs. -/
structure Visited (plan : Planner.Plan) (collected : Inputs) (front : List Plan.StageRef)
    (found : Inputs × List (Plan.StageRef × Nat)) : Prop where
  inputs : ∀ reference, found.1.get? reference = (collected.get? reference).map
    (markRoot plan front)
  steps : found.2 = front.flatMap (networkOf plan)

theorem visited_nil : Visited plan collected [] (collected, []) where
  inputs reference := by
    have hid : markRoot plan [] = id := by
      funext input
      simp [markRoot]
    rw [hid, Option.map_id, id]
  steps := rfl

theorem markRoot_append (input : ImageInput) : markRoot plan (front ++ [name]) input =
    if sourceOf plan name = some input.reference then
      { markRoot plan front input with rootRequired := true }
    else markRoot plan front input := by
  by_cases h : sourceOf plan name = some input.reference <;> simp [markRoot, h]

/-- **One stage visited**: it is known, and so is the input it starts from. -/
theorem addStage_visited
    (hnamed : ∀ reference input, collected.get? reference = some input →
    input.reference = reference) (h : Visited plan collected front found)
    (hstage : (plan.stages.get? name).isSome)
    (hsource : ∀ reference, sourceOf plan name = some reference →
    (collected.get? reference).isSome) :
    ∃ found', addStage plan found name = .ok found' ∧
      Visited plan collected (front ++ [name]) found' := by
  obtain ⟨stage, hstage⟩ := Option.isSome_iff_exists.mp hstage
  have hsteps : found.2 ++ stageSteps name stage = (front ++ [name]).flatMap (networkOf plan) := by
    rw [h.steps, List.flatMap_append, List.flatMap_singleton, networkOf, hstage]
    rfl
  have hsourceOf : sourceOf plan name = match stage.source with
      | .remote remote => some (ImageReference.ofRemote remote)
      | .stage _ => none := by rw [sourceOf, hstage]; rfl
  rw [addStage, hstage]
  dsimp only
  rw [requireRoot]
  cases hsrc : stage.source with
  | stage n =>
    rw [hsrc] at hsourceOf
    refine ⟨_, rfl, ?_, hsteps⟩
    intro reference
    rw [h.inputs]
    congr 1
    funext input
    rw [markRoot_append, if_neg (by rw [hsourceOf]; simp)]
  | remote remote =>
    rw [hsrc] at hsourceOf
    obtain ⟨input, hinput⟩ := Option.isSome_iff_exists.mp (hsource _ hsourceOf)
    have hget : found.1.get? (ImageReference.ofRemote remote) =
        some (markRoot plan front input) := by
      rw [h.inputs, hinput]
      rfl
    dsimp only
    rw [hget]
    refine ⟨_, rfl, ?_, hsteps⟩
    intro reference
    rw [OrdMap.get?_insert, h.inputs]
    split
    · rename_i hr
      rw [hr, hinput, Option.map_some, markRoot_append, if_pos]
      rw [hsourceOf, hnamed _ _ hinput]
    · rename_i hr
      cases hget' : collected.get? reference with
      | none => rfl
      | some i =>
        rw [Option.map_some, Option.map_some, markRoot_append, if_neg]
        rw [hsourceOf, hnamed _ _ hget', Option.some.injEq]
        exact Ne.symm hr

/-- **The whole second fold** succeeds. -/
theorem addStages_visited
    (hnamed : ∀ reference input, collected.get? reference = some input →
    input.reference = reference) {names : List Plan.StageRef}
    (hstages : ∀ name ∈ names, (plan.stages.get? name).isSome)
    (hsources : ∀ name ∈ names, ∀ reference, sourceOf plan name = some reference →
    (collected.get? reference).isSome) (h : Visited plan collected front found) :
    ∃ found', names.foldlM (addStage plan) found = .ok found' ∧
      Visited plan collected (front ++ names) found' := by
  induction names generalizing front found with
  | nil => exact ⟨found, rfl, by rwa [List.append_nil]⟩
  | cons name rest ih =>
    rw [List.forall_mem_cons] at hstages hsources
    obtain ⟨next, hnext, hvisited⟩ := addStage_visited hnamed h hstages.1 hsources.1
    obtain ⟨found', hrest, hdone⟩ := ih hstages.2 hsources.2 hvisited
    refine ⟨found', ?_, ?_⟩
    · rw [List.foldlM_cons, hnext]
      exact hrest
    · rwa [List.append_assoc, List.singleton_append] at hdone

end Visit

/-! The network steps. -/

section Steps
variable {plan : Planner.Plan} {name : Plan.StageRef} {i : Nat}

theorem mem_stageSteps {stage : Stage} {n : Plan.StageRef} : (n, i) ∈ stageSteps name stage ↔
    n = name ∧ ∃ exec, stage.derive[i]? = some (.exec exec) ∧ exec.network = true := by
  rw [stageSteps, List.mem_filterMap]
  constructor
  · rintro ⟨⟨directive, j⟩, hmem, hstep⟩
    split at hstep
    · rename_i hnet
      cases hstep
      refine ⟨rfl, ?_⟩
      rw [List.mem_zipIdx_iff_getElem?] at hmem
      cases directive with
      | exec exec => exact ⟨exec, hmem, hnet⟩
      | copy copy => cases hnet
    · cases hstep
  · rintro ⟨rfl, exec, hget, hnet⟩
    exact ⟨(.exec exec, i), List.mem_zipIdx_iff_getElem?.mpr hget, if_pos hnet⟩

theorem mem_networkOf {n : Plan.StageRef} : (n, i) ∈ networkOf plan name ↔
    n = name ∧ ∃ stage exec, plan.stages.get? name = some stage ∧ stage.derive[i]? =
      some (.exec exec) ∧ exec.network = true := by
  rw [networkOf]
  cases hget : plan.stages.get? name with
  | none => simp
  | some stage =>
    rw [Option.map_some, Option.getD_some, mem_stageSteps]
    simp

theorem zipIdx_increasing {α : Type} (l : List α) (start : Nat) :
    (l.zipIdx start).Pairwise (fun a b => a.2 < b.2) := by
  induction l generalizing start with
  | nil => exact List.Pairwise.nil
  | cons a rest ih =>
    rw [List.zipIdx_cons]
    refine List.pairwise_cons.mpr ⟨?_, ih (start + 1)⟩
    intro b hb
    exact (List.mem_zipIdx hb).1

theorem stageSteps_increasing (stage : Stage) :
    (stageSteps name stage).Pairwise (fun a b => a.1 = b.1 ∧ a.2 < b.2) := by
  rw [stageSteps, List.pairwise_filterMap]
  refine (zipIdx_increasing stage.derive 0).imp ?_
  intro a b hlt x hx y hy
  split at hx
  · split at hy
    · rw [← Option.some.inj hx, ← Option.some.inj hy]
      exact ⟨rfl, hlt⟩
    · cases hy
  · cases hx

theorem networkOf_increasing : (networkOf plan name).Pairwise
    (fun a b => a.1 = b.1 ∧ a.2 < b.2) := by
  rw [networkOf]
  cases plan.stages.get? name with
  | none => exact List.Pairwise.nil
  | some stage => exact stageSteps_increasing stage

/-- **The steps of distinct stages come in the order of the stages.** -/
theorem networkSteps_ordered {order : List Plan.StageRef} (hnodup : order.Nodup) :
    (order.flatMap (networkOf plan)).Pairwise (fun a b =>
      order.idxOf a.1 < order.idxOf b.1 ∨ a.1 = b.1 ∧ a.2 < b.2) := by
  rw [List.pairwise_flatMap]
  refine ⟨fun name _ => networkOf_increasing.imp .inr, ?_⟩
  have hpositions : order.Pairwise (fun a b => order.idxOf a < order.idxOf b) := by
    rw [List.pairwise_iff_getElem]
    intro i j hi hj hij
    rwa [hnodup.idxOf_getElem, hnodup.idxOf_getElem]
  refine hpositions.imp ?_
  intro a b hab x hx y hy
  left
  rwa [(mem_networkOf.mp hx).1, (mem_networkOf.mp hy).1]

end Steps

/-! The graph. -/

section Graph
variable {c : Carapace} {raw : Plan.Document} {plan : Planner.Plan} {lock : ImageLock}
    {inputs : Inputs}

theorem collect_collected
    (h : plan.remoteSources.foldlM (addInput lock) OrdMap.empty = .ok inputs) :
    Collected lock plan.remoteSources inputs :=
  Flow.foldlM_partial (Collected lock) collected_nil
    (fun _ _ _ _ _ _ hfront hstep => addInput_collected hfront hstep) h

/-- Every ordinary use is pinned, and no reference is used both ways. -/
def Lockable (plan : Planner.Plan) (lock : ImageLock) : Prop :=
  (∀ reference, OrdinaryUse plan reference → (lock.images.get? reference).isSome) ∧
    ∀ reference, ¬ (OrdinaryUse plan reference ∧ BootstrapUse plan reference)

/-- Two uses of one reference agree on the bootstrap mark. -/
theorem Lockable.same_mark (h : Lockable plan lock) {s t : Plan.Remote × Bool}
    (hs : s ∈ plan.remoteSources) (ht : t ∈ plan.remoteSources)
    (href : ImageReference.ofRemote t.1 = ImageReference.ofRemote s.1) : t.2 = s.2 := by
  obtain ⟨remote, mark⟩ := s
  obtain ⟨remote', mark'⟩ := t
  cases mark <;> cases mark'
  · rfl
  · exact absurd ⟨ordinaryUse_iff.mpr ⟨remote, hs, rfl⟩,
      bootstrapUse_iff.mpr ⟨remote', ht, href⟩⟩ (h.2 _)
  · exact absurd ⟨ordinaryUse_iff.mpr ⟨remote', ht, rfl⟩,
      bootstrapUse_iff.mpr ⟨remote, hs, href.symm⟩⟩ (h.2 _)
  · rfl

theorem collect_succeeds (h : Lockable plan lock) :
    ∃ inputs, plan.remoteSources.foldlM (addInput lock) OrdMap.empty = .ok inputs := by
  have hnever : Fails (fun _ => False) (plan.remoteSources.foldlM
      (addInput lock) OrdMap.empty) := by
    refine Fails.foldlM_inv (Collected lock) collected_nil ?_
    intro front s rest inputs hsources hfront
    have hs : s ∈ plan.remoteSources := by
      rw [hsources]
      simp
    have hpin : s.2 = false → (lock.images.get? (ImageReference.ofRemote s.1)).isSome := by
      intro hmark
      apply h.1
      exact ordinaryUse_iff.mpr ⟨s.1, by rw [← hmark]; exact hs, rfl⟩
    have hsame : ∀ t ∈ front, ImageReference.ofRemote t.1 = ImageReference.ofRemote s.1 →
        t.2 = s.2 := by
      intro t ht href
      exact h.same_mark hs (by rw [hsources]; exact List.mem_append_left _ ht) href
    obtain ⟨inputs', hadd⟩ := addInput_succeeds hfront hpin hsame
    refine ⟨?_, fun c' hc' => addInput_collected hfront hc'⟩
    rw [hadd]
    exact Fails.ok inputs'
  cases hcollect : plan.remoteSources.foldlM (addInput lock) OrdMap.empty with
  | ok inputs => exact ⟨inputs, rfl⟩
  | error e => exact absurd (hnever e hcollect) id

/-- A collection that succeeds had every pin, and no reference used both ways. -/
theorem Collected.lockable (h : Collected lock plan.remoteSources inputs) : Lockable plan lock := by
  -- an ordinary use leaves a pinned input, a bootstrap use an unpinned one
  have hordinary : ∀ reference, OrdinaryUse plan reference →
      ∃ input digest, inputs.get? reference = some input ∧ input.index = some digest := by
    intro reference huse
    obtain ⟨remote, hs, href⟩ := ordinaryUse_iff.mp huse
    obtain ⟨input, hinput⟩ := Option.isSome_iff_exists.mp ((h.known reference).mpr ⟨_, hs, href⟩)
    have hmark := h.marks _ _ hinput _ hs href
    cases hindex : input.index with
    | none =>
      rw [hindex] at hmark
      cases hmark
    | some digest => exact ⟨input, digest, hinput, hindex⟩
  constructor
  · intro reference huse
    obtain ⟨input, digest, hinput, hindex⟩ := hordinary reference huse
    rw [h.pins _ _ hinput _ hindex]
    rfl
  · rintro reference ⟨huse, hboot⟩
    obtain ⟨input, digest, hinput, hindex⟩ := hordinary reference huse
    obtain ⟨remote, hs, href⟩ := bootstrapUse_iff.mp hboot
    have hmark := h.marks _ _ hinput _ hs href
    rw [hindex] at hmark
    cases hmark

theorem visit_visited (h : Planner.Plan.tryFrom c raw = .ok plan)
    (hcollected : Collected lock plan.remoteSources inputs) :
    ∃ found, plan.order.foldlM (addStage plan) (inputs, []) = .ok found ∧
      Visited plan inputs plan.order found := by
  have hplanned := Planner.tryFrom_planned h
  refine addStages_visited hcollected.named ?_ ?_ visited_nil
  · intro name hname
    have hknown := hplanned.ordered.known name hname
    rwa [Planner.Stages.deps, Option.isSome_map] at hknown
  · intro name hname reference hsource
    obtain ⟨stage, remote, hget, hremote, href⟩ := sourceOf_eq_some.mp hsource
    rw [hcollected.known]
    exact ⟨(remote, stage.bootstrap), mem_remoteSources.mpr (.inl
      ⟨name, hname, stage, hget, hremote, rfl⟩), href⟩

/-- What the two folds leave is exact. -/
theorem exact_of_visited (hnodup : plan.order.Nodup) (hc : Collected lock plan.remoteSources inputs)
    {found : Inputs × List (Plan.StageRef × Nat)} (hv : Visited plan inputs plan.order found) :
    Exact plan lock ⟨plan, found.1.entries.map Prod.snd, found.2⟩ := by
  -- an input of the graph is a collected one, marked
  have hinput : ∀ input ∈ found.1.entries.map Prod.snd, ∃ reference i, inputs.get? reference =
      some i ∧ input = markRoot plan plan.order i ∧ i.reference = reference := by
    intro input hmem
    obtain ⟨⟨reference, _⟩, he, rfl⟩ := List.mem_map.mp hmem
    have hget := OrdMap.get?_eq_some.mpr he
    rw [hv.inputs, Option.map_eq_some_iff] at hget
    obtain ⟨i, hi, hmark⟩ := hget
    exact ⟨reference, i, hi, hmark.symm, hc.named _ _ hi⟩
  have hkeys : (found.1.entries.map Prod.snd).map ImageInput.reference = found.1.keys := by
    rw [List.map_map, OrdMap.keys]
    apply List.map_congr_left
    intro e he
    have hget := OrdMap.get?_eq_some.mpr (show (e.1, e.2) ∈ found.1.entries from he)
    rw [hv.inputs, Option.map_eq_some_iff] at hget
    obtain ⟨i, hi, hmark⟩ := hget
    rw [Function.comp_apply, ← hmark]
    exact hc.named e.1 i hi
  have hbootstrap : ∀ reference i, inputs.get? reference = some i →
      (i.index = none ↔ BootstrapUse plan reference) := by
    intro reference i hi
    constructor
    · intro hnone
      obtain ⟨⟨remote, mark⟩, hs, href⟩ := (hc.known reference).mp (by rw [hi]; rfl)
      have hmark : i.index.isNone = mark := hc.marks _ _ hi _ hs href
      rw [hnone] at hmark
      subst hmark
      exact bootstrapUse_iff.mpr ⟨remote, hs, href⟩
    · intro huse
      obtain ⟨remote, hs, href⟩ := bootstrapUse_iff.mp huse
      exact Option.isNone_iff_eq_none.mp (hc.marks _ _ hi _ hs href)
  refine ⟨rfl, ?_, ?_, ?_, ?_, ?_, ?_, ?_⟩
  · rw [hkeys]
    exact OrdMap.nodup_keys found.1
  · intro reference
    rw [hkeys, OrdMap.mem_keys, hv.inputs, Option.isSome_map, hc.known, bootstrapUse_iff,
      ordinaryUse_iff]
    constructor
    · rintro ⟨⟨remote, mark⟩, hs, href⟩
      cases mark with
      | true => exact .inl ⟨remote, hs, href⟩
      | false => exact .inr ⟨remote, hs, href⟩
    · rintro (⟨remote, hs, href⟩ | ⟨remote, hs, href⟩)
      · exact ⟨_, hs, href⟩
      · exact ⟨_, hs, href⟩
  · intro input hmem
    obtain ⟨reference, i, hi, rfl, href⟩ := hinput input hmem
    show i.index = none ↔ BootstrapUse plan i.reference
    rw [href]
    exact hbootstrap reference i hi
  · intro input hmem digest hdigest
    obtain ⟨reference, i, hi, rfl, href⟩ := hinput input hmem
    show lock.images.get? i.reference = some digest
    rw [href]
    exact hc.pins _ _ hi _ hdigest
  · intro input hmem
    obtain ⟨reference, i, hi, rfl, href⟩ := hinput input hmem
    show (i.rootRequired || plan.order.any (fun name => decide
      (sourceOf plan name = some i.reference))) = true ↔
      ∃ bootstrap, StageSource plan i.reference bootstrap
    rw [hc.unmarked _ _ hi, Bool.false_or, List.any_eq_true]
    constructor
    · rintro ⟨name, hname, hsource⟩
      obtain ⟨stage, remote, hget, hremote, hreference⟩ :=
        sourceOf_eq_some.mp (of_decide_eq_true hsource)
      exact ⟨stage.bootstrap, name, hname, stage, remote, hget, hremote, rfl, hreference⟩
    · rintro ⟨mark, name, hname, stage, remote, hget, hremote, -, hreference⟩
      exact ⟨name, hname, decide_eq_true (sourceOf_eq_some.mpr
        ⟨stage, remote, hget, hremote, hreference⟩)⟩
  · intro name i
    show (name, i) ∈ found.2 ↔ _
    rw [hv.steps, List.mem_flatMap]
    constructor
    · rintro ⟨n, hn, hstep⟩
      obtain ⟨rfl, hrest⟩ := mem_networkOf.mp hstep
      exact ⟨hn, hrest⟩
    · rintro ⟨hname, hrest⟩
      exact ⟨name, hname, mem_networkOf.mpr ⟨rfl, hrest⟩⟩
  · show found.2.Pairwise _
    rw [hv.steps]
    exact networkSteps_ordered hnodup

/-- No source of the fold panics. -/
theorem collect_fails : Fails (fun e => e ≠ .absent)
    (plan.remoteSources.foldlM (addInput lock) OrdMap.empty) := by
  refine Fails.foldlM ?_
  intro inputs s _
  refine Fails.bind ?_ ?_
  · rw [pin]
    split
    · exact Fails.ok _
    · refine Fails.map _ ?_
      rw [ImageLock.resolve]
      split
      · exact Fails.ok _
      · exact Fails.error (by simp)
  · intro index _
    rw [addPinned]
    split
    · exact Fails.ok _
    · exact Fails.error (by simp)

end Graph

/-- **Build graph inputs are exact.** For an accepted plan and any lock, a graph that is built
    has exactly the plan's inputs, pins, root marks and network steps; it fails just when an
    ordinary reference has no pin or one reference is used both ways, and never panics. -/
theorem inputs_exact {c : Carapace} {raw : Plan.Document} {plan : Planner.Plan}
    (h : Planner.Plan.tryFrom c raw = .ok plan) (lock : ImageLock) :
    (∀ graph, new plan lock = .ok graph → Exact plan lock graph) ∧
      ((∃ e, new plan lock = .error e) ↔
        (∃ reference, OrdinaryUse plan reference ∧ lock.images.get? reference = none) ∨
          ∃ reference, OrdinaryUse plan reference ∧ BootstrapUse plan reference) ∧
      ∀ e, new plan lock = .error e → e ≠ .absent := by
  have hnodup := Planner.plan_nodup h
  have hlockable : Lockable plan lock ↔
      ¬ ((∃ reference, OrdinaryUse plan reference ∧ lock.images.get? reference = none) ∨
        ∃ reference, OrdinaryUse plan reference ∧ BootstrapUse plan reference) := by
    simp only [Lockable, not_or, not_exists, not_and, Option.isSome_iff_ne_none, ne_eq]
  cases hcollect : plan.remoteSources.foldlM (addInput lock) OrdMap.empty with
  | error e =>
    have hnew : new plan lock = .error e := by
      rw [new, hcollect]
      rfl
    refine ⟨?_, ?_, ?_⟩
    · intro graph hgraph
      rw [hnew] at hgraph
      cases hgraph
    · refine iff_of_true ⟨e, hnew⟩ ?_
      by_contra hgood
      obtain ⟨inputs, hok⟩ := collect_succeeds (hlockable.mpr hgood)
      rw [hcollect] at hok
      cases hok
    · intro e' he'
      rw [hnew] at he'
      cases he'
      exact collect_fails e hcollect
  | ok inputs =>
    have hcollected := collect_collected hcollect
    obtain ⟨found, hvisit, hvisited⟩ := visit_visited h hcollected
    have hnew : new plan lock = .ok ⟨plan, found.1.entries.map Prod.snd, found.2⟩ := by
      rw [new, hcollect, except_ok_bind, hvisit, except_ok_bind]
    refine ⟨?_, ?_, ?_⟩
    · intro graph hgraph
      rw [hnew] at hgraph
      cases hgraph
      exact exact_of_visited hnodup hcollected hvisited
    · refine iff_of_false ?_ (hlockable.mp hcollected.lockable)
      rintro ⟨e, he⟩
      rw [hnew] at he
      cases he
    · intro e he
      rw [hnew] at he
      cases he

def sampleLock : ImageLock :=
  ⟨OrdMap.empty.insert (ImageReference.ofRemote Planner.sampleRemote) (Vector.replicate 32 7)⟩

/-- A root made with a bootstrap, and a stage with a command on the network. -/
def sampleMade : Plan.Document where
  stages := (OrdMap.empty.insert Planner.sampleBase
    (.create (.bootstrap ⟨['o', '.', 't'], ['t'], .tag ['1']⟩)
      ⟨.ext4, ⟨64, by decide, by decide⟩, ['r'], none⟩ .empty [])).insert
    Planner.sampleFinal (.extend (.remote Planner.sampleRemote) .empty
      [.exec ['c'] true 0, .exec ['d'] false 0])
  image := .components (some (.stage Planner.sampleBase))
    (some (.shorthand (.stage Planner.sampleFinal)))

/-- The pins and the network steps of its graph. -/
def sampleMadeGraph : Option (List (Option Hash) × List (Plan.StageRef × Nat)) :=
  match Planner.Plan.tryFrom ⟨2 ^ 40, by decide⟩ sampleMade with
  | .error _ => none
  | .ok plan =>
    match new plan sampleLock with
    | .error _ => none
    | .ok graph => some (graph.inputs.map ImageInput.index, graph.networkSteps)

theorem inputs_exact_sample : ∃ plan graph,
    Planner.Plan.tryFrom ⟨2 ^ 40, by decide⟩ sampleMade = .ok plan ∧
      new plan sampleLock = .ok graph ∧ Exact plan sampleLock graph ∧
      graph.inputs.map ImageInput.index = [none, some (Vector.replicate 32 7)] ∧
      graph.networkSteps = [(Planner.sampleFinal, 0)] := by
  have hgraph : sampleMadeGraph = some ([none, some (Vector.replicate 32 7)],
      [(Planner.sampleFinal, 0)]) := by
    decide +kernel
  unfold sampleMadeGraph at hgraph
  split at hgraph
  · cases hgraph
  · rename_i plan hplan
    split at hgraph
    · cases hgraph
    · rename_i graph hnew
      obtain ⟨hpins, hsteps⟩ := Prod.mk.inj (Option.some.inj hgraph)
      exact ⟨plan, graph, hplan, hnew, (inputs_exact hplan sampleLock).1 graph hnew, hpins, hsteps⟩

end Conglobate.BuildGraph
