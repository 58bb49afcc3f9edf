import Conglobate.Graph.Inputs

/- Only the selected part of a plan steers a build (`selected_only`).

   Two documents that agree on the image's selectors and on the stages these
   reach are searched alike as far as the order goes: the first search visits
   every stage, but its marks are thrown away. The build graph is then a function
   of the order, of the stages in it and of the pins of ordinary references. -/
namespace Conglobate

namespace Plan

/-- The image an extraction reads its file from. -/
def Image.extractSource : Image → Option ImageRef
  | .components _ (some (.extract file _)) => some file.source
  | _ => none

/-- A selector of the image reaches the stage. -/
def Document.Reaches (d : Document) (a : StageRef) : Prop :=
  ∃ start, d.Selects start ∧ Relation.ReflTransGen d.DependsOn start a

/-- The documents agree on the image's selectors and on every stage these reach. -/
structure Document.Agree (d e : Document) : Prop where
  sources : d.image.sources = e.image.sources
  extract : d.image.extractSource = e.image.extractSource
  stages : ∀ a, d.Reaches a → d.stages.get? a = e.stages.get? a

end Plan

namespace BuildGraph

open Planner (Stages)
open DepthFirst (Edge)

/-- What a build takes from its graph. -/
def answers (graph : BuildGraph) : List ImageInput × List (Plan.StageRef × Nat) × Bool :=
  (graph.inputs, graph.networkSteps, graph.executionRequired)

/-- The two plans are built from the same inputs in the same order, or fail alike. -/
structure SameBuild (plan : Planner.Plan) (lock : ImageLock) (plan' : Planner.Plan)
    (lock' : ImageLock) : Prop where
  order : plan.order = plan'.order
  graph : (new plan lock).map answers = (new plan' lock').map answers
  execution : plan.executionRequired = plan'.executionRequired

section Agree
variable {c : Carapace} {raw raw' : Plan.Document} {plan plan' : Planner.Plan}

/-- A stage is converted alike in both plans, when the documents agree on it. -/
theorem stages_get?_congr (h : Planner.Plan.tryFrom c raw = .ok plan)
    (h' : Planner.Plan.tryFrom c raw' = .ok plan') {a : Plan.StageRef}
    (ha : raw.stages.get? a = raw'.stages.get? a) : plan.stages.get? a = plan'.stages.get? a := by
  have hget := OrdMap.mapM_get? (Planner.tryFrom_planned h).stages a
  have hget' := OrdMap.mapM_get? (Planner.tryFrom_planned h').stages a
  rw [← ha] at hget'
  cases hraw : raw.stages.get? a with
  | none =>
    rw [hraw] at hget hget'
    exact hget.trans hget'.symm
  | some stage =>
    rw [hraw] at hget hget'
    obtain ⟨w, hw, hget⟩ := hget
    obtain ⟨w', hw', hget'⟩ := hget'
    rw [hw] at hw'
    cases hw'
    exact hget.trans hget'.symm

/-- The graphs agree on what the selectors reach. -/
theorem agree_deps (hagree : raw.Agree raw') (h : Planner.Plan.tryFrom c raw = .ok plan)
    (h' : Planner.Plan.tryFrom c raw' = .ok plan') :
    DepthFirst.Agree plan.stages.deps plan'.stages.deps raw.Reaches where
  same a ha := by
    rw [Stages.deps, Stages.deps, stages_get?_congr h h' (hagree.stages a ha)]
  closed a b ha hedge := by
    rw [Planner.edge_iff (Planner.tryFrom_planned h).stages] at hedge
    obtain ⟨start, hstart, hreach⟩ := ha
    exact ⟨start, hstart, hreach.tail hedge⟩

theorem orderOf_of_tryFrom (h : Planner.Plan.tryFrom c raw = .ok plan) :
    ∃ done, Planner.orderOf plan.stages raw.image = .ok (done, plan.order) := by
  rw [Planner.Plan.tryFrom] at h
  split at h
  · cases h
  · obtain ⟨stages, -, h⟩ := except_bind_eq_ok.mp h
    obtain ⟨checked, -, h⟩ := except_bind_eq_ok.mp h
    obtain ⟨⟨done, order⟩, horder, h⟩ := except_bind_eq_ok.mp h
    cases h
    exact ⟨done, horder⟩

theorem walks_of_orderOf {stages : Stages} {image : Plan.Image}
    {r : Finset Plan.StageRef × List Plan.StageRef} (h : Planner.orderOf stages image = .ok r) :
    DepthFirst.walks stages.deps stages.names (Planner.selected image) ∅ [] = .ok r := by
  rw [Planner.orderOf] at h
  cases hw : DepthFirst.walks stages.deps stages.names (Planner.selected image) ∅ [] with
  | error e =>
    rw [hw] at h
    cases h
  | ok s =>
    rw [hw] at h
    cases h
    rfl

/-- **The order depends on what is selected alone.** -/
theorem order_congr (hagree : raw.Agree raw') (h : Planner.Plan.tryFrom c raw = .ok plan)
    (h' : Planner.Plan.tryFrom c raw' = .ok plan') : plan.order = plan'.order := by
  obtain ⟨done, horder⟩ := orderOf_of_tryFrom h
  obtain ⟨done', horder'⟩ := orderOf_of_tryFrom h'
  have hselected : Planner.selected raw'.image = Planner.selected raw.image := by
    rw [Planner.selected, Planner.selected, hagree.sources]
  have hwalks := walks_of_orderOf horder
  have hwalks' := walks_of_orderOf horder'
  rw [hselected] at hwalks'
  have hstarts : ∀ start ∈ Planner.selected raw.image, raw.Reaches start :=
    fun start hstart => ⟨start, Planner.mem_selected.mp hstart, .refl⟩
  exact congrArg Prod.snd (DepthFirst.walks_congr (agree_deps hagree h h') hstarts hwalks hwalks')

/-- A stage of the order is the same in both plans. -/
theorem ordered_congr (hagree : raw.Agree raw') (h : Planner.Plan.tryFrom c raw = .ok plan)
    (h' : Planner.Plan.tryFrom c raw' = .ok plan') {a : Plan.StageRef} (ha : a ∈ plan.order) :
    plan.stages.get? a = plan'.stages.get? a :=
  stages_get?_congr h h' (hagree.stages a ((Planner.tryFrom_planned h).reached a ha))

theorem remoteSources_congr (hagree : raw.Agree raw') (h : Planner.Plan.tryFrom c raw = .ok plan)
    (h' : Planner.Plan.tryFrom c raw' = .ok plan') : plan.remoteSources = plan'.remoteSources := by
  have hstages : plan.order.filterMap plan.stages.get? =
      plan'.order.filterMap plan'.stages.get? := by
    rw [← order_congr hagree h h']
    exact List.filterMap_congr (fun a ha => ordered_congr hagree h h' ha)
  rw [Planner.Plan.remoteSources, Planner.Plan.remoteSources, hstages,
    (Planner.tryFrom_planned h).image, (Planner.tryFrom_planned h').image, hagree.sources]

theorem rootReaderRequired_eq (plan : Planner.Plan) :
    plan.rootReaderRequired = plan.image.extractSource.isSome := by
  rw [Planner.Plan.rootReaderRequired]
  cases plan.image with
  | shorthand source => rfl
  | components root boot =>
    cases boot with
    | none => rfl
    | some boot => cases boot <;> rfl

theorem executionRequired_congr (hagree : raw.Agree raw')
    (h : Planner.Plan.tryFrom c raw = .ok plan) (h' : Planner.Plan.tryFrom c raw' = .ok plan') :
    plan.executionRequired = plan'.executionRequired := by
  rw [Planner.Plan.executionRequired, Planner.Plan.executionRequired, Planner.Plan.commandsRequired,
    Planner.Plan.commandsRequired, order_congr hagree h h', rootReaderRequired_eq,
      rootReaderRequired_eq,
    (Planner.tryFrom_planned h).image, (Planner.tryFrom_planned h').image, hagree.extract]

/-! The graph. -/

variable {lock lock' : ImageLock}

/-- The locks pin every ordinary reference of the plan alike. -/
def PinsAgree (plan : Planner.Plan) (lock lock' : ImageLock) : Prop :=
  ∀ reference, OrdinaryUse plan reference → lock.images.get? reference = lock'.images.get? reference

theorem addInput_congr (hpins : PinsAgree plan lock lock') (inputs : Inputs)
    {s : Plan.Remote × Bool} (hs : s ∈ plan.remoteSources) :
    addInput lock inputs s = addInput lock' inputs s := by
  obtain ⟨remote, bootstrap⟩ := s
  rw [addInput, addInput]
  cases bootstrap with
  | true => rfl
  | false =>
    have hpin := hpins _ (ordinaryUse_iff.mpr ⟨remote, hs, rfl⟩)
    rw [pin, pin, ImageLock.resolve, ImageLock.resolve, hpin]

theorem addStage_congr {found : Inputs × List (Plan.StageRef × Nat)} {name : Plan.StageRef}
    (hname : plan.stages.get? name = plan'.stages.get? name) :
    addStage plan found name = addStage plan' found name := by
  rw [addStage, addStage, hname]

end Agree

/-- **Unselected parts of a plan do not influence a build.** Two accepted plans that agree on
    the image's selectors and on every stage these reach, with locks that pin the ordinary
    references of those stages and selectors alike, have one order, the same inputs and
    network steps or the same failure, and need execution alike. -/
theorem selected_only {c : Carapace} {raw raw' : Plan.Document} {plan plan' : Planner.Plan}
    {lock lock' : ImageLock} (h : Planner.Plan.tryFrom c raw = .ok plan)
    (h' : Planner.Plan.tryFrom c raw' = .ok plan') (hagree : raw.Agree raw')
    (hpins : PinsAgree plan lock lock') : SameBuild plan lock plan' lock' where
  order := order_congr hagree h h'
  execution := executionRequired_congr hagree h h'
  graph := by
    have hcollect : plan.remoteSources.foldlM (addInput lock) OrdMap.empty =
        plan'.remoteSources.foldlM (addInput lock') OrdMap.empty := by
      rw [← remoteSources_congr hagree h h']
      exact Flow.foldlM_congr (fun inputs s hs => addInput_congr hpins inputs hs)
    have hvisit : ∀ inputs : Inputs, plan.order.foldlM (addStage plan) (inputs, []) =
        plan'.order.foldlM (addStage plan') (inputs, []) := by
      intro inputs
      rw [← order_congr hagree h h']
      exact Flow.foldlM_congr (fun found name hname => addStage_congr
        (ordered_congr hagree h h' hname))
    rw [new, new, hcollect]
    cases plan'.remoteSources.foldlM (addInput lock') OrdMap.empty with
    | error e => rfl
    | ok inputs =>
      rw [except_ok_bind, except_ok_bind, hvisit]
      cases plan'.order.foldlM (addStage plan') (inputs, []) with
      | error e => rfl
      | ok found =>
        show Except.ok (_, _, plan.executionRequired) = Except.ok (_, _, plan'.executionRequired)
        rw [executionRequired_congr hagree h h']

/-- An image taken as it is. -/
def sampleDirect : Plan.Document := ⟨OrdMap.empty, .shorthand (.remote Planner.sampleRemote)⟩

def sampleOther : Plan.Remote := ⟨['o', '.', 't'], ['x'], .tag ['1']⟩

/-- A stage with a command, selected. -/
def sampleStaged : Plan.Document where
  stages := OrdMap.empty.insert Planner.sampleBase
    (.extend (.remote Planner.sampleRemote) .empty [.exec ['c'] true 0])
  image := .shorthand (.stage Planner.sampleBase)

/-- The same beside a stage that nothing selects. -/
def sampleOrphan : Plan.Document where
  stages := sampleStaged.stages.insert Planner.sampleFinal
    (.extend (.remote sampleOther) .empty [.exec ['c'] true 0])
  image := sampleStaged.image

/-- A lock that pins the other stage's image too. -/
def orphanLock : ImageLock :=
  ⟨sampleLock.images.insert (ImageReference.ofRemote sampleOther) (Vector.replicate 32 9)⟩

theorem sampleStaged_reaches {a : Plan.StageRef} (h : sampleStaged.Reaches a) :
    a = Planner.sampleBase := by
  obtain ⟨start, hstart, hreach⟩ := h
  cases List.mem_singleton.mp hstart
  obtain heq | ⟨b, ⟨stage, hstage, hb⟩, -⟩ := Relation.ReflTransGen.cases_head hreach
  · exact heq.symm
  · cases Option.some.inj (hstage : some _ = some stage)
    cases hb

theorem sample_agree : sampleStaged.Agree sampleOrphan :=
  ⟨rfl, rfl, fun _ ha => sampleStaged_reaches ha ▸ rfl⟩

theorem selected_only_sample : ∃ plan plan',
    Planner.Plan.tryFrom ⟨2 ^ 20, by decide⟩ sampleStaged = .ok plan ∧
      Planner.Plan.tryFrom ⟨2 ^ 20, by decide⟩ sampleOrphan = .ok plan' ∧
      SameBuild plan sampleLock plan' orphanLock := by
  refine ⟨_, _, rfl, rfl, @selected_only ⟨2 ^ 20, by decide⟩ sampleStaged sampleOrphan _ _ sampleLock
    orphanLock rfl rfl sample_agree fun reference hused => ?_⟩
  obtain ⟨remote, hmem, rfl⟩ := ordinaryUse_iff.mp hused
  cases List.mem_singleton.mp hmem
  rfl

/-- The pin of the first input answered. -/
def firstIndex : Except LockError (List ImageInput × List (Plan.StageRef × Nat) × Bool) →
    Option Hash
  | .ok (input :: _, _) => input.index
  | _ => none

/-- Locks that agree on the references of the stages alone may pin a selector differently. -/
theorem selected_only_selectors :
    ¬ ∀ (c : Carapace) (raw raw' : Plan.Document) (plan plan' : Planner.Plan)
      (lock lock' : ImageLock),
      Planner.Plan.tryFrom c raw = .ok plan → Planner.Plan.tryFrom c raw' = .ok plan' →
        raw.Agree raw' →
      (∀ reference, StageSource plan reference false →
        lock.images.get? reference = lock'.images.get? reference) →
      SameBuild plan lock plan' lock' := by
  intro h
  have hsame := h ⟨2 ^ 20, by decide⟩ sampleDirect sampleDirect _ _ sampleLock
    ⟨OrdMap.empty.insert (ImageReference.ofRemote Planner.sampleRemote)
      (Vector.replicate 32 8)⟩ rfl rfl
    ⟨rfl, rfl, fun _ _ => rfl⟩ (by
      intro reference hsource
      obtain ⟨name, hname, -⟩ := hsource
      cases hname)
  have hpins : some (Vector.replicate 32 (7 : UInt8)) = some (Vector.replicate 32 8) :=
    congrArg firstIndex hsame.graph
  exact absurd hpins (by decide)

end BuildGraph

end Conglobate
