import Conglobate.Lib.Flow
import Conglobate.Planner.Basic

/- What a plan's order is, and which documents have one.

   Conversion keeps what each stage names (`mem_dependencies_iff`), so the graph
   searched is the document's own (`edge_iff`). The search of every stage succeeds
   exactly when no stage names a missing one and none depends on itself
   (`check_eq_ok`); the search from the selectors can then only miss a selector
   (`orderOf_eq_ok`). Failures before the searches are never about the graph
   (`stage_fails`). -/
namespace Conglobate.Planner

open Conglobate.Plan Formatter DepthFirst Relation

/-! The kinds of failure. -/

/-- The errors about names and their dependencies. -/
def PlanError.isGraph : PlanError → Bool
  | .unknownStage _ => true
  | .cycle _ => true
  | _ => false

/-- The errors found before the graph is looked at. -/
def PlanError.isEarly : PlanError → Bool
  | .unknownStage _ => false
  | .cycle _ => false
  | .outOfFuel => false
  | _ => true

/-! Conversion keeps names. -/

namespace Stage

theorem mem_foldl_addCopy {l : List Directive} {names : OrdMap StageRef Unit} {b : StageRef} :
    b ∈ (l.foldl addCopy names).keys ↔ b ∈ names.keys ∨ ∃ copy, .copy copy ∈ l ∧
      copy.source = some b := by
  induction l generalizing names with
  | nil => simp
  | cons d rest ih =>
    rw [List.foldl_cons, ih]
    match d with
    | .exec e => simp [addCopy]
    | .copy ⟨none, path, sources, destination⟩ => simp [addCopy]
    | .copy ⟨some name, path, sources, destination⟩ =>
      simp only [addCopy, OrdMap.mem_keys_insert, List.mem_cons, Directive.copy.injEq]
      constructor
      · rintro ((rfl | h) | ⟨copy, h, hs⟩)
        · exact .inr ⟨_, .inl rfl, rfl⟩
        · exact .inl h
        · exact .inr ⟨copy, .inr h, hs⟩
      · rintro (h | ⟨copy, rfl | h, hs⟩)
        · exact .inl (.inr h)
        · exact .inl (.inl (Option.some.inj hs).symm)
        · exact .inr ⟨copy, h, hs⟩

theorem mem_base {stage : Stage} {b : StageRef} :
    b ∈ stage.base.keys ↔ b ∈ Plan.Stage.localSources.imageSource stage.source := by
  unfold base
  cases stage.source with
  | stage name => simp [OrdMap.mem_keys_insert, Plan.Stage.localSources.imageSource]
  | remote r => simp [Plan.Stage.localSources.imageSource]

/-- A converted COPY names the stage it named. -/
theorem copies_iff {steps : List Plan.Directive} {derive : List Directive}
    (h : steps.mapM Directive.tryFrom = .ok derive) {b : StageRef} :
    (∃ copy, .copy copy ∈ derive ∧ copy.source = some b) ↔
      b ∈ steps.flatMap Plan.Stage.localSources.copySource := by
  rw [except_mapM_eq_ok] at h
  induction h with
  | nil => simp
  | @cons raw d steps derive hd _ ih =>
    rw [List.flatMap_cons, List.mem_append, ← ih]
    cases raw with
    | exec command network timeout =>
      cases hd
      simp [Plan.Stage.localSources.copySource]
    | copy source path destination =>
      obtain ⟨sources, -, hd⟩ := except_bind_eq_ok.mp hd
      cases hd
      simp [Plan.Stage.localSources.copySource]

theorem convert_ok {c : Carapace} {source : ImageRef} {bootstrap : Bool} {format : Option Format}
    {mount : OrdMap ImagePath Mount} {steps : List Plan.Directive} {stage : Stage}
    (h : convert c source bootstrap format mount steps = .ok stage) :
    stage.source = source ∧ stage.bootstrap = bootstrap ∧ stage.format = format ∧
      stage.mount = mount ∧ steps.mapM Directive.tryFrom = .ok stage.derive := by
  obtain ⟨paths, -, h⟩ := except_bind_eq_ok.mp h
  obtain ⟨⟨⟩, -, h⟩ := except_bind_eq_ok.mp h
  obtain ⟨derive, hderive, h⟩ := except_bind_eq_ok.mp h
  cases h
  exact ⟨rfl, rfl, rfl, rfl, hderive⟩

/-- **A converted stage depends on the stages it names.** -/
theorem mem_dependencies_iff {c : Carapace} {raw : Plan.Stage} {stage : Stage}
    (h : tryFrom c raw = .ok stage) {b : StageRef} :
    b ∈ stage.dependencies ↔ b ∈ raw.localSources := by
  rw [dependencies, mem_foldl_addCopy, mem_base]
  match raw with
  | .create (.image source) format mounts steps =>
    obtain ⟨hsource, -, -, -, hderive⟩ := convert_ok h
    rw [copies_iff hderive, hsource, Plan.Stage.localSources, List.mem_append]
    rfl
  | .create (.bootstrap remote) format mounts steps =>
    obtain ⟨hsource, -, -, -, hderive⟩ := convert_ok h
    rw [copies_iff hderive, hsource, Plan.Stage.localSources, List.mem_append]
    rfl
  | .extend base mounts steps =>
    obtain ⟨hsource, -, -, -, hderive⟩ := convert_ok h
    rw [copies_iff hderive, hsource, Plan.Stage.localSources, List.mem_append]

/-- A stage's conversion fails on its own account only. -/
theorem stage_fails (c : Carapace) (raw : Plan.Stage) :
    Fails (fun e => e.isEarly = true) (tryFrom c raw) := by
  have hmounts (format : Option Format) (mount : OrdMap ImagePath Mount) :
      Fails (fun e => e.isEarly = true) (mount.keys.foldlM (checkMount format) []) := by
    refine .foldlM (fun paths path _ => ?_)
    unfold checkMount
    split
    · exact .error rfl
    · exact .ok _
  have hformat (format : Option Format) (mount : OrdMap ImagePath Mount) :
      Fails (fun e => e.isEarly = true) (checkFormat c format mount) := by
    unfold checkFormat
    split
    · exact .ok _
    · refine .bind (.mapError (fun _ _ => rfl)) (fun _ _ => ?_)
      split
      · exact .error rfl
      · exact .ok _
  have hdirective (d : Plan.Directive) : Fails (fun e =>
      e.isEarly = true) (Directive.tryFrom d) := by
    cases d with
    | exec => exact .ok _
    | copy source path destination =>
      refine .bind ?_ (fun _ _ => .ok _)
      cases source with
      | none => exact .map _ (.mapError (fun _ _ => rfl))
      | some name => exact .ok _
  have hconvert (source : ImageRef) (bootstrap : Bool) (format : Option Format)
      (mount : OrdMap ImagePath Mount) (steps : List Plan.Directive) :
      Fails (fun e => e.isEarly = true) (convert c source bootstrap format mount steps) :=
    .bind (hmounts format mount) (fun _ _ => .bind (hformat format mount) (fun _ _ =>
      .bind (.mapM (fun d _ => hdirective d)) (fun _ _ => .ok _)))
  match raw with
  | .create (.image source) format mounts steps => exact hconvert _ _ _ _ _
  | .create (.bootstrap remote) format mounts steps => exact hconvert _ _ _ _ _
  | .extend base mounts steps => exact hconvert _ _ _ _ _

end Stage

/-! The graph. -/

/-- Every stage of a document converts, and its image selects something. -/
def Convertible (c : Carapace) (raw : Document) : Prop :=
  noComponents raw.image = false ∧ ∀ e ∈ raw.stages.entries, ∃ stage, Stage.tryFrom c e.2 =
    .ok stage

theorem deps_known (stages : Stages) (a : StageRef) (h : (stages.deps a).isSome) :
    a ∈ stages.names := by
  rw [Stages.deps, Option.isSome_map] at h
  exact List.mem_toFinset.mpr (OrdMap.mem_keys.mpr h)

theorem mem_selected {image : Image} {a : StageRef} :
    a ∈ selected image ↔ ImageRef.stage a ∈ image.sources := by
  rw [selected, List.mem_filterMap]
  constructor
  · rintro ⟨source, hs, h⟩
    cases source with
    | stage name =>
      cases h
      exact hs
    | remote r => cases h
  · exact fun h => ⟨_, h, rfl⟩

section Graph
variable {c : Carapace} {raw : Document} {stages : Stages}
  (hstages : raw.stages.mapM (Stage.tryFrom c) = .ok stages)

include hstages in
theorem deps_isSome_iff (a : StageRef) : (stages.deps a).isSome ↔ (raw.stages.get? a).isSome := by
  have hget := OrdMap.mapM_get? hstages a
  rw [Stages.deps, Option.isSome_map]
  split at hget
  · rename_i v hv
    obtain ⟨w, -, hw⟩ := hget
    simp [hv, hw]
  · rename_i hnone
    simp [hnone, hget]

include hstages in
/-- **The graph searched is the document's.** -/
theorem edge_iff : Edge stages.deps = raw.DependsOn := by
  funext a b
  have hget := OrdMap.mapM_get? hstages a
  apply propext
  unfold Edge Document.DependsOn Stages.deps
  split at hget
  · rename_i v hv
    obtain ⟨w, hconvert, hw⟩ := hget
    simp [hv, hw, Stage.mem_dependencies_iff hconvert]
  · rename_i hnone
    simp [hnone, hget]

include hstages in
/-- **The search of every stage** succeeds exactly on stages that name no missing one and
    do not depend on themselves. -/
theorem check_eq_ok :
    (∃ done, check stages = .ok done) ↔
      (∀ a b, raw.DependsOn a b → (raw.stages.get? b).isSome) ∧ ¬ raw.Cyclic := by
  have hkeys (a : StageRef) : a ∈ stages.keys ↔ (raw.stages.get? a).isSome := by
    rw [OrdMap.mem_keys, ← deps_isSome_iff hstages, Stages.deps, Option.isSome_map]
  have hsource {a b : StageRef} (h : raw.DependsOn a b) : a ∈ stages.keys := by
    obtain ⟨stage, hget, -⟩ := h
    rw [hkeys, hget]
    rfl
  have hsearch := walks_eq_ok (deps_known stages) stages.keys
  rw [edge_iff hstages] at hsearch
  have hchecks : (∃ done, check stages = .ok done) ↔
      ∃ r, walks stages.deps stages.names stages.keys ∅ [] = .ok r := by
    rw [check, checks_eq_walks stages.deps stages.keys ∅ []]
    cases walks stages.deps stages.names stages.keys ∅ [] with
    | error e => simp [Except.mapError]
    | ok r => simp [Except.mapError]
  rw [hchecks, hsearch]
  constructor
  · intro h
    refine ⟨?_, ?_⟩
    · intro a b hab
      rw [← deps_isSome_iff hstages]
      exact (h a (hsource hab) b (.single hab)).1
    · rintro ⟨a, ha⟩
      obtain ⟨b, hab, -⟩ := TransGen.head'_iff.mp ha
      exact (h a (hsource hab) a .refl).2 ha
  · rintro ⟨hcomplete, hacyclic⟩ start hstart a hreach
    refine ⟨?_, fun ha => hacyclic ⟨a, ha⟩⟩
    rw [deps_isSome_iff hstages]
    rcases ReflTransGen.cases_tail hreach with rfl | ⟨b, -, hba⟩
    · exact (hkeys _).mp hstart
    · exact hcomplete b a hba

include hstages in
/-- After that, the search from the selectors succeeds exactly when they all name stages. -/
theorem orderOf_eq_ok (hcheck : ∃ done, check stages = .ok done) :
    (∃ r, orderOf stages raw.image = .ok r) ↔ ∀ a, raw.Selects a → (raw.stages.get? a).isSome := by
  obtain ⟨hcomplete, hacyclic⟩ := (check_eq_ok hstages).mp hcheck
  have hsearch := walks_eq_ok (deps_known stages) (selected raw.image)
  rw [edge_iff hstages] at hsearch
  have horder : (∃ r, orderOf stages raw.image = .ok r) ↔
      ∃ r, walks stages.deps stages.names (selected raw.image) ∅ [] = .ok r := by
    rw [orderOf]
    cases walks stages.deps stages.names (selected raw.image) ∅ [] with
    | error e => simp [Except.mapError]
    | ok r => simp [Except.mapError]
  rw [horder, hsearch]
  constructor
  · intro h a ha
    rw [← deps_isSome_iff hstages]
    exact (h a (mem_selected.mpr ha) a .refl).1
  · intro h start hstart a hreach
    refine ⟨?_, fun ha => hacyclic ⟨a, ha⟩⟩
    rw [deps_isSome_iff hstages]
    rcases ReflTransGen.cases_tail hreach with rfl | ⟨b, -, hba⟩
    · exact h _ (mem_selected.mp hstart)
    · exact hcomplete b a hba

end Graph

/-- The searches fail only on names and cycles. -/
theorem walks_fails (stages : Stages) (starts : List StageRef) :
    Fails (fun e => (PlanError.ofFailure e).isGraph = true)
      (walks stages.deps stages.names starts ∅ []) := by
  intro e he
  have hspec := walks_spec (deps_known stages) starts .nil
  rw [List.toFinset_nil] at hspec
  rcases hspec with ⟨l, hok, -⟩ | ⟨e', herr, start, -, hfault⟩
  · rw [hok] at he
    cases he
  · rw [herr] at he
    cases he
    cases e with
    | unknown a => rfl
    | cycle a => rfl
    | outOfFuel => exact hfault.elim

theorem check_fails (stages : Stages) : Fails (fun e => e.isGraph = true) (check stages) := by
  refine .mapError (fun e he => ?_)
  rw [checks_eq_walks stages.deps stages.keys ∅ []] at he
  refine walks_fails stages stages.keys e ?_
  cases hwalks : walks stages.deps stages.names stages.keys ∅ [] with
  | error x =>
    rw [hwalks] at he
    cases he
    rfl
  | ok r =>
    rw [hwalks] at he
    cases he

theorem orderOf_fails (stages : Stages) (image : Image) :
    Fails (fun e => e.isGraph = true) (orderOf stages image) :=
      .mapError (walks_fails stages (selected image))

/-! Accepted plans. -/

/-- What an accepted plan is: the document's stages converted, and an order of exactly
    what its selectors reach. -/
structure Planned (c : Carapace) (raw : Document) (plan : Plan) : Prop where
  stages : raw.stages.mapM (Stage.tryFrom c) = .ok plan.stages
  image : plan.image = raw.image
  ordered : Ordered plan.stages.deps ∅ plan.order
  selected : ∀ a, raw.Selects a → a ∈ plan.order
  reached : ∀ a ∈ plan.order, ∃ start, raw.Selects start ∧ ReflTransGen raw.DependsOn start a

theorem tryFrom_planned {c : Carapace} {raw : Document} {plan : Plan}
    (h : Plan.tryFrom c raw = .ok plan) :
    Planned c raw plan := by
  unfold Plan.tryFrom at h
  split at h
  · cases h
  · obtain ⟨stages, hstages, h⟩ := except_bind_eq_ok.mp h
    obtain ⟨done, -, h⟩ := except_bind_eq_ok.mp h
    obtain ⟨⟨done', order⟩, horder, h⟩ := except_bind_eq_ok.mp h
    cases h
    have hspec := walks_spec (deps_known stages) (selected raw.image) .nil
    rw [List.toFinset_nil] at hspec
    unfold orderOf at horder
    rcases hspec with ⟨l, hok, hl, -, hstarts, hreached⟩ | ⟨e, herr, -⟩
    · rw [hok] at horder
      cases horder
      refine ⟨hstages, rfl, hl, fun a ha => hstarts a (mem_selected.mpr ha), ?_⟩
      intro a ha
      rcases hreached a ha with h | ⟨start, hstart, hreach⟩
      · cases h
      · rw [edge_iff hstages] at hreach
        exact ⟨start, mem_selected.mp hstart, hreach⟩
    · rw [herr] at horder
      cases horder

theorem plan_nodup {c : Carapace} {raw : Document} {plan : Plan}
    (h : Plan.tryFrom c raw = .ok plan) :
    plan.order.Nodup := (tryFrom_planned h).ordered.nodup

/-- A document is accepted exactly when it converts and its graph is complete and acyclic. -/
theorem tryFrom_eq_ok {c : Carapace} {raw : Document} :
    (∃ plan, Plan.tryFrom c raw = .ok plan) ↔ Convertible c raw ∧ raw.Complete ∧ ¬ raw.Cyclic := by
  unfold Plan.tryFrom Convertible
  cases himage : noComponents raw.image with
  | true => simp
  | false =>
    rw [if_neg (by simp), ← OrdMap.mapM_eq_ok]
    cases hstages : raw.stages.mapM (Stage.tryFrom c) with
    | error e =>
      constructor
      · rintro ⟨plan, h⟩
        cases h
      · rintro ⟨⟨-, stages, h⟩, -⟩
        cases h
    | ok stages =>
      have hcheck := check_eq_ok hstages
      have horder := orderOf_eq_ok hstages
      rw [except_ok_bind]
      constructor
      · rintro ⟨plan, h⟩
        obtain ⟨done, hdone, h⟩ := except_bind_eq_ok.mp h
        obtain ⟨r, hr, h⟩ := except_bind_eq_ok.mp h
        obtain ⟨hnamed, hacyclic⟩ := hcheck.mp ⟨done, hdone⟩
        exact ⟨⟨rfl, stages, rfl⟩, ⟨hnamed, (horder ⟨done, hdone⟩).mp ⟨r, hr⟩⟩, hacyclic⟩
      · rintro ⟨-, ⟨hnamed, hselected⟩, hacyclic⟩
        obtain ⟨done, hdone⟩ := hcheck.mpr ⟨hnamed, hacyclic⟩
        obtain ⟨r, hr⟩ := (horder ⟨done, hdone⟩).mpr hselected
        exact ⟨_, by rw [hdone, except_ok_bind, hr, except_ok_bind]⟩

/-- Where a failure comes from. -/
theorem tryFrom_error {c : Carapace} {raw : Document} {e : PlanError}
    (h : Plan.tryFrom c raw = .error e) :
    (e.isEarly = true ∧ ¬ Convertible c raw) ∨ (e.isGraph = true ∧ Convertible c raw) := by
  unfold Plan.tryFrom Convertible at *
  cases himage : noComponents raw.image with
  | true =>
    rw [himage, if_pos rfl] at h
    cases h
    exact .inl ⟨rfl, by simp⟩
  | false =>
    rw [himage, if_neg (by simp)] at h
    rw [← OrdMap.mapM_eq_ok]
    cases hstages : raw.stages.mapM (Stage.tryFrom c) with
    | error e' =>
      rw [hstages] at h
      cases h
      obtain ⟨entry, -, hentry⟩ := OrdMap.mapM_error hstages
      exact .inl ⟨Stage.stage_fails c entry.2 e hentry, by simp⟩
    | ok stages =>
      rw [hstages, except_ok_bind] at h
      have hfails : Fails (fun e => e.isGraph = true) (check stages >>= fun _ =>
          orderOf stages raw.image >>= fun r => .ok (⟨stages, raw.image, r.2⟩ : Plan)) :=
        .bind (check_fails stages) (fun _ _ => .bind (orderOf_fails stages raw.image)
          (fun _ _ => .ok _))
      exact .inr ⟨hfails e h, rfl, stages, rfl⟩

/-! The results. -/

/-- **The order of an accepted plan** lists no stage twice, each behind all it is built on
    and copies from, and exactly those that the image's selectors reach. -/
theorem plan_order {c : Carapace} {raw : Document} {plan : Plan}
    (h : Plan.tryFrom c raw = .ok plan) :
    plan.order.Nodup ∧
    (∀ before a after, plan.order = before ++ a :: after → ∀ b, raw.DependsOn a b → b ∈ before) ∧
    ∀ a, a ∈ plan.order ↔ ∃ start, raw.Selects start ∧ ReflTransGen raw.DependsOn start a := by
  have hp := tryFrom_planned h
  refine ⟨hp.ordered.nodup, ?_, ?_⟩
  · intro before a after hsplit b hab
    rw [← edge_iff hp.stages] at hab
    exact (hp.ordered.earlier hsplit hab).resolve_left (Finset.notMem_empty _)
  · intro a
    refine ⟨hp.reached a, ?_⟩
    rintro ⟨start, hstart, hreach⟩
    rw [← edge_iff hp.stages] at hreach
    exact hp.ordered.reach (hp.selected start hstart) hreach

def sampleBase : StageRef := ⟨['b'], by decide⟩

def sampleFinal : StageRef := ⟨['a'], by decide⟩

def sampleRemote : Remote := ⟨['r', '.', 't'], ['b'], .tag ['1']⟩

/-- A stage on a remote image, and the selected stage on that. -/
def sampleDocument : Document where
  stages := (OrdMap.empty.insert sampleBase (.extend
    (.remote sampleRemote) .empty [])).insert sampleFinal
    (.extend (.stage sampleBase) .empty [])
  image := .shorthand (.stage sampleFinal)

theorem plan_order_sample : ∃ plan, Plan.tryFrom ⟨2 ^ 20, by decide⟩ sampleDocument = .ok plan ∧
    plan.order.Nodup ∧
    (∀ before a after, plan.order = before ++ a :: after →
      ∀ b, sampleDocument.DependsOn a b → b ∈ before) ∧
    ∀ a, a ∈ plan.order ↔
      ∃ start, sampleDocument.Selects start ∧ ReflTransGen sampleDocument.DependsOn start a :=
  ⟨_, rfl, plan_order (c := ⟨2 ^ 20, by decide⟩) rfl⟩

/-- **Which documents are rejected for their graph.** The conversion ends; it fails with an
    unknown stage or a cycle exactly when everything before the searches passes and some
    stage or selector names a missing stage or some stage depends on itself; and it accepts
    exactly the documents that have none of that. -/
theorem plan_acceptance (c : Carapace) (raw : Document) :
    Plan.tryFrom c raw ≠ .error .outOfFuel ∧
    ((∃ e, Plan.tryFrom c raw = .error e ∧ e.isGraph = true) ↔
      Convertible c raw ∧ (¬ raw.Complete ∨ raw.Cyclic)) ∧
    ((∃ plan, Plan.tryFrom c raw = .ok plan) ↔ Convertible c raw ∧ raw.Complete ∧
      ¬ raw.Cyclic) := by
  have hok : (∃ plan, Plan.tryFrom c raw = .ok plan) ↔ _ := tryFrom_eq_ok
  cases hresult : Plan.tryFrom c raw with
  | ok plan =>
    obtain ⟨hconvert, hcomplete, hacyclic⟩ := hok.mp ⟨plan, hresult⟩
    simp [hconvert, hcomplete, hacyclic]
  | error e =>
    have hnot : ¬ (Convertible c raw ∧ raw.Complete ∧ ¬ raw.Cyclic) := by
      rw [← hok]
      rintro ⟨plan, h⟩
      rw [hresult] at h
      cases h
    have hgraph : e ≠ .outOfFuel ∧ (e.isGraph = true ↔ Convertible c raw) := by
      rcases tryFrom_error hresult with ⟨hearly, hno⟩ | ⟨hgraph, hyes⟩
      · cases e <;> simp_all [PlanError.isEarly, PlanError.isGraph]
      · cases e <;> simp_all [PlanError.isGraph]
    refine ⟨by simpa using hgraph.1, ?_, by simpa using hnot⟩
    constructor
    · rintro ⟨e', ⟨⟩, he⟩
      have hconvert := hgraph.2.mp he
      refine ⟨hconvert, ?_⟩
      by_contra hgood
      rw [not_or, not_not] at hgood
      exact hnot ⟨hconvert, hgood⟩
    · rintro ⟨hconvert, -⟩
      exact ⟨e, rfl, hgraph.2.mpr hconvert⟩

/-- A selected stage on itself, with a mount over the root. -/
def sampleCycle : Document where
  stages := OrdMap.empty.insert sampleFinal
    (.extend (.stage sampleFinal) (OrdMap.empty.insert ⟨['/'], by decide⟩ .tmpfs) [])
  image := .shorthand (.stage sampleFinal)

/-- A stage that does not convert is reported before the cycle it lies on. -/
theorem plan_acceptance_early :
    ¬ ∀ (c : Carapace) (raw : Document),
      (∃ e, Plan.tryFrom c raw = .error e ∧ e.isGraph = true) ↔ ¬ raw.Complete ∨ raw.Cyclic := by
  intro hclaim
  have hcyclic : sampleCycle.Cyclic := ⟨sampleFinal, .single ⟨_, rfl, List.mem_singleton.mpr rfl⟩⟩
  have hmounts : Plan.tryFrom ⟨2 ^ 20, by decide⟩ sampleCycle = .error .mounts := rfl
  obtain ⟨e, herror, hgraph⟩ := (hclaim ⟨2 ^ 20, by decide⟩ sampleCycle).mpr (.inr hcyclic)
  rw [hmounts] at herror
  cases herror
  cases hgraph

end Conglobate.Planner
