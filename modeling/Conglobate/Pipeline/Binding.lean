import Conglobate.Pipeline.Run

/- The values a configuration carries through a run, and the root they are bound to.

   A `Carried` is what a boot configuration is for: values, and the root they were
   last recorded for. `Flows` says what flows from a reference without looking at the
   code's bytes: an image's own values under its own root, nothing from a created
   root, and through an extending stage the source's, bound to the stage's new root.
   `Composed` adds the image's overlays. Every configuration of a run holds what
   flows to it (`resolve_flows`, `compose_flows`), so a run's result is known from the
   flow (`root_binding`). -/
namespace Conglobate.Pipeline

open Storage

/-- Values and the root they were recorded for. -/
structure Carried where
  values : Values
  lineage : Option Hash

namespace Carried

/-- The values bound to a root. -/
def bind (root : Hash) (k : Carried) : Carried := ⟨rebind root k.values, some root⟩

/-- What has no values is not carried. -/
def nonempty (k : Option Carried) : Option Carried := k.filter (fun k => !k.values.entries.isEmpty)

end Carried

/-- There is a configuration, and it has the key `corium.root`. -/
def HasRootKey (k : Option Carried) : Prop := ∃ c, k = some c ∧ c.values.contains rootKey = true

theorem hasRootKey_bind (root : Hash) (k : Option Carried) :
    HasRootKey (k.map (Carried.bind root)) ↔ HasRootKey k := by
  cases k with
  | none => simp [HasRootKey]
  | some c => simp [HasRootKey, Carried.bind, BootConfig.contains_rebind]

/-- A configuration's bytes hold the values carried, and it records their root. -/
def Holds (z : Zstd) : Option BootConfig → Option Carried → Prop
  | none, none => True
  | some c, some k =>
    c.root = k.lineage ∧ (c.bytes = [] ↔ k.values.entries = []) ∧
      ∃ n, BootConfig.decode z c.bytes = .ok n ∧ n.values = k.values
  | _, _ => False

section Flow
variable (z : Zstd) (build : ResolvedBuild) (outputs : Outputs)

/-- An image's own values. -/
inductive ImageCarries (image : CheckedImage) : Option Carried → Prop
  | none : image.bootconfig build.cache = .ok none → ImageCarries image none
  | some {bytes : Bytes} {n : Native} : image.bootconfig build.cache = .ok (some bytes) →
      BootConfig.decode z bytes = .ok n → ImageCarries image (some ⟨n.values, image.root⟩)

/-- What flows from a reference. -/
inductive Flows : Plan.ImageRef → Option Carried → Prop
  | remote {reference : Plan.Remote} {image : CheckedImage} {k : Option Carried} :
      build.images.get? (.ofRemote reference) = some image → ImageCarries z build image k →
      Flows (.remote reference) (Carried.nonempty k)
  | created {name : Plan.StageRef} {stage : Planner.Stage} :
      build.plan.stages.get? name = some stage → stage.format.isSome → Flows (.stage name) none
  | extended {name : Plan.StageRef} {stage : Planner.Stage} {output : StageOutput} {root : Root}
      {k : Option Carried} :
      build.plan.stages.get? name = some stage → stage.format = none → outputs.get? name =
        some output →
      output.root = some root → Flows stage.source k →
        Flows (.stage name) (k.map (Carried.bind root.hash))

/-- The values of a base, or none. -/
def baseValues (k : Option Carried) : Values := (k.map Carried.values).getD OrdMap.empty

/-- An overlay's result on what flows from a base. -/
inductive Overlaid (k : Option Carried) (entries : List (Plan.Key × Option Plan.Value)) :
    Carried → Prop
  | mk {n : Native} : Conglobate.BootConfig.tryFrom
      (entries.foldl BootConfig.applyEntry (baseValues k)) = .ok n →
      Overlaid k entries ⟨n.values, k.bind Carried.lineage⟩

def definitions (define : OrdMap Plan.Key Plan.Value) : List (Plan.Key × Option Plan.Value) :=
  define.entries.map (fun e => (e.1, some e.2))

/-- What flows to a boot directive's PMI. -/
inductive BootFlows : Plan.Boot → Option Carried → Prop
  | shorthand {source : Plan.ImageRef} {k : Option Carried} :
      Flows z build outputs source k → BootFlows (.shorthand source) k
  | inherit {source : Plan.ImageRef} {k : Option Carried} :
      Flows z build outputs source k → BootFlows (.inherit source) k
  | inheritDefined {source : Plan.ImageRef} {define : OrdMap Plan.Key Plan.Value} {c : Carried} :
      Overlaid none (definitions define) c → BootFlows (.inheritDefined source define) (some c)
  | inheritExtended {source : Plan.ImageRef} {overlay : OrdMap Plan.Key (Option Plan.Value)}
      {k : Option Carried} {c : Carried} : Flows z build outputs source k →
      Overlaid k overlay.entries c → BootFlows (.inheritExtended source overlay) (some c)
  | extract {file : Plan.Extract} {define : OrdMap Plan.Key Plan.Value} {c : Carried} :
      Overlaid none (definitions define) c → BootFlows (.extract file define) (some c)

/-- What flows to the image, after all overlays. -/
inductive Composed : Plan.Image → Option Carried → Prop
  | shorthand {source : Plan.ImageRef} {k : Option Carried} :
      Flows z build outputs source k → Composed (.shorthand source) k
  | rootOnly {root : Option Plan.ImageRef} : Composed (.components root none) none
  | boot {root : Option Plan.ImageRef} {boot : Plan.Boot} {k : Option Carried} :
      BootFlows z build outputs boot k →
      Composed (.components root (some boot)) (Carried.nonempty k)

end Flow

/-! The code's configurations hold what flows. -/

section Hold
variable {z : Zstd} (hz : z.Lawful)

theorem holds_filter {c : Option BootConfig} {k : Option Carried} (h : Holds z c k) :
    Holds z (StageOutput.nonempty c) (Carried.nonempty k) := by
  cases c with
  | none =>
    cases k with
    | none => trivial
    | some k => exact h.elim
  | some c =>
    cases k with
    | none => exact h.elim
    | some k =>
      obtain ⟨hroot, hnil, hvalues⟩ := h
      by_cases hbytes : c.bytes = []
      · have hentries := hnil.mp hbytes
        rw [StageOutput.nonempty, Carried.nonempty, Option.filter_some, Option.filter_some,
          if_neg (by simp [hbytes]), if_neg (by simp [hentries])]
        trivial
      · have hentries : k.values.entries ≠ [] := fun h => hbytes (hnil.mpr h)
        rw [StageOutput.nonempty, Carried.nonempty, Option.filter_some, Option.filter_some,
          if_pos (by simp [hbytes]), if_pos (by simp [hentries])]
        exact ⟨hroot, hnil, hvalues⟩

/-- A configuration taken from an image holds its values. -/
theorem holds_inherited {bytes : Bytes} {root : Option Hash} {c : BootConfig}
    (h : BootConfig.inherited z bytes root = .ok c) :
    ∃ n, BootConfig.decode z bytes = .ok n ∧ Holds z (some c) (some ⟨n.values, root⟩) := by
  obtain ⟨n, hn, h⟩ := except_bind_eq_ok.mp h
  cases h
  refine ⟨n, hn, rfl, ?_, ?_⟩
  · split
    · rename_i hempty
      exact ⟨fun _ => List.isEmpty_iff.mp hempty, fun _ => rfl⟩
    · rename_i hempty
      refine ⟨fun hbytes => ?_, fun h => absurd (List.isEmpty_iff.mpr h) hempty⟩
      rw [BootConfig.decode, if_pos hbytes] at hn
      cases hn
      rfl
  · split
    · rename_i hempty
      exact ⟨n, by rw [BootConfig.eq_default hempty, BootConfig.decode, if_pos rfl], rfl⟩
    · exact ⟨n, hn, rfl⟩

include hz in
/-- **Binding holds the bound values.** -/
theorem holds_bind {c d : BootConfig} {k : Option Carried} {root : Hash} (h : Holds z (some c) k)
    (hbind : c.bind z root = .ok d) : Holds z (some d) (k.map (Carried.bind root)) := by
  cases k with
  | none => exact h.elim
  | some k =>
    obtain ⟨-, hnil, n, hn, hvalues⟩ := h
    obtain ⟨hroot, ⟨w, hw, hrebind⟩, hbytes⟩ := BootConfig.bind_spec hz hn hbind
    refine ⟨hroot, ?_, w, hw, by rw [hrebind, hvalues]; rfl⟩
    show d.bytes = [] ↔ (rebind root k.values).entries = []
    rw [← hvalues] at hnil ⊢
    cases hkey : n.values.contains rootKey with
    | false => rw [hbytes hkey, hnil, rebind, hkey, if_neg (by simp)]
    | true =>
      -- A bound key keeps both the values and the bytes from being empty.
      have hcontains : (rebind root n.values).contains rootKey = true := by
        rw [BootConfig.contains_rebind, hkey]
      have hne : (rebind root n.values).entries ≠ [] := by
        intro hempty
        rw [OrdMap.ext (n := OrdMap.empty) hempty] at hcontains
        cases hcontains
      refine ⟨fun hd => ?_, fun hempty => absurd hempty hne⟩
      rw [BootConfig.decode, if_pos hd] at hw
      cases hw
      exact hrebind.symm.trans rfl ▸ rfl

include hz in
theorem holds_overlay {base : Option BootConfig} {k : Option Carried}
    {entries : List (Plan.Key × Option Plan.Value)} {c : BootConfig} (hbase : Holds z base k)
    (h : BootConfig.overlay z base entries = .ok c) :
    ∃ d, Overlaid k entries d ∧ Holds z (some c) (some d) := by
  have hdecode : ∃ n, BootConfig.decodeBase z base = .ok n ∧ n.values = baseValues k ∧
      base.bind BootConfig.root = k.bind Carried.lineage := by
    cases base with
    | none =>
      cases k with
      | none => exact ⟨_, rfl, rfl, rfl⟩
      | some k => exact hbase.elim
    | some b =>
      cases k with
      | none => exact hbase.elim
      | some k =>
        obtain ⟨hroot, -, n, hn, hvalues⟩ := hbase
        exact ⟨n, hn, hvalues, hroot⟩
  obtain ⟨n, hn, hvalues, hlineage⟩ := hdecode
  obtain ⟨hroot, w, hw, htry, hnil⟩ := BootConfig.overlay_spec hz hn h
  rw [hvalues] at htry
  exact ⟨_, .mk htry, by rw [hroot, hlineage], hnil, w, hw, rfl⟩

include hz in
/-- Binding an output changes only its configuration. -/
theorem bind_output {output bound : StageOutput} {root : Root} {k : Option Carried}
    (h : output.bind z = .ok bound) (hroot : output.root = some root)
    (hk : Holds z output.bootconfig k) :
    bound.root = output.root ∧ bound.pmi = output.pmi ∧
      Holds z bound.bootconfig (k.map (Carried.bind root.hash)) := by
  unfold StageOutput.bind at h
  rw [hroot] at h
  cases hconfig : output.bootconfig with
  | none =>
    rw [hconfig] at h hk
    cases h
    cases k with
    | none => exact ⟨rfl, rfl, by rw [hconfig]; trivial⟩
    | some k => exact hk.elim
  | some c =>
    rw [hconfig] at h hk
    obtain ⟨d, hd, h⟩ := except_bind_eq_ok.mp h
    cases h
    exact ⟨hroot.symm, rfl, holds_bind hz hk (except_mapError_eq_ok.mp hd)⟩

end Hold

/-! Flows along a run. -/

section Run
variable {z : Zstd} {x : Execution} {build : ResolvedBuild} {outputs : Outputs}

theorem remote_flows {image : CheckedImage} {r : StageOutput}
    (h : StageOutput.remote z image build.cache = .ok r) :
    ∃ k, ImageCarries z build image k ∧ Holds z r.bootconfig (Carried.nonempty k) := by
  obtain ⟨bytes, hbytes, h⟩ := except_bind_eq_ok.mp h
  obtain ⟨config, hconfig, h⟩ := except_bind_eq_ok.mp h
  cases h
  rw [except_mapError_eq_ok] at hbytes hconfig
  cases bytes with
  | none =>
    cases hconfig
    exact ⟨none, .none hbytes, trivial⟩
  | some bytes =>
    obtain ⟨c, hc, rfl⟩ := except_map_eq_ok.mp hconfig
    obtain ⟨n, hn, hholds⟩ := holds_inherited hc
    exact ⟨_, .some hbytes hn, holds_filter hholds⟩

theorem Flows.insert {name : Plan.StageRef} {output : StageOutput}
    (hfresh : outputs.get? name = none) {reference : Plan.ImageRef} {k : Option Carried}
    (h : Flows z build outputs reference k) :
    Flows z build (outputs.insert name output) reference k := by
  induction h with
  | remote himage hk => exact .remote himage hk
  | created hstage hformat => exact .created hstage hformat
  | @extended other stage result root k hstage hformat hget hroot _ ih =>
    refine .extended hstage hformat ?_ hroot ih
    have hne : other ≠ name := by
      rintro rfl
      rw [hfresh] at hget
      cases hget
    rwa [OrdMap.get?_insert, if_neg hne]

/-- Every output holds what flows from its stage. -/
def Flowing (z : Zstd) (build : ResolvedBuild) (outputs : Outputs) : Prop :=
  ∀ name output, outputs.get? name = some output →
    ∃ k, Flows z build outputs (.stage name) k ∧ Holds z output.bootconfig k

/-- **What is resolved holds what flows.** -/
theorem resolve_flows (hflowing : Flowing z build outputs) {reference : Plan.ImageRef}
    {r : StageOutput} (h : StageOutput.resolve z build outputs reference = .ok r) :
    ∃ k, Flows z build outputs reference k ∧ Holds z r.bootconfig k := by
  cases reference with
  | stage name => exact hflowing name r (resolve_stage.mp h)
  | remote reference =>
    unfold StageOutput.resolve at h
    cases himage : build.images.get? (ImageReference.ofRemote reference) with
    | none =>
      simp only [himage] at h
      cases h
    | some image =>
      simp only [himage] at h
      obtain ⟨k, hk, hholds⟩ := remote_flows h
      exact ⟨_, .remote himage hk, hholds⟩

/-- A finished stage's output holds what flows from it. -/
theorem flowing_insert (hz : z.Lawful) {name : Plan.StageRef} {output : StageOutput}
    (hfresh : outputs.get? name = none) (hflowing : Flowing z build outputs)
    (hdone : StageDone z x build outputs name output) :
    Flowing z build (outputs.insert name output) := by
  intro other result hget
  rw [OrdMap.get?_insert] at hget
  split at hget
  · rename_i heq
    cases hget
    rw [heq]
    cases hdone with
    | created _ hstage _ _ hformat => exact ⟨none, .created hstage hformat, trivial⟩
    | extended hstage hinput hsource hformat _ _ hbind =>
      obtain ⟨k, hk, hholds⟩ := resolve_flows hflowing hinput
      obtain ⟨hroot, -, hbound⟩ := bind_output hz hbind rfl hholds
      refine ⟨_, .extended hstage hformat ?_ hroot (hk.insert hfresh), hbound⟩
      rw [OrdMap.get?_insert, if_pos rfl]
  · obtain ⟨k, hk, hholds⟩ := hflowing other result hget
    exact ⟨k, hk.insert hfresh, hholds⟩

/-- **Every output of a run holds what flows to it.** -/
theorem stageOutputs_flowing (hz : z.Lawful) (hnodup : build.plan.order.Nodup)
    (h : stageOutputs z x build = .ok outputs) : Flowing z build outputs :=
  (stageOutputs_inv (Flowing z build) (fun _ _ h => by cases h) hnodup
    (fun _ _ _ hfresh hinv hdone => flowing_insert hz hfresh hinv hdone) h).2

theorem inheritConfig_flows (hz : z.Lawful) (hflowing : Flowing z build outputs) {boot : Plan.Boot}
    {source : StageOutput} {config : Option BootConfig}
    (hextract : ∀ file define, boot ≠ .extract file define)
    (hsource : StageOutput.resolve z build outputs boot.source = .ok source)
    (h : StageOutput.inheritConfig z source boot = .ok config) :
    ∃ k, BootFlows z build outputs boot k ∧ Holds z config k := by
  obtain ⟨k, hk, hholds⟩ := resolve_flows hflowing hsource
  cases boot with
  | shorthand reference =>
    cases h
    exact ⟨k, .shorthand hk, hholds⟩
  | inherit reference =>
    cases h
    exact ⟨k, .inherit hk, hholds⟩
  | inheritDefined reference define =>
    obtain ⟨c, hc, rfl⟩ := except_map_eq_ok.mp h
    have hnothing : Holds z none none := trivial
    obtain ⟨d, hd, hholds⟩ := holds_overlay hz hnothing (except_mapError_eq_ok.mp hc)
    exact ⟨_, .inheritDefined hd, hholds⟩
  | inheritExtended reference overlay =>
    obtain ⟨c, hc, rfl⟩ := except_map_eq_ok.mp h
    obtain ⟨d, hd, hholds⟩ := holds_overlay hz hholds (except_mapError_eq_ok.mp hc)
    exact ⟨_, .inheritExtended hk hd, hholds⟩
  | extract file define => exact absurd rfl (hextract file define)

/-- Without an extraction, the PMI and the configuration are the source's. -/
theorem selectBoot_inherit {reader : Option Reader} {boot : Plan.Boot}
    {chosen : Option Pmi × Option BootConfig} (hother : ∀ file define, boot ≠ .extract file define)
    (h : StageOutput.selectBoot z build outputs reader (some boot) = .ok chosen) :
    ∃ source pmi, StageOutput.resolve z build outputs boot.source = .ok source ∧
      StageOutput.inheritConfig z source boot = .ok chosen.2 ∧ source.pmi = some pmi ∧
        chosen.1 = some pmi := by
  cases boot with
  | extract file define => exact absurd rfl (hother file define)
  | _ =>
    obtain ⟨source, hsource, h⟩ := except_bind_eq_ok.mp h
    split at h
    · cases h
    · rename_i pmi hpmi
      obtain ⟨config, hconfig, h⟩ := except_bind_eq_ok.mp h
      cases h
      exact ⟨source, pmi, hsource, hconfig, hpmi, rfl⟩

theorem selectBoot_flows (hz : z.Lawful) (hflowing : Flowing z build outputs)
    {reader : Option Reader} {boot : Plan.Boot} {chosen : Option Pmi × Option BootConfig}
    (h : StageOutput.selectBoot z build outputs reader (some boot) = .ok chosen) :
    ∃ k, BootFlows z build outputs boot k ∧ Holds z chosen.2 k := by
  by_cases hextract : ∃ file define, boot = .extract file define
  · obtain ⟨file, define, rfl⟩ := hextract
    obtain ⟨pmi, -, h⟩ := except_bind_eq_ok.mp h
    obtain ⟨c, hc, h⟩ := except_bind_eq_ok.mp h
    cases h
    have hnothing : Holds z none none := trivial
    obtain ⟨d, hd, hholds⟩ := holds_overlay hz hnothing (except_mapError_eq_ok.mp hc)
    exact ⟨_, .extract hd, hholds⟩
  · have hother : ∀ file define, boot ≠ .extract file define :=
      fun file define h => hextract ⟨file, define, h⟩
    obtain ⟨source, pmi, hsource, hconfig, -, -⟩ := selectBoot_inherit hother h
    exact inheritConfig_flows hz hflowing hother hsource hconfig

/-- **What is composed holds what flows to the image.** -/
theorem compose_flows (hz : z.Lawful) (hflowing : Flowing z build outputs) {reader : Option Reader}
    {composed : StageOutput} (h : StageOutput.compose z build outputs reader = .ok composed) :
    ∃ k, Composed z build outputs build.plan.image k ∧ Holds z composed.bootconfig k := by
  unfold StageOutput.compose at h
  split at h
  · rename_i reference himage
    obtain ⟨k, hk, hholds⟩ := resolve_flows hflowing h
    rw [himage]
    exact ⟨k, .shorthand hk, hholds⟩
  · rename_i root boot himage
    obtain ⟨root', -, h⟩ := except_bind_eq_ok.mp h
    obtain ⟨chosen, hchosen, h⟩ := except_bind_eq_ok.mp h
    cases h
    rw [himage]
    cases boot with
    | none =>
      cases hchosen
      exact ⟨none, .rootOnly, trivial⟩
    | some boot =>
      obtain ⟨k, hk, hholds⟩ := selectBoot_flows hz hflowing hchosen
      exact ⟨_, .boot hk, holds_filter hholds⟩

/-! The result. -/

/-- A configuration has the key `corium.root`. -/
def ConfigHasRootKey (z : Zstd) (config : Option BootConfig) : Prop :=
  ∃ c n, config = some c ∧ BootConfig.decode z c.bytes = .ok n ∧ n.values.contains rootKey = true

theorem Holds.hasRootKey {config : Option BootConfig} {k : Option Carried} (h : Holds z config k) :
    ConfigHasRootKey z config ↔ HasRootKey k := by
  cases config with
  | none =>
    cases k with
    | none => simp [ConfigHasRootKey, HasRootKey]
    | some k => exact h.elim
  | some c =>
    cases k with
    | none => exact h.elim
    | some k =>
      obtain ⟨-, -, n, hn, hvalues⟩ := h
      constructor
      · rintro ⟨c', n', ⟨⟩, hn', hkey⟩
        rw [hn] at hn'
        cases hn'
        exact ⟨k, rfl, by rw [← hvalues, hkey]⟩
      · rintro ⟨k', ⟨⟩, hkey⟩
        exact ⟨c, n, rfl, hn, by rw [hvalues, hkey]⟩

/-- The selected root was made by this run, or the PMI or the configuration was last
    recorded for another root, or for none. -/
def Rebound (selected : StageOutput) (root : Root) (flowed : Option Carried) : Prop :=
  root.produced ≠ [] ∨ (∃ pmi, selected.pmi = some pmi ∧ pmi.root ≠ some root.hash) ∨
    ∃ k, flowed = some k ∧ k.lineage ≠ some root.hash

theorem changed_iff {composed : StageOutput} {root : Root} {k : Option Carried}
    (h : Holds z composed.bootconfig k) :
    composed.changed root = true ↔ Rebound composed root k := by
  have hconfig : composed.bootconfig.any (fun config => config.root != some root.hash) = true ↔
      ∃ c, k = some c ∧ c.lineage ≠ some root.hash := by
    cases hc : composed.bootconfig with
    | none =>
      rw [hc] at h
      cases k with
      | none => simp
      | some k => exact h.elim
    | some c =>
      rw [hc] at h
      cases k with
      | none => exact h.elim
      | some k => simp [h.1]
  rw [StageOutput.changed, Bool.or_eq_true, Bool.or_eq_true, hconfig, Rebound, or_assoc]
  simp [Option.any_eq_true]

/-- What finishing a composed output does. -/
theorem finish_flows (hz : z.Lawful) {composed selected : StageOutput} {k : Option Carried}
    (hk : Holds z composed.bootconfig k) (h : StageOutput.finish z composed = .ok selected) :
    selected.root = composed.root ∧ selected.pmi = composed.pmi ∧
      (∀ root, selected.root = some root → Rebound selected root k →
        Holds z selected.bootconfig (k.map (Carried.bind root.hash))) ∧
      ((¬ ∃ root, selected.root = some root ∧ Rebound selected root k) → selected = composed) := by
  unfold StageOutput.finish at h
  split at h
  · cases h
  · split at h
    · cases h
    · split at h
      · rename_i hroot
        cases h
        exact ⟨rfl, rfl, fun root hsome => absurd (hroot.symm.trans hsome) (by simp), fun _ => rfl⟩
      · rename_i root hroot
        split at h
        · rename_i hchanged
          obtain ⟨hroot', hpmi', hbound⟩ := bind_output hz h hroot hk
          have hrebound : Rebound selected root k := by
            have := (changed_iff hk).mp hchanged
            rwa [Rebound, ← hpmi'] at this
          refine ⟨hroot', hpmi', ?_, fun hnot => absurd
            ⟨root, by rw [hroot', hroot], hrebound⟩ hnot⟩
          intro other hother _
          rw [hroot', hroot] at hother
          cases hother
          exact hbound
        · rename_i hchanged
          cases h
          refine ⟨rfl, rfl, ?_, fun _ => rfl⟩
          intro other hother hrebound
          rw [hroot] at hother
          cases hother
          exact absurd ((changed_iff hk).mpr hrebound) hchanged

/-- What a stage that creates a root leaves: what it sealed on nothing, and nothing else. -/
structure Created (x : Execution) (outputs : Outputs) (name : Plan.StageRef) (stage : Planner.Stage)
    (output : StageOutput) : Prop where
  root : ∃ before source sealing, Earlier before outputs ∧ x.bootstrap name stage before source =
    .ok sealing ∧ output.root = some (.extend none [] (sealSnapshot Artifact.zeroHash sealing))
  pmi : output.pmi = none
  bootconfig : output.bootconfig = none

/-- What a stage that extends a root leaves: its source's root with what it sealed, its
    source's PMI, and what flows to it, bound to the new root. -/
inductive Extended (z : Zstd) (x : Execution) (build : ResolvedBuild) (outputs : Outputs)
    (name : Plan.StageRef) (stage : Planner.Stage) (output : StageOutput) : Prop
  | mk {input : StageOutput} {source : Root} {before : Outputs} {sealing : Sealing}
      {k : Option Carried} :
      StageOutput.resolve z build outputs stage.source = .ok input → input.root = some source →
      Earlier before outputs → x.derive name stage before source = .ok sealing →
      output.root = some (source.sealed sealing) → output.pmi = input.pmi →
      Flows z build outputs stage.source k → Holds z output.bootconfig
        (k.map (Carried.bind sealing.root)) →
      Extended z x build outputs name stage output

/-- **`corium.root` over whole runs.** In every run of an accepted plan, every stage of its
    order has an output: a stage that creates a root carries no configuration or PMI forward;
    a stage that extends one makes a new root of what it sealed on its source's, holds what
    flows to it, bound to that root, and records it. The selected output is the composed one.
    Where it has a root that this run made, or that is not the one its PMI or its
    configuration was recorded for, its configuration is what flows to it, bound to that
    root; otherwise nothing of it changes. So it has the key `corium.root` exactly when what
    flows to it has. -/
theorem root_binding (hz : z.Lawful) {c : Carapace} {raw : Plan.Document}
    (hplan : Planner.Plan.tryFrom c raw = .ok build.plan) {selected : StageOutput}
    (hrun : run z x build = .ok selected) :
    ∃ outputs reader composed flowed, stageOutputs z x build = .ok outputs ∧
      StageOutput.compose z build outputs reader = .ok composed ∧
      (∀ name, (outputs.get? name).isSome ↔ name ∈ build.plan.order) ∧
      (∀ name stage output, build.plan.stages.get? name = some stage →
        outputs.get? name = some output →
        (stage.format.isSome → Created x outputs name stage output) ∧
        (stage.format = none → Extended z x build outputs name stage output)) ∧
      Composed z build outputs build.plan.image flowed ∧ Holds z composed.bootconfig flowed ∧
      selected.root = composed.root ∧ selected.pmi = composed.pmi ∧
      (∀ root, selected.root = some root → Rebound selected root flowed →
        Holds z selected.bootconfig (flowed.map (Carried.bind root.hash))) ∧
      ((¬ ∃ root, selected.root = some root ∧ Rebound selected root flowed) → selected = composed) ∧
      (ConfigHasRootKey z selected.bootconfig ↔ HasRootKey flowed) := by
  have hnodup := (Planner.plan_nodup hplan)
  obtain ⟨outputs, reader, houtputs, hselect, -⟩ := run_eq_ok hrun
  obtain ⟨composed, hcomposed, hfinish⟩ := except_bind_eq_ok.mp hselect
  have hflowing := stageOutputs_flowing hz hnodup houtputs
  obtain ⟨hknown, hdone⟩ := stageOutputs_done hnodup houtputs
  obtain ⟨flowed, hflows, hholds⟩ := compose_flows hz hflowing hcomposed
  obtain ⟨hroot, hpmi, hrebound, hkept⟩ := finish_flows hz hholds hfinish
  refine ⟨outputs, reader, composed, flowed, houtputs, hcomposed, hknown, ?_, hflows, hholds,
    hroot, hpmi, hrebound, hkept, ?_⟩
  · intro name stage output hstage hget
    cases hdone name output hget with
    | created sealing hstage' _ _ hformat hbefore hsealing =>
      rw [hstage] at hstage'
      cases hstage'
      refine ⟨fun _ => ⟨⟨_, _, sealing, hbefore, hsealing, rfl⟩, rfl, rfl⟩, fun hnone => ?_⟩
      rw [hnone] at hformat
      cases hformat
    | extended hstage' hinput hsource hformat hbefore hsealing hbind =>
      rw [hstage] at hstage'
      cases hstage'
      refine ⟨fun hsome => ?_, fun _ => ?_⟩
      · rw [hformat] at hsome
        cases hsome
      · obtain ⟨k, hk, hinputHolds⟩ := resolve_flows hflowing hinput
        obtain ⟨hroot, hpmi, hbound⟩ := bind_output hz hbind rfl hinputHolds
        rw [Root.sealed_hash] at hbound
        exact .mk hinput hsource hbefore hsealing hroot hpmi hk hbound
  · by_cases hbound : ∃ root, selected.root = some root ∧ Rebound selected root flowed
    · obtain ⟨root, hsome, hr⟩ := hbound
      rw [(hrebound root hsome hr).hasRootKey, hasRootKey_bind]
    · rw [hkept hbound, hholds.hasRootKey]

end Run

/-! A stage on an image that has a boot configuration, and an overlay of what it carries. -/

namespace Sample

/-- `corium.root = "x";` -/
def configText : Text := "corium.root = \"x\";\n".toList

def configBytes : Bytes := 0 :: configText.utf8

def configDescriptor : Artifact.BootConfigDescriptor :=
  ⟨Artifact.Digest.toString ⟨Vector.replicate 32 119⟩, UInt64.ofNat configBytes.length⟩

def configuredFields : OrdMap Text Json :=
  CheckedImage.sampleFields.insert Artifact.Field.layers
    (.array [(Artifact.Layer.scute CheckedImage.sampleScute).toJson,
      (Artifact.Layer.pmi CheckedImage.samplePmi).toJson,
      (Artifact.Layer.bootConfig configDescriptor).toJson])

/-- The image of a scute and a PMI, with a configuration that names a root. -/
def configured : CheckedImage where
  json := Json.ofMap configuredFields
  unread := none
  manifest :=
    { CheckedImage.sampleManifest with
      layers := [.scute CheckedImage.sampleScute, .pmi CheckedImage.samplePmi,
        .bootConfig configDescriptor] }
  root := some CheckedImage.sampleRoot
  decoded := by rfl
  valid := by rfl
  envelope := ⟨rfl, rfl⟩
  committed := by rfl
  configDigest := by
    intro h
    cases h
  layerDigests := by
    intro l hl hscute
    rcases List.mem_cons.mp hl with rfl | hl
    · cases hscute
    rcases List.mem_cons.mp hl with rfl | hl
    · exact ⟨_, Artifact.Digest.fromStr_toString _⟩
    · rw [List.mem_singleton.mp hl]
      exact ⟨_, Artifact.Digest.fromStr_toString _⟩

/-- The overlay sets `a` to `b`. -/
def overlay : OrdMap Plan.Key (Option Plan.Value) :=
  OrdMap.empty.insert ⟨[97], rfl⟩ (some (.string [98]))

def overlaidDocument : Plan.Document where
  stages := OrdMap.empty.insert Planner.sampleBase
    (.extend (.remote Planner.sampleRemote) .empty [])
  -- the root is the stage's, and so is the configuration that is overlaid
  image := .components (some (.stage Planner.sampleBase))
    (some (.inheritExtended (.stage Planner.sampleBase) overlay))

def extendingStage : Planner.Stage := ⟨.remote Planner.sampleRemote, false, none, .empty, []⟩

def overlaidBuild : ResolvedBuild where
  plan :=
    { stages := OrdMap.empty.insert Planner.sampleBase extendingStage
      image := overlaidDocument.image
      order := [Planner.sampleBase] }
  images := OrdMap.empty.insert (.ofRemote Planner.sampleRemote) configured
  cache := ⟨fun _ _ => .ok configBytes⟩
  resolved := by decide

theorem overlaid_planned : Planner.Plan.tryFrom ⟨2 ^ 20, by decide⟩ overlaidDocument =
    .ok overlaidBuild.plan := by rfl

/-- The configuration's values, with the key's. -/
def boundRoot (selected : StageOutput) : Option (List Bytes) :=
  selected.bootconfig.bind fun c => (BootConfig.decode zstd c.bytes).toOption.bind fun n =>
    n.values.get? rootKey

theorem overlaid_bound :
    (run zstd execution overlaidBuild).toOption.bind boundRoot = some [rootValue sealing.root] := by
  decide +kernel

/-- The build runs, and its configuration names the new root. -/
theorem overlaid_runs : ∃ selected, run zstd execution overlaidBuild = .ok selected ∧
    boundRoot selected = some [rootValue sealing.root] := by
  have hbound := overlaid_bound
  cases hrun : run zstd execution overlaidBuild with
  | error e =>
    rw [hrun] at hbound
    cases hbound
  | ok selected =>
    rw [hrun] at hbound
    exact ⟨selected, rfl, hbound⟩

theorem hasRootKey_of_bound {selected : StageOutput} {value : List Bytes}
    (h : boundRoot selected = some value) :
    ConfigHasRootKey zstd selected.bootconfig := by
  obtain ⟨c, hc, h⟩ := Option.bind_eq_some_iff.mp h
  obtain ⟨n, hn, hvalue⟩ := Option.bind_eq_some_iff.mp h
  refine ⟨c, n, hc, ?_, OrdMap.contains_eq_true.mpr (OrdMap.mem_keys.mpr (by rw [hvalue]; rfl))⟩
  cases hdecode : BootConfig.decode zstd c.bytes with
  | error e =>
    rw [hdecode] at hn
    cases hn
  | ok m =>
    rw [hdecode] at hn
    cases hn
    rfl

end Sample

/-- The stage seals a root of its own, and the selected configuration names it. -/
theorem root_binding_sample : ∃ selected outputs output flowed,
    run Sample.zstd Sample.execution Sample.overlaidBuild = .ok selected ∧
    stageOutputs Sample.zstd Sample.execution Sample.overlaidBuild = .ok outputs ∧
    outputs.get? Planner.sampleBase = some output ∧
    Extended Sample.zstd Sample.execution Sample.overlaidBuild outputs Planner.sampleBase
      Sample.extendingStage output ∧
    Composed Sample.zstd Sample.overlaidBuild outputs Sample.overlaidDocument.image flowed ∧
      HasRootKey flowed ∧
    Sample.boundRoot selected = some [rootValue Sample.sealing.root] := by
  obtain ⟨selected, hrun, hbound⟩ := Sample.overlaid_runs
  obtain ⟨outputs, reader, composed, flowed, houtputs, -, hknown, hstages, hflows, -, -, -, -, -,
    hkey⟩ := root_binding Sample.zstd_lawful Sample.overlaid_planned hrun
  obtain ⟨output, houtput⟩ :=
    Option.isSome_iff_exists.mp ((hknown Planner.sampleBase).mpr List.mem_cons_self)
  have hextended := (hstages Planner.sampleBase Sample.extendingStage output rfl houtput).2 rfl
  exact ⟨selected, outputs, output, flowed, hrun, houtputs, houtput, hextended, hflows,
    hkey.mp (Sample.hasRootKey_of_bound hbound), hbound⟩

end Conglobate.Pipeline
