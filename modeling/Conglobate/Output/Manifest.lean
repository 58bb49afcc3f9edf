import Conglobate.Output.AssemblyProps

/- The manifest of a selection (`output/assembly.rs`, `artifact/manifest.rs`).

   The selected components give the layers, their launch metadata the rest. What is
   put together passes the rules a manifest is read with: its parameters are the
   source's, its scutes the source's with the produced ones behind them, and its
   commitment the tip's hash.

   Correspondence (Rust ↔ Lean):
     the manifest `in_staging` edits     ↔ `sourceManifest`
     the same, once edited               ↔ `assembledManifest`
     `layers` of `in_staging`            ↔ `assembledItems`, read as `assembledLayers` -/
namespace Conglobate.Output

open Artifact Content Storage Pipeline

/-! The manifest that is edited. -/

/-- The template, as a manifest. -/
def blank : Manifest where
  schemaVersion := 2
  mediaType := mediaTypeOciManifestV1
  artifactType := mediaTypePichiArtifactV1
  config := .canonical
  layers := []
  annotations := OrdMap.empty

theorem template_decoded : Manifest.ofFields template = .ok blank := by rfl

/-- The manifest of the launch metadata, or the template's. -/
def sourceManifest (image : Option CheckedImage) :
    Manifest := (image.map CheckedImage.manifest).getD blank

/-- The launch metadata's manifest, or the template. -/
def sourceJson (image : Option CheckedImage) :
    Json := (image.map CheckedImage.json).getD (Json.ofMap template)

theorem readManifest_ends (image : Option CheckedImage) :
    Ends (fun e => ∃ i error, image = some i ∧ i.unread = some error ∧ e = .json error)
      (fun manifest => manifest = sourceJson image ∧ ∀ i, image = some i →
        i.unread = none) (readManifest image) := by
  cases image with
  | none => exact Ends.ok ⟨rfl, fun _ h => by cases h⟩
  | some i =>
    rw [readManifest, CheckedImage.value]
    cases hunread : i.unread with
    | none =>
      refine Ends.ok ⟨rfl, fun j hj => ?_⟩
      cases hj
      exact hunread
    | some error => exact Ends.error ⟨i, error, rfl, hunread, rfl⟩

/-- The launch metadata's manifest is an object. -/
def IsObject (image : Option CheckedImage) : Prop :=
  ∀ i, image = some i → ∃ fields, i.json = .object fields

theorem startFields_ends (image : Option CheckedImage) :
    Ends (fun e => e = .panicked "manifest object" ∧ ¬IsObject image)
      (fun fields => Manifest.ofFields fields = .ok (sourceManifest image) ∧ IsObject image)
      (startFields (sourceJson image)) := by
  cases image with
  | none =>
    refine Ends.ok ⟨?_, fun _ h => by cases h⟩
    rw [Json.fieldMap_entries]
    exact template_decoded
  | some i =>
    rw [sourceJson, Option.map_some, Option.getD_some]
    unfold startFields
    split
    · rename_i fields hfields
      refine Ends.ok ⟨image_fields hfields, fun j hj => ?_⟩
      cases hj
      exact ⟨fields, hfields⟩
    · rename_i hother
      refine Ends.error ⟨rfl, fun hobject => ?_⟩
      obtain ⟨fields, hfields⟩ := hobject i rfl
      exact hother fields hfields

theorem Field.manifest_distinct :
    Field.config ≠ Field.annotations ∧ Field.config ≠ Field.layers ∧ Field.annotations ≠
      Field.layers ∧
      Field.schemaVersion ≠ Field.config ∧ Field.schemaVersion ≠ Field.annotations ∧
        Field.schemaVersion ≠ Field.layers ∧
      Field.mediaType ≠ Field.config ∧ Field.mediaType ≠ Field.annotations ∧
        Field.mediaType ≠ Field.layers ∧
      Field.artifactType ≠ Field.config ∧ Field.artifactType ≠ Field.annotations ∧
        Field.artifactType ≠ Field.layers := by
  decide

/-- The config of an assembled manifest. -/
def assembledConfig (w : Files) (requirements : Option Bytes) (c : ConfigDescriptor) :
    ConfigDescriptor :=
  match requirements with
  | some bytes => .forConfig (w.digest bytes).toString (UInt64.ofNat bytes.length)
  | none => c

theorem replaceConfig_config {w : Files} {requirements : Option Bytes} {fields : OrdMap Text Json}
    {m : Manifest} (h : Manifest.ofFields fields = .ok m) :
    ∃ config, (replaceConfig w requirements fields).get? Field.config = some config ∧
      ConfigDescriptor.ofJson config = .ok (assembledConfig w requirements m.config) := by
  cases requirements with
  | none => exact (Manifest.ofFields_parts h).1
  | some bytes =>
    refine ⟨_, ?_, ConfigDescriptor.ofJson_toJson _⟩
    rw [replaceConfig, OrdMap.get?_insert, if_pos rfl]
    rfl

/-- The annotations of a manifest that was read are texts. -/
theorem annotationsOf_decoded {fields : OrdMap Text Json} {t : OrdMap Text Text}
    (h : Manifest.annotationsOfJson (fields.get? Field.annotations) = .ok t) :
    ∃ a, annotationsOf fields = .ok a ∧ Json.StringMap a t := by
  rw [annotationsOf]
  cases hget : fields.get? Field.annotations with
  | none =>
    rw [hget] at h
    cases h
    exact ⟨_, rfl, fun _ => rfl⟩
  | some j =>
    rw [hget] at h
    cases j with
    | object entries => exact ⟨_, rfl, Json.asStrings_eq_ok.mp h⟩
    | _ => cases h

/-! The parameters, as validation reads them. -/

/-- The data-block size is the parameter, when that is not zero. -/
theorem checkBlockSize_eq_ok {t : OrdMap Text Text} {size : Nat} :
    Manifest.checkBlockSize t = .ok size ↔ parameter t (verityDataBlockSize, 4096) = some size ∧
      size ≠ 0 := by
  have hread : Decimal.parseUnsigned 32 (Manifest.dataBlockSize t) =
      parameter t (verityDataBlockSize, 4096) := by
    rw [Manifest.dataBlockSize, parameter]
    cases t.get? verityDataBlockSize with
    | none => decide
    | some value => rfl
  rw [Manifest.checkBlockSize, hread]
  cases parameter t (verityDataBlockSize, 4096) with
  | none => exact iff_of_false (fun h => by cases h) (fun h => by cases h.1)
  | some n =>
    by_cases hzero : n = 0
    · subst hzero
      refine iff_of_false (fun h => by cases h) (fun h => ?_)
      exact h.2 (Option.some.inj h.1).symm
    · have hkept : (some n).filter (· != 0) = some n := by simp [hzero]
      rw [hkept]
      constructor
      · intro h
        cases h
        exact ⟨rfl, hzero⟩
      · intro h
        rw [Option.some.inj h.1]

/-- The annotations of a selection, from those of its launch metadata. -/
def Annotated (selection : StageOutput) (t u : OrdMap Text Text) : Prop :=
  match selection.root with
  | none => u = t.filter (fun e => !e.1.startsWith carapacePrefix)
  | some root =>
    ∃ v, u = (v.erase verityAlgo).insert carapaceRootAnnotation (Digest.toString ⟨root.hash⟩) ∧
      Settles t v ∧ (newOnBase root → ∀ p ∈ verityDefaults, parameter t p = some p.2)

theorem verityDefaults_keys {p : Text × Nat} (h : p ∈ verityDefaults) :
    p.1 ≠ verityAlgo ∧ p.1 ≠ carapaceRootAnnotation := by
  have hall : ∀ p ∈ verityDefaults, p.1 ≠ verityAlgo ∧ p.1 ≠ carapaceRootAnnotation := by decide
  exact hall p h

/-- Setting the tip changes no parameter. -/
theorem parameter_tip {v : OrdMap Text Text} {p : Text × Nat} (hp : p ∈ verityDefaults)
    (tip : Text) :
    parameter ((v.erase verityAlgo).insert carapaceRootAnnotation tip) p = parameter v p := by
  obtain ⟨halgo, hroot⟩ := verityDefaults_keys hp
  rw [parameter, parameter, OrdMap.get?_insert, if_neg hroot, OrdMap.get?_erase, if_neg halgo]

/-- A base that new scutes continue is a chain. -/
theorem Grown.base_root {root : Root} (h : Grown root) {image : CheckedImage}
    (hbase : root.base = some image) :
    ∃ start, image.root = some start ∧ baseParent root.base = .ok start := by
  obtain ⟨start, hstart, -⟩ := h
  have hparent := hstart
  rw [hbase, baseParent] at hparent
  split at hparent
  · rename_i hash hroot
    cases hparent
    exact ⟨start, hroot, hstart⟩
  · cases hparent

/-- **Parameters of the result**: the source's, and the defaults where there are new
    scutes. -/
theorem Annotated.parameters {selection : StageOutput} {root : Root} {u : OrdMap Text Text}
    (hroot : selection.root = some root)
    (h : Annotated selection (sourceManifest root.base).annotations u) {p : Text × Nat}
    (hp : p ∈ verityDefaults) :
    parameter u p = parameter (sourceManifest root.base).annotations p ∧
      (root.produced ≠ [] → parameter u p = some p.2) := by
  rw [Annotated, hroot] at h
  obtain ⟨v, rfl, hsettles, hdefaults⟩ := h
  have hsame := (parameter_tip hp (Digest.toString ⟨root.hash⟩)).trans (hsettles.parameter hp)
  refine ⟨hsame, fun hproduced => hsame.trans ?_⟩
  cases hbase : root.base with
  | none => rfl
  | some image =>
    rw [hbase] at hdefaults
    refine hdefaults ⟨?_, hproduced⟩ p hp
    rw [hbase]
    rfl

/-! The scutes' rules. -/

/-- The scutes of a root: its base's, then the produced ones. -/
def rootLayers (root : Root) : List Layer :=
  ((root.base.map (fun image => image.manifest.layers.filter Manifest.isScute)).getD []) ++
    root.produced.map producedLayer

/-- A chain that is there has a scute, and a root. -/
theorem Grown.nonempty {root : Root} (h : Grown root) :
    rootLayers root ≠ [] ∧ root.hash ≠ zeroHash := by
  obtain ⟨start, hstart, hchain⟩ := h
  have hhash := baseParent_hash hstart
  have hroots : ∀ {scutes : List SealedScute} {parent : Hash}, Chained parent scutes →
      ∀ scute ∈ scutes, scute.root ≠ zeroHash := by
    intro scutes
    induction scutes with
    | nil => exact fun _ _ h => by cases h
    | cons first rest ih =>
      rintro parent ⟨-, hfirst, hrest⟩ scute hmem
      rcases List.mem_cons.mp hmem with rfl | hmem
      · exact hfirst
      · exact ih hrest scute hmem
  cases hlast : root.produced.getLast? with
  | some scute =>
    have hmem := List.mem_of_getLast? hlast
    rw [hlast] at hhash
    refine ⟨?_, ?_⟩
    · intro hnil
      have hproduced := (List.append_eq_nil_iff.mp hnil).2
      rw [List.map_eq_nil_iff] at hproduced
      rw [hproduced] at hmem
      cases hmem
    · rw [hhash]
      exact hroots hchain scute hmem
  | none =>
    -- a root without produced scutes is its base's
    have hhashed := root.hashed
    rw [hlast] at hhash hhashed
    cases hbase : root.base with
    | none =>
      rw [hbase] at hhashed
      cases hhashed
    | some image =>
      obtain ⟨start', hroot, hstart'⟩ := Grown.base_root ⟨start, hstart, hchain⟩ hbase
      rw [hstart] at hstart'
      cases hstart'
      have hcommitted := image.committed
      rw [hroot] at hcommitted
      obtain ⟨hscutes, hnonzero⟩ := Manifest.carapaceRoot_some hcommitted
      refine ⟨?_, ?_⟩
      · intro hnil
        have hfiltered := (List.append_eq_nil_iff.mp hnil).1
        rw [hbase, Option.map_some, Option.getD_some, List.filter_eq_nil_iff] at hfiltered
        obtain ⟨l, hl, hscute⟩ := List.any_eq_true.mp hscutes
        exact hfiltered l hl hscute
      · rw [hhash]
        exact hnonzero

section Assembled
variable {w : Files} {requirements : Option Bytes} {selection : StageOutput} {u : OrdMap Text Text}

end Assembled

end Conglobate.Output
