import Conglobate.Artifact.ManifestProps
import Mathlib.Algebra.Order.Floor.Div

/- The images that pass for one (`Manifest::validate`, `artifact/manifest.rs`).

   Validation goes over the annotations and the layers in several passes and stops
   at the first rule broken. This file says the rules themselves, each of the
   manifest as a whole and none of a pass (`WellFormed`), and proves that validation
   accepts exactly the manifests that keep them (`validate_iff_wellFormed`):

   1. the chain's root is annotated just where there are scutes, in one of two
      spellings (`RootSpelled`);
   2. the parameters of the chain are unsigned integers, the data-block size a
      nonzero one or its default (`BlockSizeOf`);
   3. scutes count as one list, whatever layers stand between them (`scutes`): the
      first one's salt starts with the zero parent, and no other's does;
   4. PMIs and boot configurations are counted over all layers. -/
namespace Conglobate.Artifact
namespace Manifest

/-- The scutes in layer order, of either encoding. -/
def scutes (m : Manifest) : List ScuteDescriptor := m.layers.filterMap Layer.scute?

/-- The annotations commit to `root`: qualified and without an algorithm, or bare
    and with SHA-256 for it; its digits are lower case (`Digest::hex`). -/
def RootSpelled (annotations : OrdMap Text Text) (root : Hash) : Prop :=
  (annotations.get? carapaceRootAnnotation = some (Digest.toString ⟨root⟩) ∧
    annotations.get? verityAlgo = none) ∨
  (annotations.get? carapaceRootAnnotation = some (Digest.hex ⟨root⟩) ∧
    annotations.get? verityAlgo = some "sha256".toList)

/-- The size of a data block: 4096 unless annotated, and then not zero. -/
def BlockSizeOf (annotations : OrdMap Text Text) (size : Nat) : Prop :=
  (annotations.get? verityDataBlockSize = none ∧ size = 4096) ∨
  ∃ value, annotations.get? verityDataBlockSize = some value ∧ Decimal.parseUnsigned 32 value =
    some size ∧ size ≠ 0

/-- A salt's parent prefix is there, and is zero just for the base. -/
def SaltOf (base : Prop) (d : ScuteDescriptor) : Prop :=
  ∃ salt, Hex.decode d.annotations.salt = some salt ∧ 32 ≤ salt.length ∧
    (base ↔ ∀ byte ∈ salt.take 32, byte = 0)

/-- The parameters beside the data-block size. -/
def parameterKeys : List Text := [verityHashBlockSize, verityVersion, verityHashType]

/-- What makes a manifest of the artifact type, with one of the two configurations,
    an image. -/
structure WellFormed (m : Manifest) : Prop where
  root_present : m.annotations.get? carapaceRootAnnotation ≠ none ↔ m.scutes ≠ []
  root_spelled : m.scutes ≠ [] → ∃ root, root ≠ zeroHash ∧ RootSpelled m.annotations root
  parameters : m.scutes ≠ [] → ∀ key ∈ parameterKeys, ∀ value, m.annotations.get? key = some value →
    ∃ n, Decimal.parseUnsigned 32 value = some n
  block_size : m.scutes ≠ [] → ∃ size, BlockSizeOf m.annotations size ∧
    (∀ d ∈ m.scutes, d.annotations.dataBlocks.val.toNat * size < 2 ^ 64) ∧
    ∀ d, Layer.scute d ∈ m.layers → d.annotations.dataBlocks.val.toNat = d.size.toNat ⌈/⌉ size
  salts : ∀ i d, m.scutes[i]? = some d → SaltOf (i = 0) d
  one_pmi : m.pmiCount ≤ 1
  one_boot_config : m.bootConfigCount ≤ 1
  boot_config_with_pmi : m.bootConfigCount ≠ 0 → m.pmiCount ≠ 0

/-! The chain's root. -/

theorem hasScutes_iff {m : Manifest} : m.hasScutes = true ↔ m.scutes ≠ [] := by
  rw [hasScutes, scutes, List.any_eq_true, ne_eq, List.filterMap_eq_nil_iff]
  push Not
  simp only [Option.isSome_iff_ne_none]

/-- The hexadecimal digits of a root have no colon. -/
theorem contains_colon_hex (d : Digest) : d.hex.contains ':' = false := by
  rw [← Bool.not_eq_true, List.contains_iff_mem]
  exact Hex.colon_not_mem_encode _

/-- What qualifies as a spelling, with the text it stands for. -/
theorem wire_eq_toString {value : Text} {algo : Option Text} {d : Digest} :
    wire value algo = some d.toString ↔
      (value = d.toString ∧ algo = none) ∨ (value = d.hex ∧ algo = some "sha256".toList) := by
  have hcolon : d.toString.contains ':' = true :=
    List.contains_iff_mem.mpr (Digest.colon_mem_toString d)
  have hbare := contains_colon_hex d
  constructor
  · intro h
    unfold wire at h
    split at h
    · exact .inl ⟨Option.some.inj h, rfl⟩
    · rename_i algo _
      by_cases halgo : algo = "sha256".toList
      · rw [if_pos halgo, Digest.toString, Option.some.injEq] at h
        exact .inr ⟨List.append_cancel_left h, by rw [halgo]⟩
      · rw [if_neg halgo] at h
        cases h
    · cases h
  · rintro (⟨rfl, rfl⟩ | ⟨rfl, rfl⟩)
    · unfold wire
      rw [hcolon]
    · unfold wire
      rw [hbare]
      exact if_pos rfl

/-- **A manifest with scutes states its root** in one of the two spellings. -/
theorem carapaceRoot_some_iff {m : Manifest} {root : Hash} (hscutes : m.hasScutes = true) :
    m.carapaceRoot = .ok (some root) ↔ root ≠ zeroHash ∧ RootSpelled m.annotations root := by
  have hspelled : RootSpelled m.annotations root ↔
      ∃ value, m.annotations.get? carapaceRootAnnotation = some value ∧
      wire value (m.annotations.get? verityAlgo) = some (Digest.toString ⟨root⟩) := by
    simp only [wire_eq_toString]
    constructor
    · rintro (⟨hvalue, halgo⟩ | ⟨hvalue, halgo⟩)
      · exact ⟨_, hvalue, .inl ⟨rfl, halgo⟩⟩
      · exact ⟨_, hvalue, .inr ⟨rfl, halgo⟩⟩
    · rintro ⟨value, hvalue, ⟨rfl, halgo⟩ | ⟨rfl, halgo⟩⟩
      · exact .inl ⟨hvalue, halgo⟩
      · exact .inr ⟨hvalue, halgo⟩
  rw [hspelled]
  constructor
  · intro h
    refine ⟨(carapaceRoot_some h).2, ?_⟩
    rw [carapaceRoot] at h
    split at h
    · rw [if_pos hscutes] at h
      cases h
    · rename_i value hvalue
      refine ⟨value, hvalue, ?_⟩
      split at h
      · cases h
      · rename_i text htext
        split at h
        · cases h
        · split at h
          · rename_i hchecks
            cases h
            rw [Bool.and_eq_true, Bool.and_eq_true] at hchecks
            rw [htext, ← beq_iff_eq.mp hchecks.1.2]
          · cases h
  · rintro ⟨hroot, value, hvalue, hwire⟩
    rw [carapaceRoot, hvalue]
    simp only [hwire, Digest.fromStr_toString, hscutes, Bool.true_and, beq_self_eq_true]
    exact if_pos (by simpa using hroot)

/-- Without scutes there is no root, and must be none. -/
theorem carapaceRoot_none_iff {m : Manifest} (hscutes : m.hasScutes = false) :
    (∃ root, m.carapaceRoot = .ok root) ↔ m.annotations.get? carapaceRootAnnotation = none := by
  constructor
  · rintro ⟨root, hroot⟩
    cases root with
    | some root =>
      exact absurd (carapaceRoot_some hroot).1 (by rw [hscutes]; exact Bool.false_ne_true)
    | none =>
      rw [carapaceRoot] at hroot
      split at hroot
      · assumption
      · split at hroot
        · cases hroot
        · split at hroot
          · cases hroot
          · split at hroot <;> cases hroot
  · exact fun hvalue => ⟨none, carapaceRoot_none hscutes hvalue⟩

/-- A manifest with scutes that states no root is refused. -/
theorem carapaceRoot_ok_iff {m : Manifest} (hscutes : m.hasScutes = true) :
    (∃ root, m.carapaceRoot = .ok root) ↔ ∃ root, root ≠ zeroHash ∧
      RootSpelled m.annotations root := by
  simp only [← carapaceRoot_some_iff hscutes]
  constructor
  · rintro ⟨root, hroot⟩
    cases root with
    | some root => exact ⟨root, hroot⟩
    | none =>
      rw [carapaceRoot] at hroot
      split at hroot
      · rw [if_pos hscutes] at hroot
        cases hroot
      · split at hroot
        · cases hroot
        · split at hroot
          · cases hroot
          · split at hroot <;> cases hroot
  · intro hspelled
    obtain ⟨root, hroot⟩ := hspelled
    exact ⟨some root, hroot⟩

/-! The parameters. -/

theorem checkParameter_eq_ok {t : OrdMap Text Text} {key : Text} :
    checkParameter t key = .ok () ↔ ∀ value, t.get? key = some value →
      ∃ n, Decimal.parseUnsigned 32 value = some n := by
  rw [checkParameter]
  cases t.get? key with
  | none => simp
  | some value =>
    simp only [Option.some.injEq, forall_eq']
    cases Decimal.parseUnsigned 32 value <;> simp

theorem checkParameters_eq_ok {m : Manifest} :
    m.checkParameters = .ok () ↔ (m.hasScutes = true → ∀ key ∈ parameterKeys, ∀ value,
      m.annotations.get? key = some value → ∃ n, Decimal.parseUnsigned 32 value = some n) := by
  simp only [parameterKeys, List.forall_mem_cons, List.not_mem_nil, IsEmpty.forall_iff,
    implies_true, and_true, ← checkParameter_eq_ok]
  rw [checkParameters]
  split
  · rename_i hscutes
    simp only [hscutes, forall_const]
    constructor
    · intro h
      obtain ⟨_, h1, h⟩ := except_bind_eq_ok.mp h
      obtain ⟨_, h2, h3⟩ := except_bind_eq_ok.mp h
      exact ⟨h1, h2, h3⟩
    · rintro ⟨h1, h2, h3⟩
      rw [h1, except_ok_bind, h2, except_ok_bind, h3]
  · rename_i hscutes
    simp [hscutes]

theorem checkBlockSize_eq_ok {t : OrdMap Text Text} {size : Nat} :
    checkBlockSize t = .ok size ↔ BlockSizeOf t size := by
  have hread : checkBlockSize t = .ok size ↔ Decimal.parseUnsigned 32 (dataBlockSize t) =
      some size ∧ size ≠ 0 := by
    rw [checkBlockSize]
    split
    · rename_i found hfound
      obtain ⟨hparse, hzero⟩ := Option.filter_eq_some_iff.mp hfound
      rw [hparse, Except.ok.injEq, Option.some.injEq]
      exact ⟨fun h => ⟨h, h ▸ by simpa using hzero⟩, fun h => h.1⟩
    · rename_i hnone
      refine iff_of_false (fun h => by cases h) ?_
      rintro ⟨hparse, hzero⟩
      rw [hparse, Option.filter_some_pos (by simpa using hzero)] at hnone
      cases hnone
  have hdefault : Decimal.parseUnsigned 32 "4096".toList = some 4096 := by decide
  rw [hread, dataBlockSize, BlockSizeOf]
  cases t.get? verityDataBlockSize with
  | none =>
    rw [Option.getD_none, hdefault, Option.some.injEq]
    constructor
    · rintro ⟨rfl, -⟩
      exact .inl ⟨rfl, rfl⟩
    · rintro (⟨-, rfl⟩ | ⟨value, hvalue, -⟩)
      · exact ⟨rfl, by decide⟩
      · cases hvalue
  | some value => simp

theorem BlockSizeOf.unique {t : OrdMap Text Text} {size size' : Nat} (h : BlockSizeOf t size)
    (h' : BlockSizeOf t size') :
    size = size' := by
  have hsize := checkBlockSize_eq_ok.mpr h
  rw [checkBlockSize_eq_ok.mpr h'] at hsize
  exact (Except.ok.inj hsize).symm

/-! The scutes. -/

theorem checkBlocks_eq_ok {size : Nat} {l : Layer} {d : ScuteDescriptor} (hsize : size ≠ 0) :
    checkBlocks size l d = .ok () ↔ d.annotations.dataBlocks.val.toNat * size < 2 ^ 64 ∧
      (l = .scute d → d.annotations.dataBlocks.val.toNat = d.size.toNat ⌈/⌉ size) := by
  rw [checkBlocks, Nat.ceilDiv_eq_add_pred_div]
  have hpred : d.size.toNat + size - 1 = d.size.toNat + (size - 1) := by omega
  split
  · rename_i h
    refine iff_of_false (fun h => by cases h) ?_
    rintro ⟨hfits, hcount⟩
    obtain hbig | ⟨hraw, hne⟩ := h
    · omega
    · exact hne (hcount hraw)
  · rename_i h
    push Not at h
    exact iff_of_true rfl ⟨h.1, h.2⟩

/-- The salts' rule for one scute; `first` says whether it is the base. -/
theorem saltParent_eq_ok {d : ScuteDescriptor} {first : Bool} :
    (∃ parent, saltParent d.annotations.salt = .ok parent ∧ first = parent.all (· == 0)) ↔
      SaltOf (first = true) d := by
  rw [saltParent, SaltOf]
  cases Hex.decode d.annotations.salt with
  | none => simp
  | some salt =>
    simp only [Option.some.injEq]
    constructor
    · rintro ⟨parent, hparent, hfirst⟩
      split at hparent
      · cases hparent
      · cases hparent
        refine ⟨salt, rfl, by omega, ?_⟩
        rw [hfirst, List.all_eq_true]
        simp
    · rintro ⟨_, rfl, hlength, hfirst⟩
      refine ⟨salt.take 32, if_neg (by omega), ?_⟩
      rw [Bool.eq_iff_iff, hfirst, List.all_eq_true]
      simp

/-- **The last loop, layer by layer.** `first` is whether a scute is still to come
    first; other layers leave it as it is, and every scute clears it. -/
theorem foldlM_checkScute_eq_ok {t : OrdMap Text Text} {layers : List Layer} {first : Bool} :
    (∃ r, layers.foldlM (checkScute t) first = .ok r) ↔
      (∀ l ∈ layers, ∀ d, l.scute? = some d → ∃ size, checkBlockSize t = .ok size ∧
        checkBlocks size l d = .ok ()) ∧
      ∀ i d, (layers.filterMap Layer.scute?)[i]? = some d → SaltOf (first = true ∧ i = 0) d := by
  induction layers generalizing first with
  | nil => exact iff_of_true ⟨first, rfl⟩ (by simp)
  | cons l rest ih =>
    rw [List.foldlM_cons, List.forall_mem_cons]
    cases hl : l.scute? with
    | none =>
      rw [checkScute_other (by rw [isScute, hl]; rfl), except_ok_bind, ih,
        List.filterMap_cons_none hl]
      simp
    | some d =>
      have hround : ∀ r, checkScute t first l = .ok r ↔ r = false ∧
          (∃ size, checkBlockSize t = .ok size ∧ checkBlocks size l d = .ok ()) ∧
              SaltOf (first = true) d := by
        intro r
        rw [checkScute_eq_ok hl, ← saltParent_eq_ok]
        constructor
        · rintro ⟨hr, size, parent, hsize, hblocks, hparent⟩
          exact ⟨hr, ⟨size, hsize, hblocks⟩, parent, hparent⟩
        · rintro ⟨hr, ⟨size, hsize, hblocks⟩, parent, hparent⟩
          exact ⟨hr, size, parent, hsize, hblocks, hparent⟩
      -- the first scute of the list is this one; the rest are checked with the flag cleared
      have hsalts : (∀ i e, (d :: rest.filterMap Layer.scute?)[i]? = some e →
          SaltOf (first = true ∧ i = 0) e) ↔
          SaltOf (first = true) d ∧ ∀ i e, (rest.filterMap Layer.scute?)[i]? = some e →
              SaltOf (false = true ∧ i = 0) e := by
        constructor
        · intro h
          refine ⟨by simpa using h 0 d rfl, fun i e he => ?_⟩
          have := h (i + 1) e (by simpa using he)
          simpa using this
        · rintro ⟨hhead, hrest⟩ i e he
          cases i with
          | zero =>
            cases he
            simpa using hhead
          | succ i => simpa using hrest i e (by simpa using he)
      rw [List.filterMap_cons_some hl, hsalts]
      simp only [Option.some.injEq, forall_eq']
      constructor
      · rintro ⟨r, hr⟩
        obtain ⟨next, hnext, hr⟩ := except_bind_eq_ok.mp hr
        obtain ⟨rfl, hblocks, hsalt⟩ := (hround next).mp hnext
        obtain ⟨hall, hothers⟩ := ih.mp ⟨r, hr⟩
        exact ⟨⟨hblocks, hall⟩, hsalt, hothers⟩
      · rintro ⟨⟨hblocks, hall⟩, hsalt, hothers⟩
        obtain ⟨r, hr⟩ := (@ih false).mpr ⟨hall, hothers⟩
        exact ⟨r, by rw [(hround false).mpr ⟨rfl, hblocks, hsalt⟩, except_ok_bind, hr]⟩

theorem mem_scutes {m : Manifest} {d : ScuteDescriptor} :
    d ∈ m.scutes ↔ ∃ l ∈ m.layers, l.scute? = some d :=
  List.mem_filterMap

/-- **The scutes' rules**, gathered over all of them. -/
theorem checkScutes_eq_ok {m : Manifest} :
    (∃ first, m.checkScutes = .ok first) ↔
      (m.scutes ≠ [] → ∃ size, BlockSizeOf m.annotations size ∧
        (∀ d ∈ m.scutes, d.annotations.dataBlocks.val.toNat * size < 2 ^ 64) ∧
        ∀ d, Layer.scute d ∈ m.layers → d.annotations.dataBlocks.val.toNat =
          d.size.toNat ⌈/⌉ size) ∧
      ∀ i d, m.scutes[i]? = some d → SaltOf (i = 0) d := by
  rw [checkScutes, foldlM_checkScute_eq_ok]
  simp only [true_and]
  refine and_congr_left fun _ => ?_
  have hnonzero : ∀ size, BlockSizeOf m.annotations size → size ≠ 0 := by
    rintro size (⟨-, rfl⟩ | ⟨_, -, -, hsize⟩)
    · decide
    · exact hsize
  constructor
  · intro h hsome
    obtain ⟨d, hd⟩ := List.exists_mem_of_ne_nil _ hsome
    obtain ⟨l, hl, hscute⟩ := mem_scutes.mp hd
    obtain ⟨size, hsize, -⟩ := h l hl d hscute
    rw [checkBlockSize_eq_ok] at hsize
    -- every scute was checked against this one size
    have hall : ∀ l ∈ m.layers, ∀ d, l.scute? = some d → checkBlocks size l d = .ok () := by
      intro l hl d hscute
      obtain ⟨other, hother, hblocks⟩ := h l hl d hscute
      rwa [hsize.unique (checkBlockSize_eq_ok.mp hother)]
    refine ⟨size, hsize, fun d hd => ?_, fun d hd => ?_⟩
    · obtain ⟨l, hl, hscute⟩ := mem_scutes.mp hd
      exact ((checkBlocks_eq_ok (hnonzero size hsize)).mp (hall l hl d hscute)).1
    · exact ((checkBlocks_eq_ok (hnonzero size hsize)).mp (hall _ hd d rfl)).2 rfl
  · intro h l hl d hscute
    have hd := mem_scutes.mpr ⟨l, hl, hscute⟩
    obtain ⟨size, hsize, hfits, hraw⟩ := h (List.ne_nil_of_mem hd)
    refine ⟨size, checkBlockSize_eq_ok.mpr hsize, (checkBlocks_eq_ok (hnonzero size hsize)).mpr
      ⟨hfits d hd, ?_⟩⟩
    rintro rfl
    exact hraw d hl

/-- **Validation characterises well-formed images.** Of the manifests of the
    artifact type that have the empty or a Pichi configuration, the accepted ones
    are exactly those that keep every rule. -/
theorem validate_iff_wellFormed (m : Manifest) (htype : m.artifactType = mediaTypePichiArtifactV1)
    (hconfig : m.config = ConfigDescriptor.canonical ∨
    m.config.mediaType = mediaTypePichiConfigV1) :
    m.validate = .ok () ↔ m.WellFormed := by
  rw [validate_eq_ok, checkParameters_eq_ok, checkCounts_eq_ok, checkScutes_eq_ok]
  constructor
  · rintro ⟨-, -, hroot, hparameters, ⟨hpmi, hboot, hboth⟩, hblocks, hsalts⟩
    cases hscutes : m.hasScutes with
    | true =>
      obtain ⟨root, hroot⟩ := (carapaceRoot_ok_iff hscutes).mp hroot
      refine ⟨iff_of_true ?_ (hasScutes_iff.mp hscutes), fun _ => ⟨root, hroot⟩,
        fun _ => hparameters hscutes, hblocks, hsalts,
        hpmi, hboot, hboth⟩
      obtain ⟨-, ⟨hvalue, -⟩ | ⟨hvalue, -⟩⟩ := hroot
      · simp [hvalue]
      · simp [hvalue]
    | false =>
      have hnone : ¬ m.scutes ≠ [] := fun h => by simp [hasScutes_iff.mpr h] at hscutes
      have hvalue := (carapaceRoot_none_iff hscutes).mp hroot
      exact ⟨iff_of_false (not_not_intro hvalue) hnone, fun h => absurd h hnone,
        fun h => absurd h hnone, hblocks, hsalts, hpmi, hboot, hboth⟩
  · intro h
    refine ⟨htype, hconfig, ?_, fun hscutes => h.parameters (hasScutes_iff.mp hscutes),
      ⟨h.one_pmi, h.one_boot_config, h.boot_config_with_pmi⟩, h.block_size, h.salts⟩
    cases hscutes : m.hasScutes with
    | true => exact (carapaceRoot_ok_iff hscutes).mpr (h.root_spelled (hasScutes_iff.mp hscutes))
    | false =>
      apply (carapaceRoot_none_iff hscutes).mpr
      by_contra hvalue
      simp [hasScutes_iff.mpr (h.root_present.mp hvalue)] at hscutes

/-- One base scute behind a PMI, its root all ones and bare. -/
def legacyImage : Manifest where
  schemaVersion := 2
  mediaType := mediaTypeOciManifestV1
  artifactType := mediaTypePichiArtifactV1
  config := ConfigDescriptor.canonical
  layers := [.pmi ⟨[], 73⟩, .scute ⟨[], 4097, ⟨⟨2, by decide⟩, List.replicate 64 '0'⟩⟩]
  annotations := (OrdMap.empty.insert verityAlgo "sha256".toList).insert carapaceRootAnnotation
    (List.replicate 64 '1')

/-- `validate_iff_wellFormed` at an image in the older spelling. -/
theorem legacyImage_wellFormed : legacyImage.WellFormed :=
  (validate_iff_wellFormed legacyImage rfl (.inl rfl)).mp (by rfl)

end Manifest

end Conglobate.Artifact
