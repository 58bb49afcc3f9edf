import Conglobate.Artifact.Manifest

/- What is written reads back, and what validation accepts.

   Every descriptor is read from the JSON it is written as, and an edited manifest as
   itself with what was replaced (`ofFields_edit`). `validate_eq_ok` lists what
   validation accepts: one condition for each rule, the scutes' own in order
   (`checkScute_eq_ok`), who share only the data-block size (`checkScute_congr`). -/
namespace Conglobate.Artifact

/-! Writing, then reading. -/

theorem Field.distinct :
    mediaType ≠ digest ∧ mediaType ≠ size ∧ mediaType ≠ annotations ∧ mediaType ≠ data ∧
      digest ≠ size ∧
      digest ≠ annotations ∧ digest ≠ data ∧ size ≠ annotations ∧ size ≠ data ∧ data ≠ mediaType ∧
      data ≠ digest ∧ data ≠ size := by decide

theorem asUnsigned_natural (n : UInt64) : (Json.natural n.toNat).asUnsigned 64 = .ok n.toNat :=
  if_pos n.toNat_lt

/-- **A config descriptor reads back.** -/
theorem ConfigDescriptor.ofJson_toJson (c : ConfigDescriptor) : ofJson c.toJson = .ok c := by
  obtain ⟨mediaType, digest, size, data⟩ := c
  rw [ofJson, toJson, Json.asStruct_ofMap, except_ok_bind]
  cases data with
  | none =>
    simp [fields, Json.field, OrdMap.get?_insert, Field.distinct, except_ok_bind,
      Json.asString, dataOfJson, asUnsigned_natural]
  | some data =>
    simp [fields, Json.field, OrdMap.get?_insert, Field.distinct, except_ok_bind,
      Json.asString, dataOfJson, asUnsigned_natural]

theorem ScuteAnnotations.deserializeBlocks_serializeBlocks (blocks : NonZeroU64) :
    deserializeBlocks (serializeBlocks blocks) = .ok blocks := by
  have hparse : (Decimal.parseDigits (Decimal.write blocks.val.toNat)).filter (· < 2 ^ 64) =
      some blocks.val.toNat := by
    rw [Decimal.parseDigits_write, Option.filter_some, if_pos]
    exact decide_eq_true blocks.val.toNat_lt
  rw [deserializeBlocks, serializeBlocks, Json.asString, except_ok_bind, hparse]
  simp only [UInt64.ofNat_toNat]
  exact dif_pos blocks.property

theorem ScuteAnnotations.ofJson_toJson (a : ScuteAnnotations) : ofJson a.toJson = .ok a := by
  have hkeys : scuteDataBlocks ≠ scuteSalt := by decide
  rw [ofJson, toJson, Json.asStruct_ofMap, except_ok_bind]
  simp [Json.field, OrdMap.get?_insert, hkeys, except_ok_bind, deserializeBlocks_serializeBlocks,
    Json.asString]

namespace Layer

theorem fields_mediaType (l : Layer) : l.fields.get? Field.mediaType =
    some (.string l.mediaTypeStr) := by
  simp [fields, OrdMap.get?_insert, Field.distinct]

theorem tagOfJson_ofMap {m : OrdMap Text Json} {tag : Text}
    (h : m.get? Field.mediaType = some (.string tag)) :
    tagOfJson (Json.ofMap m) = .ok tag := by
  show (Json.field (Json.fieldMap m.entries) Field.mediaType >>= Json.asString) = .ok tag
  rw [Json.fieldMap_entries, Json.field_eq_ok.mpr h]
  rfl

theorem blobOfJson_fields (l : Layer) : blobOfJson l.fields = .ok (l.digestStr, l.size) := by
  simp [blobOfJson, fields, Json.field, OrdMap.get?_insert, Field.distinct, except_ok_bind,
    Json.asString, asUnsigned_natural]

theorem plainOfJson_fields (l : Layer) : plainOfJson (Json.ofMap l.fields) =
    .ok (l.digestStr, l.size) := by
  rw [plainOfJson, Json.asStruct_ofMap, except_ok_bind, blobOfJson_fields]

theorem scuteOfJson_fields (l : Layer) (a : ScuteAnnotations) :
    scuteOfJson (Json.ofMap (l.fields.insert Field.annotations a.toJson)) =
      .ok ⟨l.digestStr, l.size, a⟩ := by
  have hblob : blobOfJson (l.fields.insert Field.annotations a.toJson) =
      .ok (l.digestStr, l.size) := by
    rw [← blobOfJson_fields l]
    simp [blobOfJson, Json.field, OrdMap.get?_insert, Field.distinct]
  rw [scuteOfJson, Json.asStruct_ofMap, except_ok_bind, hblob, except_ok_bind,
    Json.field_eq_ok.mpr (by rw [OrdMap.get?_insert, if_pos rfl]), except_ok_bind,
      ScuteAnnotations.ofJson_toJson]
  rfl

theorem mediaTypes_distinct :
    mediaTypePichiScuteV1Zstd ≠ mediaTypePichiScuteV1 ∧ mediaTypePichiPmiV1 ≠
      mediaTypePichiScuteV1 ∧
      mediaTypePichiPmiV1 ≠ mediaTypePichiScuteV1Zstd ∧ mediaTypePichiPmiV1Zstd ≠
        mediaTypePichiScuteV1 ∧
      mediaTypePichiPmiV1Zstd ≠ mediaTypePichiScuteV1Zstd ∧ mediaTypePichiPmiV1Zstd ≠
        mediaTypePichiPmiV1 ∧
      mediaTypePichiBootconfigV1Zstd ≠ mediaTypePichiScuteV1 ∧
      mediaTypePichiBootconfigV1Zstd ≠ mediaTypePichiScuteV1Zstd ∧
      mediaTypePichiBootconfigV1Zstd ≠ mediaTypePichiPmiV1 ∧
      mediaTypePichiBootconfigV1Zstd ≠ mediaTypePichiPmiV1Zstd := by decide

/-- **A layer reads back.** -/
theorem ofJson_toJson (l : Layer) : ofJson l.toJson = .ok l := by
  have htag : tagOfJson l.toJson = .ok l.mediaTypeStr := by
    unfold toJson
    split
    · refine tagOfJson_ofMap ?_
      rw [OrdMap.get?_insert, if_neg Field.distinct.2.2.1, fields_mediaType]
    · exact tagOfJson_ofMap l.fields_mediaType
  rw [ofJson, htag, except_ok_bind]
  cases l with
  | scute d =>
    rw [mediaTypeStr, if_pos rfl, toJson]
    exact congrArg (Functor.map scute) (scuteOfJson_fields (.scute d) d.annotations)
  | scuteZstd d =>
    rw [mediaTypeStr, if_neg mediaTypes_distinct.1, if_pos rfl, toJson]
    exact congrArg (Functor.map scuteZstd) (scuteOfJson_fields (.scuteZstd d) d.annotations)
  | pmi d =>
    simp only [mediaTypeStr, mediaTypes_distinct, if_false, if_true, toJson, scute?,
      plainOfJson_fields]
    rfl
  | pmiZstd d =>
    simp only [mediaTypeStr, mediaTypes_distinct, if_false, if_true, toJson, scute?,
      plainOfJson_fields]
    rfl
  | bootConfig d =>
    simp only [mediaTypeStr, mediaTypes_distinct, if_false, if_true, toJson, scute?,
      plainOfJson_fields]
    rfl

end Layer

/-! An edited manifest. -/

namespace Manifest

/-- **A manifest whose config, layers and annotations were replaced** reads as itself
    with the new ones. -/
theorem ofFields_edit {m n : OrdMap Text Json} {M : Manifest} {config layers annotations : Json}
    {c : ConfigDescriptor} {ls : List Layer} {t : OrdMap Text Text} (h : ofFields m = .ok M)
    (hversion : n.get? Field.schemaVersion = m.get? Field.schemaVersion)
    (hmedia : n.get? Field.mediaType = m.get? Field.mediaType)
    (htype : n.get? Field.artifactType = m.get? Field.artifactType)
    (hconfig : n.get? Field.config = some config) (hc : ConfigDescriptor.ofJson config = .ok c)
    (hlayers : n.get? Field.layers = some layers) (hls : layersOfJson layers = .ok ls)
    (hannotations : n.get? Field.annotations = some annotations)
    (ht : annotations.asStrings = .ok t) :
    ofFields n = .ok { M with config := c, layers := ls, annotations := t } := by
  obtain ⟨j1, h1, h⟩ := except_bind_eq_ok.mp h
  obtain ⟨version, hv, h⟩ := except_bind_eq_ok.mp h
  obtain ⟨j2, h2, h⟩ := except_bind_eq_ok.mp h
  obtain ⟨media, hm, h⟩ := except_bind_eq_ok.mp h
  obtain ⟨j3, h3, h⟩ := except_bind_eq_ok.mp h
  obtain ⟨type, htyped, h⟩ := except_bind_eq_ok.mp h
  obtain ⟨j4, -, h⟩ := except_bind_eq_ok.mp h
  obtain ⟨c', -, h⟩ := except_bind_eq_ok.mp h
  obtain ⟨j5, -, h⟩ := except_bind_eq_ok.mp h
  obtain ⟨ls', -, h⟩ := except_bind_eq_ok.mp h
  obtain ⟨t', -, h⟩ := except_bind_eq_ok.mp h
  cases h
  have hannotated : annotationsOfJson (n.get? Field.annotations) = .ok t := by
    rw [hannotations]
    exact ht
  rw [Json.field_eq_ok] at h1 h2 h3
  rw [ofFields, Json.field_eq_ok.mpr (hversion.trans h1), except_ok_bind, hv, except_ok_bind,
    Json.field_eq_ok.mpr (hmedia.trans h2), except_ok_bind, hm, except_ok_bind,
      Json.field_eq_ok.mpr (htype.trans h3),
    except_ok_bind, htyped, except_ok_bind, Json.field_eq_ok.mpr hconfig, except_ok_bind, hc,
      except_ok_bind,
    Json.field_eq_ok.mpr hlayers, except_ok_bind, hls, except_ok_bind, hannotated, except_ok_bind]

/-- The parts of a manifest that was read. -/
theorem ofFields_parts {m : OrdMap Text Json} {M : Manifest} (h : ofFields m = .ok M) :
    (∃ config, m.get? Field.config = some config ∧ ConfigDescriptor.ofJson config = .ok M.config) ∧
      (∃ layers, m.get? Field.layers = some layers ∧ layersOfJson layers = .ok M.layers) ∧
      annotationsOfJson (m.get? Field.annotations) = .ok M.annotations := by
  obtain ⟨j1, -, h⟩ := except_bind_eq_ok.mp h
  obtain ⟨version, -, h⟩ := except_bind_eq_ok.mp h
  obtain ⟨j2, -, h⟩ := except_bind_eq_ok.mp h
  obtain ⟨media, -, h⟩ := except_bind_eq_ok.mp h
  obtain ⟨j3, -, h⟩ := except_bind_eq_ok.mp h
  obtain ⟨type, -, h⟩ := except_bind_eq_ok.mp h
  obtain ⟨config, hconfig, h⟩ := except_bind_eq_ok.mp h
  obtain ⟨c, hc, h⟩ := except_bind_eq_ok.mp h
  obtain ⟨layers, hlayers, h⟩ := except_bind_eq_ok.mp h
  obtain ⟨ls, hls, h⟩ := except_bind_eq_ok.mp h
  obtain ⟨t, ht, h⟩ := except_bind_eq_ok.mp h
  cases h
  exact ⟨⟨config, Json.field_eq_ok.mp hconfig, hc⟩, ⟨layers, Json.field_eq_ok.mp hlayers, hls⟩, ht⟩

end Manifest

/-! What validation accepts. -/

namespace Manifest

/-- **The rules of validation**, each on its own. -/
theorem validate_eq_ok {m : Manifest} :
    m.validate = .ok () ↔ m.artifactType = mediaTypePichiArtifactV1 ∧
      (m.config = ConfigDescriptor.canonical ∨ m.config.mediaType = mediaTypePichiConfigV1) ∧
      (∃ root, m.carapaceRoot = .ok root) ∧ m.checkParameters = .ok () ∧ m.checkCounts = .ok () ∧
      ∃ first, m.checkScutes = .ok first := by
  have htype : m.checkArtifactType = .ok () ↔ m.artifactType = mediaTypePichiArtifactV1 := by
    rw [checkArtifactType]
    split <;> simp [*]
  have hconfig : checkConfig m.config = .ok () ↔
      m.config = ConfigDescriptor.canonical ∨ m.config.mediaType = mediaTypePichiConfigV1 := by
    rw [checkConfig]
    split <;> simp [*]
  rw [← htype, ← hconfig, validate]
  constructor
  · intro h
    obtain ⟨_, h1, h⟩ := except_bind_eq_ok.mp h
    obtain ⟨_, h2, h⟩ := except_bind_eq_ok.mp h
    obtain ⟨root, h3, h⟩ := except_bind_eq_ok.mp h
    obtain ⟨_, h4, h⟩ := except_bind_eq_ok.mp h
    obtain ⟨_, h5, h⟩ := except_bind_eq_ok.mp h
    obtain ⟨first, h6, -⟩ := except_bind_eq_ok.mp h
    exact ⟨h1, h2, ⟨root, h3⟩, h4, h5, first, h6⟩
  · rintro ⟨h1, h2, ⟨root, h3⟩, h4, h5, first, h6⟩
    rw [h1, except_ok_bind, h2, except_ok_bind, h3, except_ok_bind, h4, except_ok_bind, h5,
      except_ok_bind, h6]
    rfl

theorem checkCounts_eq_ok {m : Manifest} :
    m.checkCounts = .ok () ↔ m.pmiCount ≤ 1 ∧ m.bootConfigCount ≤ 1 ∧
      (m.bootConfigCount ≠ 0 → m.pmiCount ≠ 0) := by
  rw [checkCounts]
  split
  · exact iff_of_false (fun h => by cases h) (by omega)
  split
  · exact iff_of_false (fun h => by cases h) (by omega)
  split
  · exact iff_of_false (fun h => by cases h) (by omega)
  · exact iff_of_true rfl (by omega)

/-! The scutes' rules. -/

/-- `matches!(layer, Scute(_) | ScuteZstd(_))`. -/
def isScute (l : Layer) : Bool := l.scute?.isSome

theorem checkScute_other {t : OrdMap Text Text} {first : Bool} {l : Layer} (h : isScute l = false) :
    checkScute t first l = .ok first := by
  rw [checkScute, Option.isSome_eq_false_iff.mp h |> Option.isNone_iff_eq_none.mp]

/-- **One scute's rules**: its block count fits and is its own, and its salt starts
    with a parent that is zero exactly at the base. -/
theorem checkScute_eq_ok {t : OrdMap Text Text} {first r : Bool} {l : Layer} {d : ScuteDescriptor}
    (h : l.scute? = some d) :
    checkScute t first l = .ok r ↔ r = false ∧ ∃ size parent, checkBlockSize t = .ok size ∧
      checkBlocks size l d = .ok () ∧ saltParent d.annotations.salt = .ok parent ∧
        first = parent.all (· == 0) := by
  rw [checkScute, h]
  simp only [except_bind_eq_ok]
  constructor
  · rintro ⟨size, hsize, _, hblocks, parent, hparent, hlast⟩
    split at hlast
    · cases hlast
    · rename_i heq
      cases hlast
      exact ⟨rfl, size, parent, hsize, hblocks, hparent, by simpa using heq⟩
  · rintro ⟨rfl, size, parent, hsize, hblocks, hparent, hfirst⟩
    exact ⟨size, hsize, (), hblocks, parent, hparent, if_neg (by simp [hfirst])⟩

theorem carapaceRoot_none {m : Manifest} (hscutes : m.hasScutes = false)
    (hvalue : m.annotations.get? carapaceRootAnnotation = none) : m.carapaceRoot = .ok none := by
  rw [carapaceRoot, hvalue]
  simp [hscutes]

/-- A commitment is one of scutes, and not zero. -/
theorem carapaceRoot_some {m : Manifest} {root : Hash} (h : m.carapaceRoot = .ok (some root)) :
    m.hasScutes = true ∧ root ≠ zeroHash := by
  rw [carapaceRoot] at h
  split at h
  · split at h <;> cases h
  · split at h
    · cases h
    · split at h
      · cases h
      · split at h
        · rename_i hchecks
          cases h
          rw [Bool.and_eq_true, Bool.and_eq_true] at hchecks
          exact ⟨hchecks.1.1, by simpa using hchecks.2⟩
        · cases h

end Manifest

end Conglobate.Artifact
