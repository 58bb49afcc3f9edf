import Conglobate.Output.Contained

/- The build binding of a staged layout (`output/assembly.rs`).

   What is proved, of every image that was assembled:
     1. binding replaces the build's annotations and nothing else: the ones of this
        build are there, no inherited one is, and every other annotation, the config,
        the layers and the scute graph stay (`bindBuild_binds`);
     2. it is refused for the build's own record or by the files, and for nothing
        else: "build binding changed the scute graph" never comes up;
     3. where no two contents of the build have one hash, the bound layout holds its
        manifest, its config and its layers, and nothing else (`self_contained`). A
        manifest that is bound again to the same bytes is not removed, a superseded one
        is.

   Correspondence (Rust ↔ Lean):
     `annotations` of `bind_build`       ↔ `bindAnnotations`, read as `bindTexts`
     `manifest` of `bind_build`          ↔ `reboundManifest`
     what both `remove_file` take away   ↔ `withdrawn` -/
namespace Conglobate.Output

open Artifact Content Storage Pipeline ContentStore

/-! The annotations. -/

/-- The annotations a build leaves, as texts. -/
def bindTexts (t : OrdMap Text Text) (entries : List (Text × Text)) : OrdMap Text Text :=
  entries.foldl (fun m e => m.insert (buildPrefix ++ e.1) e.2)
    (t.filter (fun e => !e.1.startsWith buildPrefix))

theorem bindAnnotations_texts {a : OrdMap Text Json} {t : OrdMap Text Text} (h : Json.StringMap a t)
    (entries : List (Text × Text)) : Json.StringMap (bindAnnotations a entries)
    (bindTexts t entries) := by
  have hloop : ∀ (m : OrdMap Text Json) (u : OrdMap Text Text), Json.StringMap m u →
      Json.StringMap (entries.foldl (fun m e => m.insert (buildPrefix ++ e.1) (Json.string e.2)) m)
        (entries.foldl (fun m e => m.insert (buildPrefix ++ e.1) e.2) u) := by
    induction entries with
    | nil => exact fun _ _ h => h
    | cons e rest ih => exact fun m u hm => ih _ _ (hm.insert _ _)
  exact hloop _ _ (h.filter (fun k => !k.startsWith buildPrefix))

theorem startsWith_append (p t : Text) : Text.startsWith (p ++ t) p = true := by
  rw [Text.startsWith, List.take_left, beq_self_eq_true]

/-- What a build records, and what it leaves. -/
structure Binds (entries : List (Text × Text)) (t u : OrdMap Text Text) : Prop where
  recorded : ∀ e ∈ entries, u.get? (buildPrefix ++ e.1) = some e.2
  /-- Nothing of another build. -/
  only : ∀ key, key.startsWith buildPrefix = true → (∀ e ∈ entries, buildPrefix ++ e.1 ≠ key) →
    u.get? key = none
  kept : ∀ key, key.startsWith buildPrefix = false → u.get? key = t.get? key

/-- **Distinct entries are all recorded**, on nothing of another build. -/
theorem bindTexts_binds {entries : List (Text × Text)} (hdistinct : (entries.map Prod.fst).Nodup)
    (t : OrdMap Text Text) :
    Binds entries t (bindTexts t entries) := by
  -- the entries behind leave those in front alone
  have hloop : ∀ (l : List (Text × Text)) (m : OrdMap Text Text) (key : Text),
      (∀ e ∈ l, buildPrefix ++ e.1 ≠ key) →
      (l.foldl (fun m e => m.insert (buildPrefix ++ e.1) e.2) m).get? key = m.get? key := by
    intro l
    induction l with
    | nil => exact fun _ _ _ => rfl
    | cons e rest ih =>
      intro m key hother
      rw [List.foldl_cons, ih _ _ (fun e he => hother e (List.mem_cons_of_mem _ he)),
        OrdMap.get?_insert, if_neg (hother e List.mem_cons_self).symm]
  have hfiltered : ∀ key, (t.filter (fun e => !e.1.startsWith buildPrefix)).get? key =
      if (!key.startsWith buildPrefix) = true then t.get? key else none :=
    fun key => OrdMap.get?_filter t (fun k : Text => !k.startsWith buildPrefix) key
  refine ⟨fun e he => ?_, fun key hkey hother => ?_, fun key hkey => ?_⟩
  · obtain ⟨front, rest, rfl⟩ := List.append_of_mem he
    rw [List.map_append, List.map_cons, List.nodup_append] at hdistinct
    have hbehind := (List.nodup_cons.mp hdistinct.2.1).1
    rw [bindTexts, List.foldl_append, List.foldl_cons, hloop, OrdMap.get?_insert, if_pos rfl]
    intro e' he' hsame
    apply hbehind
    rw [← List.append_cancel_left hsame]
    exact List.mem_map_of_mem he'
  · rw [bindTexts, hloop _ _ _ hother, hfiltered, hkey]
    rfl
  · rw [bindTexts, hloop, hfiltered, hkey]
    · rfl
    · intro e he hsame
      rw [← hsame, startsWith_append] at hkey
      cases hkey

/-- The keys a build may record. -/
def buildKeys : List Text :=
  ["commit".toList, "context".toList, "plan".toList, "lock".toList, "bootstrapped".toList,
    "location".toList]

theorem buildAnnotations_distinct {b : BuildRecord} {entries : List (Text × Text)}
    (h : buildAnnotations b = .ok entries) :
    (entries.map Prod.fst).Nodup := by
  have hkeys : buildKeys.Nodup := by decide
  refine hkeys.sublist ?_
  obtain ⟨algorithm, -, h⟩ := except_bind_eq_ok.mp h
  obtain ⟨context, -, h⟩ := except_bind_eq_ok.mp h
  obtain ⟨plan, -, h⟩ := except_bind_eq_ok.mp h
  obtain ⟨lock, hlock, h⟩ := except_bind_eq_ok.mp h
  cases h
  have hlocked : (lock.map Prod.fst).Sublist ["lock".toList] := by
    cases hpath : b.lock with
    | none =>
      rw [hpath] at hlock
      cases hlock
      exact List.nil_sublist _
    | some path =>
      rw [hpath] at hlock
      obtain ⟨path, -, hlock⟩ := except_bind_eq_ok.mp hlock
      cases hlock
      exact List.Sublist.refl _
  have hmarked : ((if b.bootstrapped then [("bootstrapped".toList, "true".toList)]
      else []).map Prod.fst).Sublist
      ["bootstrapped".toList] := by
    split
    · exact List.Sublist.refl _
    · exact List.nil_sublist _
  have hlocated : ((b.location.toList.map (fun location =>
      ("location".toList, location))).map Prod.fst).Sublist
      ["location".toList] := by
    cases b.location with
    | none => exact List.nil_sublist _
    | some location => exact List.Sublist.refl _
  rw [List.map_append, List.map_append, List.map_append]
  have hfirst := List.Sublist.refl ["commit".toList, "context".toList, "plan".toList]
  exact ((hfirst.append hlocked).append hmarked).append hlocated

/-! The manifest. -/

/-- No annotation a chain is read by is one of a build. -/
theorem chain_keys : ∀ key ∈ [ carapaceRootAnnotation, verityAlgo, verityDataBlockSize,
    verityHashBlockSize, verityVersion,
    verityHashType], key.startsWith buildPrefix = false := by decide

section Rules
variable {m : Manifest} {u : OrdMap Text Text}

/-- **Validation does not read a build's annotations.** -/
theorem validate_rebound
    (hkept : ∀ key, key.startsWith buildPrefix = false → u.get? key = m.annotations.get? key) :
    { m with annotations := u }.validate = m.validate ∧ { m with annotations := u }.carapaceRoot =
      m.carapaceRoot := by
  have hchain : ∀ key ∈ [ carapaceRootAnnotation, verityAlgo, verityDataBlockSize,
      verityHashBlockSize, verityVersion,
      verityHashType], u.get? key = m.annotations.get? key :=
        fun key hkey => hkept key (chain_keys key hkey)
  have hroot : { m with annotations := u }.carapaceRoot = m.carapaceRoot := by
    rw [Manifest.carapaceRoot, Manifest.carapaceRoot, hchain _ (by decide), hchain _ (by decide)]
    rfl
  have hparameter : ∀ key ∈ [verityHashBlockSize, verityVersion, verityHashType],
      Manifest.checkParameter u key = Manifest.checkParameter m.annotations key := by
    intro key hkey
    have hmem : key ∈ [ carapaceRootAnnotation, verityAlgo, verityDataBlockSize,
        verityHashBlockSize, verityVersion, verityHashType] := by
      simp only [List.mem_cons, List.not_mem_nil, or_false] at hkey ⊢
      exact .inr (.inr (.inr hkey))
    rw [Manifest.checkParameter, Manifest.checkParameter, hchain key hmem]
  have hparameters : { m with annotations := u }.checkParameters = m.checkParameters := by
    rw [Manifest.checkParameters, Manifest.checkParameters, hparameter verityHashBlockSize
      (by decide), hparameter verityVersion (by decide), hparameter verityHashType (by decide)]
    rfl
  have hblock : Manifest.checkBlockSize u = Manifest.checkBlockSize m.annotations := by
    rw [Manifest.checkBlockSize, Manifest.checkBlockSize, Manifest.dataBlockSize,
      Manifest.dataBlockSize, hchain verityDataBlockSize (by decide)]
  have hscutes : { m with annotations := u }.checkScutes = m.checkScutes := by
    rw [Manifest.checkScutes, Manifest.checkScutes]
    refine Flow.foldlM_congr (fun first l _ => ?_)
    rw [Manifest.checkScute, Manifest.checkScute, hblock]
  refine ⟨?_, hroot⟩
  rw [Manifest.validate, Manifest.validate, hroot, hparameters, hscutes]
  rfl

end Rules

/-- The manifest with its annotations replaced. -/
def reboundManifest (fields inherited : OrdMap Text Json) (entries : List (Text × Text)) : Json :=
  Json.ofMap (fields.insert Field.annotations (Json.ofMap (bindAnnotations inherited entries)))

/-- **A checked image stays one** when a build is bound to it. -/
theorem rebound_checked (image : CheckedImage) {fields : List (Text × Json)}
    (hobject : image.json = .object fields) {entries : List (Text × Text)}
    (hdistinct : (entries.map Prod.fst).Nodup) :
    ∃ inherited, annotationsOf (Json.fieldMap fields) = .ok inherited ∧ ∃ bound : CheckedImage,
      bound.json = reboundManifest (Json.fieldMap fields) inherited entries ∧
        bound.root = image.root ∧
        Binds entries image.manifest.annotations bound.manifest.annotations ∧
        bound.manifest = { image.manifest with annotations := bound.manifest.annotations } := by
  have hdecoded := image_fields hobject
  obtain ⟨⟨config, hconfig, hc⟩, ⟨layers, hlayers, hls⟩, hannotations⟩ :=
    Manifest.ofFields_parts hdecoded
  obtain ⟨inherited, hinherited, hstrings⟩ := annotationsOf_decoded hannotations
  have hbinds := bindTexts_binds hdistinct image.manifest.annotations
  have htexts := Json.asStrings_ofMap.mpr (bindAnnotations_texts hstrings entries)
  have hkept := Field.manifest_distinct
  have hrules := validate_rebound hbinds.kept
  refine ⟨inherited, hinherited, {
    json := reboundManifest (Json.fieldMap fields) inherited entries
    unread := none
    manifest := { image.manifest with annotations := bindTexts image.manifest.annotations entries }
    root := image.root
    decoded := ?_
    valid := hrules.1.trans image.valid
    envelope := image.envelope
    committed := hrules.2.trans image.committed
    configDigest := image.configDigest
    layerDigests := image.layerDigests }, rfl, rfl, hbinds, rfl⟩
  rw [reboundManifest, Manifest.ofJson, Json.asStruct_ofMap, except_ok_bind]
  refine Manifest.ofFields_edit hdecoded ?_ ?_ ?_ ?_ hc ?_ hls ?_ htexts
  · rw [OrdMap.get?_insert, if_neg hkept.2.2.2.2.1]
  · rw [OrdMap.get?_insert, if_neg hkept.2.2.2.2.2.2.2.1]
  · rw [OrdMap.get?_insert, if_neg hkept.2.2.2.2.2.2.2.2.2.2.1]
  · rw [OrdMap.get?_insert, if_neg hkept.1, hconfig]
  · rw [OrdMap.get?_insert, if_neg hkept.2.2.1.symm, hlayers]
  · rw [OrdMap.get?_insert, if_pos rfl]

/-! The layout. -/

/-- Blobs that are exactly these contents, with an index that names the image. -/
structure LaidOut (w : Files) (a : HostArchitecture) (contents : Set Bytes) (r : AssembledImage) :
    Prop where
  blobs : Holds (blobName w) r.staging.blobs contents
  index : r.staging.index = some (stagedIndex w a r.image.json.toVec).toJson.toVec
  layout : r.staging.layout = some layoutMarker.toVec
  digest : r.image.digest = w.digest r.image.json.toVec
  decoded : Manifest.ofJson r.image.json = .ok r.image.manifest

/-- The bytes of the index of a manifest. -/
def indexBytes (w : Files) (a : HostArchitecture) (manifest : Json) :
    Bytes := (stagedIndex w a manifest.toVec).toJson.toVec

section Layout
variable {w : Files} {a : HostArchitecture} {s : Staging} {manifest : Json} {r : AssembledImage}

theorem removeBlob_eq_ok {digest : Digest} {s' : Staging} (h : removeBlob w s digest = .ok s') :
    s' = { s with blobs := s.blobs.erase digest.hex } := by
  rw [removeBlob] at h
  split at h
  · obtain ⟨_, -, h⟩ := except_bind_eq_ok.mp h
    exact (Except.ok.inj h).symm
  · cases h

/-- What was verified has digests. -/
theorem verifyMetadata_digests {blobs : Blobs} {image : ResolvedImage}
    (h : verifyMetadata w.sha256 blobs image = .ok ()) :
    (image.manifest.config.isEmpty = false → ∃ d, Digest.fromStr image.manifest.config.digest =
      .ok d) ∧
      ∀ l ∈ image.manifest.layers, l.scute? = none → ∃ d, Digest.fromStr l.digestStr = .ok d := by
  obtain ⟨_, hconfig, hlayers⟩ := except_bind_eq_ok.mp h
  refine ⟨fun hother => ?_, fun l hl hscute => ?_⟩
  · rw [verifyConfig, hother] at hconfig
    obtain ⟨d, hd, -⟩ := except_bind_eq_ok.mp hconfig
    exact ⟨d, except_mapError_eq_ok.mp hd⟩
  · have hlayer := except_forM_eq_ok.mp hlayers l hl
    rw [verifyLayer, hscute] at hlayer
    obtain ⟨d, hd, -⟩ := except_bind_eq_ok.mp hlayer
    exact ⟨d, except_mapError_eq_ok.mp hd⟩

/-- **A layout that was read back**: its image is a checked one, and its blobs have the
    manifest and not the lookup index. -/
theorem resolveStaging_eq_ok (h : resolveStaging w a s manifest = .ok r) :
    (∃ image : CheckedImage, image.json = manifest ∧
      r.image = ⟨image.json, w.digest image.json.toVec, image.manifest, image.root⟩) ∧
      (∀ contents, Holds (blobName w) s.blobs contents →
        Set.InjOn w.sha256 (insert (indexBytes w a manifest) (insert manifest.toVec contents)) →
        LaidOut w a (insert (indexBytes w a manifest) (insert manifest.toVec contents) \
          {indexBytes w a manifest}) r) := by
  obtain ⟨stored, hstored, h⟩ := except_bind_eq_ok.mp h
  obtain ⟨indexed, hindexed, h⟩ := except_bind_eq_ok.mp h
  obtain ⟨_, -, h⟩ := except_bind_eq_ok.mp h
  obtain ⟨_, -, h⟩ := except_bind_eq_ok.mp h
  obtain ⟨image, himage, h⟩ := except_bind_eq_ok.mp h
  obtain ⟨_, hverified, h⟩ := except_bind_eq_ok.mp h
  obtain ⟨staging, hstaging, h⟩ := except_bind_eq_ok.mp h
  cases h
  -- the image is the manifest's, under the digest the index has
  obtain ⟨_, -, himage⟩ := except_bind_eq_ok.mp (except_mapError_eq_ok.mp himage)
  rw [selectManifest_staged, except_ok_bind, parseDigest, Digest.fromStr_toString] at himage
  obtain ⟨digest, hdigest, himage⟩ := except_bind_eq_ok.mp himage
  cases hdigest
  obtain ⟨_, -, himage⟩ := except_bind_eq_ok.mp himage
  obtain ⟨read, hread, himage⟩ := except_bind_eq_ok.mp himage
  obtain ⟨_, hvalid, himage⟩ := except_bind_eq_ok.mp himage
  split at himage
  · cases himage
  rename_i henvelope
  obtain ⟨root, hroot, himage⟩ := except_bind_eq_ok.mp himage
  cases himage
  have hread := except_mapError_eq_ok.mp hread
  rw [not_or, not_not, not_not] at henvelope
  obtain ⟨hconfig, hlayers⟩ := verifyMetadata_digests (except_mapError_eq_ok.mp hverified)
  refine ⟨⟨{
    json := manifest
    unread := none
    manifest := read
    root := root
    decoded := hread
    valid := except_mapError_eq_ok.mp hvalid
    envelope := henvelope
    committed := except_mapError_eq_ok.mp hroot
    configDigest := hconfig
    layerDigests := hlayers }, rfl, rfl⟩, fun contents hcontents hinjective => ?_⟩
  rw [removeBlob_eq_ok hstaging, writeBlob_eq_ok hindexed, writeBlob_eq_ok hstored]
  refine ⟨?_, rfl, rfl, rfl, hread⟩
  have hname := blobName_injOn hinjective
  have hwritten := (hcontents.insert (hname.mono (Set.subset_insert _ _))).insert hname
  have herased := hwritten.erase (b := indexBytes w a manifest) (by rwa [Set.insert_idem])
  exact herased

end Layout

/-! Binding. -/

section Binding
variable {w : Files} {a : HostArchitecture} {requirements : Option Bytes} {selection : StageOutput}
    {b : BuildRecord} {first bound : AssembledImage}

/-- An assembled image is a checked one whose manifest is an object with annotations. -/
theorem inStaging_checked (h : inStaging w a requirements selection = .ok first) :
    ∃ image : CheckedImage, first.image = ⟨image.json, w.digest image.json.toVec, image.manifest,
      image.root⟩ ∧
      ∃ assembly, assemble w requirements selection = .ok assembly ∧
        image.json = Json.ofMap assembly.fields ∧
        resolveStaging w a assembly.staging assembly.manifest = .ok first := by
  obtain ⟨assembly, hassembly, h⟩ := except_bind_eq_ok.mp h
  obtain ⟨⟨image, hjson, himage⟩, -⟩ := resolveStaging_eq_ok h
  exact ⟨image, himage, assembly, hassembly, hjson, h⟩

/-- Without its annotations a build is refused for them: those it replaces are read. -/
theorem bindBuild_refused (hfirst : inStaging w a requirements selection = .ok first)
    {e : AssemblyError} (hentries : buildAnnotations b = .error e) :
    bindBuild w a b first = .error e := by
  obtain ⟨image, himage, assembly, -, hjson, -⟩ := inStaging_checked hfirst
  have hfields : objectFields first.image.json = .ok (Json.fieldMap assembly.fields.entries) := by
    rw [himage, hjson]
    rfl
  have hnone : (([] : List (Text × Text)).map Prod.fst).Nodup := List.nodup_nil
  obtain ⟨inherited, hinherited, -⟩ := rebound_checked image hjson hnone
  rw [bindBuild, hfields, except_ok_bind, hinherited, hentries]
  rfl

/-- With its annotations a build fails where the files do, and replaces them alone. -/
theorem bindBuild_entries (hfirst : inStaging w a requirements selection = .ok first)
    {entries : List (Text × Text)} (hentries : buildAnnotations b = .ok entries) :
    Ends Io (fun bound =>
      Binds entries first.image.manifest.annotations bound.image.manifest.annotations ∧
        bound.image.manifest =
          { first.image.manifest with annotations := bound.image.manifest.annotations } ∧
        bound.image.root = first.image.root ∧ bound.image.manifest.validate = .ok ())
      (bindBuild w a b first) := by
  obtain ⟨image, himage, assembly, -, hjson, -⟩ := inStaging_checked hfirst
  have hfields : objectFields first.image.json = .ok (Json.fieldMap assembly.fields.entries) := by
    rw [himage, hjson]
    rfl
  obtain ⟨inherited, hinherited, after, hafter, hroot, hbinds, hmanifest⟩ :=
    rebound_checked image hjson (buildAnnotations_distinct hentries)
  rw [bindBuild, hfields, except_ok_bind, hentries, hinherited, except_ok_bind, except_ok_bind]
  change Ends _ _ (resolveStaging w a first.staging
    (reboundManifest (Json.fieldMap assembly.fields.entries) inherited entries)
    >>= _)
  rw [← hafter]
  refine Ends.bind (resolveStaging_ends first.staging after) ?_
  intro resolved hresolved
  have hsame : first.image.root = resolved.image.root := by rw [himage, hresolved, hroot]
  have hbound : ∀ r : AssembledImage, r.image = resolved.image →
      Binds entries first.image.manifest.annotations r.image.manifest.annotations ∧
        r.image.manifest =
          { first.image.manifest with annotations := r.image.manifest.annotations } ∧
        r.image.root = first.image.root ∧ r.image.manifest.validate = .ok () := by
    intro r hr
    rw [hr, hresolved, himage]
    exact ⟨hbinds, hmanifest, hroot, after.valid⟩
  rw [if_neg (fun hne => hne hsame)]
  split
  · exact Ends.bind (Ends.of_fails removeBlob_fails) (fun staging _ => Ends.ok (hbound _ rfl))
  · exact Ends.ok (hbound _ rfl)

/-- A bound manifest is the assembled one up to its annotations. -/
theorem bindBuild_manifest (hfirst : inStaging w a requirements selection = .ok first)
    (hbound : bindBuild w a b first = .ok bound) : bound.image.manifest =
      { first.image.manifest with annotations := bound.image.manifest.annotations } := by
  cases hentries : buildAnnotations b with
  | error e =>
    rw [bindBuild_refused hfirst hentries] at hbound
    cases hbound
  | ok entries => exact ((bindBuild_entries hfirst hentries).2 bound hbound).2.1

/-- **Binding a build** to an assembled image replaces the annotations of a build, and
    leaves every other one, the config, the layers and the root. It is refused for the
    record it cannot write and where the files fail, and for nothing else. -/
theorem bindBuild_binds (w : Files) (a : HostArchitecture) (requirements : Option Bytes)
    (selection : StageOutput) (b : BuildRecord) {first : AssembledImage}
    (hfirst : inStaging w a requirements selection = .ok first) :
    (∀ e, bindBuild w a b first = .error e → Io e ∨ buildAnnotations b = .error e) ∧
      ∀ bound, bindBuild w a b first = .ok bound → ∃ entries, buildAnnotations b = .ok entries ∧
        Binds entries first.image.manifest.annotations bound.image.manifest.annotations ∧
        bound.image.manifest =
          { first.image.manifest with annotations := bound.image.manifest.annotations } ∧
        bound.image.root = first.image.root ∧ bound.image.manifest.validate = .ok () := by
  cases hentries : buildAnnotations b with
  | error e =>
    rw [bindBuild_refused hfirst hentries]
    refine ⟨fun e' he => .inr ?_, fun bound hbound => ?_⟩
    · injection he with he
      rw [he]
    · cases hbound
  | ok entries =>
    obtain ⟨hfails, hbinds⟩ := bindBuild_entries hfirst hentries
    exact ⟨fun e he => .inl (hfails e he), fun bound hbound => ⟨entries, rfl, hbinds bound hbound⟩⟩

/-- What a build writes and takes away again: both lookup indexes, and a manifest that
    was superseded. -/
def withdrawn (w : Files) (a : HostArchitecture) (first bound : AssembledImage) : List Bytes :=
  [indexBytes w a first.image.json, indexBytes w a bound.image.json] ++
    if first.image.digest ≠ bound.image.digest then [first.image.json.toVec] else []

/-- What remains of two manifests and their lookup indexes. -/
theorem contents_replaced {manifest manifest' index index' : Bytes} {contents : Set Bytes}
    {superseded : Prop} [Decidable superseded] (hindex : index ∉ insert manifest contents)
    (hindex' : index' ∉ insert manifest' (insert manifest contents))
    (hchanged : superseded → manifest ∉ insert manifest' contents)
    (hsame : ¬superseded → manifest = manifest') :
    ((insert index' (insert manifest' (insert index (insert manifest contents) \ {index})) \
      {index'}) \
      if superseded then {manifest} else ∅) = insert manifest' contents := by
  rw [Set.insert_sdiff_self_of_notMem hindex, Set.insert_sdiff_self_of_notMem hindex']
  split
  · rename_i h
    rw [Set.insert_comm, Set.insert_sdiff_self_of_notMem (hchanged h)]
  · rename_i h
    rw [Set.sdiff_empty, hsame h, Set.insert_idem]

theorem describing_content {refs : List (Text × UInt64)} {contents : List Bytes}
    (h : List.Forall₂ (Describing w) refs contents) {bytes : Bytes} (hmem : bytes ∈ contents) :
    ∃ ref ∈ refs, Describing w ref bytes := by
  induction h with
  | nil => cases hmem
  | @cons ref content refs contents href hrest ih =>
    rcases List.mem_cons.mp hmem with rfl | hmem
    · exact ⟨ref, List.mem_cons_self, href⟩
    · obtain ⟨other, hother, hdescribing⟩ := ih hmem
      exact ⟨other, List.mem_cons_of_mem _ hother, hdescribing⟩

/-- What a binding did that succeeded: another layout on the old one, whose manifest is
    removed when it is superseded. -/
theorem bindBuild_eq_ok (h : bindBuild w a b first = .ok bound) :
    ∃ fields inherited entries resolved,
      resolveStaging w a first.staging (reboundManifest fields inherited entries) = .ok resolved ∧
        bound.image = resolved.image ∧
        if first.image.digest ≠ w.digest (reboundManifest fields inherited entries).toVec then
          removeBlob w resolved.staging first.image.digest = .ok bound.staging
        else bound.staging = resolved.staging := by
  obtain ⟨fields, -, h⟩ := except_bind_eq_ok.mp h
  obtain ⟨inherited, -, h⟩ := except_bind_eq_ok.mp h
  obtain ⟨entries, -, h⟩ := except_bind_eq_ok.mp h
  obtain ⟨resolved, hresolved, h⟩ := except_bind_eq_ok.mp h
  refine ⟨fields, inherited, entries, resolved, hresolved, ?_⟩
  change (if first.image.root ≠ resolved.image.root then _
    else if first.image.digest ≠ w.digest (reboundManifest fields inherited entries).toVec then
      _
    else
      _) = _ at h
  split at h
  · cases h
  split at h
  · rename_i hsuperseded
    obtain ⟨staging, hstaging, h⟩ := except_bind_eq_ok.mp h
    rw [if_pos hsuperseded, ← Except.ok.inj h]
    exact ⟨rfl, hstaging⟩
  · rename_i hsame
    rw [if_neg hsame, ← Except.ok.inj h]
    exact ⟨rfl, rfl⟩

/-- **What binding leaves of a layout**: the new manifest instead of the old one. -/
theorem bindBuild_laid {all : Set Bytes} (hinjective : Set.InjOn w.sha256 all)
    (hbound : bindBuild w a b first = .ok bound) {contents : Set Bytes}
    (hcontents : Holds (blobName w) first.staging.blobs contents)
    (hall : insert first.image.json.toVec (insert (indexBytes w a bound.image.json)
      (insert bound.image.json.toVec contents)) ⊆ all)
    (hdigest : first.image.digest = w.digest first.image.json.toVec) :
    (∃ fields, bound.image.json = Json.ofMap fields ∧ (fields.get? Field.annotations).isSome) ∧
      LaidOut w a ((insert (indexBytes w a bound.image.json)
        (insert bound.image.json.toVec contents) \
        {indexBytes w a bound.image.json}) \
        if first.image.digest ≠ bound.image.digest then {first.image.json.toVec} else ∅) bound := by
  obtain ⟨fields, inherited, entries, resolved, hresolved, himage, hremoved⟩ :=
    bindBuild_eq_ok hbound
  obtain ⟨⟨checked, hjson, hchecked⟩, hlaid⟩ := resolveStaging_eq_ok hresolved
  have hmanifest : reboundManifest fields inherited entries = bound.image.json := by
    rw [himage, hchecked, hjson]
  rw [hmanifest] at hlaid hremoved
  have hlaid := hlaid contents hcontents (hinjective.mono ((Set.subset_insert _ _).trans hall))
  have hnew : bound.image.digest = w.digest bound.image.json.toVec := by rw [himage, hlaid.digest]
  refine ⟨⟨_, hmanifest.symm, ?_⟩, ?_⟩
  · rw [OrdMap.get?_insert, if_pos rfl]
    rfl
  rw [← hnew] at hremoved
  have hindex := hlaid.index
  rw [← himage] at hindex
  have hdecoded := hlaid.decoded
  rw [← himage] at hdecoded
  split at hremoved
  · rename_i hsuperseded
    rw [if_pos hsuperseded]
    have hblobs := removeBlob_eq_ok hremoved
    have hnames : Set.InjOn (blobName w) _ := blobName_injOn (hinjective.mono hall)
    have herased := hlaid.blobs.erase (hnames.mono (Set.insert_subset_insert Set.sdiff_subset))
    rw [blobName, ← hdigest] at herased
    exact ⟨by rw [hblobs]; exact herased, by rw [hblobs]; exact hindex,
      by rw [hblobs]; exact hlaid.layout, hnew, hdecoded⟩
  · rename_i hsame
    rw [if_neg hsame, Set.sdiff_empty]
    exact ⟨by rw [hremoved]; exact hlaid.blobs, by rw [hremoved]; exact hindex,
      by rw [hremoved]; exact hlaid.layout, hnew, hdecoded⟩

/-- What the build writes besides its components. -/
def built (w : Files) (a : HostArchitecture) (first bound : AssembledImage) : Set Bytes :=
  {first.image.json.toVec, indexBytes w a first.image.json, bound.image.json.toVec,
    indexBytes w a bound.image.json}

/-- **The bound layout is self-contained.** Where no two contents of the build have one
    hash, produced scutes are what they were measured to be, and no component is a
    lookup index or a superseded manifest, its blobs are the manifest the index names,
    its config and its layers, each of its descriptor's digest and size, and nothing
    else. What was written on the way is gone. -/
theorem self_contained (w : Files) (a : HostArchitecture) (requirements : Option Bytes)
    (selection : StageOutput) (b : BuildRecord) {first bound : AssembledImage} {all : Set Bytes}
    (hamong : Among w requirements selection all)
    (hinjective : Set.InjOn w.sha256 (all ∪ built w a first bound))
    (hempty : Digest.fromStr emptyConfigDigest = .ok (w.digest emptyConfig))
    (hmeasured : Measured w selection) (hfirst : inStaging w a requirements selection = .ok first)
    (hbound : bindBuild w a b first = .ok bound)
    (hapart : ∀ bytes ∈ withdrawn w a first bound, ∀ ref ∈ references first.image.manifest,
    ¬Describing w ref bytes) :
    ∃ contents : List Bytes, List.Forall₂ (Describing w)
      (references bound.image.manifest) contents ∧
      LaidOut w a (insert bound.image.json.toVec {bytes | bytes ∈ contents}) bound ∧
      ∀ bytes ∈ withdrawn w a first bound, bound.staging.blobs.contains (w.digest bytes).hex =
        false := by
  obtain ⟨image, himage, assembly, hassembly, hjson, hresolved⟩ := inStaging_checked hfirst
  have hdecoded : Manifest.ofFields assembly.fields = .ok image.manifest := by
    have hread := image.decoded
    rwa [hjson, Manifest.ofJson, Json.asStruct_ofMap, except_ok_bind] at hread
  obtain ⟨⟨contents, hdescribed, hcomponents, hholds⟩, hannotated⟩ :=
    assemble_staged (hinjective.mono Set.subset_union_left) hamong hempty hmeasured hassembly hdecoded
  have hfirstJson : first.image.json = Json.ofMap assembly.fields := by rw [himage, hjson]
  have hreferences : references first.image.manifest = references image.manifest := by rw [himage]
  have hassembled : assembly.manifest = first.image.json := hfirstJson.symm
  have hcontents : {bytes | bytes ∈ contents} ⊆ all ∪ built w a first bound :=
    hcomponents.trans Set.subset_union_left
  have hbuilt : ∀ bytes ∈ built w a first bound, bytes ∈ all ∪ built w a first bound :=
    fun bytes h => .inr h
  -- no component is withdrawn
  have hkept : ∀ bytes ∈ withdrawn w a first bound, bytes ∉ contents := by
    intro bytes hbytes hmem
    obtain ⟨ref, href, hdescribing⟩ := describing_content hdescribed hmem
    exact hapart bytes hbytes ref (hreferences ▸ href) hdescribing
  have hlaid := (resolveStaging_eq_ok hresolved).2 _ hholds
  rw [hassembled] at hlaid
  have hlaid := hlaid (hinjective.mono (Set.insert_subset (hbuilt _ (by simp [built]))
    (Set.insert_subset (hbuilt _ (by simp [built])) hcontents)))
  have hstaged : insert (indexBytes w a first.image.json)
      (insert first.image.json.toVec {bytes | bytes ∈ contents}) \
      {indexBytes w a first.image.json} ⊆ all ∪ built w a first bound :=
    Set.sdiff_subset.trans (Set.insert_subset (hbuilt _ (by simp [built]))
      (Set.insert_subset (hbuilt _ (by simp [built])) hcontents))
  obtain ⟨⟨fields, hboundJson, hboundAnnotated⟩, hboundLaid⟩ :=
    bindBuild_laid hinjective hbound hlaid.blobs
    (Set.insert_subset (hbuilt _ (by simp [built])) (Set.insert_subset (hbuilt _ (by simp [built]))
      (Set.insert_subset (hbuilt _ (by simp [built])) hstaged))) hlaid.digest
  have hmanifest := bindBuild_manifest hfirst hbound
  -- neither manifest is an index
  have hold : ∀ manifest, first.image.json.toVec ≠ indexBytes w a manifest := by
    intro manifest
    rw [hfirstJson]
    exact manifest_ne_index hannotated _
  have hnew : ∀ manifest, bound.image.json.toVec ≠ indexBytes w a manifest := by
    intro manifest
    rw [hboundJson]
    exact manifest_ne_index hboundAnnotated _
  have hindexes : ∀ bytes ∈ [indexBytes w a first.image.json, indexBytes w a bound.image.json],
      bytes ∉ contents :=
    fun bytes hbytes => hkept bytes (List.mem_append_left _ hbytes)
  have hlookup : indexBytes w a first.image.json ∉ insert first.image.json.toVec
      {bytes | bytes ∈ contents} := by
    rintro (heq | hmem)
    · exact hold _ heq.symm
    · exact hindexes _ List.mem_cons_self hmem
  have hlookup' : indexBytes w a bound.image.json ∉
      insert bound.image.json.toVec (insert first.image.json.toVec {bytes | bytes ∈ contents}) := by
    rintro (heq | heq | hmem)
    · exact hnew _ heq.symm
    · exact hold _ heq.symm
    · exact hindexes _ (List.mem_cons_of_mem _ List.mem_cons_self) hmem
  have hsuperseded : first.image.digest ≠ bound.image.digest →
      first.image.json.toVec ∉ insert bound.image.json.toVec {bytes | bytes ∈ contents} := by
    rintro hchanged (heq | hmem)
    · apply hchanged
      rw [hlaid.digest, hboundLaid.digest, heq]
    · refine hkept _ (List.mem_append_right _ ?_) hmem
      rw [if_pos hchanged]
      exact List.mem_singleton_self _
  have hunchanged : ¬first.image.digest ≠ bound.image.digest → first.image.json.toVec =
      bound.image.json.toVec := by
    intro hsame
    rw [not_not, hlaid.digest, hboundLaid.digest] at hsame
    exact hinjective (hbuilt _ (by simp [built])) (hbuilt _ (by simp [built]))
      (congrArg Digest.sha256 hsame)
  have hset := contents_replaced hlookup hlookup' hsuperseded hunchanged
  rw [hset] at hboundLaid
  have hwithdrawn : ∀ bytes ∈ withdrawn w a first bound, bytes ∈ all ∪ built w a first bound := by
    intro bytes hbytes
    apply hbuilt
    rw [withdrawn, List.mem_append] at hbytes
    rcases hbytes with hindex | hmanifest
    · simp only [List.mem_cons, List.not_mem_nil, or_false] at hindex
      rcases hindex with rfl | rfl <;> simp [built]
    · split at hmanifest
      · rw [List.mem_singleton.mp hmanifest]
        simp [built]
      · cases hmanifest
  refine ⟨contents, ?_, hboundLaid, fun bytes hbytes => ?_⟩
  · rw [hmanifest]
    change List.Forall₂ (Describing w) (references first.image.manifest) contents
    rw [hreferences]
    exact hdescribed
  · rw [← Bool.not_eq_true]
    intro hcontains
    have hmem := (hboundLaid.blobs.contains (blobName_injOn
      (hinjective.mono (Set.insert_subset (hwithdrawn bytes hbytes)
      (Set.insert_subset (hbuilt _ (by simp [built])) hcontents))))).mp hcontains
    rcases hmem with heq | hmem
    · -- the new manifest is none of them
      rcases List.mem_append.mp hbytes with hindex | hmanifest
      · simp only [List.mem_cons, List.not_mem_nil, or_false] at hindex
        rcases hindex with hindex | hindex
        · exact hnew _ (heq.symm.trans hindex)
        · exact hnew _ (heq.symm.trans hindex)
      · split at hmanifest
        · rename_i hsuperseded
          apply hsuperseded
          rw [hlaid.digest, hboundLaid.digest, ← heq, List.mem_singleton.mp hmanifest]
        · cases hmanifest
    · exact hkept bytes hbytes hmem

end Binding

/-! A scute on a base's, and a PMI and a configuration of the same bytes. -/

namespace Sample

def emptyHash : Hash := ((Digest.fromStr emptyConfigDigest).toOption.map Digest.sha256).getD zeroHash

/-- The blobs: the PMI and the configuration, the base's scute, the produced one. -/
def shared : Bytes := [1, 2, 3]

def baseBlob : Bytes := [4, 5, 6, 7, 8, 9, 10]

def grownBlob : Bytes := [11, 12, 13, 14, 15]

/-- A hash by length and sum, but for the empty config. -/
def summed (bytes : Bytes) : Hash :=
  if bytes = emptyConfig then
    emptyHash
  else
    (Vector.replicate 31 (UInt8.ofNat bytes.length)).push (bytes.foldl (· + ·) 0)

def sharing : Files where
  sha256 := summed
  blob digest :=
    if digest = ⟨summed baseBlob⟩ then .ok ⟨baseBlob.length, baseBlob⟩
    else if digest = ⟨summed shared⟩ then .ok ⟨shared.length, shared⟩
    else .error ⟨.other, "No such file or directory"⟩
  firmware _ := .error ⟨.other, "No such file or directory"⟩
  encoded _ := .ok grownBlob
  write _ _ := .ok ()
  remove _ _ := .ok ()

def sharedScute : ScuteDescriptor :=
  { CheckedImage.sampleScute with
    digest := Digest.toString ⟨summed baseBlob⟩, size := UInt64.ofNat baseBlob.length }

def sharedPmi : PmiDescriptor := ⟨Digest.toString ⟨summed shared⟩, UInt64.ofNat shared.length⟩

def sharedManifest : Manifest :=
  { CheckedImage.sampleManifest with layers := [.scuteZstd sharedScute, .pmi sharedPmi] }

def sharedFields : OrdMap Text Json :=
  CheckedImage.sampleFields.insert Field.layers (.array [(Layer.scuteZstd sharedScute).toJson,
    (Layer.pmi sharedPmi).toJson])

set_option maxRecDepth 2000 in
theorem shared_decoded : Manifest.ofJson (Json.ofMap sharedFields) = .ok sharedManifest := by rfl

/-- The base. -/
def sharedImage : CheckedImage where
  json := Json.ofMap sharedFields
  unread := none
  manifest := sharedManifest
  root := some CheckedImage.sampleRoot
  decoded := shared_decoded
  valid := by rfl
  envelope := ⟨rfl, rfl⟩
  committed := by rfl
  configDigest := by
    intro h
    cases h
  layerDigests := by
    intro l hl hscute
    rcases List.mem_cons.mp hl with rfl | hl
    · cases hscute
    · rw [List.mem_singleton.mp hl]
      exact ⟨_, Digest.fromStr_toString _⟩

def grownSealing : Sealing := { Pipeline.Sample.sealing with
  digest := ⟨summed grownBlob⟩
  size := UInt64.ofNat grownBlob.length }

def sharingSelection : StageOutput where
  root := some (.extend (some sharedImage) [] (sealSnapshot CheckedImage.sampleRoot grownSealing))
  pmi := some (.inherited sharedImage rfl)
  bootconfig := some ⟨shared, some grownSealing.root⟩

def sharingRecord : BuildRecord := ⟨.sha1, ['a', 'b'], some [], some ['p'], none, true, none⟩

/-- The contents have distinct hashes, and no component the size of a withdrawn one. -/
def apart (first bound : AssembledImage) : Bool :=
  let contents := [first.image.json.toVec, indexBytes sharing .amd64 first.image.json,
    bound.image.json.toVec,
    indexBytes sharing .amd64 bound.image.json, emptyConfig, shared, baseBlob, grownBlob]
  contents.all (fun x => contents.all (fun y => decide (summed x = summed y → x = y))) &&
    (withdrawn sharing .amd64 first bound).all (fun bytes =>
      (references first.image.manifest).all (fun ref => decide (UInt64.ofNat bytes.length ≠ ref.2)))

theorem sharing_runs : ((inStaging sharing .amd64 none sharingSelection).toOption.any (fun first =>
    (bindBuild sharing .amd64 sharingRecord first).toOption.any (apart first))) =
      true := by decide +kernel

theorem sharing_among : Among sharing none sharingSelection
    {emptyConfig, shared, baseBlob, grownBlob} where
  blob digest file h := by
    rw [sharing] at h
    dsimp only at h
    split at h
    · cases h
      simp
    split at h
    · cases h
      simp
    · cases h
  firmware _ _ h := by cases h
  encoded _ _ h := by
    cases h
    simp
  requirements _ h := by cases h
  bootconfig _ h := by
    cases h
    simp
  empty := .inl rfl

theorem sharing_measured : Measured sharing sharingSelection := by
  intro root hroot scute hscute bytes hbytes
  cases hroot
  cases hbytes
  rw [List.mem_singleton.mp hscute]
  exact ⟨Digest.fromStr_toString _, rfl⟩

/-- The run of the sample. -/
theorem sharing_built : ∃ first bound, inStaging sharing .amd64 none sharingSelection = .ok first ∧
    bindBuild sharing .amd64 sharingRecord first = .ok bound ∧ apart first bound = true := by
  obtain ⟨first, hfirst, h⟩ := (Option.any_eq_true _ _).mp sharing_runs
  obtain ⟨bound, hbound, h⟩ := (Option.any_eq_true _ _).mp h
  exact ⟨first, bound, except_toOption_eq_some.mp hfirst, except_toOption_eq_some.mp hbound, h⟩

end Sample

theorem bindBuild_binds_sample : ∃ first,
    inStaging Sample.sharing .amd64 none Sample.sharingSelection = .ok first ∧
    ((∀ e, bindBuild Sample.sharing .amd64 Sample.sharingRecord first = .error e →
      Io e ∨ buildAnnotations Sample.sharingRecord = .error e) ∧
      ∀ bound, bindBuild Sample.sharing .amd64 Sample.sharingRecord first = .ok bound →
        ∃ entries, buildAnnotations Sample.sharingRecord = .ok entries ∧
          Binds entries first.image.manifest.annotations bound.image.manifest.annotations ∧
          bound.image.manifest =
            { first.image.manifest with annotations := bound.image.manifest.annotations } ∧
          bound.image.root = first.image.root ∧ bound.image.manifest.validate = .ok ()) := by
  obtain ⟨first, bound, hfirst, -, -⟩ := Sample.sharing_built
  exact ⟨first, hfirst,
    bindBuild_binds Sample.sharing .amd64 none Sample.sharingSelection Sample.sharingRecord hfirst⟩

/-- A base's scute and a produced one, with a configuration and a PMI that share one blob. -/
theorem self_contained_sample : ∃ first bound,
    inStaging Sample.sharing .amd64 none Sample.sharingSelection = .ok first ∧
    bindBuild Sample.sharing .amd64 Sample.sharingRecord first = .ok bound ∧
    ∃ contents : List Bytes, List.Forall₂ (Describing Sample.sharing)
      (references bound.image.manifest) contents ∧
      LaidOut Sample.sharing .amd64 (insert bound.image.json.toVec
        {bytes | bytes ∈ contents}) bound ∧
      ∀ bytes ∈ withdrawn Sample.sharing .amd64 first bound,
        bound.staging.blobs.contains (Sample.sharing.digest bytes).hex = false := by
  obtain ⟨first, bound, hfirst, hbound, hapart⟩ := Sample.sharing_built
  rw [Sample.apart, Bool.and_eq_true, List.all_eq_true, List.all_eq_true] at hapart
  obtain ⟨hdistinct, hsizes⟩ := hapart
  refine ⟨first, bound, hfirst, hbound, self_contained Sample.sharing .amd64 none Sample.sharingSelection
    Sample.sharingRecord Sample.sharing_among ?_ (by rfl) Sample.sharing_measured hfirst hbound ?_⟩
  · intro x hx y hy hsame
    have hx' := hdistinct x (by simpa [built, or_assoc] using hx)
    exact of_decide_eq_true (List.all_eq_true.mp hx' y (by simpa [built, or_assoc] using hy)) hsame
  · intro bytes hbytes ref href hdescribing
    have hsize := List.all_eq_true.mp (hsizes bytes hbytes) ref href
    exact of_decide_eq_true hsize hdescribing.2

end Conglobate.Output
