import Conglobate.Lib.ContentStore
import Conglobate.Lib.JsonText
import Conglobate.Output.Assembled

/- The staged layout is self-contained (`output/assembly.rs`, `output/mod.rs`).

   Blobs are written, written again and removed by digest while the manifest is
   edited. As long as no two contents of a build have one hash, a staging holds a set
   of contents (`ContentStore.Holds`), to which each write adds one and from which each
   removal takes one away.

   What is proved:
     1. every component is staged as its descriptor says (`Staged`): the config and
        the layers of an assembly, however many share a content (`assemble_staged`);
     2. a manifest is no index (`manifest_ne_index`), so that the lookup index and an
        outdated manifest never are what is kept;
     3. a bound layout holds its manifest, its config and its layers, and nothing else
        (`self_contained`).

   Correspondence (Rust ↔ Lean):
     a descriptor's digest and size      ↔ `reference`, `references`
     `blob_path` of a content's digest   ↔ `blobName`
     what `remove_file` is called for    ↔ `withdrawn`
     `seal` of a produced scute          ↔ `Measured`, a hypothesis on its file -/
namespace Conglobate.Output

open Artifact Content Storage Pipeline ContentStore

/-! Names of contents. -/

def blobName (w : Files) (bytes : Bytes) : Text := (w.digest bytes).hex

theorem digest_hex_injective {d e : Digest} (h : d.hex = e.hex) : d = e := by
  have hdecoded := congrArg Hex.decode h
  rw [Digest.hex, Digest.hex, Hex.decode_encode, Hex.decode_encode, Option.some.injEq] at hdecoded
  exact Option.some.inj ((Digest.ofBytes_eq_some.mpr rfl).symm.trans
    (hdecoded ▸ Digest.ofBytes_eq_some.mpr rfl))

theorem blobName_injOn {w : Files} {all : Set Bytes} (h : Set.InjOn w.sha256 all) :
    Set.InjOn (blobName w) all := by
  intro bytes hbytes other hother hname
  apply h hbytes hother
  exact congrArg Digest.sha256 (digest_hex_injective hname)

/-- What a build reads or is given is among these contents. -/
structure Among (w : Files) (requirements : Option Bytes) (selection : StageOutput)
    (all : Set Bytes) : Prop where
  blob : ∀ digest file, w.blob digest = .ok file → file.bytes ∈ all
  firmware : ∀ file bytes, w.firmware file = .ok bytes → bytes ∈ all
  encoded : ∀ scute bytes, w.encoded scute = .ok bytes → bytes ∈ all
  requirements : ∀ bytes, requirements = some bytes → bytes ∈ all
  bootconfig : ∀ config, selection.bootconfig = some config → config.bytes ∈ all
  empty : emptyConfig ∈ all

/-! Descriptors. -/

/-- A layer's digest and size. -/
def reference (l : Layer) : Text × UInt64 := (l.digestStr, l.size)

def configReference (c : ConfigDescriptor) : Text × UInt64 := (c.digest, c.size)

/-- Everything a manifest refers to. -/
def references (m : Manifest) : List (Text × UInt64) :=
  configReference m.config :: m.layers.map reference

/-- A content of the digest and size. -/
def Describing (w : Files) (ref : Text × UInt64) (bytes : Bytes) : Prop :=
  Digest.fromStr ref.1 = .ok (w.digest bytes) ∧ UInt64.ofNat bytes.length = ref.2

/-- The encoded streams of produced scutes are what sealing measured. -/
def Measured (w : Files) (selection : StageOutput) : Prop :=
  ∀ root, selection.root = some root → ∀ scute ∈ root.produced, ∀ bytes, w.encoded scute =
    .ok bytes → Describing w (scute.descriptor.digest, scute.descriptor.size) bytes

/-- The staging holds a content for each reference, and no other. -/
def Staged (w : Files) (all : Set Bytes) (s : Staging) (refs : List (Text × UInt64)) : Prop :=
  ∃ contents, List.Forall₂ (Describing w) refs contents ∧ {b | b ∈ contents} ⊆ all ∧
    Holds (blobName w) s.blobs {b | b ∈ contents}

section Writes
variable {w : Files} {s s' : Staging} {digest : Digest} {size : UInt64} {bytes : Bytes}
    {refs : List (Text × UInt64)} {r : Text × UInt64} {all : Set Bytes}

theorem writeBlob_eq_ok (h : writeBlob w s digest bytes = .ok s') :
    s' = { s with blobs := s.blobs.insert digest.hex bytes } := by
  obtain ⟨_, -, h⟩ := except_bind_eq_ok.mp h
  exact (Except.ok.inj h).symm

/-- **One more content**, under the name of its digest. -/
theorem Staged.write (h : Staged w all s refs) (hinjective : Set.InjOn w.sha256 all)
    (href : Describing w r bytes) (hmem : bytes ∈ all)
    (hwrite : writeBlob w s (w.digest bytes) bytes = .ok s') : Staged w all s' (refs ++ [r]) := by
  obtain ⟨contents, hdescribed, hamong, hholds⟩ := h
  have hall : insert bytes {b | b ∈ contents} ⊆ all := Set.insert_subset hmem hamong
  have hset : insert bytes {b | b ∈ contents} = {b | b ∈ contents ++ [bytes]} := by
    ext b
    simp [or_comm]
  refine ⟨contents ++ [bytes], List.rel_append hdescribed (List.Forall₂.cons href List.Forall₂.nil),
    hset ▸ hall, ?_⟩
  rw [writeBlob_eq_ok hwrite, ← hset]
  exact hholds.insert ((blobName_injOn hinjective).mono hall)

/-- Bytes that were hashed to a digest. -/
theorem digest_eq (h : w.sha256 bytes = digest.sha256) :
    w.digest bytes = digest := congrArg Digest.mk h

theorem copyVerified_eq_ok {blobs : Blobs}
    (h : copyVerified w.sha256 blobs digest size = .ok bytes) :
    w.digest bytes = digest ∧ UInt64.ofNat bytes.length = size ∧ ∃ file, blobs digest = .ok file ∧
      file.bytes = bytes := by
  obtain ⟨file, hfile, h⟩ := except_bind_eq_ok.mp h
  split at h
  · cases h
  split at h
  · cases h
  split at h
  · cases h
  rename_i hshort hlong
  cases h
  rw [not_or, not_not] at hlong
  refine ⟨digest_eq hlong.2, ?_, file, except_mapError_eq_ok.mp hfile, rfl⟩
  rw [show file.bytes.length = size.toNat by omega, UInt64.ofNat_toNat]

theorem Staged.copy (h : Staged w all s refs) (hinjective : Set.InjOn w.sha256 all)
    (hblob : ∀ digest file, w.blob digest = .ok file → file.bytes ∈ all)
    (hdigest : Digest.fromStr r.1 = .ok digest) (hcopy : copyBlob w s digest r.2 = .ok s') :
    Staged w all s' (refs ++ [r]) := by
  obtain ⟨bytes, hread, hwrite⟩ := except_bind_eq_ok.mp hcopy
  obtain ⟨rfl, hsize, file, hfile, rfl⟩ := copyVerified_eq_ok (except_mapError_eq_ok.mp hread)
  exact h.write hinjective ⟨hdigest, hsize⟩ (hblob _ file hfile) hwrite

theorem Staged.verified {read : Except IoError Bytes} (h : Staged w all s refs)
    (hinjective : Set.InjOn w.sha256 all) (hread : ∀ bytes, read = .ok bytes → bytes ∈ all)
    (hdigest : Digest.fromStr r.1 = .ok digest)
    (hstore : storeVerified w s read digest r.2 = .ok s') : Staged w all s' (refs ++ [r]) := by
  obtain ⟨bytes, hbytes, hstore⟩ := except_bind_eq_ok.mp hstore
  obtain ⟨_, hcheck, hwrite⟩ := except_bind_eq_ok.mp hstore
  have hcheck := except_mapError_eq_ok.mp hcheck
  rw [checkStream] at hcheck
  split at hcheck
  · cases hcheck
  split at hcheck
  · cases hcheck
  rename_i hshort hlong
  rw [not_or, not_not] at hlong
  obtain rfl := digest_eq hlong.2
  refine h.write hinjective ⟨hdigest, ?_⟩ (hread bytes (except_mapError_eq_ok.mp hbytes)) hwrite
  rw [show bytes.length = r.2.toNat by omega, UInt64.ofNat_toNat]

theorem Staged.install {scute : SealedScute} (h : Staged w all s refs)
    (hinjective : Set.InjOn w.sha256 all) (hencoded : ∀ bytes, w.encoded scute = .ok bytes →
      Describing w (scute.descriptor.digest, scute.descriptor.size) bytes ∧ bytes ∈ all)
    (hinstall : installScute w s scute = .ok s') :
    Staged w all s' (refs ++ [(scute.descriptor.digest, scute.descriptor.size)]) := by
  obtain ⟨digest, hdigest, hinstall⟩ := except_bind_eq_ok.mp hinstall
  obtain ⟨bytes, hread, hwrite⟩ := except_bind_eq_ok.mp hinstall
  obtain ⟨href, hmem⟩ := hencoded bytes (except_mapError_eq_ok.mp hread)
  have hparsed : Digest.fromStr scute.descriptor.digest = .ok digest :=
    except_mapError_eq_ok.mp (except_mapError_eq_ok.mp hdigest)
  rw [href.1] at hparsed
  cases hparsed
  exact h.write hinjective href hmem hwrite

end Writes

/-! The components. -/

/-- The draft's layers read as layers whose contents are staged, with the config's. -/
def Drafted (w : Files) (all : Set Bytes) (config : ConfigDescriptor) (d : Draft) : Prop :=
  ∃ layers, Reads d.layers layers ∧ Staged w all d.staging
    (configReference config :: layers.map reference)

section Components
variable {w : Files} {all : Set Bytes} {config : ConfigDescriptor} {d d' : Draft}
    {requirements : Option Bytes} {selection : StageOutput}

/-- **One more layer**, with its content. -/
theorem Drafted.layer (h : Drafted w all config d) {s : Staging} {item : Json} {l : Layer}
    (hitem : Layer.ofJson item = .ok l)
    (hstaged : ∀ refs, Staged w all d.staging refs → Staged w all s (refs ++ [reference l])) :
    Drafted w all config ⟨s, d.layers ++ [item]⟩ := by
  obtain ⟨layers, hreads, hcontents⟩ := h
  refine ⟨layers ++ [l], List.rel_append hreads (List.Forall₂.cons hitem List.Forall₂.nil), ?_⟩
  rw [List.map_append, List.map_singleton, ← List.cons_append]
  exact hstaged _ hcontents

/-- Bytes stored under a descriptor of their own. -/
theorem describing_stored (bytes : Bytes) : Describing w
    ((w.digest bytes).toString, UInt64.ofNat bytes.length) bytes :=
  ⟨Digest.fromStr_toString _, rfl⟩
theorem copyScute_drafted (hinjective : Set.InjOn w.sha256 all)
    (hamong : Among w requirements selection all) {base : CheckedImage} {l : Layer × Nat}
    (h : Drafted w all config d) (hitem : Layer.ofJson (originalLayer base l.2) = .ok l.1)
    (hcopy : copyScute w base d l = .ok d') :
    Drafted w all config d' := by
  rw [copyScute] at hcopy
  split at hcopy
  · obtain ⟨digest, hdigest, hcopy⟩ := except_bind_eq_ok.mp hcopy
    obtain ⟨staging, hstaging, hcopy⟩ := except_bind_eq_ok.mp hcopy
    cases hcopy
    refine h.layer hitem (fun refs hrefs => ?_)
    exact hrefs.copy (r := reference l.1) hinjective hamong.blob
      (except_mapError_eq_ok.mp hdigest) hstaging
  · cases hcopy
    exact h

/-- Each item of a base reads as the layer in its place. -/
theorem copyBase_drafted (hinjective : Set.InjOn w.sha256 all)
    (hamong : Among w requirements selection all) {base : Option CheckedImage}
    (h : Drafted w all config d)
    (hobject : ∀ image, base = some image → ∃ fields, image.json = .object fields)
    (hcopy : copyBase w base d = .ok d') :
    Drafted w all config d' := by
  cases base with
  | none =>
    cases hcopy
    exact h
  | some image =>
    obtain ⟨fields, hfields⟩ := hobject image rfl
    have hreads := originalLayers_read hfields
    refine Flow.foldlM_partial (fun _ d => Drafted w all config d) h
      (fun front l rest u u' hsplit hu hstep => ?_) hcopy
    refine copyScute_drafted hinjective hamong hu ?_ hstep
    have hmem : l ∈ image.manifest.layers.zipIdx :=
      hsplit ▸ List.mem_append_right _ List.mem_cons_self
    obtain ⟨hlt, hlayer⟩ := List.getElem?_eq_some_iff.mp (List.mem_zipIdx_iff_getElem?.mp hmem)
    have hlt' : l.2 < (originalLayers image.json).length := hreads.length_eq ▸ hlt
    have hitem := hreads.get hlt' hlt
    rw [List.get_eq_getElem, List.get_eq_getElem, hlayer] at hitem
    rw [originalLayer, List.getElem?_eq_getElem hlt', Option.getD_some]
    exact hitem

theorem addScute_drafted (hinjective : Set.InjOn w.sha256 all) {scute : SealedScute}
    {st st' : Hash × Draft} (h : Drafted w all config st.2)
    (hencoded : ∀ bytes, w.encoded scute = .ok bytes →
      Describing w (scute.descriptor.digest, scute.descriptor.size) bytes ∧ bytes ∈ all)
    (hadd : addScute w st scute = .ok st') : Drafted w all config st'.2 := by
  rw [addScute] at hadd
  split at hadd
  · cases hadd
  obtain ⟨staging, hstaging, hadd⟩ := except_bind_eq_ok.mp hadd
  cases hadd
  exact h.layer (Layer.ofJson_toJson _) (fun refs hrefs =>
    hrefs.install hinjective hencoded hstaging)

theorem addSelectedRoot_drafted (hinjective : Set.InjOn w.sha256 all)
    (hamong : Among w requirements selection all) (h : Drafted w all config d)
    (hmeasured : Measured w selection)
    (hobject : ∀ image, launchMetadata selection = some image →
    ∃ fields, image.json = .object fields) (hadd : addSelectedRoot w selection d = .ok d') :
    Drafted w all config d' := by
  rw [addSelectedRoot] at hadd
  rw [launchMetadata] at hobject
  cases hroot : selection.root with
  | none =>
    rw [hroot] at hadd
    cases hadd
    exact h
  | some root =>
    rw [hroot] at hadd hobject
    obtain ⟨copied, hcopied, hadd⟩ := except_bind_eq_ok.mp hadd
    obtain ⟨parent, -, hadd⟩ := except_bind_eq_ok.mp hadd
    obtain ⟨added, hadded, hadd⟩ := except_bind_eq_ok.mp hadd
    split at hadd
    · cases hadd
    cases hadd
    have hbase := copyBase_drafted hinjective hamong h hobject hcopied
    refine Flow.foldlM_partial (fun _ st => Drafted w all config st.2) hbase
      (fun front scute rest u u' hsplit hu hstep => ?_) hadded
    have hmem : scute ∈ root.produced := hsplit ▸ List.mem_append_right _ List.mem_cons_self
    exact addScute_drafted hinjective hu (fun bytes hbytes =>
      ⟨hmeasured root hroot scute hmem bytes hbytes, hamong.encoded _ _ hbytes⟩) hstep

theorem addPmi_drafted (hinjective : Set.InjOn w.sha256 all)
    (hamong : Among w requirements selection all) (h : Drafted w all config d)
    (hadd : addPmi w selection d = .ok d') :
    Drafted w all config d' := by
  rw [addPmi] at hadd
  cases hpmi : selection.pmi with
  | none =>
    rw [hpmi] at hadd
    cases hadd
    exact h
  | some pmi =>
    rw [hpmi] at hadd
    obtain ⟨staging, hstaging, hadd⟩ := except_bind_eq_ok.mp hadd
    cases hadd
    refine h.layer (Layer.ofJson_toJson _) (fun refs hrefs => ?_)
    obtain ⟨digest, hdigest, hstaging⟩ := except_bind_eq_ok.mp hstaging
    have hdigest := except_mapError_eq_ok.mp hdigest
    cases pmi with
    | inherited image selected =>
      exact hrefs.copy (r := reference _) hinjective hamong.blob hdigest hstaging
    | file firmware =>
      exact hrefs.verified (r := reference _) hinjective (hamong.firmware firmware) hdigest hstaging

theorem addBootConfig_drafted (hinjective : Set.InjOn w.sha256 all)
    (hamong : Among w requirements selection all) (h : Drafted w all config d)
    (hadd : addBootConfig w selection d = .ok d') : Drafted w all config d' := by
  rw [addBootConfig] at hadd
  split at hadd
  · cases hadd
    exact h
  rename_i config' hconfig
  split at hadd
  · cases hadd
  obtain ⟨staging, hstaging, hadd⟩ := except_bind_eq_ok.mp hadd
  cases hadd
  refine h.layer (Layer.ofJson_toJson _) (fun refs hrefs => ?_)
  exact hrefs.write hinjective (describing_stored _)
    (hamong.bootconfig _ (Option.filter_eq_some_iff.mp hconfig).1) hstaging

end Components

/-! A whole assembly. -/

section Assembly
variable {w : Files} {all : Set Bytes} {requirements : Option Bytes} {selection : StageOutput}

theorem Staged.none : Staged w all .empty [] := by
  refine ⟨[], List.Forall₂.nil, ?_, ContentStore.Holds.empty.congr ?_⟩
  · simp
  · simp

/-- What a checked image's config is when it has none. -/
theorem emptyConfig_canonical {image : CheckedImage} (h : image.manifest.config.isEmpty = true) :
    image.manifest.config = .canonical := by
  obtain ⟨-, hconfig, -⟩ := Manifest.validate_eq_ok.mp image.valid
  refine hconfig.resolve_right (fun htype => ?_)
  rw [ConfigDescriptor.isEmpty, htype] at h
  exact absurd h (by decide)

/-- **The config is staged** as the assembled manifest describes it. -/
theorem storeConfig_staged {image : Option CheckedImage} {s : Staging}
    (hinjective : Set.InjOn w.sha256 all) (hamong : Among w requirements selection all)
    (hempty : Digest.fromStr emptyConfigDigest = .ok (w.digest emptyConfig))
    (h : storeConfig w .empty requirements image = .ok s) :
    Staged w all s [configReference (assembledConfig w requirements
      (sourceManifest image).config)] := by
  cases requirements with
  | some bytes =>
    exact Staged.none.write hinjective (describing_stored bytes) (hamong.requirements bytes rfl) h
  | none =>
    rw [storeConfig] at h
    cases hfilter : image.filter (fun image => !image.manifest.config.isEmpty) with
    | some i =>
      rw [hfilter] at h
      obtain ⟨digest, hdigest, h⟩ := except_bind_eq_ok.mp h
      rw [(Option.filter_eq_some_iff.mp hfilter).1]
      exact Staged.none.copy (r := configReference i.manifest.config) hinjective hamong.blob
        (except_mapError_eq_ok.mp hdigest) h
    | none =>
      rw [hfilter] at h
      have hcanonical : (sourceManifest image).config = .canonical := by
        cases image with
        | none => rfl
        | some i =>
          apply emptyConfig_canonical
          rw [Option.filter_eq_none_iff] at hfilter
          simpa using hfilter i rfl
      rw [assembledConfig, hcanonical]
      exact Staged.none.write (r := configReference .canonical) hinjective
        ⟨hempty, rfl⟩ hamong.empty h

/-- **What is assembled is staged**: the config and the layers of the manifest, each
    with its content, and nothing else. -/
theorem assemble_staged (hinjective : Set.InjOn w.sha256 all)
    (hamong : Among w requirements selection all)
    (hempty : Digest.fromStr emptyConfigDigest = .ok (w.digest emptyConfig))
    (hmeasured : Measured w selection) {a : Assembly}
    (h : assemble w requirements selection = .ok a) {m : Manifest}
    (hm : Manifest.ofFields a.fields = .ok m) :
    Staged w all a.staging (references m) ∧ (a.fields.get? Field.annotations).isSome := by
  obtain ⟨manifest, hmanifest, h⟩ := except_bind_eq_ok.mp h
  obtain ⟨staging, hstaging, h⟩ := except_bind_eq_ok.mp h
  obtain ⟨fields, hfields, h⟩ := except_bind_eq_ok.mp h
  obtain ⟨inherited, -, h⟩ := except_bind_eq_ok.mp h
  obtain ⟨rooted, hrooted, h⟩ := except_bind_eq_ok.mp h
  obtain ⟨annotations, -, h⟩ := except_bind_eq_ok.mp h
  obtain ⟨booted, hbooted, h⟩ := except_bind_eq_ok.mp h
  obtain ⟨draft, hdraft, h⟩ := except_bind_eq_ok.mp h
  cases h
  rw [((readManifest_ends (launchMetadata selection)).2 manifest hmanifest).1] at hfields
  obtain ⟨hdecoded, hobject⟩ := (startFields_ends (launchMetadata selection)).2 fields hfields
  obtain ⟨⟨config, hconfig, hread⟩, ⟨layers, hlayers, hreads⟩, -⟩ := Manifest.ofFields_parts hm
  have hkept := Field.manifest_distinct
  -- the manifest's config is the one that was stored
  obtain ⟨config', hconfig', hread'⟩ := @replaceConfig_config w requirements fields _ hdecoded
  rw [OrdMap.get?_insert, if_neg hkept.2.1, OrdMap.get?_insert, if_neg hkept.1, hconfig',
    Option.some.injEq] at hconfig
  rw [← hconfig, hread', Except.ok.injEq] at hread
  have hstored : Drafted w all m.config ⟨staging, []⟩ := by
    refine ⟨[], List.Forall₂.nil, ?_⟩
    rw [← hread]
    exact storeConfig_staged hinjective hamong hempty hstaging
  have hroot := addSelectedRoot_drafted hinjective hamong hstored hmeasured hobject hrooted
  have hboot := addPmi_drafted hinjective hamong hroot hbooted
  obtain ⟨found, hfound, hcontents⟩ := addBootConfig_drafted hinjective hamong hboot hdraft
  -- and its layers are those that were added
  rw [OrdMap.get?_insert, if_pos rfl, Option.some.injEq] at hlayers
  rw [← hlayers, layersOfJson_eq_ok.mpr hfound, Except.ok.injEq] at hreads
  refine ⟨?_, ?_⟩
  · rw [references, ← hreads]
    exact hcontents
  · rw [OrdMap.get?_insert, if_neg hkept.2.2.1, OrdMap.get?_insert, if_pos rfl]
    rfl

end Assembly

/-! Manifests and indexes. -/

/-- A manifest with annotations has a field before every field of an index. -/
theorem manifest_ne_index {fields : OrdMap Text Json} (h : (fields.get? Field.annotations).isSome)
    (i : Index) :
    (Json.ofMap fields).toVec ≠ i.toJson.toVec := by
  intro hsame
  have htext := Utf8.utf8_injective hsame
  rw [Json.ofMap, Index.toJson, Json.text, Json.text, List.cons_append, List.cons_append,
    List.cons.injEq] at htext
  obtain ⟨j, hj⟩ := Option.isSome_iff_exists.mp h
  have hmem := OrdMap.get?_eq_some.mp hj
  cases hentries : fields.entries with
  | nil =>
    rw [hentries] at hmem
    cases hmem
  | cons e rest =>
    have hsorted := fields.sorted
    rw [hentries] at hmem hsorted htext
    rw [Json.fieldsText_cons, Json.fieldsText_cons] at htext
    simp only [List.append_assoc] at htext
    have hkey := (Json.stringText_inj htext.2).1
    have hle : e.1 ≤ Field.annotations := by
      rcases List.mem_cons.mp hmem with heq | hrest
      · rw [← heq]
      · exact le_of_lt ((List.pairwise_cons.mp hsorted).1 _ hrest)
    rw [hkey] at hle
    exact absurd hle (by decide)

end Conglobate.Output
