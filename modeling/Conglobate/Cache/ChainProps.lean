import Conglobate.Cache.Chain

/- Prepared chains are exactly the manifest's chain (`fromIndex_exact`).

   What a variant is, is said of its files (`WellFormed`, `Foreign`), and
   `inspect` decides it. A scute is found when every variant is one or the other
   and just one has the required root (`Found`); the order in which the directory
   lists them does not enter. A discovery is then a walk over the scutes from the
   tip (`Walk`), and the chain it leaves is linked from the base (`Linked`). -/
namespace Conglobate.Cache

open Artifact

/-! Variants. -/

section Variants
variable (v : Verity) (files : PreparedFiles) (digest : Digest) (layer : Layer) (name : Name)

/-- The hash file decodes to a header of the SHA-256 convention whose salt starts with the
    parent, and whose root block hashes to the root. -/
structure Commits (header : VerityHeader) (scute : Scute) (parent root : Hash) : Prop where
  decoded : ∃ record, scute.hash.readAt 0 512 = some record ∧ v.decode record = .ok header
  convention : header.algorithm = .sha256 ∧ header.hashType = .normal
  salted : header.salt.take 32 = parent.toList
  hashed : ∃ tree block, header.treeSize = .ok tree ∧ rootBlock header tree scute = .ok block ∧
    root = v.sha256 (header.salt ++ block)

/-- A prepared variant of the layer: its files are there, of the sizes its header says. -/
structure WellFormed (w : Variant) : Prop where
  hashFile : files.file (.prepared digest name) = .ok w.scute.hash
  dataFile : files.file (dataPath digest layer w.scute.data.length) = .ok w.scute.data
  header : ∃ header, Commits v header w.scute w.parent w.root ∧ header.totalSize =
    .ok w.scute.hash.length ∧ header.dataSize = .ok w.scute.data.length

/-- A readable variant of another hash convention. -/
def Foreign : Prop :=
  ∃ hash record header, files.file (.prepared digest name) = .ok hash ∧ hash.readAt 0 512 =
    some record ∧
    v.decode record = .ok header ∧ ¬ (header.algorithm = .sha256 ∧ header.hashType = .normal)

variable {v files digest layer name}

theorem mapError_io_eq_ok {f : Bytes} {off n : Nat} {bs : Bytes} :
    (f.readExactAt off n).mapError CacheError.io = .ok bs ↔ f.readAt off n = some bs := by
  rw [← Bytes.readExactAt_eq_ok]
  cases f.readExactAt off n <;> simp [Except.mapError]

theorem parentOf_eq_ok {salt : Bytes} {parent : Hash} :
    parentOf salt = .ok parent ↔ salt.take 32 = parent.toList := by
  rw [parentOf]
  split
  · rename_i h
    rw [Except.ok.injEq, Vector.ext_iff]
    constructor
    · intro hparent
      apply List.ext_getElem
      · rw [parent.length_toList, List.length_take]
        omega
      · intro i hi hi'
        have := hparent i (by rw [List.length_take] at hi; omega)
        simpa using this
    · intro htake i hi
      simp [htake]
  · rename_i h
    refine iff_of_false (by simp) ?_
    intro htake
    have hlen := congrArg List.length htake
    rw [List.length_take, parent.length_toList] at hlen
    omega

theorem rootBlock_eq_ok {header : VerityHeader} {tree : Nat} {scute : Scute} {block : Bytes} :
    (rootBlock header tree scute).mapError CacheError.io = .ok block ↔ rootBlock header tree scute =
      .ok block := by
  cases rootBlock header tree scute <;> simp [Except.mapError]

/-- **A variant that is inspected well is well-formed.** -/
theorem inspect_eq_some {w : Variant} :
    inspect v files digest layer name = .ok (some w) ↔ WellFormed v files digest layer name w := by
  constructor
  · intro h
    obtain ⟨hash, hhash, h⟩ := except_bind_eq_ok.mp h
    obtain ⟨record, hrecord, h⟩ := except_bind_eq_ok.mp h
    obtain ⟨header, hheader, h⟩ := except_bind_eq_ok.mp h
    split at h
    · rename_i hconvention
      obtain ⟨parent, hparent, h⟩ := except_bind_eq_ok.mp h
      obtain ⟨size, hsize, h⟩ := except_bind_eq_ok.mp h
      obtain ⟨total, htotal, h⟩ := except_bind_eq_ok.mp h
      split at h
      · cases h
      · rename_i hhashSize
        obtain ⟨data, hdata, h⟩ := except_bind_eq_ok.mp h
        split at h
        · cases h
        · rename_i hdataSize
          obtain ⟨tree, htree, h⟩ := except_bind_eq_ok.mp h
          obtain ⟨block, hblock, h⟩ := except_bind_eq_ok.mp h
          cases h
          rw [not_not] at hhashSize hdataSize
          rw [← hdataSize] at hdata hsize
          rw [← hhashSize] at htotal
          exact ⟨hhash, hdata, header, ⟨⟨record, mapError_io_eq_ok.mp hrecord, hheader⟩,
            hconvention,
            parentOf_eq_ok.mp hparent, tree, block, htree, rootBlock_eq_ok.mp hblock, rfl⟩,
              htotal, hsize⟩
    · cases h
  · rintro ⟨hhash, hdata, header, ⟨⟨record, hrecord, hheader⟩, hconvention, hparent, tree, block,
      htree, hblock, hroot⟩, htotal, hsize⟩
    rw [inspect, hhash, except_ok_bind, mapError_io_eq_ok.mpr hrecord, except_ok_bind, hheader,
      except_ok_bind,
      if_pos hconvention, parentOf_eq_ok.mpr hparent, except_ok_bind, hsize, except_ok_bind, htotal,
        except_ok_bind,
      if_neg (not_not.mpr rfl), hdata, except_ok_bind, if_neg (not_not.mpr rfl), htree,
        except_ok_bind,
      rootBlock_eq_ok.mpr hblock, except_ok_bind, ← hroot]

theorem inspect_eq_none : inspect v files digest layer name = .ok none ↔
    Foreign v files digest name := by
  constructor
  · intro h
    obtain ⟨hash, hhash, h⟩ := except_bind_eq_ok.mp h
    obtain ⟨record, hrecord, h⟩ := except_bind_eq_ok.mp h
    obtain ⟨header, hheader, h⟩ := except_bind_eq_ok.mp h
    split at h
    · obtain ⟨parent, -, h⟩ := except_bind_eq_ok.mp h
      obtain ⟨size, -, h⟩ := except_bind_eq_ok.mp h
      obtain ⟨total, -, h⟩ := except_bind_eq_ok.mp h
      split at h
      · cases h
      · obtain ⟨data, -, h⟩ := except_bind_eq_ok.mp h
        split at h
        · cases h
        · obtain ⟨tree, -, h⟩ := except_bind_eq_ok.mp h
          obtain ⟨block, -, h⟩ := except_bind_eq_ok.mp h
          cases h
    · rename_i hconvention
      exact ⟨hash, record, header, hhash, mapError_io_eq_ok.mp hrecord, hheader, hconvention⟩
  · rintro ⟨hash, record, header, hhash, hrecord, hheader, hconvention⟩
    rw [inspect, hhash, except_ok_bind, mapError_io_eq_ok.mpr hrecord, except_ok_bind, hheader,
      except_ok_bind, if_neg hconvention]

end Variants

/-! One scute. -/

section Selection
variable (v : Verity) (files : PreparedFiles)

/-- Exactly one variant of the layer has the required root: this scute, prepared on this parent. -/
def OnlyMatch (layer : Layer) (root : Hash) (scute : Scute) (parent : Hash) : Prop :=
  ∃ digest names, Digest.fromStr layer.digestStr = .ok digest ∧ files.list digest = .ok names ∧
    ∃ name ∈ names, isVerity name = true ∧ WellFormed v files digest layer name
      ⟨scute, parent, root⟩ ∧ ∀ other ∈ names, isVerity other = true →
        ∀ w, WellFormed v files digest layer other w → w.root = root → other = name

/-- Every variant of the layer is well-formed, or follows another hash convention. -/
def Undamaged (layer : Layer) : Prop :=
  ∀ digest names, Digest.fromStr layer.digestStr = .ok digest → files.list digest = .ok names →
    ∀ name ∈ names, isVerity name = true →
      Foreign v files digest name ∨ ∃ w, WellFormed v files digest layer name w

/-- What discovery needs of a scute below the required root. -/
def Found (layer : Layer) (root : Hash) (scute : Scute) (parent : Hash) : Prop :=
  root ≠ zeroHash ∧ Undamaged v files layer ∧ OnlyMatch v files layer root scute parent

/-- The match a name offers. -/
def pick (digest : Digest) (layer : Layer) (root : Hash) (name : Name) : Option (Scute × Hash) :=
  if isVerity name then
    match inspect v files digest layer name with
    | .ok (some w) => if w.root = root then some (w.scute, w.parent) else none
    | _ => none
  else none

variable {v files} {digest : Digest} {layer : Layer} {root : Hash} {name : Name}

theorem pick_eq_some {found : Scute × Hash} : pick v files digest layer root name = some found ↔
    isVerity name = true ∧ WellFormed v files digest layer name ⟨found.1, found.2, root⟩ := by
  rw [pick]
  split
  · rename_i hverity
    rw [← inspect_eq_some]
    split
    · rename_i w hw
      rw [hw]
      obtain ⟨scute, parent, wroot⟩ := w
      obtain ⟨scute', parent'⟩ := found
      by_cases hroot : wroot = root <;> simp [hroot, hverity]
    · rename_i hnot
      simp only [reduceCtorEq, false_iff, not_and]
      exact fun _ h => hnot _ h
  · rename_i hverity
    simp [hverity]

theorem consider_eq_ok {selected found : Option (Scute × Hash)} :
    consider v files digest layer root selected name = .ok found ↔
      (isVerity name = true → ∃ o, inspect v files digest layer name = .ok o) ∧
        selected.toList ++ (pick v files digest layer root name).toList = found.toList := by
  have htoList : ∀ a b : Option (Scute × Hash), a.toList = b.toList ↔ a = b := by
    intro a b
    cases a <;> cases b <;> simp
  rw [consider, pick]
  split
  · rename_i hverity
    cases hinspect : inspect v files digest layer name with
    | error e => simp [bind, Except.bind, hverity]
    | ok o =>
      rw [except_ok_bind]
      cases o with
      | none => simp [choose, htoList, hverity]
      | some w =>
        rw [choose]
        dsimp only
        by_cases hroot : w.root = root
        · cases selected with
          | none => simp [hroot, ← htoList (some _) found, hverity]
          | some s =>
            cases found <;> simp [hroot]
        · simp [hroot, htoList, hverity]
  · rename_i hverity
    simp [hverity, htoList]

/-- **The loop over a directory.** It ends well when no variant is damaged, with the one match there is. -/
theorem considerAll_eq_ok {names : List Name} {selected found : Option (Scute × Hash)} :
    names.foldlM (consider v files digest layer root) selected = .ok found ↔
      (∀ name ∈ names, isVerity name = true → ∃ o, inspect v files digest layer name = .ok o) ∧
        selected.toList ++ names.filterMap (pick v files digest layer root) = found.toList := by
  induction names generalizing selected with
  | nil =>
    rw [List.foldlM_nil, List.filterMap_nil, List.append_nil]
    show Except.ok selected = Except.ok found ↔ _
    cases selected <;> cases found <;> simp
  | cons name rest ih =>
    have hpick : (name :: rest).filterMap (pick v files digest layer root) =
        (pick v files digest layer root name).toList ++ rest.filterMap
            (pick v files digest layer root) := by
      rw [List.filterMap_cons]
      cases pick v files digest layer root name <;> rfl
    rw [List.foldlM_cons, except_bind_eq_ok, hpick, ← List.append_assoc, List.forall_mem_cons]
    constructor
    · rintro ⟨next, hnext, hrest⟩
      obtain ⟨hname, hlist⟩ := consider_eq_ok.mp hnext
      obtain ⟨hnames, hlists⟩ := ih.mp hrest
      exact ⟨⟨hname, hnames⟩, by rw [hlist, hlists]⟩
    · rintro ⟨⟨hname, hnames⟩, hlists⟩
      -- a list that begins an option's list is an option's list
      obtain ⟨next, hnext⟩ : ∃ next : Option (Scute × Hash),
          selected.toList ++ (pick v files digest layer root name).toList = next.toList := by
        generalize selected.toList ++ (pick v files digest layer root name).toList = front at hlists
        cases front with
        | nil => exact ⟨none, rfl⟩
        | cons a front =>
          cases found with
          | none => cases hlists
          | some f =>
            rw [List.cons_append, Option.toList_some, List.cons.injEq,
              List.append_eq_nil_iff] at hlists
            exact ⟨some a, by rw [hlists.2.1, Option.toList_some]⟩
      refine ⟨next, consider_eq_ok.mpr ⟨hname, hnext⟩, ih.mpr ⟨hnames, ?_⟩⟩
      rw [← hnext]
      exact hlists

/-- A match that is alone in a list of distinct names. -/
theorem filterMap_pick_eq_singleton {names : List Name} (hnodup : names.Nodup)
    {found : Scute × Hash} :
    names.filterMap (pick v files digest layer root) = [found] ↔
      ∃ name ∈ names, pick v files digest layer root name = some found ∧
        ∀ other ∈ names, (pick v files digest layer root other).isSome → other = name := by
  rw [List.filterMap_eq_cons_iff]
  constructor
  · rintro ⟨front, name, rest, rfl, hfront, hname, hrest⟩
    rw [List.filterMap_eq_nil_iff] at hrest
    refine ⟨name, by simp, hname, ?_⟩
    intro other hother hsome
    rcases List.mem_append.mp hother with hother | hother
    · rw [hfront other hother] at hsome
      cases hsome
    · rcases List.mem_cons.mp hother with hother | hother
      · exact hother
      · rw [hrest other hother] at hsome
        cases hsome
  · rintro ⟨name, hmem, hname, honly⟩
    obtain ⟨front, rest, rfl⟩ := List.append_of_mem hmem
    have hother : ∀ other ∈ front ++ name :: rest, other ≠ name →
        pick v files digest layer root other = none := by
      intro other hother hne
      rw [← Option.not_isSome_iff_eq_none]
      exact fun hsome => hne (honly other hother hsome)
    rw [List.nodup_middle, List.nodup_cons, List.mem_append, not_or] at hnodup
    refine ⟨front, name, rest, rfl, ?_, hname, List.filterMap_eq_nil_iff.mpr ?_⟩
    · intro other hmem
      exact hother other (List.mem_append_left _ hmem) (fun heq => hnodup.1.1 (heq ▸ hmem))
    · intro other hmem
      exact hother other (by simp [hmem]) (fun heq => hnodup.1.2 (heq ▸ hmem))

/-- A variant is inspected well when it is well-formed or foreign. -/
theorem inspected_iff : (∃ o, inspect v files digest layer name = .ok o) ↔
    Foreign v files digest name ∨ ∃ w, WellFormed v files digest layer name w := by
  constructor
  · rintro ⟨o, ho⟩
    cases o with
    | none => exact .inl (inspect_eq_none.mp ho)
    | some w => exact .inr ⟨w, inspect_eq_some.mp ho⟩
  · rintro (h | ⟨w, hw⟩)
    · exact ⟨none, inspect_eq_none.mpr h⟩
    · exact ⟨some w, inspect_eq_some.mpr hw⟩

/-- **A scute is prepared** when no variant is damaged and exactly one matches. -/
theorem preparedScute_eq_ok {found : Scute × Hash} : preparedScute v files layer root = .ok found ↔
    Undamaged v files layer ∧ OnlyMatch v files layer root found.1 found.2 := by
  constructor
  · intro h
    obtain ⟨digest, hdigest, h⟩ := except_bind_eq_ok.mp h
    obtain ⟨names, hnames, h⟩ := except_bind_eq_ok.mp h
    obtain ⟨selected, hselected, h⟩ := except_bind_eq_ok.mp h
    rw [except_mapError_eq_ok] at hdigest
    obtain ⟨hinspected, hmatches⟩ := considerAll_eq_ok.mp hselected
    cases selected with
    | none => cases h
    | some s =>
      cases h
      obtain ⟨name, hname, hpick, honly⟩ :=
        (filterMap_pick_eq_singleton (files.nodup _ _ hnames)).mp (by simpa using hmatches)
      obtain ⟨hverity, hwell⟩ := pick_eq_some.mp hpick
      refine ⟨?_, digest, names, hdigest, hnames, name, hname, hverity, hwell, ?_⟩
      · intro digest' names' hdigest' hnames' other hother hv
        rw [hdigest] at hdigest'
        cases hdigest'
        rw [hnames] at hnames'
        cases hnames'
        exact inspected_iff.mp (hinspected other hother hv)
      · rintro other hother hv ⟨scute, parent, _⟩ hw rfl
        have hpicked : pick v files digest layer _ other = some (scute, parent) :=
          pick_eq_some.mpr ⟨hv, hw⟩
        exact honly other hother (by rw [hpicked]; rfl)
  · rintro ⟨hundamaged, digest, names, hdigest, hnames, name, hname, hverity, hwell, honly⟩
    have hmatches : names.filterMap (pick v files digest layer root) = [found] := by
      rw [filterMap_pick_eq_singleton (files.nodup _ _ hnames)]
      refine ⟨name, hname, pick_eq_some.mpr ⟨hverity, hwell⟩, ?_⟩
      intro other hother hsome
      obtain ⟨f, hf⟩ := Option.isSome_iff_exists.mp hsome
      obtain ⟨hv, hw⟩ := pick_eq_some.mp hf
      exact honly other hother hv _ hw rfl
    have hselected : names.foldlM (consider v files digest layer root) none = .ok (some found) :=
      considerAll_eq_ok.mpr ⟨fun other hother hv =>
        inspected_iff.mpr (hundamaged digest names hdigest hnames other hother hv), hmatches⟩
    rw [preparedScute, except_mapError_eq_ok.mpr hdigest, except_ok_bind, hnames, except_ok_bind,
      hselected, except_ok_bind]

end Selection

/-! The walk from the tip. -/

/-- The scutes found from the top of a list of layers, each below the root required there;
    the last index is the root required at the end. -/
inductive Walk (found : Layer → Hash → Scute → Hash → Prop) :
    List Layer → Hash → List Scute → Hash → Prop
  | nil (root : Hash) : Walk found [] root [] root
  | cons {layer : Layer} {root parent last : Hash} {scute : Scute} {rest : List Layer}
      {scutes : List Scute} :
      found layer root scute parent → Walk found rest parent scutes last →
      Walk found (layer :: rest) root (scute :: scutes) last

/-- The scutes fit on each other from a parent up to a root: each one's salt starts with the
    root of the one below. -/
inductive Linked (v : Verity) : Hash → List Scute → Hash → Prop
  | nil (parent : Hash) : Linked v parent [] parent
  | cons {header : VerityHeader} {parent root last : Hash} {scute : Scute} {rest : List Scute} :
      Commits v header scute parent root → Linked v root rest last →
        Linked v parent (scute :: rest) last

/-- The scute layers of an image, base first. -/
def scuteLayers (image : CheckedImage) : List Layer :=
  image.manifest.layers.filter (fun l => l.scute?.isSome)

section Chains
variable {v : Verity} {files : PreparedFiles}

theorem Linked.snoc {header : VerityHeader} {parent middle root : Hash} {scutes : List Scute}
    {scute : Scute} (h : Linked v parent scutes middle)
    (hscute : Commits v header scute middle root) :
    Linked v parent (scutes ++ [scute]) root := by
  induction h with
  | nil parent => exact .cons hscute (.nil root)
  | cons hfirst _ ih => exact .cons hfirst (ih hscute)

/-- What is found from the tip is linked from the base. -/
theorem Walk.linked {layers : List Layer} {root last : Hash} {scutes : List Scute}
    (h : Walk (Found v files) layers root scutes last) : Linked v last scutes.reverse root := by
  induction h with
  | nil => exact .nil _
  | cons hfound _ ih =>
    obtain ⟨-, -, digest, names, -, -, name, -, -, hwell, -⟩ := hfound
    obtain ⟨header, hcommits, -⟩ := hwell.header
    rw [List.reverse_cons]
    exact ih.snoc hcommits

theorem Walk.length {found : Layer → Hash → Scute → Hash → Prop} {layers : List Layer}
    {root last : Hash} {scutes : List Scute} (h : Walk found layers root scutes last) :
    scutes.length = layers.length := by
  induction h with
  | nil root => rfl
  | cons _ _ ih => rw [List.length_cons, List.length_cons, ih]

/-- **The loop over the layers is a walk over the scutes.** -/
theorem descend_eq_ok {layers : List Layer} {root last : Hash} {front all : List Scute} :
    layers.foldlM (descend v files) (root, front) = .ok (last, all) ↔
      ∃ scutes, all = front ++ scutes ∧
        Walk (Found v files) (layers.filter (fun l => l.scute?.isSome)) root scutes last := by
  induction layers generalizing root front with
  | nil =>
    rw [List.foldlM_nil, List.filter_nil]
    constructor
    · intro h
      cases h
      exact ⟨[], (List.append_nil _).symm, .nil _⟩
    · rintro ⟨scutes, rfl, hwalk⟩
      cases hwalk
      rw [List.append_nil]
      rfl
  | cons layer rest ih =>
    rw [List.foldlM_cons, List.filter_cons]
    cases hscute : layer.scute? with
    | none =>
      have hskip : descend v files (root, front) layer = .ok (root, front) := by
        rw [descend, hscute, Option.isNone_none, if_pos rfl]
      rw [hskip, except_ok_bind, if_neg (by simp)]
      exact ih
    | some d =>
      rw [Option.isSome_some, if_pos rfl]
      have hstep : descend v files (root, front) layer = if root = zeroHash then
          .error (.invalid "scutes are not in base-to-tip order")
          else
            preparedScute v files layer root >>= fun next => .ok (next.2, front ++ [next.1]) := by
        rw [descend, hscute, if_neg (by simp)]
      rw [hstep]
      by_cases hzero : root = zeroHash
      · rw [if_pos hzero]
        refine iff_of_false (by simp [bind, Except.bind]) ?_
        rintro ⟨scutes, -, hwalk⟩
        cases hwalk with
        | cons hfound _ => exact hfound.1 hzero
      · rw [if_neg hzero]
        constructor
        · intro h
          obtain ⟨state, hstate, h⟩ := except_bind_eq_ok.mp h
          obtain ⟨next, hnext, hstate⟩ := except_bind_eq_ok.mp hstate
          cases hstate
          obtain ⟨hundamaged, honly⟩ := preparedScute_eq_ok.mp hnext
          obtain ⟨scutes, hall, hwalk⟩ := ih.mp h
          refine ⟨next.1 :: scutes, ?_, .cons ⟨hzero, hundamaged, honly⟩ hwalk⟩
          rw [hall, List.append_assoc, List.singleton_append]
        · rintro ⟨scutes, hall, hwalk⟩
          cases hwalk with
          | @cons _ _ parent _ scute _ scutes hfound hwalk =>
            have hnext : preparedScute v files layer root = .ok (scute, parent) :=
              preparedScute_eq_ok.mpr ⟨hfound.2.1, hfound.2.2⟩
            rw [hnext, except_ok_bind, except_ok_bind]
            refine ih.mpr ⟨scutes, ?_, hwalk⟩
            rw [hall, List.append_assoc, List.singleton_append]

/-- **Discovery succeeds** on a walk that ends on nothing. -/
theorem fromIndex_eq_ok {image : CheckedImage} {chain : Chain} :
    fromIndex v files image = .ok chain ↔ image.root = some chain.root ∧ scuteLayers image ≠ [] ∧
      Walk (Found v files) (scuteLayers image).reverse chain.root chain.scutes.reverse zeroHash := by
  have hlayers : image.manifest.layers.reverse.filter (fun l => l.scute?.isSome) =
      (scuteLayers image).reverse :=
    List.filter_reverse
  rw [fromIndex]
  cases hroot : image.root with
  | none => simp
  | some root =>
    dsimp only
    constructor
    · intro h
      obtain ⟨⟨last, all⟩, hfold, h⟩ := except_bind_eq_ok.mp h
      obtain ⟨scutes, hall, hwalk⟩ := descend_eq_ok.mp hfold
      rw [List.nil_append] at hall
      subst hall
      split at h
      · cases h
      · rename_i hcomplete
        cases h
        rw [not_or, not_not] at hcomplete
        obtain ⟨hne, hlast⟩ := hcomplete
        rw [hlayers] at hwalk
        dsimp only at hlast hne ⊢
        rw [List.reverse_reverse, ← hlast]
        refine ⟨rfl, ?_, hwalk⟩
        intro hnil
        rw [hnil] at hwalk
        cases hwalk
        exact hne rfl
    · rintro ⟨hsame, hne, hwalk⟩
      cases hsame
      have hfold : image.manifest.layers.reverse.foldlM (descend v files) (chain.root, []) =
          .ok (zeroHash, chain.scutes.reverse) :=
        descend_eq_ok.mpr ⟨chain.scutes.reverse, rfl, by rw [hlayers]; exact hwalk⟩
      have hsome : chain.scutes.reverse ≠ [] := by
        intro hnil
        have hlength := hwalk.length
        rw [hnil, List.length_reverse] at hlength
        exact hne (List.eq_nil_of_length_eq_zero hlength.symm)
      rw [hfold, except_ok_bind, if_neg (by simp [hsome]), List.reverse_reverse]

/-! The order of a listing. -/

/-- The caches hold the same files, listed in any order. -/
structure SameFiles (files files' : PreparedFiles) : Prop where
  file : ∀ path, files.file path = files'.file path
  list : ∀ digest names, files.list digest = .ok names →
    ∃ names', files'.list digest = .ok names' ∧ ∀ name, name ∈ names' ↔ name ∈ names
  list' : ∀ digest names', files'.list digest = .ok names' →
    ∃ names, files.list digest = .ok names ∧ ∀ name, name ∈ names ↔ name ∈ names'

theorem SameFiles.symm {files files' : PreparedFiles} (h : SameFiles files files') :
    SameFiles files' files :=
  ⟨fun path => (h.file path).symm, h.list', h.list⟩

theorem WellFormed.congr {files' : PreparedFiles} (h : SameFiles files files') {digest : Digest}
    {layer : Layer} {name : Name} {w : Variant} (hw : WellFormed v files digest layer name w) :
    WellFormed v files' digest layer name w :=
  ⟨by rw [← h.file]; exact hw.hashFile, by rw [← h.file]; exact hw.dataFile, hw.header⟩

/-- **What is found does not depend on the listing's order.** -/
theorem Found.congr {files' : PreparedFiles} (h : SameFiles files files') {layer : Layer}
    {root parent : Hash} {scute : Scute} (hfound : Found v files layer root scute parent) :
    Found v files' layer root scute parent := by
  obtain ⟨hzero, hundamaged, digest, names, hdigest, hnames, name, hname, hverity, hwell, honly⟩ :=
    hfound
  obtain ⟨names', hnames', hmem⟩ := h.list digest names hnames
  refine ⟨hzero, ?_, digest, names', hdigest, hnames', name, (hmem name).mpr hname, hverity,
    hwell.congr h, ?_⟩
  · intro d list hd hlist other hother hv
    rw [hdigest] at hd
    cases hd
    rw [hnames'] at hlist
    cases hlist
    cases hundamaged digest names hdigest hnames other ((hmem other).mp hother) hv with
    | inl hforeign =>
      obtain ⟨hash, record, header, hhash, hrest⟩ := hforeign
      exact .inl ⟨hash, record, header, by rw [← h.file]; exact hhash, hrest⟩
    | inr hwell =>
      obtain ⟨w, hw⟩ := hwell
      exact .inr ⟨w, hw.congr h⟩
  · intro other hother hv w hw hroot
    exact honly other ((hmem other).mp hother) hv w (hw.congr h.symm) hroot

theorem Walk.imp {found found' : Layer → Hash → Scute → Hash → Prop}
    (himp : ∀ layer root scute parent, found layer root scute parent →
    found' layer root scute parent) {layers : List Layer} {root last : Hash} {scutes : List Scute}
    (h : Walk found layers root scutes last) :
    Walk found' layers root scutes last := by
  induction h with
  | nil root => exact .nil root
  | cons hfound _ ih => exact .cons (himp _ _ _ _ hfound) ih

theorem fromIndex_congr {files' : PreparedFiles} (h : SameFiles files files') {image : CheckedImage}
    {chain : Chain} (hchain : fromIndex v files image = .ok chain) :
    fromIndex v files' image = .ok chain := by
  obtain ⟨hroot, hsome, hwalk⟩ := fromIndex_eq_ok.mp hchain
  exact fromIndex_eq_ok.mpr ⟨hroot, hsome, hwalk.imp (fun _ _ _ _ hfound => hfound.congr h)⟩

/-- **Prepared chains are exactly the manifest's chain.** Discovery succeeds just when the walk
    from the tip finds every scute, none below a zero root and none beside a damaged variant,
    and ends on a zero root. The chain has one element a scute layer, is linked from nothing
    up to the manifest's root, and does not depend on the order of any listing. -/
theorem fromIndex_exact (v : Verity) (files : PreparedFiles) (image : CheckedImage) :
    (∀ chain, fromIndex v files image = .ok chain ↔ image.root = some chain.root ∧
      scuteLayers image ≠ [] ∧
      Walk (Found v files) (scuteLayers image).reverse chain.root chain.scutes.reverse zeroHash) ∧
    (∀ chain, fromIndex v files image = .ok chain →
      chain.scutes.length = (scuteLayers image).length ∧ Linked v zeroHash chain.scutes chain.root ∧
        image.manifest.carapaceRoot = .ok (some chain.root)) ∧
    ∀ files', SameFiles files files' → ∀ chain,
      fromIndex v files image = .ok chain ↔ fromIndex v files' image = .ok chain := by
  refine ⟨fun chain => fromIndex_eq_ok, ?_, ?_⟩
  · intro chain hchain
    obtain ⟨hroot, -, hwalk⟩ := fromIndex_eq_ok.mp hchain
    refine ⟨?_, ?_, ?_⟩
    · have hlength := hwalk.length
      rwa [List.length_reverse, List.length_reverse] at hlength
    · have hlinked := hwalk.linked
      rwa [List.reverse_reverse] at hlinked
    · rw [← hroot]
      exact image.committed
  · intro files' h chain
    exact ⟨fromIndex_congr h, fromIndex_congr h.symm⟩

end Chains

/-! A match beside a damaged variant. -/

/-- Every record is a header of one block, and every block hashes to the sample's root. -/
def sampleVerity : Verity where
  decode _ := .ok ⟨.sha256, .normal, Bytes.zeros 64, 1, 1, .ok 1, .ok 0, .ok 512, 0⟩
  sha256 _ := CheckedImage.sampleRoot

/-- "a.verity" and "b.verity" -/
def sampleMatch : Name := [97, 46, 118, 101, 114, 105, 116, 121]
def sampleDamaged : Name := [98, 46, 118, 101, 114, 105, 116, 121]

/-- A whole variant and an empty one. -/
def sampleFiles : PreparedFiles where
  list _ := .ok [sampleMatch, sampleDamaged]
  file path :=
    match path with
    | .blob _ => .error (.invalid "blob is not a regular file")
    | .prepared _ name =>
      if name = sampleMatch then .ok (Bytes.zeros 512)
      else if name = sampleDamaged then .ok []
      else .ok [0]
  nodup _ names h := by
    cases h
    decide

def sampleScute : Scute := ⟨[0], Bytes.zeros 512⟩

theorem sample_digest : Digest.fromStr (Layer.scute CheckedImage.sampleScute).digestStr =
    .ok ⟨Vector.replicate 32 34⟩ :=
  Digest.fromStr_toString _

theorem sample_record : sampleScute.hash.readAt 0 512 = some (Bytes.zeros 512) := by
  have h := Bytes.readAt_zero_length (Bytes.zeros 512)
  rwa [Bytes.zeros_length] at h

theorem sample_wellFormed : WellFormed sampleVerity sampleFiles ⟨Vector.replicate 32 34⟩
    (.scute CheckedImage.sampleScute)
    sampleMatch ⟨sampleScute, zeroHash, CheckedImage.sampleRoot⟩ where
  hashFile := rfl
  dataFile := rfl
  header := ⟨_, ⟨⟨_, sample_record, rfl⟩, ⟨rfl, rfl⟩, by decide, 0, [0], rfl, rfl, rfl⟩,
    congrArg Except.ok (Bytes.zeros_length 512).symm, rfl⟩

theorem sample_damaged {digest : Digest} {layer : Layer} {o : Option Variant} :
    inspect sampleVerity sampleFiles digest layer sampleDamaged ≠ .ok o := by
  intro h
  cases h

/-- A damaged variant hides the one that matches: discovery fails although each scute of the
    walk has exactly one match. -/
theorem fromIndex_damaged :
    ¬ ∀ (v : Verity) (files : PreparedFiles) (image : CheckedImage),
      (∃ chain, fromIndex v files image = .ok chain) ↔
        ∃ root scutes last, image.root = some root ∧
          Walk (OnlyMatch v files) (scuteLayers image).reverse root scutes last := by
  intro h
  have honly : OnlyMatch sampleVerity sampleFiles (.scute CheckedImage.sampleScute) CheckedImage.sampleRoot
      sampleScute zeroHash := by
    refine ⟨_, _, sample_digest, rfl, sampleMatch,
      List.mem_cons_self, by decide, sample_wellFormed, ?_⟩
    intro other hother _ w hw _
    rcases List.mem_cons.mp hother with hother | hother
    · exact hother
    · rw [List.mem_singleton.mp hother] at hw
      exact absurd (inspect_eq_some.mpr hw) sample_damaged
  obtain ⟨chain, hchain⟩ := (h sampleVerity sampleFiles CheckedImage.sample).mpr
    ⟨CheckedImage.sampleRoot, [sampleScute], zeroHash, rfl, .cons honly (.nil _)⟩
  obtain ⟨-, -, hwalk⟩ := fromIndex_eq_ok.mp hchain
  have hundamaged : Undamaged sampleVerity sampleFiles (.scute CheckedImage.sampleScute) := by
    have hlayers : (scuteLayers CheckedImage.sample).reverse = [.scute CheckedImage.sampleScute] :=
      rfl
    rw [hlayers] at hwalk
    generalize chain.scutes.reverse = scutes at hwalk
    cases hwalk with
    | cons hfound _ => exact hfound.2.1
  obtain ⟨o, ho⟩ := inspected_iff.mpr (hundamaged _ _ sample_digest rfl sampleDamaged (by simp)
    (by decide))
  exact sample_damaged ho

end Conglobate.Cache

