import Conglobate.Isolation.Runtime

/- The runtime's targets lie apart, and nothing of the image is lost for them
   (`isolation/runtime.rs`).

   What is proved:
     1. `directory_grows` — opening a target adds at most its empty directory;
     2. `rejectNested_apart` — an upward walk that ends at the root has met no other target;
     3. `runtime_targets` — what `resolve` returns, what it leaves, and when it succeeds. -/
namespace Conglobate.Isolation.Runtime

open Network Copy

variable {k : Kernel} {i i' i'' : Image} {name : Bytes}

/-! What may be added to an image. -/

/-- All that was there is there, with its mode; what is new are empty directories of these
    names in the root, traversable unless their `chmod` failed. -/
structure Grown (k : Kernel) (names : List Bytes) (before after : Image) : Prop where
  kept : ∀ path object, before.tree.get? path = some object →
    after.tree.get? path = some object ∧ after.modes object.ino = before.modes object.ino
  made : ∀ path object, before.tree.get? path = none → after.tree.get? path = some object →
    ∃ name ∈ names, path = [name] ∧ object.kind = .directory ∧
      (k.fault (.chmod name) = false → after.modes object.ino = 0o755)

theorem Grown.refl (k : Kernel) (names : List Bytes) (i : Image) : Grown k names i i := by
  refine ⟨fun path object h => ⟨h, rfl⟩, ?_⟩
  intro path object hnone hsome
  rw [hnone] at hsome
  cases hsome

theorem Grown.trans {names : List Bytes} (h : Grown k names i i') (h' : Grown k names i' i'') :
    Grown k names i i'' := by
  constructor
  · intro path object hobject
    obtain ⟨hmid, hmode⟩ := h.kept path object hobject
    obtain ⟨hafter, hmode'⟩ := h'.kept path object hmid
    exact ⟨hafter, hmode'.trans hmode⟩
  · intro path object hnone hobject
    cases hmid : i'.tree.get? path with
    | none => exact h'.made path object hmid hobject
    | some found =>
      -- what the first part made, the second has kept
      obtain ⟨hafter, hmode⟩ := h'.kept path found hmid
      rw [hafter] at hobject
      obtain rfl := Option.some.inj hobject
      obtain ⟨name, hname, hpath, hkind, hchmod⟩ := h.made path found hnone hmid
      exact ⟨name, hname, hpath, hkind, fun hfault => hmode.trans (hchmod hfault)⟩

/-- A new directory is empty. -/
theorem Grown.empty {names : List Bytes} (h : Grown k names i i')
    (hnone : i.tree.get? [name] = none) (child : Bytes) :
    i'.tree.get? [name, child] = none := by
  by_contra hchild
  obtain ⟨object, hobject⟩ := Option.ne_none_iff_exists'.mp hchild
  cases hbefore : i.tree.get? [name, child] with
  | none =>
    obtain ⟨other, -, hpath, -⟩ := h.made _ object hbefore hobject
    cases hpath
  | some found =>
    -- below a name that denoted nothing there was nothing
    have hchild' : i.tree.get? ([name] ++ [child]) = some found := hbefore
    have hdirectory := Tree.isDirectory_parent hchild'
    rw [Tree.IsDirectory, hnone] at hdirectory
    cases hdirectory

theorem mkdir_eq_ok (h : i.mkdir k name = .ok i') :
    i.tree.create [] name ⟨k.alloc i.tree, .directory⟩ = .ok i'.tree ∧
      i'.modes = Function.update i.modes (k.alloc i.tree) (k.made name) := by
  rw [Image.mkdir] at h
  split at h
  · cases h
  · rename_i t hcreate
    cases h
    exact ⟨hcreate, rfl⟩

/-- The root takes any name that is free. -/
theorem mkdir_free (hnone : i.tree.get? [name] = none) : ∃ i', i.mkdir k name = .ok i' := by
  have hroot : i.tree.IsDirectory [] := by rw [Tree.IsDirectory, Tree.get?, if_pos rfl, Option.map_some, i.root]
  rw [Image.mkdir]
  split
  · rename_i e hcreate
    rw [Tree.create, dif_pos ⟨hroot, hnone⟩] at hcreate
    cases hcreate
  · exact ⟨_, rfl⟩

theorem get?_mkdir (h : i.mkdir k name = .ok i') :
    i'.tree.get? [name] = some ⟨k.alloc i.tree, .directory⟩ := by
  rw [Tree.get?_create (mkdir_eq_ok h).1]
  exact if_pos rfl

theorem mkdir_grows {names : List Bytes} (hname : name ∈ names)
    (hfault : k.fault (.chmod name) = true) (h : i.mkdir k name = .ok i') : Grown k names i i' := by
  obtain ⟨hcreate, hmodes⟩ := mkdir_eq_ok h
  constructor
  · intro path object hobject
    refine ⟨Tree.within_create hcreate path object hobject, ?_⟩
    rw [hmodes, Function.update_of_ne (k.fresh _ _ _ hobject)]
  · intro path object hnone hobject
    rw [Tree.get?_create hcreate] at hobject
    split at hobject
    · rename_i hpath
      obtain rfl := Option.some.inj hobject
      refine ⟨name, hname, hpath, rfl, ?_⟩
      rw [hfault]
      intro hfalse
      cases hfalse
    · rw [hnone] at hobject
      cases hobject

theorem get?_chmod (mode : Nat) (path : List Bytes) :
    (i.chmod name mode).tree.get? path = i.tree.get? path := by
  rw [Image.chmod]
  split <;> rfl

theorem mkdir_chmod_grows {names : List Bytes} (hname : name ∈ names)
    (h : i.mkdir k name = .ok i') :
    Grown k names i (i'.chmod name 0o755) := by
  obtain ⟨hcreate, hmodes⟩ := mkdir_eq_ok h
  have hchmod : (i'.chmod name 0o755).modes = Function.update i'.modes (k.alloc i.tree) 0o755 := by
    rw [Image.chmod, get?_mkdir h]
  constructor
  · intro path object hobject
    rw [get?_chmod]
    refine ⟨Tree.within_create hcreate path object hobject, ?_⟩
    have hfresh := k.fresh _ _ _ hobject
    rw [hchmod, Function.update_of_ne hfresh, hmodes, Function.update_of_ne hfresh]
  · intro path object hnone hobject
    rw [get?_chmod, Tree.get?_create hcreate] at hobject
    split at hobject
    · rename_i hpath
      obtain rfl := Option.some.inj hobject
      refine ⟨name, hname, hpath, rfl, fun _ => ?_⟩
      rw [hchmod, Function.update_self]
    · rw [hnone] at hobject
      cases hobject

/-! One target. -/

/-- A directory of the image, as it was opened. -/
def Open (i : Image) (file : List Bytes × Nat) :
    Prop := i.tree.get? file.1 = some ⟨file.2, .directory⟩

theorem Open.grown {names : List Bytes} {file : List Bytes × Nat} (h : Open i file)
    (hgrown : Grown k names i i') :
    Open i' file := (hgrown.kept _ _ h).1

theorem openDirectory_open {again : Bool} {file : List Bytes × Nat}
    (h : openDirectory k i name again = .ok file) :
    Open i file := by
  rw [openDirectory] at h
  split at h
  · cases h
  · rw [Tree.openDirectory] at h
    split at h
    · cases h
    · split at h
      · rename_i path _ ino hget
        cases h
        exact hget
      · cases h

/-- **Opening a target** adds at most its directory, and what it opens is one. -/
theorem directory_grows {names : List Bytes} (hname : name ∈ names)
    {r : Except RuntimeError (List Bytes × Nat)} (h : directory k i name = (r, i')) :
    Grown k names i i' ∧ ∀ file, r = .ok file → Open i' file := by
  have hagain : ∀ (j : Image) file, (openDirectory k j name true).mapError
      (RuntimeError.target name) = .ok file → Open j file := by
    intro j file hfile
    cases hopen : openDirectory k j name true with
    | error e =>
      rw [hopen] at hfile
      cases hfile
    | ok found =>
      rw [hopen] at hfile
      cases hfile
      exact openDirectory_open hopen
  rw [directory] at h
  split at h
  · rename_i file hopen
    cases h
    refine ⟨.refl k names i, ?_⟩
    intro found hfound
    cases hfound
    exact openDirectory_open hopen
  · split at h
    · cases h
      exact ⟨.refl k names i, fun file hfile => by cases hfile⟩
    split at h
    · rename_i made hmade
      split at h
      · rename_i hfault
        cases h
        exact ⟨mkdir_grows hname hfault hmade, fun file hfile => by cases hfile⟩
      · cases h
        exact ⟨mkdir_chmod_grows hname hmade, hagain _⟩
    · cases h
      exact ⟨.refl k names i, hagain _⟩
  · cases h
    exact ⟨.refl k names i, fun file hfile => by cases hfile⟩

/-! The upward walks. -/

theorem get?_root (i : Image) : i.tree.get? [] = some i.tree.root := by rw [Tree.get?, if_pos rfl]

theorem prefix_dropLast {q path : List Bytes} (hq : q <+: path) (hne : q ≠ path) :
    q <+: path.dropLast := by
  obtain ⟨rest, rfl⟩ := hq
  have hrest : rest ≠ [] := by
    rintro rfl
    exact hne (List.append_nil q).symm
  rw [List.dropLast_append_of_ne_nil hrest]
  exact List.prefix_append q rest.dropLast

/-- A walk that ends well has met the other inode nowhere above where it began. -/
theorem ascend_apart {start other : Bytes} {ino left : Nat} {current : List Bytes}
    (h : ascend k i start other ino left current = .ok ()) {q : List Bytes}
    {object : Network.Object} (hq : q <+: current) (hne : q ≠ current) (hnil : q ≠ [])
    (hobject : i.tree.get? q = some object) : object.ino ≠ ino := by
  induction left generalizing current with
  | zero => cases h
  | succ left ih =>
    have hbelow : q <+: current.dropLast := prefix_dropLast hq hne
    rw [ascend] at h
    split at h
    · cases h
    split at h
    · cases h
    split at h
    · cases h
    rename_i parent hparent
    split at h
    · cases h
    rename_i hino
    split at h
    · -- the parent is the root, and nothing is above it
      rename_i hroot
      have hend := i.named [] _ _ _ (get?_root i) hparent i.root hroot.symm
      rw [← hend, List.prefix_nil] at hbelow
      exact absurd hbelow hnil
    split at h
    · cases h
    split at h
    · cases h
    by_cases hat : q = current.dropLast
    · rw [hat, hparent] at hobject
      obtain rfl := Option.some.inj hobject
      exact hino
    · exact ih h hbelow hat

theorem rejectNested_apart {start other : Bytes} {directory : List Bytes} {file : List Bytes × Nat}
    (h : rejectNested k i start other directory file.2 = .ok ()) (hfile : Open i file)
    (hroot : file.1 ≠ []) (hne : file.1 ≠ directory) : ¬ file.1 <+: directory := by
  intro hfront
  rw [rejectNested] at h
  split at h
  · cases h
  · exact ascend_apart h hfront hne hroot hfile rfl

/-- A walk from a directory of the root ends at once. -/
theorem rejectNested_root {start other : Bytes} {file : List Bytes × Nat}
    (hfault : ∀ call, k.fault call = false) (hfile : Open i file) (hroot : file.1 ≠ []) :
    rejectNested k i start other [name] file.2 = .ok () := by
  have hino : i.tree.root.ino ≠ file.2 := by
    intro heq
    exact hroot (i.named [] _ _ _ (get?_root i) hfile i.root heq).symm
  have hparent : i.tree.get? [name].dropLast = some i.tree.root := get?_root i
  rw [rejectNested, hfault, if_neg (by decide), ascend, hfault, hfault, if_neg (by decide),
    if_neg (by simp), hparent]
  dsimp only
  rw [if_neg hino, if_pos rfl]

/-! All three. -/

/-- Directories inside the image, none of them the root and none above another. -/
structure Apart (i : Image) (t : RuntimeTargets) : Prop where
  directories : ∀ file ∈ [t.proc, t.sys, t.dev], Open i file ∧ file.1 ≠ []
  apart : [t.proc.1, t.sys.1, t.dev.1].Pairwise (fun p q => ¬ p <+: q ∧ ¬ q <+: p)

/-- Inodes that differ are at different places. -/
theorem Open.ne_of_ino {file file' : List Bytes × Nat} (h : Open i file) (h' : Open i file')
    (hne : file.2 ≠ file'.2) :
    file.1 ≠ file'.1 := by
  intro heq
  rw [Open, heq, h'] at h
  exact hne (congrArg Object.ino (Option.some.inj h)).symm

theorem Open.ne_root {file : List Bytes × Nat} (h : Open i file) (hne : file.2 ≠ i.tree.root.ino) :
    file.1 ≠ [] := by
  intro heq
  rw [Open, heq, get?_root] at h
  exact hne (congrArg Object.ino (Option.some.inj h)).symm

/-- **The checks keep the targets apart**: six upward walks for six ordered pairs. -/
theorem check_apart {t t' : RuntimeTargets} (hproc : Open i t.proc) (hsys : Open i t.sys)
    (hdev : Open i t.dev) (h : check k i t = .ok t') : t' = t ∧ Apart i t := by
  rw [check] at h
  obtain ⟨_, -, h⟩ := except_bind_eq_ok.mp h
  obtain ⟨_, -, h⟩ := except_bind_eq_ok.mp h
  obtain ⟨_, -, h⟩ := except_bind_eq_ok.mp h
  split at h
  · cases h
  rename_i halias
  obtain ⟨hprocRoot, hsysRoot, hprocSys⟩ : t.proc.2 ≠ i.tree.root.ino ∧ t.sys.2 ≠ i.tree.root.ino ∧
      t.proc.2 ≠ t.sys.2 :=
    ⟨fun heq => halias (.inl heq), fun heq => halias (.inr (.inl heq)), fun heq => halias
      (.inr (.inr heq))⟩
  obtain ⟨_, hps, h⟩ := except_bind_eq_ok.mp h
  obtain ⟨_, hsp, h⟩ := except_bind_eq_ok.mp h
  obtain ⟨_, -, h⟩ := except_bind_eq_ok.mp h
  split at h
  · cases h
  rename_i hdevice
  simp only [List.mem_cons, List.not_mem_nil, or_false, not_or] at hdevice
  obtain ⟨hdevRoot, hdevProc, hdevSys⟩ := hdevice
  obtain ⟨_, hdp, h⟩ := except_bind_eq_ok.mp h
  obtain ⟨_, hpd, h⟩ := except_bind_eq_ok.mp h
  obtain ⟨_, hds, h⟩ := except_bind_eq_ok.mp h
  obtain ⟨_, hsd, h⟩ := except_bind_eq_ok.mp h
  cases h
  have hrp := hproc.ne_root hprocRoot
  have hrs := hsys.ne_root hsysRoot
  have hrd := hdev.ne_root hdevRoot
  have hneps := hproc.ne_of_ino hsys hprocSys
  have hnedp := hdev.ne_of_ino hproc hdevProc
  have hneds := hdev.ne_of_ino hsys hdevSys
  refine ⟨rfl, ?_, ?_⟩
  · intro file hfile
    simp only [List.mem_cons, List.not_mem_nil, or_false] at hfile
    obtain rfl | rfl | rfl := hfile
    · exact ⟨hproc, hrp⟩
    · exact ⟨hsys, hrs⟩
    · exact ⟨hdev, hrd⟩
  · simp only [List.pairwise_cons, List.mem_cons, List.not_mem_nil, or_false, forall_eq_or_imp,
      forall_eq, false_implies, implies_true, List.Pairwise.nil, and_true]
    refine ⟨⟨⟨?_, ?_⟩, ?_, ?_⟩, ?_, ?_⟩
    · exact rejectNested_apart hsp hproc hrp hneps
    · exact rejectNested_apart hps hsys hrs hneps.symm
    · exact rejectNested_apart hdp hproc hrp hnedp.symm
    · exact rejectNested_apart hpd hdev hrd hnedp
    · exact rejectNested_apart hds hsys hrs hneds.symm
    · exact rejectNested_apart hsd hdev hrd hneds

/-- Absent, or a directory directly below the root. -/
def Plain (i : Image) (name : Bytes) : Prop :=
  i.tree.get? [name] = none ∨ ∃ ino, i.tree.get? [name] = some ⟨ino, .directory⟩

theorem openDirectory_plain {again : Bool} {ino : Nat} (hfault : ∀ call, k.fault call = false)
    (hdot : name ≠ dotName) (hdotdot : name ≠ dotdotName)
    (hget : i.tree.get? [name] = some ⟨ino, .directory⟩) :
    openDirectory k i name again = .ok ([name], ino) := by
  have hkind : ∀ target, (⟨ino, .directory⟩ : Network.Object).kind ≠ .symlink target :=
    fun target heq => by cases heq
  rw [openDirectory, hfault, if_neg (by decide), Tree.openDirectory,
    Tree.inRoot_enter hdot hdotdot hget hkind, Tree.inRoot_nil]
  dsimp only [List.nil_append]
  rw [hget]

theorem openDirectory_absent {again : Bool} (hfault : ∀ call, k.fault call = false)
    (hdot : name ≠ dotName) (hdotdot : name ≠ dotdotName) (hnone : i.tree.get? [name] = none) :
    openDirectory k i name again = .error .noent := by
  have hroot : i.tree.IsDirectory [] := by rw [Tree.IsDirectory, get?_root, Option.map_some, i.root]
  rw [openDirectory, hfault, if_neg (by decide), Tree.openDirectory, Tree.inRoot,
    if_neg (not_not.mpr hroot), if_neg hdot, if_neg hdotdot, List.nil_append, hnone]

/-- A plain name is opened where it says, created if need be. -/
theorem directory_plain (hfault : ∀ call, k.fault call = false) (hdot : name ≠ dotName)
    (hdotdot : name ≠ dotdotName) (hplain : Plain i name) :
    ∃ ino i', directory k i name = (.ok ([name], ino), i') := by
  rcases hplain with hnone | ⟨ino, hget⟩
  · obtain ⟨made, hmade⟩ := mkdir_free (k := k) hnone
    have hget : (made.chmod name 0o755).tree.get? [name] = some ⟨k.alloc i.tree, .directory⟩ := by
      rw [get?_chmod, get?_mkdir hmade]
    refine ⟨k.alloc i.tree, made.chmod name 0o755, ?_⟩
    rw [directory, openDirectory_absent hfault hdot hdotdot hnone]
    dsimp only
    rw [hfault, if_neg (by decide), hmade]
    dsimp only
    rw [hfault, if_neg (by decide), openDirectory_plain hfault hdot hdotdot hget]
    rfl
  · refine ⟨ino, i, ?_⟩
    rw [directory, openDirectory_plain hfault hdot hdotdot hget]

theorem Plain.grown {names : List Bytes} (h : Plain i name) (hgrown : Grown k names i i') :
    Plain i' name := by
  rcases h with hnone | ⟨ino, hget⟩
  · cases hafter : i'.tree.get? [name] with
    | none => exact .inl hafter
    | some object =>
      obtain ⟨_, -, -, hkind, -⟩ := hgrown.made _ _ hnone hafter
      obtain ⟨ino, kind⟩ := object
      obtain rfl : kind = .directory := hkind
      exact .inr ⟨ino, hafter⟩
  · exact .inr ⟨ino, (hgrown.kept _ _ hget).1⟩

theorem check_plain {t : RuntimeTargets} (hfault : ∀ call, k.fault call = false)
    (hproc : Open i t.proc) (hsys : Open i t.sys) (hdev : Open i t.dev) (hp : t.proc.1 = [proc])
    (hs : t.sys.1 = [sys]) (hd : t.dev.1 = [dev]) :
    check k i t = .ok t := by
  have hmeta : ∀ name, metadata k name = .ok () := by
    intro name
    rw [metadata, hfault, if_neg (by decide)]
  -- two plain names are two directories, so their inodes differ
  have hino : ∀ {file file' : List Bytes × Nat}, Open i file → Open i file' → file.1 ≠ file'.1 →
      file.2 ≠ file'.2 := by
    intro file file' h h' hne heq
    exact hne (i.named _ _ _ _ h h' rfl heq)
  have hroot : ∀ {file : List Bytes × Nat}, Open i file → file.1 ≠ [] →
      file.2 ≠ i.tree.root.ino := by
    intro file h hne heq
    exact hne (i.named _ _ _ _ h (get?_root i) rfl heq)
  have hrp : t.proc.1 ≠ [] := by simp [hp]
  have hrs : t.sys.1 ≠ [] := by simp [hs]
  have hrd : t.dev.1 ≠ [] := by simp [hd]
  have hps := hino hproc hsys (by rw [hp, hs]; decide)
  have hdp := hino hdev hproc (by rw [hd, hp]; decide)
  have hds := hino hdev hsys (by rw [hd, hs]; decide)
  have hdevice : t.dev.2 ∉ [i.tree.root.ino, t.proc.2, t.sys.2] := by
    simp only [List.mem_cons, List.not_mem_nil, or_false, not_or]
    exact ⟨hroot hdev hrd, hdp, hds⟩
  rw [check, hmeta, except_ok_bind, hmeta, except_ok_bind, hmeta, except_ok_bind,
    if_neg (not_or.mpr ⟨hroot hproc hrp, not_or.mpr ⟨hroot hsys hrs, hps⟩⟩), hp, hs, hd,
    rejectNested_root hfault hsys hrs, except_ok_bind, rejectNested_root hfault hproc hrp,
      except_ok_bind, hmeta,
    except_ok_bind, if_neg hdevice, rejectNested_root hfault hproc hrp, except_ok_bind,
      rejectNested_root hfault hdev hrd,
    except_ok_bind, rejectNested_root hfault hsys hrs, except_ok_bind,
      rejectNested_root hfault hdev hrd, except_ok_bind]

/-! `resolve`. -/

/-- What `resolve` leaves, and how its targets lie then. -/
theorem resolve_grows {r : Except RuntimeError RuntimeTargets} (h : resolve k i = (r, i')) :
    Grown k runtimeNames i i' ∧ ∀ t, r = .ok t → Apart i' t := by
  have hdevName : dev ∈ runtimeNames := by decide
  have hprocName : proc ∈ runtimeNames := by decide
  have hsysName : sys ∈ runtimeNames := by decide
  rw [resolve] at h
  split at h
  · rename_i e i₁ hdev
    cases h
    exact ⟨(directory_grows (by decide) hdev).1, fun t ht => by cases ht⟩
  rename_i devFile i₁ hdev
  obtain ⟨hgrown₁, hopen₁⟩ := directory_grows hdevName hdev
  split at h
  · rename_i e i₂ hproc
    cases h
    exact ⟨hgrown₁.trans (directory_grows (by decide) hproc).1, fun t ht => by cases ht⟩
  rename_i procFile i₂ hproc
  obtain ⟨hgrown₂, hopen₂⟩ := directory_grows hprocName hproc
  split at h
  · rename_i e i₃ hsys
    cases h
    exact ⟨(hgrown₁.trans hgrown₂).trans (directory_grows (by decide) hsys).1,
      fun t ht => by cases ht⟩
  rename_i sysFile i₃ hsys
  obtain ⟨hgrown₃, hopen₃⟩ := directory_grows hsysName hsys
  cases h
  refine ⟨(hgrown₁.trans hgrown₂).trans hgrown₃, ?_⟩
  intro t ht
  have hprocOpen : Open i' procFile := (hopen₂ _ rfl).grown hgrown₃
  have hdevOpen : Open i' devFile := (hopen₁ _ rfl).grown (hgrown₂.trans hgrown₃)
  obtain ⟨rfl, hapart⟩ := check_apart hprocOpen (hopen₃ _ rfl) hdevOpen ht
  exact hapart

theorem resolve_plain (hfault : ∀ call, k.fault call = false)
    (hplain : ∀ name ∈ runtimeNames, Plain i name) :
    ∃ t, (resolve k i).1 = .ok t := by
  have hdevName : dev ∈ runtimeNames := by decide
  have hprocName : proc ∈ runtimeNames := by decide
  have hsysName : sys ∈ runtimeNames := by decide
  obtain ⟨devIno, i₁, hdev⟩ := directory_plain hfault (by decide) (by decide) (hplain dev hdevName)
  obtain ⟨hgrown₁, hopen₁⟩ := directory_grows hdevName hdev
  obtain ⟨procIno, i₂, hproc⟩ :=
    directory_plain hfault (by decide) (by decide) ((hplain proc hprocName).grown hgrown₁)
  obtain ⟨hgrown₂, hopen₂⟩ := directory_grows hprocName hproc
  obtain ⟨sysIno, i₃, hsys⟩ :=
    directory_plain hfault (by decide) (by decide)
      ((hplain sys hsysName).grown (hgrown₁.trans hgrown₂))
  obtain ⟨hgrown₃, hopen₃⟩ := directory_grows hsysName hsys
  refine ⟨⟨([proc], procIno), ([sys], sysIno), ([dev], devIno)⟩, ?_⟩
  rw [resolve, hdev]
  dsimp only
  rw [hproc]
  dsimp only
  rw [hsys]
  exact check_plain hfault ((hopen₂ _ rfl).grown hgrown₃) (hopen₃ _ rfl)
    ((hopen₁ _ rfl).grown (hgrown₂.trans hgrown₃)) rfl rfl rfl

/-- **Runtime mount targets are disjoint and confined.** Targets that resolve are directories
    of the image that lie apart; whatever comes of it, the image has at most gained empty
    directories of the runtime's names in its root; and plain names always resolve, faults
    of the kernel aside. -/
theorem runtime_targets (k : Kernel) (i : Image) :
    (∀ t, (resolve k i).1 = .ok t → Apart (resolve k i).2 t) ∧
    Grown k runtimeNames i (resolve k i).2 ∧
    (∀ name, i.tree.get? [name] = none → ∀ child, (resolve k i).2.tree.get? [name, child] = none) ∧
    ((∀ call, k.fault call = false) → (∀ name ∈ runtimeNames, Plain i name) →
      ∃ t, (resolve k i).1 = .ok t) := by
  have hrun : resolve k i = ((resolve k i).1, (resolve k i).2) := rfl
  obtain ⟨hgrown, hapart⟩ := resolve_grows hrun
  exact ⟨hapart, hgrown, fun name hnone child => hgrown.empty hnone child, resolve_plain⟩

/-- A kernel that fails nothing. -/
def sampleKernel : Kernel where
  fault _ := false
  alloc := steadyKernel.alloc
  fresh := steadyKernel.fresh
  made _ := 0o755

/-- The root and what is below it. -/
def sampleObjects : List (List Bytes × Network.Object) :=
  ([], linkedRoot.root) :: linkedRoot.entries.entries

theorem mem_sampleObjects {path : List Bytes} {object : Network.Object}
    (h : linkedRoot.get? path = some object) : (path, object) ∈ sampleObjects := by
  rw [Tree.get?] at h
  split at h
  · rename_i hpath
    rw [hpath, ← Option.some.inj h]
    exact List.mem_cons_self
  · exact List.mem_cons_of_mem _ (OrdMap.get?_eq_some.mp h)

/-- A root that has all three, and a link elsewhere. -/
def sampleImage : Image where
  tree := linkedRoot
  modes _ := 0o755
  root := rfl
  named path path' object object' h h' := by
    have hall : ∀ e ∈ sampleObjects, ∀ e' ∈ sampleObjects,
        e.2.kind = Kind.directory → e.2.ino = e'.2.ino → e.1 = e'.1 := by
      decide
    exact hall _ (mem_sampleObjects h) _ (mem_sampleObjects h')

theorem runtime_targets_sample : ∃ t, (resolve sampleKernel sampleImage).1 = .ok t ∧
    Apart (resolve sampleKernel sampleImage).2 t := by
  obtain ⟨hapart, -, -, hplain⟩ := runtime_targets sampleKernel sampleImage
  obtain ⟨t, ht⟩ := hplain (fun _ => rfl) fun name hname => by
    simp only [runtimeNames, List.mem_cons, List.not_mem_nil, or_false] at hname
    obtain rfl | rfl | rfl := hname
    · exact .inr ⟨2, by decide⟩
    · exact .inr ⟨3, by decide⟩
    · exact .inr ⟨4, by decide⟩
  exact ⟨t, ht, hapart t ht⟩

end Conglobate.Isolation.Runtime
