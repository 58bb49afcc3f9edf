import Conglobate.Isolation.ShellProps
import Conglobate.Lib.Flow

/- The injection of a shell as a whole (`isolation/shell.rs`).

   What is proved:
     1. `closure_closed` — what is injected: the two tools as they are, and under its own
        path every library that `ldd` names for one of them, once.
     2. `install_private` — an image with a shell is left as it is; one whose shell or `cat`
        is occupied is refused and left as it is; otherwise an injection that succeeds shows
        the files where they belong, in temporary file systems that hold nothing else, one
        for each top-level directory. Whatever fails, the image has at most new empty
        directories at its top. -/
namespace Conglobate.Isolation.Shell

open Copy Effect

/-! Libraries. -/

/-- The set of the libraries named, each under its components. -/
structure Libraries (named : List Bytes) (libs : OrdMap (List Bytes) Bytes) : Prop where
  keyed : ∀ e ∈ libs.entries, e.1 = pathKey e.2 ∧ e.2 ∈ named
  covers : ∀ path ∈ named, ∃ library, (pathKey path, library) ∈ libs.entries

theorem Libraries.insertPath {named : List Bytes} {libs : OrdMap (List Bytes) Bytes}
    (h : Libraries named libs) (path : Bytes) :
    Libraries (named ++ [path]) (insertPath libs path) := by
  have hold : ∀ e ∈ libs.entries, e.1 = pathKey e.2 ∧ e.2 ∈ named ++ [path] :=
    fun e he => ⟨(h.keyed e he).1, List.mem_append_left _ (h.keyed e he).2⟩
  unfold Shell.insertPath
  split
  · rename_i hcontains
    refine ⟨hold, fun other hother => ?_⟩
    obtain hother | hother := List.mem_append.mp hother
    · exact h.covers other hother
    · obtain rfl := List.mem_singleton.mp hother
      obtain ⟨library, hlibrary⟩ := Option.isSome_iff_exists.mp hcontains
      exact ⟨library, OrdMap.get?_eq_some.mp hlibrary⟩
  · rename_i hcontains
    have hnone : libs.get? (pathKey path) = none :=
      OrdMap.contains_eq_false.mp (Bool.not_eq_true _ ▸ hcontains)
    refine ⟨fun e he => ?_, fun other hother => ?_⟩
    · rw [← Prod.eta e, ← OrdMap.get?_eq_some, OrdMap.get?_insert] at he
      by_cases hkey : e.1 = pathKey path
      · rw [if_pos hkey] at he
        rw [← Option.some.inj he]
        exact ⟨hkey, List.mem_append_right _ (List.mem_singleton_self path)⟩
      · rw [if_neg hkey, OrdMap.get?_eq_some] at he
        exact hold e he
    · simp only [← OrdMap.get?_eq_some, OrdMap.get?_insert]
      by_cases hkey : pathKey other = pathKey path
      · exact ⟨path, if_pos hkey⟩
      · obtain hother | hother := List.mem_append.mp hother
        · obtain ⟨library, hlibrary⟩ := h.covers other hother
          exact ⟨library, by rw [if_neg hkey, OrdMap.get?_eq_some.mpr hlibrary]⟩
        · exact absurd (congrArg pathKey (List.mem_singleton.mp hother)) hkey

theorem Libraries.foldl {named paths : List Bytes} {libs : OrdMap (List Bytes) Bytes}
    (h : Libraries named libs) :
    Libraries (named ++ paths) (paths.foldl Shell.insertPath libs) := by
  induction paths generalizing named libs with
  | nil => rwa [List.append_nil]
  | cons path rest ih =>
    rw [List.foldl_cons, ← List.singleton_append, ← List.append_assoc]
    exact ih (h.insertPath path)

theorem pathParts_ne_nil {path part : Bytes} (h : part ∈ pathParts path) : part ≠ [] := by
  unfold pathParts at h
  split at h
  · exact absurd h List.not_mem_nil
  · obtain h | h := List.mem_append.mp h
    · split at h
      · exact absurd h List.not_mem_nil
      · rename_i hne
        rwa [List.mem_singleton.mp h]
    · obtain ⟨-, hkept⟩ := List.mem_filter.mp h
      rw [Bool.and_eq_true] at hkept
      exact of_decide_eq_true hkept.1

/-- A path's key has all of its components. -/
theorem pathParts_eq (path : Bytes) : pathParts path = (pathKey path).map fun part => if part =
    [] then dotdotName else part := by
  rw [pathKey, List.map_map]
  refine (List.map_id _).symm.trans (List.map_congr_left fun part hpart => ?_)
  show part = if (if part = dotdotName then [] else part) = [] then dotdotName else _
  by_cases hdots : part = dotdotName
  · rw [if_pos hdots, if_pos rfl, hdots]
  · rw [if_neg hdots, if_neg (pathParts_ne_nil hpart)]

theorem relativeFromAbsolute_ok {path : Bytes} {relative : List Bytes}
    (h : relativeFromAbsolute path = .ok relative) :
    relative = pathParts path ∧ pathKey path = pathParts path := by
  unfold relativeFromAbsolute at h
  split at h
  · cases h
  · rename_i hplain
    rw [Bool.or_eq_true, List.contains_iff_mem, not_or] at hplain
    obtain ⟨hdots, -⟩ := hplain
    refine ⟨(Except.ok.inj h).symm, ?_⟩
    have hsame : ∀ part ∈ pathParts path, (if part = dotdotName then [] else part) = part := by
      intro part hpart
      apply if_neg
      rintro rfl
      exact hdots hpart
    rw [pathKey, List.map_congr_left hsame]
    exact List.map_id' _

/-! What is injected. -/

/-- The tools with their bytes, and every library that `ldd` names for one of them. -/
structure Closed (a : Appliance) (files : List Placed) : Prop where
  shellThere : ∃ path bytes, hostTool a sh = .ok path ∧ readLoader a path = .ok bytes ∧
    ⟨binSh, bytes, true⟩ ∈ files
  catThere : ∃ path bytes, hostTool a cat = .ok path ∧ readLoader a path = .ok bytes ∧
    ⟨binCat, bytes, true⟩ ∈ files
  libraries : ∀ tool path paths library, tool = sh ∨ tool = cat → hostTool a tool = .ok path →
    loaderPaths a path = .ok paths → library ∈ paths → ∃ f ∈ files, f.relative = pathParts library
  only : ∀ f ∈ files, f.required = false → ∃ tool path paths library, (tool = sh ∨ tool = cat) ∧
    hostTool a tool = .ok path ∧
    loaderPaths a path = .ok paths ∧ library ∈ paths ∧ relativeFromAbsolute library =
      .ok f.relative ∧
    readLoader a library = .ok f.bytes
  distinct : (files.map Placed.relative).Nodup

/-- The files after some of the libraries. -/
structure Added (a : Appliance) (tools : List Placed) (front : List Bytes) (files : List Placed) :
    Prop where
  grown : ∃ added, files = tools ++ added ∧ ∀ f ∈ added, ∃ library ∈ front,
    relativeFromAbsolute library = .ok f.relative ∧ readLoader a library = .ok f.bytes ∧
      f.required = false
  covers : ∀ library ∈ front, ∃ f ∈ files, f.relative = pathParts library
  apart : Apart files
  distinct : (files.map Placed.relative).Nodup

/-- **One library more**, whose path comes after those before it. -/
theorem Added.step {a : Appliance} {shellBytes catBytes : Bytes} {front : List Bytes}
    {files files' : List Placed} {library : Bytes}
    (h : Added a [⟨binSh, shellBytes, true⟩, ⟨binCat, catBytes, true⟩] front files)
    (habove : ∀ before ∈ front, pathKey before < pathKey library)
    (hadd : addLoader a files library = .ok files') :
    Added a [⟨binSh, shellBytes, true⟩, ⟨binCat, catBytes, true⟩] (front ++ [library]) files' := by
  obtain ⟨relative, hrelative, hadd⟩ := except_bind_eq_ok.mp hadd
  obtain ⟨hparts, hkey⟩ := relativeFromAbsolute_ok hrelative
  obtain ⟨added, rfl, hadded⟩ := h.grown
  have hgrown : ∀ f ∈ added, ∃ before ∈ front ++ [library],
      relativeFromAbsolute before = .ok f.relative ∧ readLoader a before = .ok f.bytes ∧
          f.required = false := by
    intro f hf
    obtain ⟨before, hbefore, hplaced⟩ := hadded f hf
    exact ⟨before, List.mem_append_left _ hbefore, hplaced⟩
  split at hadd
  · -- there is a file with its path
    rename_i hthere
    cases hadd
    obtain ⟨g, hg, hsame⟩ := List.any_eq_true.mp hthere
    refine ⟨⟨added, rfl, hgrown⟩, fun other hother => ?_, h.apart, h.distinct⟩
    obtain hother | hother := List.mem_append.mp hother
    · exact h.covers other hother
    · exact ⟨g, hg, by rw [of_decide_eq_true hsame, hparts, List.mem_singleton.mp hother]⟩
  · rename_i hnone
    obtain ⟨bytes, hbytes, hadd⟩ := except_bind_eq_ok.mp hadd
    cases hadd
    have hnew : ∀ g ∈ [⟨binSh, shellBytes, true⟩, ⟨binCat, catBytes, true⟩] ++ added,
        g.relative ≠ relative :=
      fun g hg heq => hnone (List.any_eq_true.mpr ⟨g, hg, decide_eq_true heq⟩)
    refine ⟨⟨added ++ [⟨relative, bytes, false⟩], List.append_assoc _ _ _, fun f hf => ?_⟩,
      fun other hother => ?_, ?_, ?_⟩
    · obtain hf | hf := List.mem_append.mp hf
      · exact hgrown f hf
      · obtain rfl := List.mem_singleton.mp hf
        exact ⟨library, List.mem_append_right _ (List.mem_singleton_self library), hrelative,
          hbytes, rfl⟩
    · obtain hother | hother := List.mem_append.mp hother
      · obtain ⟨g, hg, hsame⟩ := h.covers other hother
        exact ⟨g, List.mem_append_left _ hg, hsame⟩
      · exact ⟨⟨relative, bytes, false⟩, List.mem_append_right _ (List.mem_singleton_self _),
          by rw [List.mem_singleton.mp hother, hparts]⟩
    · refine List.pairwise_append.mpr ⟨h.apart, List.pairwise_singleton _ _,
        fun g hg f hf hbelow => ?_⟩
      obtain rfl := List.mem_singleton.mp hf
      obtain hg' | hg' := List.mem_append.mp hg
      · -- a tool's path has two names
        have htwo : g.relative.length = 2 := by
          simp only [List.mem_cons, List.not_mem_nil, or_false] at hg'
          obtain rfl | rfl := hg' <;> rfl
        have hne : relative.length ≠ g.relative.length :=
          fun hlen => hnew g hg (hbelow.eq_of_length hlen).symm
        have hle : relative.length ≤ g.relative.length := hbelow.length_le
        show relative.length < 2
        omega
      · obtain ⟨before, hbefore, hrel, -⟩ := hadded g hg'
        obtain ⟨hparts', hkey'⟩ := relativeFromAbsolute_ok hrel
        have hlt := habove before hbefore
        rw [hkey, hkey', ← hparts, ← hparts'] at hlt
        exact absurd hlt ( not_lt_of_prefix hbelow)
    · rw [List.map_append]
      refine List.nodup_append.mpr ⟨h.distinct, List.nodup_singleton _, fun x hx y hy heq => ?_⟩
      obtain ⟨g, hg, rfl⟩ := List.mem_map.mp hx
      exact hnew g hg (heq.trans (List.mem_singleton.mp hy))

/-- **What is injected**, in an order in which no file is in the way of another one. -/
theorem closure_closed {a : Appliance} {files : List Placed} (h : closure a = .ok files) :
    Closed a files ∧ Apart files := by
  obtain ⟨shell, hshell, h⟩ := except_bind_eq_ok.mp h
  obtain ⟨cat', hcat, h⟩ := except_bind_eq_ok.mp h
  obtain ⟨libs, hlibs, h⟩ := except_bind_eq_ok.mp h
  obtain ⟨shellBytes, hshellBytes, h⟩ := except_bind_eq_ok.mp h
  obtain ⟨catBytes, hcatBytes, h⟩ := except_bind_eq_ok.mp h
  -- the libraries of both
  rw [List.foldlM_cons] at hlibs
  obtain ⟨first, hfirst, hlibs⟩ := except_bind_eq_ok.mp hlibs
  rw [List.foldlM_cons] at hlibs
  obtain ⟨second, hsecond, hlibs⟩ := except_bind_eq_ok.mp hlibs
  cases hlibs
  obtain ⟨shellPaths, hshellPaths, rfl⟩ := except_map_eq_ok.mp hfirst
  obtain ⟨catPaths, hcatPaths, rfl⟩ := except_map_eq_ok.mp hsecond
  have hempty : Libraries [] (OrdMap.empty : OrdMap (List Bytes) Bytes) :=
    ⟨fun e he => absurd he List.not_mem_nil, fun path hpath => absurd hpath List.not_mem_nil⟩
  have hshellLibraries : Libraries ([] ++ shellPaths) _ := hempty.foldl
  have hlibraries : Libraries (([] ++ shellPaths) ++ catPaths) _ := hshellLibraries.foldl
  rw [List.nil_append] at hlibraries
  -- one after the other, in the order of their paths
  have hadded := Flow.foldlM_partial (Added a [⟨binSh, shellBytes, true⟩,
    ⟨binCat, catBytes, true⟩]) ?_ ?_ h
  · obtain ⟨added, rfl, honly⟩ := hadded.grown
    refine ⟨⟨?_, ?_, ?_, ?_, hadded.distinct⟩, hadded.apart⟩
    · exact ⟨shell, shellBytes, hshell, hshellBytes, by simp⟩
    · exact ⟨cat', catBytes, hcat, hcatBytes, by simp⟩
    · intro tool path paths library htool hpath hpaths hmem
      have hnamed : library ∈ shellPaths ++ catPaths := by
        obtain rfl | rfl := htool
        · rw [hshell] at hpath
          cases hpath
          rw [hshellPaths] at hpaths
          cases hpaths
          exact List.mem_append_left _ hmem
        · rw [hcat] at hpath
          cases hpath
          rw [hcatPaths] at hpaths
          cases hpaths
          exact List.mem_append_right _ hmem
      obtain ⟨kept, hkept⟩ := hlibraries.covers library hnamed
      obtain ⟨f, hf, hsame⟩ := hadded.covers kept (List.mem_map.mpr ⟨_, hkept, rfl⟩)
      exact ⟨f, hf, by rw [hsame, pathParts_eq kept, ← (hlibraries.keyed _ hkept).1, pathParts_eq library]⟩
    · intro f hf hplain
      obtain hf | hf := List.mem_append.mp hf
      · simp only [List.mem_cons, List.not_mem_nil, or_false] at hf
        obtain rfl | rfl := hf <;> cases hplain
      obtain ⟨library, hlibrary, hrelative, hbytes, -⟩ := honly f hf
      obtain ⟨e, he, rfl⟩ := List.mem_map.mp hlibrary
      obtain hnamed | hnamed := List.mem_append.mp (hlibraries.keyed e he).2
      · exact ⟨sh, shell, shellPaths, e.2, .inl rfl, hshell, hshellPaths, hnamed, hrelative, hbytes⟩
      · exact ⟨cat, cat', catPaths, e.2, .inr rfl, hcat, hcatPaths, hnamed, hrelative, hbytes⟩
  · refine ⟨⟨[], rfl, fun f hf => absurd hf List.not_mem_nil⟩, fun library hl =>
      absurd hl List.not_mem_nil, ?_, ?_⟩
    · exact List.pairwise_pair.mpr fun hbelow => absurd hbelow (show ¬ binCat <+: binSh by decide)
    · show [binSh, binCat].Nodup
      decide
  · intro front library rest files before hfront hfiles hadd
    refine hfiles.step (fun other hother => ?_) hadd
    have hsorted : ((List.foldl Shell.insertPath
        (List.foldl Shell.insertPath OrdMap.empty shellPaths) catPaths).entries.map Prod.snd).Pairwise
          fun x y => pathKey x < pathKey y := by
      refine List.pairwise_map.mpr (List.Pairwise.imp_of_mem (fun hx hy hlt => ?_)
        (OrdMap.sorted _))
      rwa [← (hlibraries.keyed _ hx).1, ← (hlibraries.keyed _ hy).1]
    rw [hfront] at hsorted
    exact (List.pairwise_append.mp hsorted).2.2 other hother library List.mem_cons_self

/-! The image before. -/

/-- Links followed, and never out of the image. -/
def HasShell (image : Files) : Prop :=
  ∃ path, image.inRoot 0 [] binSh = .ok path ∧ (image.get? path).any Node.isFile = true

/-- What is there is no regular file, or reached by a link. -/
def Occupied (image : Files) (relative : List Bytes) : Prop :=
  image.direct [] relative ≠ .error .noent ∧
    ∀ path, image.direct [] relative = .ok path → (image.get? path).any Node.isFile = false

def Untouched (image : Files) (w : World) : Prop := w.layer = image ∧ w.mounts = []

section
variable {k : Kernel} {a : Appliance} {image : Files}

theorem untouched_callfree : Callfree (Untouched image) := fun _ _ h => h

theorem shellPresent_triple : Triple (Untouched image) (shellPresent k)
    (fun present w => Untouched image w ∧ (present = true ↔ HasShell image))
      (fun _ => Untouched image) := by
  refine Triple.bind (call_triple untouched_callfree fun w h => h) fun _ => ?_
  refine Triple.bind (Q := fun a w => a = w ∧ Untouched image w)
    (Triple.get fun w h => ⟨rfl, h⟩) fun w₀ => ?_
  refine Triple.imp (P := fun w => Untouched image w ∧ w₀.layer = image) ?_
    (fun w h => ⟨h.2, h.1 ▸ h.2.1⟩) (fun _ _ h => h)
    (fun _ _ h => h)
  by_cases hlayer : w₀.layer = image
  case neg => exact fun w h => absurd h.2 hlayer
  rw [hlayer]
  have hnot : ∀ e, image.inRoot 0 [] binSh = .error e → (false = true ↔ HasShell image) := by
    intro e herror
    refine iff_of_false Bool.false_ne_true fun hshell => ?_
    obtain ⟨path, hpath, -⟩ := hshell
    rw [herror] at hpath
    cases hpath
  cases hwalk : image.inRoot 0 [] binSh with
  | ok path =>
    refine Triple.imp (P := Untouched image) ?_ (fun w h => h.1) (fun _ _ h => h) (fun _ _ h => h)
    refine Triple.bind (call_triple untouched_callfree fun w h => h) fun _ =>
      Triple.pure fun w h => ?_
    refine ⟨h, fun hfile => ⟨path, hwalk, hfile⟩, fun hshell => ?_⟩
    obtain ⟨path', hpath', hfile⟩ := hshell
    rw [hwalk] at hpath'
    cases hpath'
    exact hfile
  | error e =>
    cases e with
    | noent => exact Triple.pure fun w h => ⟨h.1, hnot _ hwalk⟩
    | notdir => exact Triple.pure fun w h => ⟨h.1, hnot _ hwalk⟩
    | loop => exact Triple.throw fun w h => h.1
    | exist => exact Triple.throw fun w h => h.1
    | other => exact Triple.throw fun w h => h.1

theorem rejectNonRegular_triple (relative : List Bytes) :
    Triple (Untouched image) (rejectNonRegular k relative)
    (fun _ w => Untouched image w ∧ ¬ Occupied image relative) (fun _ => Untouched image) := by
  refine Triple.bind (call_triple untouched_callfree fun w h => h) fun _ => ?_
  refine Triple.bind (Q := fun a w => a = w ∧ Untouched image w)
    (Triple.get fun w h => ⟨rfl, h⟩) fun w₀ => ?_
  refine Triple.imp (P := fun w => Untouched image w ∧ w₀.layer = image) ?_
    (fun w h => ⟨h.2, h.1 ▸ h.2.1⟩) (fun _ _ h => h)
    (fun _ _ h => h)
  by_cases hlayer : w₀.layer = image
  case neg => exact fun w h => absurd h.2 hlayer
  rw [hlayer]
  cases hwalk : image.direct [] relative with
  | ok path =>
    refine Triple.imp (P := Untouched image) ?_ (fun w h => h.1) (fun _ _ h => h) (fun _ _ h => h)
    refine Triple.bind (call_triple untouched_callfree fun w h => h) fun _ => ?_
    refine Triple.ite (fun hfile => Triple.pure fun w h => ⟨h, fun hoccupied => ?_⟩) fun _ =>
      Triple.throw fun w h => h
    have hnofile := hoccupied.2 path hwalk
    rw [hfile] at hnofile
    cases hnofile
  | error e =>
    cases e with
    | noent => exact Triple.pure fun w h => ⟨h.1, fun hoccupied => hoccupied.1 hwalk⟩
    | notdir => exact Triple.throw fun w h => h.1
    | loop => exact Triple.throw fun w h => h.1
    | exist => exact Triple.throw fun w h => h.1
    | other => exact Triple.throw fun w h => h.1

/-! The image after. -/

/-- At most new directories at its top, with nothing in them. -/
def Grown (k : Kernel) (image : Files) (bare : Option Bytes) (layer : Files) : Prop :=
  Points k image bare layer ∧ ∀ top path, image.get? [top] = none → path ≠ [] →
    layer.get? (top :: path) = none

/-- The files are seen where they belong. -/
structure Injected (k : Kernel) (a : Appliance) (image : Files) (files : List Placed) (w : World) :
    Prop where
  closed : Closed a files
  seen : ∀ f ∈ files, w.visible f.relative = some (.file f.bytes 0o755)
  tops : w.tops.Nodup
  touched : ∀ top, top ∈ w.tops ↔ ∃ f ∈ files, f.relative.head? = some top
  only : ∀ top path node, top ∈ w.tops → path ≠ [] → w.visible (top :: path) = some node →
    (∃ f ∈ files, f.relative = top :: path ∧ node = .file f.bytes 0o755) ∨
      (node = .directory 0o755 ∧ ∃ f ∈ files, top :: path <+: f.relative ∧ top :: path ≠ f.relative)
  layer : Grown k image none w.layer

theorem Points.empty {bare : Option Bytes} {layer : Files} (h : Points k image bare layer) :
    Grown k image bare layer := by
  refine ⟨h, fun top path hnone hpath => ?_⟩
  have hbelow : ∀ rest, image.get? (top :: rest) = none := by
    intro rest
    induction rest using List.reverseRecOn with
    | nil => exact hnone
    | append_singleton rest name ih =>
      by_contra hsome
      obtain hroot | hdir := image.parents (top :: rest) name hsome
      · cases hroot
      · rw [show image.entries.get? (top :: rest) = none from ih] at hdir
        cases hdir
  obtain hsame | ⟨t, heq, -⟩ := h (top :: path)
  · rw [hsame, hbelow]
  · exact absurd (List.cons.inj heq).2 hpath

theorem Laid.injected {files : List Placed} {w : World} (h : Laid k image files files w)
    (hclosed : Closed a files) :
    Injected k a image files w := by
  have hprivate : ∀ top ∈ w.tops, ∃ t, w.private? top = some t ∧ w.files top = t := by
    intro top htop
    cases hp : w.private? top with
    | none => exact absurd htop (World.private?_eq_none.mp hp)
    | some t => exact ⟨t, rfl, by rw [World.files, hp]; rfl⟩
  have hvisible : ∀ top path, top ∈ w.tops → path ≠ [] → w.visible (top :: path) =
      (w.files top).get? path := by
    intro top path htop hpath
    obtain ⟨t, hsome, hfiles⟩ := hprivate top htop
    rw [World.visible, hsome, hfiles]
    exact if_neg hpath
  refine ⟨hclosed, fun f hf => ?_, h.tops, fun top => ⟨h.touched top, fun hhead => ?_⟩,
    fun top path node htop hpath hseen => ?_, h.layer.empty⟩
  · obtain ⟨top, rest, hrelative, hrest, htop, hget⟩ := h.holds f hf
    rw [hrelative, hvisible top rest htop hrest, hget]
  · obtain ⟨f, hf, hhead⟩ := hhead
    obtain ⟨t, rest, hrelative, -, ht, -⟩ := h.holds f hf
    rw [hrelative, List.head?_cons] at hhead
    rwa [← Option.some.inj hhead]
  · rw [hvisible top path htop hpath] at hseen
    exact h.only top path node hseen

/-- **The injection of a shell** leaves nothing on the image but new empty directories. -/
theorem install_private {w : World} (hmounts : w.mounts = []) :
    Triple (fun s => s = w) (install k a)
    (fun _ w' => (HasShell w.layer → Untouched w.layer w') ∧ (¬ HasShell w.layer →
      ¬ Occupied w.layer binSh ∧ ¬ Occupied w.layer binCat ∧
        ∃ files, Injected k a w.layer files w'))
    (fun _ w' => (HasShell w.layer ∨ Occupied w.layer binSh ∨ Occupied w.layer binCat →
      Untouched w.layer w') ∧ ∃ bare, Grown k w.layer bare w'.layer) := by
  have hsame : ∀ s, Untouched w.layer s → ∃ bare, Grown k w.layer bare s.layer :=
    fun s hs => ⟨none, Points.empty fun path => .inl (by rw [hs.1])⟩
  have hfails : ∀ s, Untouched w.layer s → (HasShell w.layer ∨ Occupied w.layer binSh ∨
      Occupied w.layer binCat →
      Untouched w.layer s) ∧ ∃ bare, Grown k w.layer bare s.layer :=
        fun s hs => ⟨fun _ => hs, hsame s hs⟩
  refine Triple.imp (P := Untouched w.layer) ?_ (fun s hs => by rw [hs]; exact ⟨rfl, hmounts⟩)
    (fun _ _ h => h) (fun _ _ h => h)
  refine Triple.bind (shellPresent_triple.imp (fun _ h => h) (fun _ _ h => h) fun _ s hs =>
    hfails s hs) fun present => ?_
  refine Triple.ite (fun hpresent => Triple.pure fun s hs => ?_) fun habsent => ?_
  · exact ⟨fun _ => hs.1, fun hnot => absurd (hs.2.mp hpresent) hnot⟩
  by_cases hshell : HasShell w.layer
  case pos => exact fun s hs => absurd (hs.2.mpr hshell) habsent
  refine Triple.imp (P := Untouched w.layer) ?_ (fun s hs => hs.1) (fun _ _ h => h) (fun _ _ h => h)
  -- neither of the two may be occupied
  refine Triple.bind ((rejectNonRegular_triple binSh).imp (fun _ h => h)
    (fun _ _ h => h) fun _ s hs => hfails s hs) fun _ => ?_
  by_cases hsh : Occupied w.layer binSh
  case pos => exact fun s hs => absurd hsh hs.2
  refine Triple.imp (P := Untouched w.layer) ?_ (fun s hs => hs.1) (fun _ _ h => h) (fun _ _ h => h)
  refine Triple.bind ((rejectNonRegular_triple binCat).imp (fun _ h => h)
    (fun _ _ h => h) fun _ s hs => hfails s hs) fun _ => ?_
  by_cases hcat : Occupied w.layer binCat
  case pos => exact fun s hs => absurd hcat hs.2
  refine Triple.imp (P := Untouched w.layer) ?_ (fun s hs => hs.1) (fun _ _ h => h) (fun _ _ h => h)
  refine Triple.bind (Q := fun files s => closure a = .ok files ∧ Untouched w.layer s)
    (Triple.lift (fun files s hfiles hs => ⟨hfiles, hs⟩) fun _ s _ hs => hfails s hs) fun files =>
      ?_
  cases hclosure : closure a with
  | error e => exact fun s hs => by cases hs.1
  | ok placed =>
    by_cases hfiles : placed = files
    case neg => exact fun s hs => absurd (Except.ok.inj hs.1) hfiles
    obtain ⟨hclosed, hapart⟩ := closure_closed hclosure
    rw [← hfiles]
    refine Triple.imp (P := Laid k w.layer [] []) (forM_place_triple hapart) (fun s hs => ?_)
      (fun _ s hs => ?_) fun _ s hs => ?_
    · obtain ⟨-, hlayer, hnone⟩ := hs
      have htops : s.tops = [] := by rw [World.tops, hnone]; rfl
      have hfiles : ∀ top, s.files top = .empty :=
        fun top => World.files_of_apart (by rw [htops]; exact List.not_mem_nil)
      refine ⟨fun path => .inl (by rw [hlayer]), by rw [htops]; exact List.nodup_nil, fun top htop => ?_,
        fun f hf => absurd hf List.not_mem_nil, fun top path node hget => ?_⟩
      · rw [htops] at htop
        exact absurd htop List.not_mem_nil
      · rw [hfiles] at hget
        cases hget
    · exact ⟨fun hyes => absurd hyes hshell, fun _ => ⟨hsh, hcat, placed, hs.injected hclosed⟩⟩
    · exact ⟨fun hyes => absurd hyes (by simp [hshell, hsh, hcat]), hs.imp fun _ => Points.empty⟩

/-! An appliance, and an image without a shell. -/

/-- "ldd" -/
def sampleLdd : Bytes := [108, 100, 100]

def sampleAppliance : Appliance where
  isFile path := [slashBin ++ sh, slashUsrBin ++ cat, slashUsrBin ++ sampleLdd].contains path
  metadata _ := .ok (true, 3)
  read path := .ok path
  ldd _ _ := .ok "linux-vdso.so.1\n\tc => /lib/c (0x2)\n\t/lib64/ld (0x3)\n".toList

def sampleKernel : Kernel := ⟨fun _ => false, 0o700, fun _ => 0⟩

def sampleWorld : World := ⟨Files.empty.create [] [101, 116, 99] (.directory 0o755), [], 0⟩

theorem sample_walk : sampleWorld.layer.inRoot 0 [] binSh = .error .noent := by
  rw [binSh, Files.inRoot]
  rfl

theorem sample_absent : shellPresent sampleKernel sampleWorld =
    .ok false { sampleWorld with calls := 1 } := by
  refine bind_eq_ok.mpr ⟨(), { sampleWorld with calls := 1 }, rfl, ?_⟩
  refine bind_eq_ok.mpr ⟨{ sampleWorld with calls := 1 }, { sampleWorld with calls := 1 }, rfl, ?_⟩
  dsimp only
  rw [sample_walk]
  rfl

/-- `install_private` where there is no shell. -/
theorem sample_private : ∃ w', install sampleKernel sampleAppliance sampleWorld = .ok () w' ∧
    ∃ files, Injected sampleKernel sampleAppliance sampleWorld.layer files w' := by
  have hrest : ∃ u w', (do
      rejectNonRegular sampleKernel binSh
      rejectNonRegular sampleKernel binCat
      let files ← Effect.lift (closure sampleAppliance)
      files.forM (place sampleKernel)) { sampleWorld with calls := 1 } = .ok u w' :=
        exists_of_succeeds (by decide +kernel)
  obtain ⟨u, w', hrest⟩ := hrest
  have hrun : install sampleKernel sampleAppliance sampleWorld = .ok u w' :=
    bind_eq_ok.mpr ⟨false, _, sample_absent, hrest⟩
  have hno : ¬ HasShell sampleWorld.layer := by
    intro hshell
    obtain ⟨path, hpath, -⟩ := hshell
    rw [sample_walk] at hpath
    cases hpath
  exact ⟨w', hrun, ((install_private rfl sampleWorld rfl).1 u w' hrun).2 hno |>.2.2⟩

end

end Conglobate.Isolation.Shell
