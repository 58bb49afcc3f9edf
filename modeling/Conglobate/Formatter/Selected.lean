import Conglobate.Formatter.Capture
import Conglobate.Lib.Flow

/- What is selected to format with (`formatter/selection.rs`, `formatter/runtime.rs`).

   What is proved:
     1. `dependencies_eq_ok` — what a tool loads is what the lines of `ldd` name, and none
        of them says that something was not found;
     2. `hostTool_provides` — a captured tool has itself and what it loads, and nothing
        else, as the root has it;
     3. `selected` — what a filesystem is formatted with has `mke2fs`, with an ESP also
        `mkfs.fat`, what each of them loads, and the builder's own configuration. -/
namespace Conglobate.Formatter

open Plan

section Lines
variable {host : Host} {executable : Bytes}

/-- The file that a line of `ldd` names. -/
def named (host : Host) (line : Text) : Option Bytes :=
  (((Text.words line).find? (fun token => token.head? = some '/')).map Text.utf8).filter host.isFile

/-- A line that says what was not found. -/
def missing (line : Text) : Bool := Text.hasPart line "not found".toList

theorem dependency_eq_ok {found found' : List Bytes} {line : Text} :
    dependency host found line = .ok found' ↔ missing line = false ∧
      found' = found ++ (named host line).toList := by
  rw [dependency, named, missing]
  split
  · rename_i hmissing
    exact iff_of_false (fun heq => by cases heq) fun h => absurd
      (hmissing.symm.trans h.1) (by decide)
  · rename_i hmissing
    rw [Bool.not_eq_true] at hmissing
    rw [hmissing]
    split
    · rename_i token htoken
      rw [htoken, Option.map_some]
      by_cases hfile : host.isFile token.utf8 = true
      · rw [if_pos hfile, Option.filter_some, if_pos hfile]
        exact ⟨fun heq => ⟨rfl, (Except.ok.inj heq).symm⟩, fun h => congrArg Except.ok h.2.symm⟩
      · rw [if_neg hfile, Option.filter_some, if_neg hfile]
        simp only [Option.toList_none, List.append_nil, true_and]
        exact ⟨fun heq => (Except.ok.inj heq).symm, fun h => congrArg Except.ok h.symm⟩
    · rename_i htoken
      rw [htoken]
      simp only [Option.map_none, Option.filter_none, Option.toList_none, List.append_nil, true_and]
      exact ⟨fun heq => (Except.ok.inj heq).symm, fun h => congrArg Except.ok h.symm⟩

theorem foldlM_dependency {lines : List Text} {found loaded : List Bytes} :
    lines.foldlM (dependency host) found = .ok loaded ↔
      (∀ line ∈ lines, missing line = false) ∧ loaded = found ++ lines.filterMap (named host) := by
  induction lines generalizing found with
  | nil =>
    rw [List.foldlM_nil, List.filterMap_nil, List.append_nil]
    exact ⟨fun heq => ⟨List.forall_mem_nil _, (Except.ok.inj heq).symm⟩,
      fun h => congrArg Except.ok h.2.symm⟩
  | cons line rest ih =>
    rw [List.foldlM_cons, except_bind_eq_ok, List.forall_mem_cons]
    have happend : (line :: rest).filterMap (named host) = (named host line).toList ++
        rest.filterMap (named host) := by
      rw [List.filterMap_cons]
      cases named host line <;> rfl
    rw [happend]
    refine ⟨fun h => ?_, fun h => ?_⟩
    · obtain ⟨mid, hline, hrest⟩ := h
      obtain ⟨hmissing, rfl⟩ := dependency_eq_ok.mp hline
      obtain ⟨hall, rfl⟩ := ih.mp hrest
      exact ⟨⟨hmissing, hall⟩, List.append_assoc ..⟩
    · obtain ⟨⟨hmissing, hall⟩, rfl⟩ := h
      exact ⟨_, dependency_eq_ok.mpr ⟨hmissing, rfl⟩, ih.mpr ⟨hall, (List.append_assoc ..).symm⟩⟩

/-- **What a tool loads.** -/
theorem dependencies_eq_ok {loaded : List Bytes} :
    dependencies host executable = .ok loaded ↔
      ∃ text, host.ldd executable = .ok text ∧ (∀ line ∈ Text.lines text, missing line = false) ∧
        loaded = (Text.lines text).filterMap (named host) := by
  rw [dependencies, except_bind_eq_ok]
  simp only [foldlM_dependency, List.nil_append]

end Lines

/-! Capture. -/

section Capture
variable {root : Root} {files captured : Runtime} {paths : List ContextPath} {c : CapturedFormatter}

theorem captureFile_eq_ok {path : ContextPath} (h : captureFile root files path = .ok captured) :
    ∃ file, FormatterFile.capture root path = .ok file ∧ captured = files.insert path file := by
  rw [captureFile] at h
  split at h
  · cases h
  · obtain ⟨file, hfile, hinsert⟩ := except_bind_eq_ok.mp h
    cases hinsert
    exact ⟨file, hfile, rfl⟩

/-- **Every path is captured**, and what was captured is at one of them. -/
theorem captured_files (h : paths.foldlM (captureFile root) files = .ok captured) :
    (∀ path, path ∈ captured.keys ↔ path ∈ files.keys ∨ path ∈ paths) ∧
      ∀ path file, captured.get? path = some file → files.get? path = some file ∨
        FormatterFile.capture root path = .ok file := by
  induction paths generalizing files with
  | nil =>
    cases h
    exact ⟨fun path => (or_iff_left List.not_mem_nil).symm, fun path file hfile => .inl hfile⟩
  | cons path rest ih =>
    rw [List.foldlM_cons] at h
    obtain ⟨mid, hpath, hrest⟩ := except_bind_eq_ok.mp h
    obtain ⟨file, hfile, rfl⟩ := captureFile_eq_ok hpath
    obtain ⟨hkeys, hfiles⟩ := ih hrest
    refine ⟨fun other => ?_, fun other file' hother => ?_⟩
    · rw [hkeys, OrdMap.mem_keys_insert, List.mem_cons, or_comm (a := other = path), or_assoc]
    · obtain hinsert | hroot := hfiles other file' hother
      · rw [OrdMap.get?_insert] at hinsert
        split at hinsert
        · rename_i heq
          cases hinsert
          exact .inr (heq ▸ hfile)
        · exact .inl hinsert
      · exact .inr hroot

theorem ofFiles_eq_ok {executable : ContextPath} (h : ofFiles executable files = .ok c) :
    c.executable = executable ∧ c.files = files ∧ c.fat = none := by
  rw [ofFiles] at h
  split at h
  · cases h
  · split at h
    · cases h
      exact ⟨rfl, rfl, rfl⟩
    · cases h

/-- A file as the root has it. -/
def Sourced (host : Host) (path : ContextPath) (file : FormatterFile) : Prop :=
  ∃ root, host.root = .ok root ∧ FormatterFile.capture root path = .ok file

theorem capture_eq_ok {host : Host} {executable : ContextPath}
    (h : capture host.root executable paths = .ok c) :
    c.executable = executable ∧ c.fat = none ∧ (∀ path, path ∈ c.files.keys ↔ path ∈ paths) ∧
      ∀ path file, c.files.get? path = some file → Sourced host path file := by
  obtain ⟨root, hroot, hrest⟩ := except_bind_eq_ok.mp h
  split at hrest
  · cases hrest
  · obtain ⟨files, hfiles, hchecked⟩ := except_bind_eq_ok.mp hrest
    obtain ⟨hexecutable, rfl, hfat⟩ := ofFiles_eq_ok hchecked
    obtain ⟨hkeys, hcaptured⟩ := captured_files hfiles
    refine ⟨hexecutable, hfat, fun path => ?_, fun path file hfile => ?_⟩
    · rw [hkeys, OrdMap.keys_empty]
      exact or_iff_right List.not_mem_nil
    · obtain hempty | hsame := hcaptured path file hfile
      · cases hempty
      · exact ⟨root, hroot, hsame⟩

end Capture

/-! Tools. -/

/-- A tool of the host: itself, and what `ldd` says that it loads. -/
def Provides (host : Host) (name : Text) (executable : ContextPath) (paths : List ContextPath) :
    Prop :=
  ∃ tool text, findTool host name = .ok tool ∧ stripRoot host tool = .ok executable.names ∧
    host.ldd tool = .ok text ∧ (∀ line ∈ Text.lines text, missing line = false) ∧
    ∀ path, path ∈ paths ↔ path = executable ∨
      ∃ line ∈ Text.lines text, ∃ file, named host line = some file ∧ stripRoot host file =
        .ok path.names

section Tools
variable {host : Host} {name : Text} {c fat : CapturedFormatter}

theorem mem_checked {names : List (List Bytes)} {paths : List ContextPath}
    (h : names.mapM ContextPath.check = .ok paths) (path : ContextPath) :
    path ∈ paths ↔ path.names ∈ names := by
  have hall := except_mapM_eq_ok.mp h
  clear h
  induction hall with
  | nil => exact iff_of_false List.not_mem_nil List.not_mem_nil
  | @cons names other rest paths hcheck hrest ih =>
    rw [List.mem_cons, List.mem_cons, ← ContextPath.check_eq_ok.mp hcheck]
    exact or_congr ⟨congrArg ContextPath.names, fun heq => ContextPath.names_injective heq⟩ ih

theorem mem_inserted {others : List (List Bytes)} {files : PathSet} {names : List Bytes} :
    names ∈ (others.foldl (fun files path => files.insert path ()) files).keys ↔
      names ∈ files.keys ∨ names ∈ others := by
  induction others generalizing files with
  | nil => exact (or_iff_left List.not_mem_nil).symm
  | cons path rest ih =>
    rw [List.foldl_cons, ih, OrdMap.mem_keys_insert, List.mem_cons,
      or_comm (a := names = path), or_assoc]

theorem mem_stripped {loaded : List Bytes} {others : List (List Bytes)}
    (h : loaded.mapM (stripRoot host) = .ok others) (names : List Bytes) :
    names ∈ others ↔ ∃ file ∈ loaded, stripRoot host file = .ok names := by
  have hall := except_mapM_eq_ok.mp h
  clear h
  induction hall with
  | nil =>
    exact iff_of_false List.not_mem_nil fun hmem => by obtain ⟨file, hfile, -⟩ := hmem; cases hfile
  | @cons file other rest others hstrip hrest ih =>
    rw [List.mem_cons, List.exists_mem_cons_iff, hstrip]
    exact or_congr ⟨fun heq => congrArg Except.ok heq.symm, fun heq => (Except.ok.inj heq).symm⟩ ih

/-- **A captured tool** has itself and what it loads, as the root has it. -/
theorem hostTool_provides (h : hostTool host name = .ok c) :
    Provides host name c.executable c.files.keys ∧ c.fat = none ∧
      ∀ path file, c.files.get? path = some file → Sourced host path file := by
  obtain ⟨tool, htool, h⟩ := except_bind_eq_ok.mp h
  obtain ⟨relative, hrelative, h⟩ := except_bind_eq_ok.mp h
  obtain ⟨loaded, hloaded, h⟩ := except_bind_eq_ok.mp h
  obtain ⟨others, hothers, h⟩ := except_bind_eq_ok.mp h
  obtain ⟨paths, hpaths, h⟩ := except_bind_eq_ok.mp h
  obtain ⟨executable, hexecutable, h⟩ := except_bind_eq_ok.mp h
  obtain ⟨text, hldd, hmissing, hall⟩ := dependencies_eq_ok.mp hloaded
  rw [hall] at hothers
  obtain ⟨hself, hfat, hkeys, hfiles⟩ := capture_eq_ok h
  have hnames := ContextPath.check_eq_ok.mp (except_mapError_eq_ok.mp hexecutable)
  rw [← hself] at hnames
  refine ⟨⟨tool, text, htool, hnames.symm ▸ hrelative, hldd, hmissing, fun path => ?_⟩,
    hfat, hfiles⟩
  rw [hkeys, mem_checked (except_mapError_eq_ok.mp hpaths), mem_inserted, OrdMap.mem_keys_insert,
    OrdMap.keys_empty, mem_stripped hothers, ← hnames]
  simp only [List.not_mem_nil, or_false, List.mem_filterMap]
  refine or_congr ⟨fun heq => ContextPath.names_injective heq, congrArg ContextPath.names⟩
    ⟨fun hmem => ?_, fun hmem => ?_⟩
  · obtain ⟨file, ⟨line, hline, hnamed⟩, hstrip⟩ := hmem
    exact ⟨line, hline, file, hnamed, hstrip⟩
  · obtain ⟨line, hline, file, hnamed, hstrip⟩ := hmem
    exact ⟨file, ⟨line, hline, hnamed⟩, hstrip⟩

end Tools

/-! Selection. -/

section Selection
variable {host : Host} {c d fat : CapturedFormatter}

theorem withConfiguration_eq_ok (h : withConfiguration c = .ok d) :
    d.executable = c.executable ∧ d.fat = c.fat ∧ c.files.get? configurationPath = none ∧
      d.files = c.files.insert configurationPath configuration := by
  rw [withConfiguration] at h
  split at h
  · cases h
  · rename_i hclashes
    cases h
    exact ⟨rfl, rfl, (free_of_clashes hclashes).2, rfl⟩

theorem withFat_eq_ok (h : withFat c fat = .ok d) :
    d.executable = c.executable ∧ d.fat = some fat.executable ∧ ¬ differ c.files fat.files = true ∧
      d.files = c.files.extend fat.files := by
  rw [withFat] at h
  split at h
  · cases h
  · rename_i hdiffer
    cases h
    exact ⟨rfl, rfl, hdiffer, rfl⟩

end Selection

/-- **What a filesystem is formatted with**: `mke2fs`, with an ESP `mkfs.fat`, all that they
    load, each file as the root has it, and the builder's own configuration. -/
theorem selected (host : Host) (spec : Format) (c : CapturedFormatter)
    (h : forFilesystem host spec = .ok c) :
    ∃ paths more, Provides host mke2fs c.executable paths ∧
      (spec.esp = none ∧ c.fat = none ∧ more = [] ∨
        ∃ fat, spec.esp.isSome = true ∧ c.fat = some fat ∧ Provides host mkfsFat fat more) ∧
      (∀ path, path ∈ c.files.keys ↔ path = configurationPath ∨ path ∈ paths ∨ path ∈ more) ∧
      c.files.get? configurationPath = some configuration ∧
      ∀ path file, c.files.get? path = some file → path ∈ paths ∨ path ∈ more →
        Sourced host path file := by
  obtain ⟨captured, hcaptured, h⟩ := except_bind_eq_ok.mp h
  obtain ⟨tool, htool, hconfigured⟩ := except_bind_eq_ok.mp hcaptured
  obtain ⟨hprovides, hnofat, hsourced⟩ := hostTool_provides htool
  obtain ⟨hself, hfat, hfree, hfiles⟩ := withConfiguration_eq_ok hconfigured
  have hconfiguration : captured.files.get? configurationPath = some configuration := by
    rw [hfiles, OrdMap.get?_insert, if_pos rfl]
  -- a captured file that is not the configuration is the tool's
  have hold : ∀ path file, captured.files.get? path = some file → path ∈ tool.files.keys →
      Sourced host path file := by
    intro path file hfile hmem
    rw [hfiles, OrdMap.get?_insert] at hfile
    split at hfile
    · rename_i heq
      rw [heq, OrdMap.mem_keys, hfree] at hmem
      cases hmem
    · exact hsourced path file hfile
  split at h
  · rename_i hesp
    obtain ⟨fat, hfatTool, hwith⟩ := except_bind_eq_ok.mp h
    obtain ⟨hprovides', -, hsourced'⟩ := hostTool_provides hfatTool
    obtain ⟨hself', hfat', hdiffer, hextended⟩ := withFat_eq_ok hwith
    refine ⟨tool.files.keys, fat.files.keys, ?_, .inr ⟨fat.executable, hesp, hfat', hprovides'⟩,
      fun path => ?_, ?_, fun path file hfile hmem => ?_⟩
    · rw [hself', hself]
      exact hprovides
    · rw [hextended, OrdMap.mem_keys_extend, hfiles, OrdMap.mem_keys_insert, or_comm, or_assoc]
    · rw [hextended]
      exact get?_extend_of_differ hdiffer hconfiguration
    · rw [hextended, OrdMap.get?_extend] at hfile
      cases hnew : fat.files.get? path with
      | some new =>
        rw [hnew] at hfile
        cases hfile
        exact hsourced' path _ hnew
      | none =>
        rw [hnew, Option.none_or] at hfile
        obtain hmem | hmem := hmem
        · exact hold path file hfile hmem
        · rw [OrdMap.mem_keys, hnew] at hmem
          cases hmem
  · rename_i hesp
    cases h
    refine ⟨tool.files.keys, [], hself ▸ hprovides,
      .inl ⟨by simpa using hesp, hfat.trans hnofat, rfl⟩, fun path => ?_,
      hconfiguration, fun path file hfile hmem => hold path file hfile
        (hmem.resolve_right List.not_mem_nil)⟩
    rw [hfiles, OrdMap.mem_keys_insert, or_iff_left List.not_mem_nil]

/-! A host with both tools. -/

/-- "/usr/sbin/" -/
def slashUsrSbin : Bytes := [47, 117, 115, 114, 47, 115, 98, 105, 110, 47]

/-- "/lib/libc.so" -/
def sampleLibrary : Text := "/lib/libc.so".toList

def sampleHost : Host where
  directories := []
  isFile path := [slashUsrSbin ++ mke2fs.utf8, slashUsrSbin ++ mkfsFat.utf8,
    sampleLibrary.utf8].contains path
  canonicalize path := .ok path
  ldd _ := .ok ("\tlinux-vdso.so.1\n\tlibc.so => ".toList ++ sampleLibrary ++ " (0x7f)\n".toList)
  root := .ok ⟨true, fun path => .ok ⟨true, path.names.length, path.names.map fun _ => 127, 0o755⟩⟩

def sampleFormat : Format where
  filesystem := .ext4
  size := ⟨512, by decide, by decide⟩
  label := []
  esp := some ⟨257, by decide, by decide⟩

theorem sample_captured : ∃ c, forFilesystem sampleHost sampleFormat = .ok c := by
  have hok : (forFilesystem sampleHost sampleFormat).isOk = true := by decide +kernel
  cases hc : forFilesystem sampleHost sampleFormat with
  | error e =>
    rw [hc] at hok
    cases hok
  | ok c => exact ⟨c, rfl⟩

theorem sample_selected : ∃ c paths fat more, forFilesystem sampleHost sampleFormat = .ok c ∧
    Provides sampleHost mke2fs c.executable paths ∧ c.fat = some fat ∧
      Provides sampleHost mkfsFat fat more ∧
    c.files.get? configurationPath = some configuration := by
  obtain ⟨c, hc⟩ := sample_captured
  obtain ⟨paths, more, hprovides, hfat, -, hconfiguration, -⟩ :=
    selected sampleHost sampleFormat c hc
  obtain ⟨hnone, -⟩ | ⟨fat, -, hsome, hprovides'⟩ := hfat
  · cases hnone
  · exact ⟨c, paths, fat, more, hc, hprovides, hsome, hprovides', hconfiguration⟩

end Conglobate.Formatter
