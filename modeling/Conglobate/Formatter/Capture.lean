import Conglobate.Formatter
import Conglobate.Lib.Words
import Conglobate.Path

/- The files a formatter runs with (`formatter/runtime.rs`, `formatter/selection.rs`).

   A formatter and what it loads are captured from the appliance as bytes, each at the
   path it is loaded from; the builder's own configuration is added, and for an ESP the
   other formatter with its files. A captured formatter has no file above another and can
   be executed: its type says so.

   Correspondence (Rust ↔ Lean):
     `openat2` in the root, `metadata`, reads  ↔ `Root`, `Opened`
     `FormatterFile::capture`                  ↔ `FormatterFile.capture`
     `CapturedFormatter::capture`              ↔ `capture`
     `with_ext4_configuration`, `with_fat`     ↔ `withConfiguration`, `withFat`
     the `PATH`, `canonicalize`, `ldd`         ↔ `Host`
     `find_tool`, `ldd_dependencies`           ↔ `findTool`, `dependencies`
     `host_tool`, `for_filesystem`             ↔ `hostTool`, `forFilesystem` -/
namespace Conglobate.Formatter

open Plan

structure FormatterFile where
  bytes : Bytes
  executable : Bool
  deriving DecidableEq

/-- What was opened, and what reading it gives. -/
structure Opened where
  isFile : Bool
  length : Nat
  bytes : Bytes
  mode : Nat

structure Root where
  isDirectory : Bool
  openat : ContextPath → Except IoError Opened

def FormatterFile.capture (root : Root) (path : ContextPath) : Except IoError FormatterFile := do
  let input ← root.openat path
  if input.isFile = false then .error (.invalidInput "formatter input must be a regular file")
  else if 2 ^ 64 ≤ input.length + 1 then .error ⟨.other, "formatter input size overflow"⟩
  else if (input.bytes.take (input.length + 1)).length ≠ input.length then
    .error ⟨.other, "formatter input size changed during capture"⟩
  else .ok ⟨input.bytes.take (input.length + 1), input.mode &&& 0o111 != 0⟩

abbrev Runtime : Type := OrdMap ContextPath FormatterFile

/-- No file is where another one's directory is. -/
def Apart (files : Runtime) : Prop :=
  ∀ p ∈ files.keys, ∀ q ∈ files.keys, p.names <+: q.names → p = q

/-- A path that can be executed. -/
def executes (files : Runtime) (path : ContextPath) :
    Bool := (files.get? path).any FormatterFile.executable

structure CapturedFormatter where
  executable : ContextPath
  files : Runtime
  fat : Option ContextPath
  apart : Apart files
  runs : executes files executable = true
  formats : fat.all (executes files) = true

/-! Capture. -/

/-- Its directories. -/
def ancestors (path : ContextPath) : List (List Bytes) :=
  path.names.inits.filter (fun above => !above.isEmpty && above != path.names)

def conflicts (files : Runtime) : Bool :=
  files.keys.any fun path => (ancestors path).any fun above => files.keys.any fun file =>
    file.names == above

theorem apart_of_conflicts {files : Runtime} (h : ¬ conflicts files = true) : Apart files := by
  intro p hp q hq hbelow
  by_contra hne
  apply h
  have hnames : p.names ≠ q.names := fun heq => hne (ContextPath.names_injective heq)
  refine List.any_eq_true.mpr ⟨q, hq, List.any_eq_true.mpr ⟨p.names, ?_,
    List.any_eq_true.mpr ⟨p, hp, by simp⟩⟩⟩
  refine List.mem_filter.mpr ⟨List.mem_inits _ _ |>.mpr hbelow, ?_⟩
  simp [p.names_ne_nil, hnames]

def captureFile (root : Root) (files : Runtime) (path : ContextPath) : Except IoError Runtime :=
  if files.contains path then .error (.invalidInput "duplicate formatter runtime path")
  else do
    let file ← FormatterFile.capture root path
    .ok (files.insert path file)

/-- The checks of what was captured. -/
def ofFiles (executable : ContextPath) (files : Runtime) : Except IoError CapturedFormatter :=
  if hapart : conflicts files = true then
    .error (.invalidInput "formatter runtime file conflicts with a directory")
  else if hruns : executes files executable = true then
    .ok ⟨executable, files, none, apart_of_conflicts hapart, hruns, rfl⟩
  else .error (.invalidInput "formatter executable must be captured with execute permission")

def capture (root : Except IoError Root) (executable : ContextPath) (paths : List ContextPath) :
    Except IoError CapturedFormatter := do
  let root ← root
  if root.isDirectory = false then
    .error (.invalidInput "formatter source root must be a directory")
  else do
    let files ← paths.foldlM (captureFile root) OrdMap.empty
    ofFiles executable files

/-! The builder's configuration. -/

/-- "etc/mke2fs.conf" -/
def configurationPath : ContextPath where
  names := [[101, 116, 99], [109, 107, 101, 50, 102, 115, 46, 99, 111, 110, 102]]
  valid := by decide

def configurationText : String :=
  "[defaults]
    base_features = sparse_super,filetype,dir_index,extent,huge_file,flex_bg,metadata_csum,64bit,dir_nlink,extra_isize
    blocksize = 4096
    inode_size = 256
    inode_ratio = 16384
    reserved_ratio = 0
    lazy_itable_init = false
    enable_periodic_fsck = false
    undo_dir = none
[fs_types]
    ext4 = \x7b
        errors = remount-ro
    \x7d
    conglobate = \x7b
        inode_ratio = 16384
    \x7d
"

def configuration : FormatterFile := ⟨Text.utf8 configurationText.toList, false⟩

/-- One is at the other, or below it. -/
def clashes (p q : ContextPath) : Bool := p.names.isPrefixOf q.names || q.names.isPrefixOf p.names

theorem clashes_eq_false {p q : ContextPath} :
    clashes p q = false ↔ ¬ p.names <+: q.names ∧ ¬ q.names <+: p.names := by
  rw [clashes, Bool.or_eq_false_iff]
  simp only [← List.isPrefixOf_iff_prefix, Bool.not_eq_true]

theorem executes_insert {files : Runtime} {path other : ContextPath} {file : FormatterFile}
    (h : files.get? other = none) (hruns : executes files path = true) :
    executes (files.insert other file) path = true := by
  rw [executes, OrdMap.get?_insert, if_neg]
  · exact hruns
  · rintro rfl
    rw [executes, h] at hruns
    cases hruns

theorem Apart.insert {files : Runtime} (h : Apart files) {path : ContextPath} {file : FormatterFile}
    (hfree : ∀ p ∈ files.keys, clashes path p = false) : Apart (files.insert path file) := by
  intro p hp q hq hbelow
  obtain hpath | hold := OrdMap.mem_keys_insert.mp hp
  · obtain hpath' | hold' := OrdMap.mem_keys_insert.mp hq
    · rw [hpath, hpath']
    · rw [hpath] at hbelow
      exact absurd hbelow (clashes_eq_false.mp (hfree q hold')).1
  · obtain hpath' | hold' := OrdMap.mem_keys_insert.mp hq
    · rw [hpath'] at hbelow
      exact absurd hbelow (clashes_eq_false.mp (hfree p hold)).2
    · exact h p hold q hold' hbelow

theorem free_of_clashes {files : Runtime} {path : ContextPath}
    (h : ¬ files.keys.any (clashes path) = true) :
    (∀ p ∈ files.keys, clashes path p = false) ∧ files.get? path = none := by
  have hall : ∀ p ∈ files.keys, clashes path p = false := by
    intro p hp
    by_contra hclash
    exact h (List.any_eq_true.mpr ⟨p, hp, by simpa using hclash⟩)
  refine ⟨hall, ?_⟩
  by_contra hsome
  have hmem : path ∈ files.keys := OrdMap.mem_keys.mpr (Option.isSome_iff_ne_none.mpr hsome)
  exact (clashes_eq_false.mp (hall path hmem)).1 (List.prefix_refl _)

def withConfiguration (c : CapturedFormatter) : Except IoError CapturedFormatter :=
  if h : c.files.keys.any (clashes configurationPath) = true then
    .error (.invalidInput "captured runtime conflicts with builder-owned formatter configuration")
  else
    .ok { c with
      files := c.files.insert configurationPath configuration
      apart := c.apart.insert (free_of_clashes h).1
      runs := executes_insert (free_of_clashes h).2 c.runs
      formats := by
        have hformats := c.formats
        cases hfat : c.fat with
        | none => rfl
        | some path =>
          rw [hfat] at hformats
          exact executes_insert (free_of_clashes h).2 hformats }

/-! Both formatters. -/

/-- A file of one formatter cannot be among the other's. -/
def differs (path : ContextPath) (file : FormatterFile) (existing : ContextPath × FormatterFile) :
    Bool :=
  if existing.1 = path then
    existing.2.bytes != file.bytes || existing.2.executable != file.executable
  else clashes existing.1 path

def differ (files fat : Runtime) : Bool :=
  fat.entries.any fun added => files.entries.any (differs added.1 added.2)

section
variable {files fat : Runtime}

/-- What does not differ is the same at the same path, and apart elsewhere. -/
theorem same_of_differ (h : ¬ differ files fat = true) {p q : ContextPath} {old new : FormatterFile}
    (hold : files.get? p = some old) (hnew : fat.get? q = some new) :
    (p = q → old = new) ∧ (p ≠ q → clashes p q = false) := by
  have hnot : ¬ differs q new (p, old) = true := by
    intro hdiffers
    exact h (List.any_eq_true.mpr ⟨(q, new), OrdMap.get?_eq_some.mp hnew,
      List.any_eq_true.mpr ⟨(p, old), OrdMap.get?_eq_some.mp hold, hdiffers⟩⟩)
  rw [differs] at hnot
  refine ⟨fun heq => ?_, fun hne => ?_⟩
  · rw [if_pos heq] at hnot
    obtain ⟨bytes, executable⟩ := old
    obtain ⟨bytes', executable'⟩ := new
    simp only [bne, Bool.or_eq_true, Bool.not_eq_true', beq_eq_false_iff_ne, not_or, ne_eq,
      not_not] at hnot
    rw [hnot.1, hnot.2]
  · rw [if_neg hne] at hnot
    simpa using hnot

theorem get?_extend_of_differ (h : ¬ differ files fat = true) {p : ContextPath}
    {old : FormatterFile} (hold : files.get? p = some old) :
    (files.extend fat).get? p = some old := by
  rw [OrdMap.get?_extend]
  cases hnew : fat.get? p with
  | none => exact hold
  | some new => rw [(same_of_differ h hold hnew).1 rfl]; rfl

theorem Apart.extend (h : Apart files) (hfat : Apart fat) (hdiffer : ¬ differ files fat = true) :
    Apart (files.extend fat) := by
  have hmixed : ∀ p ∈ files.keys, ∀ q ∈ fat.keys, (p.names <+: q.names ∨ q.names <+: p.names) →
      p = q := by
    intro p hp q hq hbelow
    obtain ⟨old, hold⟩ := Option.isSome_iff_exists.mp (OrdMap.mem_keys.mp hp)
    obtain ⟨new, hnew⟩ := Option.isSome_iff_exists.mp (OrdMap.mem_keys.mp hq)
    by_contra hne
    obtain ⟨hleft, hright⟩ := clashes_eq_false.mp ((same_of_differ hdiffer hold hnew).2 hne)
    exact hbelow.elim hleft hright
  intro p hp q hq hbelow
  obtain hp | hp := OrdMap.mem_keys_extend.mp hp
  · obtain hq | hq := OrdMap.mem_keys_extend.mp hq
    · exact hfat p hp q hq hbelow
    · exact (hmixed q hq p hp (.inr hbelow)).symm
  · obtain hq | hq := OrdMap.mem_keys_extend.mp hq
    · exact hmixed p hp q hq (.inl hbelow)
    · exact h p hp q hq hbelow

theorem executes_extend (h : ¬ differ files fat = true) {path : ContextPath}
    (hruns : executes files path = true) :
    executes (files.extend fat) path = true := by
  obtain ⟨file, hfile, hexecutable⟩ := (Option.any_eq_true _ _).mp hruns
  rw [executes, get?_extend_of_differ h hfile]
  exact hexecutable

theorem executes_extended {path : ContextPath} (hruns : executes fat path = true) :
    executes (files.extend fat) path = true := by
  obtain ⟨file, hfile, hexecutable⟩ := (Option.any_eq_true _ _).mp hruns
  rw [executes, OrdMap.get?_extend, hfile]
  exact hexecutable

end

def withFat (c fat : CapturedFormatter) : Except IoError CapturedFormatter :=
  if h : differ c.files fat.files = true then
    .error ⟨.other, "trusted formatter inputs conflict between captures"⟩
  else
    .ok { c with
      fat := some fat.executable
      files := c.files.extend fat.files
      apart := c.apart.extend fat.apart h
      runs := executes_extend h c.runs
      formats := executes_extended fat.runs }

/-! Selection. -/

structure Host where
  /-- The directories of `PATH`. -/
  directories : List Bytes
  isFile : Bytes → Bool
  canonicalize : Bytes → Except IoError Bytes
  /-- What `ldd` says of a file, where it succeeds. -/
  ldd : Bytes → Except IoError Text
  root : Except IoError Root

/-- `Path::join` with a name. -/
def join (directory name : Bytes) : Bytes :=
  if directory = [] ∨ directory.getLast? = some Copy.slash then
    directory ++ name
  else
    directory ++ [Copy.slash] ++ name

/-- "/usr/sbin", "/sbin", "/usr/bin" and "/bin" -/
def trustedDirectories : List Bytes :=
  [[47, 117, 115, 114, 47, 115, 98, 105, 110], [47, 115, 98, 105, 110],
    [47, 117, 115, 114, 47, 98, 105, 110], [47, 98, 105, 110]]

def findTool (host : Host) (name : Text) : Except IoError Bytes :=
  match (trustedDirectories ++ host.directories).find?
      (fun directory => host.isFile (join directory name.utf8)) with
  | some directory => host.canonicalize (join directory name.utf8)
  | none => .error ⟨.notFound, "trusted formatter " ++ String.ofList name ++ " not found"⟩

/-- `strip_prefix("/")`, as names. -/
def stripRoot (host : Host) (path : Bytes) : Except IoError (List Bytes) :=
  (if Copy.isAbsolute path then .ok path else host.canonicalize path) >>= fun absolute =>
    if Copy.isAbsolute absolute then
      .ok ((absolute.splitOn Copy.slash).filter (fun name => name ≠ [] && name ≠ Copy.dotName))
    else .error (.invalidInput "formatter path is not absolute under /")

/-- One line of `ldd`. -/
def dependency (host : Host) (found : List Bytes) (line : Text) : Except IoError (List Bytes) :=
  if Text.hasPart line "not found".toList then
    .error ⟨.notFound, "incomplete trusted formatter runtime: " ++ String.ofList line⟩
  else
    match (Text.words line).find? (fun token => token.head? = some '/') with
    | some token => .ok (if host.isFile token.utf8 then found ++ [token.utf8] else found)
    | none => .ok found

def dependencies (host : Host) (executable : Bytes) : Except IoError (List Bytes) := do
  let text ← host.ldd executable
  (Text.lines text).foldlM (dependency host) []

/-- A set of paths, in their order. -/
abbrev PathSet : Type := OrdMap (List Bytes) Unit

def hostTool (host : Host) (name : Text) : Except IoError CapturedFormatter := do
  let executable ← findTool host name
  let relative ← stripRoot host executable
  let loaded ← dependencies host executable
  let others ← loaded.mapM (stripRoot host)
  let files : PathSet := others.foldl (fun files path => files.insert path ())
    (OrdMap.empty.insert relative ())
  let paths ← (files.keys.mapM ContextPath.check).mapError (fun e => ⟨.other, e.message⟩)
  let executable ← (ContextPath.check relative).mapError (fun e => ⟨.other, e.message⟩)
  capture host.root executable paths

def mke2fs : Text := "mke2fs".toList

def mkfsFat : Text := "mkfs.fat".toList

def forFilesystem (host : Host) (spec : Format) : Except IoError CapturedFormatter := do
  let captured ← hostTool host mke2fs >>= withConfiguration
  if spec.esp.isSome then do
    let fat ← hostTool host mkfsFat
    withFat captured fat
  else .ok captured

end Conglobate.Formatter
