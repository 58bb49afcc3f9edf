import Conglobate.Lib.Triple
import Conglobate.Lib.Words
import Conglobate.Copy.Resolve

/- A private shell for a root that has none (`isolation/shell.rs`).

   The image is a tree on one file system. What is injected goes into temporary file
   systems, one mounted over each top-level directory it is in. A system call may fail at
   any time (`Kernel.fault`, by the calls so far), and then has done nothing; a write that
   fails may have written a front of its bytes. The file mode mask shows in the modes new
   objects have (`Kernel.made`) until they are changed. Nobody else changes the image.

   Correspondence (Rust ↔ Lean):
     `openat2` with `IN_ROOT`, with `NO_SYMLINKS` ↔ `Files.inRoot`, `Files.direct`
     `open_directory`                        ↔ `Files.openDirectory`
     `mkdirat`, `chmodat`, `openat` with `O_EXCL` ↔ `Files.create`, `Files.change`
     `shell_present`, `reject_non_regular`   ↔ `shellPresent`, `rejectNonRegular`
     `host_tool`, `read_loader`, `loader_paths` ↔ `hostTool`, `readLoader`, `loaderPaths`
     `parse_ldd`, `relative_from_absolute`   ↔ `parseLdd`, `relativeFromAbsolute`
     `install`, its files                    ↔ `install`, `closure`
     `Layout`'s list of mounts               ↔ `World.mounts`
     `Layout::place`, `Layout::directory`, `write_bytes` ↔ `place`, `directory`, `writeBytes`
   The calls that make a temporary file system are one. Its size limit is a failure of a
   write. The appliance's own files and `ldd` are given (`Appliance`). -/
namespace Conglobate.Isolation.Shell

open Copy

/-! File systems. -/

inductive Node where
  | directory (mode : Nat)
  | file (bytes : Bytes) (mode : Nat)
  | symlink (target : Bytes)
  | special
  deriving DecidableEq

namespace Node

def isDirectory : Node → Bool
  | .directory _ => true
  | _ => false

def isFile : Node → Bool
  | .file _ _ => true
  | _ => false

end Node

/-- What is below a path is below a directory. The root is one. -/
structure Files where
  entries : OrdMap (List Bytes) Node
  parents : ∀ path name, entries.get? (path ++ [name]) ≠ none →
    path = [] ∨ (entries.get? path).any Node.isDirectory = true

inductive Errno where
  | noent
  | notdir
  | loop
  | exist
  | other
  deriving DecidableEq

namespace Files

def empty : Files := ⟨OrdMap.empty, fun _ _ h => absurd rfl h⟩

def get? (t : Files) (path : List Bytes) : Option Node := t.entries.get? path

def isDirectory (t : Files) (path : List Bytes) :
    Bool := decide (path = []) || (t.get? path).any Node.isDirectory

/-- The kernel's walk from a path, which the root's parent does not leave. -/
def inRoot (t : Files) (links : Nat) (here : List Bytes) : List Bytes → Except Errno (List Bytes)
  | [] => .ok here
  | name :: rest =>
    if t.isDirectory here = false then .error .notdir
    else if name = dotName then inRoot t links here rest
    else if name = dotdotName then inRoot t links here.dropLast rest
    else
      match t.get? (here ++ [name]) with
      | none => .error .noent
      | some (.symlink target) =>
        if 40 < links + 1 then .error .loop
        else inRoot t (links + 1) (if isAbsolute target then
          [] else here) (posixParts target ++ rest)
      | some _ => inRoot t links (here ++ [name]) rest
termination_by names => (41 - links, names.length)
decreasing_by
  · exact Prod.Lex.right _ (Nat.lt_succ_self _)
  · exact Prod.Lex.right _ (Nat.lt_succ_self _)
  · exact Prod.Lex.left _ _ (by omega)
  · exact Prod.Lex.right _ (Nat.lt_succ_self _)

/-- The walk of ordinary names that follows no link. -/
def direct (t : Files) (here : List Bytes) : List Bytes → Except Errno (List Bytes)
  | [] => .ok here
  | name :: rest =>
    if t.isDirectory here = false then .error .notdir
    else
      match t.get? (here ++ [name]) with
      | none => .error .noent
      | some (.symlink _) => .error .loop
      | some _ => direct t (here ++ [name]) rest

/-- One name of a directory, with `O_DIRECTORY` and without following a link. -/
def openDirectory (t : Files) (here : List Bytes) (name : Bytes) : Except Errno (List Bytes) :=
  match t.get? (here ++ [name]) with
  | none => .error .noent
  | some (.directory _) => .ok (here ++ [name])
  | some (.symlink _) => .error .loop
  | some _ => .error .notdir

/-- A new object, where there is none in a directory. -/
def create (t : Files) (here : List Bytes) (name : Bytes) (node : Node) : Files :=
  if hfree : t.isDirectory here = true ∧ t.get? (here ++ [name]) = none then
    { entries := t.entries.insert (here ++ [name]) node
      parents := by
        obtain ⟨hhere, hnone⟩ := hfree
        intro path child hsome
        rw [OrdMap.get?_insert] at hsome
        by_cases hnew : path ++ [child] = here ++ [name]
        · obtain ⟨rfl, -⟩ := List.append_inj' hnew rfl
          have hself : path ≠ path ++ [name] := fun heq => by simpa using congrArg List.length heq
          rw [OrdMap.get?_insert, if_neg hself]
          simpa [isDirectory, get?] using hhere
        · rw [if_neg hnew] at hsome
          have habove := t.parents path child hsome
          have hpath : path ≠ here ++ [name] := by
            rintro rfl
            obtain hnil | hdir := habove
            · simp at hnil
            · rw [show t.entries.get? (here ++ [name]) = none from hnone] at hdir
              cases hdir
          rwa [OrdMap.get?_insert, if_neg hpath] }
  else t

/-- An object changed in place. -/
def change (t : Files) (path : List Bytes) (node : Node) : Files :=
  if hsame : (t.get? path).map Node.isDirectory = some node.isDirectory then
    { entries := t.entries.insert path node
      parents := by
        intro above child hsome
        rw [OrdMap.get?_insert] at hsome ⊢
        have habove : above = [] ∨ (t.entries.get? above).any Node.isDirectory = true := by
          by_cases hhere : above ++ [child] = path
          · apply t.parents above child
            intro hnone
            rw [get?, ← hhere, hnone] at hsame
            cases hsame
          · rw [if_neg hhere] at hsome
            exact t.parents above child hsome
        refine habove.imp_right fun hdir => ?_
        by_cases heq : above = path
        · rw [if_pos heq, Option.any_some]
          rw [← heq, get?] at hsame
          obtain ⟨old, hold, hkind⟩ := Option.map_eq_some_iff.mp hsame
          rw [hold, Option.any_some] at hdir
          rw [← hkind, hdir]
        · rw [if_neg heq]
          exact hdir }
  else t

end Files

/-! The state, and the calls. -/

structure World where
  layer : Files
  /-- The temporary file systems, each with the name it is mounted over. -/
  mounts : List (Bytes × Files)
  calls : Nat

structure Kernel where
  fault : Nat → Bool
  /-- The mode an object has that is made with mode 0755. -/
  made : Nat
  /-- How much a write has written that fails. -/
  short : Nat → Nat

inductive ShellError where
  | io
  | errno (errno : Errno)
  /-- "command shell target /{relative} is a symlink" -/
  | symlink (relative : List Bytes)
  /-- "command shell target /{relative} is not a regular file" -/
  | notRegular (relative : List Bytes)
  /-- "command shell target /{relative}: {error}" -/
  | target (relative : List Bytes) (errno : Errno)
  /-- "appliance has no {name} for a root without /bin/sh" -/
  | noTool (name : Bytes)
  /-- "refusing loader file {path}" -/
  | loaderFile (path : Bytes)
  /-- "ldd {binary}: missing library in {line}" -/
  | missingLibrary (binary : Bytes) (line : Text)
  /-- "refusing loader path {path}" -/
  | loaderPath (path : Bytes)
  /-- "refusing shell path {relative}" -/
  | shellPath (relative : List Bytes)
  /-- "command shell mount point /{top} is a symlink; not following it" -/
  | pointSymlink (top : Bytes)
  /-- "command shell mount point /{top}: {error}" -/
  | point (top : Bytes) (errno : Errno)
  /-- "command shell mount point {name}: {error}" -/
  | pointMode (name : Bytes) (errno : Errno)
  /-- "command shell target {relative} exists and is not a usable regular file" -/
  | exists (relative : List Bytes)
  deriving DecidableEq

abbrev Run : Type → Type := Effect World ShellError

/-- A system call, which may fail for reasons of its own. -/
def call (k : Kernel) (e : ShellError) : Run Unit := fun w =>
  if k.fault w.calls then
    .error e { w with calls := w.calls + 1 }
  else
    .ok () { w with calls := w.calls + 1 }

namespace World

/-- The temporary file system over a name. -/
def private? (w : World) (top : Bytes) : Option Files :=
  (w.mounts.find? (fun m => m.1 = top)).map Prod.snd

def files (w : World) (top : Bytes) : Files := (w.private? top).getD .empty

/-- A change in the temporary file system over a name. -/
def update (w : World) (top : Bytes) (f : Files → Files) : World :=
  { w with mounts := w.mounts.map fun m => if m.1 = top then (m.1, f m.2) else m }

/-- What is seen at a path. -/
def visible (w : World) : List Bytes → Option Node
  | [] => some (.directory 0o755)
  | top :: rest =>
    match w.private? top with
    | none => w.layer.get? (top :: rest)
    | some files => if rest = [] then some (.directory 0o755) else files.get? rest

end World

/-! Whether there is a shell. -/

/-- "bin" -/
def bin : Bytes := [98, 105, 110]

/-- "sh" -/
def sh : Bytes := [115, 104]

/-- "cat" -/
def cat : Bytes := [99, 97, 116]

/-- `REQUIRED_TOOLS`. -/
def binSh : List Bytes := [bin, sh]
def binCat : List Bytes := [bin, cat]

def shellPresent (k : Kernel) : Run Bool := do
  call k .io
  let w ← get
  match w.layer.inRoot 0 [] binSh with
  | .ok path => do
    call k .io
    pure ((w.layer.get? path).any Node.isFile)
  | .error .noent => pure false
  | .error .notdir => pure false
  | .error e => throw (.errno e)

def rejectNonRegular (k : Kernel) (relative : List Bytes) : Run Unit := do
  call k (.target relative .other)
  let w ← get
  match w.layer.direct [] relative with
  | .error .noent => pure ()
  | .error .loop => throw (.symlink relative)
  | .error e => throw (.target relative e)
  | .ok path => do
    call k .io
    if (w.layer.get? path).any Node.isFile then pure () else throw (.notRegular relative)

/-! The appliance's files. -/

structure Appliance where
  isFile : Bytes → Bool
  /-- Whether it is a regular file, and its length. -/
  metadata : Bytes → Except ShellError (Bool × Nat)
  read : Bytes → Except ShellError Bytes
  /-- What `ldd` says of a binary. -/
  ldd : Bytes → Bytes → Except ShellError Text

/-- "/bin/" and "/usr/bin/" -/
def slashBin : Bytes := slash :: bin ++ [slash]
def slashUsrBin : Bytes := [slash, 117, 115, 114] ++ slashBin

def hostTool (a : Appliance) (name : Bytes) : Except ShellError Bytes :=
  if a.isFile (slashBin ++ name) then .ok (slashBin ++ name)
  else if a.isFile (slashUsrBin ++ name) then .ok (slashUsrBin ++ name)
  else .error (.noTool name)

def maxLoaderBytes : Nat := 32 * 1024 * 1024

def readLoader (a : Appliance) (path : Bytes) : Except ShellError Bytes := do
  let metadata ← a.metadata path
  if metadata.1 = false ∨ maxLoaderBytes < metadata.2 then
    .error (.loaderFile path)
  else
    a.read path

def trim (t : Text) : Text :=
  ((t.dropWhile Text.isWhitespace).reverse.dropWhile Text.isWhitespace).reverse

/-- What is behind the first arrow. -/
def afterArrow : Text → Option Text
  | '=' :: '>' :: rest => some rest
  | _ :: rest => afterArrow rest
  | [] => none

/-- The first word of a text that begins with none of the blanks. -/
def firstWord (t : Text) : Text := t.takeWhile fun c => !Text.isWhitespace c

/-- One line of `ldd`: a path, or nothing. -/
def parseLine (line : Text) : Except Text (Option Bytes) :=
  if line = [] ∨ Text.hasPart line "linux-vdso".toList ∨ Text.hasPart line "linux-gate".toList then
    .ok none
  else
    match afterArrow line with
    | some rest =>
      if "not found".toList.isPrefixOf (trim rest) then .error line
      else if (trim rest).head? = some '/' then .ok (some (firstWord (trim rest)).utf8)
      else .ok none
    | none => if line.head? = some '/' then .ok (some (firstWord line).utf8) else .ok none

def parseLdd (stdout : Text) : Except Text (List Bytes) :=
  ((stdout.splitOn '\n').map trim).foldlM (fun paths line => (paths ++ ·.toList) <$> parseLine line)
    []

def loaderPaths (a : Appliance) (binary : Bytes) : Except ShellError (List Bytes) := do
  let ldd ← hostTool a [108, 100, 100]
  let stdout ← a.ldd ldd binary
  (parseLdd stdout).mapError (.missingLibrary binary)

def relativeFromAbsolute (path : Bytes) : Except ShellError (List Bytes) :=
  if (pathParts path).contains dotdotName || (pathParts path).isEmpty then
    .error (.loaderPath path)
  else
    .ok (pathParts path)

/-- Paths are ordered by their components, the parent before every name. -/
def pathKey (path : Bytes) : List Bytes :=
  (pathParts path).map fun part => if part = dotdotName then [] else part

/-- `BTreeSet::insert`. -/
def insertPath (libs : OrdMap (List Bytes) Bytes) (path : Bytes) : OrdMap (List Bytes) Bytes :=
  if libs.contains (pathKey path) then libs else libs.insert (pathKey path) path

/-- `Placed`. -/
structure Placed where
  relative : List Bytes
  bytes : Bytes
  required : Bool

def addLoader (a : Appliance) (files : List Placed) (library : Bytes) :
    Except ShellError (List Placed) := do
  let relative ← relativeFromAbsolute library
  if files.any (fun placed => placed.relative = relative) then .ok files
  else do
    let bytes ← readLoader a library
    .ok (files ++ [⟨relative, bytes, false⟩])

/-- The files of `install`. -/
def closure (a : Appliance) : Except ShellError (List Placed) := do
  let shell ← hostTool a sh
  let cat' ← hostTool a cat
  let libs ← [shell, cat'].foldlM (fun libs binary =>
    (List.foldl insertPath libs) <$> loaderPaths a binary) OrdMap.empty
  let shellBytes ← readLoader a shell
  let catBytes ← readLoader a cat'
  (libs.entries.map Prod.snd).foldlM (addLoader a) [⟨binSh, shellBytes, true⟩,
    ⟨binCat, catBytes, true⟩]

/-! Placing them. -/

/-- The errors of `explain_top`. -/
def explainTop (top : Bytes) (e : Errno) : ShellError :=
  if e = .loop then .pointSymlink top else .point top e

/-- The directory of a name in a temporary file system, or a new one. -/
def descend (k : Kernel) (top : Bytes) (here : List Bytes) (name : Bytes) : Run (List Bytes) := do
  call k .io
  let w ← get
  match (w.files top).openDirectory here name with
  | .ok next => pure next
  | .error .noent => do
    call k .io
    modify fun w => w.update top fun t => t.create here name (.directory k.made)
    call k (.pointMode name .other)
    modify fun w => w.update top fun t => t.change (here ++ [name]) (.directory 0o755)
    call k .io
    pure (here ++ [name])
  | .error e => throw (.errno e)

/-- `write_all`. -/
def writeAll (k : Kernel) (top : Bytes) (path : List Bytes) (bytes : Bytes) : Run Unit := do
  let w ← get
  if k.fault w.calls then
    modify fun w => w.update top fun t => t.change path
      (.file (bytes.take (k.short w.calls)) k.made)
  else modify fun w => w.update top fun t => t.change path (.file bytes k.made)
  call k .io

def writeBytes (k : Kernel) (top : Bytes) (relative : List Bytes) (bytes : Bytes)
    (required : Bool) : Run Unit := do
  call k .io
  let parent ← relative.dropLast.foldlM (descend k top) []
  let path := parent ++ [relative.getLast?.getD []]
  call k .io
  let w ← get
  if ((w.files top).get? path).isSome then
    if required then throw (.exists relative) else pure ()
  else do
    modify fun w => w.update top fun t => t.create parent (relative.getLast?.getD [])
      (.file [] k.made)
    writeAll k top path bytes
    call k .io
    modify fun w => w.update top fun t => t.change path (.file bytes 0o755)

/-- The mount point of a name: the directory there, or a new one. -/
def mountPoint (k : Kernel) (top : Bytes) : Run Unit := do
  call k (.point top .other)
  let w ← get
  match w.layer.openDirectory [] top with
  | .ok _ => pure ()
  | .error .noent => do
    call k .io
    modify fun w => { w with layer := w.layer.create [] top (.directory k.made) }
    call k (.pointMode top .other)
    modify fun w => { w with layer := w.layer.change [top] (.directory 0o755) }
  | .error e => throw (explainTop top e)

/-- `Layout::directory`. -/
def directory (k : Kernel) (top : Bytes) : Run Unit := do
  let w ← get
  if (w.private? top).isSome then call k .io
  else do
    mountPoint k top
    call k (.point top .other)
    call k .io
    call k .io
    modify fun w => { w with mounts := w.mounts ++ [(top, .empty)] }
    call k .io

def place (k : Kernel) (placed : Placed) : Run Unit :=
  match placed.relative with
  | [] => throw (.shellPath placed.relative)
  | top :: rest =>
    if rest = [] then throw (.shellPath placed.relative)
    else do
      directory k top
      writeBytes k top rest placed.bytes placed.required

def install (k : Kernel) (a : Appliance) : Run Unit := do
  let present ← shellPresent k
  if present then pure ()
  else do
    rejectNonRegular k binSh
    rejectNonRegular k binCat
    let files ← Effect.lift (closure a)
    files.forM (place k)

end Conglobate.Isolation.Shell
