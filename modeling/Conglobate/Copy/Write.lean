import Conglobate.Copy.Descendants
import Conglobate.Copy.Volume

/- COPY from the context (`CopyDestination::copy`, `copy/destination/mod.rs`).

   The destination is resolved once, through the image's links. Each descendant of a
   selected directory is resolved again, below it, in the trees as they are by then.

   Correspondence (Rust ↔ Lean):
     `Copy`, its context sources and destination ↔ `CopyDirective`
     what `leaf` writes for an entry             ↔ `entryObject`
     `leaf`                                      ↔ `leaf`
     one round of the loops of `copy`            ↔ `copyDescendant`, `filePath`, `copySource`
     `copy`                                      ↔ `openTarget`, `copy` -/
namespace Conglobate.Copy

open Context (Git CapturedContext)

structure CopyDirective where
  sources : List SourcePattern
  destination : Bytes

/-- `ends_with('/')`. -/
def CopyDirective.trailing (d : CopyDirective) :
    Bool := decide (d.destination.getLast? = some slash)

/-- `Path::file_name`. -/
def fileName (path : EntryPath) : Option Bytes := path.getLast?.filter fun name => name ≠ dotdotName

/-- A slash at the destination's end makes the target a directory. -/
def openTarget (d : CopyDirective) (target : List Bytes) (v : Volume) : Except WriteError Volume :=
  if d.trailing then v.directory target else .ok v

section
variable {ρ : Type} (g : Git ρ) (c : CapturedContext ρ)

def entryObject : ContextEntry → Except WriteError Object
  | .file store executable oid =>
    (fun bytes => ⟨.file bytes, 0, 0, if executable then 0o755 else 0o644⟩) <$>
      (c.blob g store oid).mapError .context
  | .symlink target => .ok ⟨.symlink target, 0, 0, 0o777⟩
  | _ => .error (.invalid "directory passed to leaf writer")

def leaf (v : Volume) (target : List Bytes) (entry : ContextEntry) : Except WriteError Volume :=
  match target.getLast? with
  | none => .error (.invalid "file destination is image root")
  | some name => do
    let found ← v.observe target
    if found = some .directory then .error (.invalid "file conflicts with directory")
    else v.replace target.dropLast name (entryObject g c entry)

def copyDescendant (target : List Bytes) (v : Volume) (e : EntryPath × ContextEntry) :
    Except WriteError Volume := do
  let path ← (v.destination.resolveFrom false 0 [] (target ++ e.1)).mapError WriteError.resolution
  if e.2 = .directory then do
    let v ← v.directory path
    .ok (v.fileMetadata (v.spot path) 0o755)
  else leaf g c v path e.2

/-- Where a file goes: into the target, if that is a directory. -/
def filePath (target : List Bytes) (s : CopySource) (found : Option ImageNode) :
    Except WriteError (List Bytes) :=
  if found = some .directory then
    match fileName s.selected with
    | none => .error (.invalid "source has no filename")
    | some name => .ok (target ++ [name])
  else .ok target

def copySource (target : List Bytes) (v : Volume) (s : CopySource) : Except WriteError Volume :=
  if s.isDirectory c.entries then do
    let v ← v.directory target
    (s.descendants c.entries).foldlM (copyDescendant g c target) v
  else do
    let found ← v.observe target
    let path ← filePath target s found
    match c.entries.get? s.resolved with
    | none => .error (.invalid "missing source entry")
    | some entry => leaf g c v path entry

def copy (d : CopyDirective) (v : Volume) : Except WriteError Volume := do
  let sources ← (select c.entries d.sources).mapError .selection
  if 1 < sources.length ∧ d.trailing = false then
    .error (.invalid "multiple sources require trailing slash")
  else do
    let target ← (v.destination.resolve d.destination true).mapError WriteError.resolution
    let v ← openTarget d target v
    sources.foldlM (copySource g c target) v

end

end Conglobate.Copy
