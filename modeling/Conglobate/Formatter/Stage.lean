import Conglobate.Formatter.Capture
import Conglobate.Isolation.ShellProps

/- The directory a formatter runs in (`formatter/staged.rs`).

   The captured files are written below a fresh private directory, each with the
   directories above it. A path's names may lead up again, so where a file is written is
   where they lead (`ContextPath.location`). A system call may fail at any time
   (`Kernel.fault`, by the calls so far); a write that fails may have written a front of its
   bytes.

   Correspondence (Rust ↔ Lean):
     the backing directory's tree          ↔ `World.backing`
     `fs::create_dir`, `create_dir_all`    ↔ `mkdir`, `createDirAll`
     `OpenOptions` with `create_new`       ↔ `createNew`
     `write_all`, `set_permissions`, `sync_all` ↔ `writeAll`, `setPermissions`, `call`
     `Backing::close`                      ↔ `close`
     `CapturedFormatter::stage`            ↔ `stage` -/
namespace Conglobate.Formatter

open Isolation.Shell (Files Node Errno)
open Effect

structure World where
  /-- The staging directory, while there is one. -/
  backing : Option Files
  calls : Nat

structure Kernel where
  fault : Nat → Option IoError
  /-- The mode of a new directory. -/
  made : Nat
  /-- How much a write has written that fails. -/
  short : Nat → Nat
  /-- What a removal leaves that fails. -/
  remains : Files → Files

abbrev Run (α : Type) : Type := Effect World IoError α

def errnoError : Errno → IoError
  | .noent => ⟨.notFound, "No such file or directory (os error 2)"⟩
  | .notdir => ⟨.other, "Not a directory (os error 20)"⟩
  | .loop => ⟨.other, "Too many levels of symbolic links (os error 40)"⟩
  | .exist => ⟨.alreadyExists, "File exists (os error 17)"⟩
  | .other => ⟨.other, "Is a directory (os error 21)"⟩

section Calls
variable (k : Kernel)

def World.tree (w : World) : Files := w.backing.getD .empty

def call : Run Unit := fun w =>
  match k.fault w.calls with
  | some e => .error e { w with calls := w.calls + 1 }
  | none => .ok () { w with calls := w.calls + 1 }

/-- Where a new object goes: in a directory, under a name, and not under dots. -/
def vacant (dots : Errno) (t : Files) (names : List Bytes) : Except Errno (List Bytes × Bytes) :=
  match names.getLast? with
  | none => .error .exist
  | some name =>
    match t.inRoot 0 [] names.dropLast with
    | .error e => .error e
    | .ok above =>
      if t.isDirectory above = false then .error .notdir
      else if name = Copy.dotName ∨ name = Copy.dotdotName then .error dots
      else if (t.get? (above ++ [name])).isSome then .error .exist
      else .ok (above, name)

/-- A new object, and where it is. -/
def makeNode (dots : Errno) (names : List Bytes) (node : Node) : Run (List Bytes) := do
  call k
  let w ← get
  match vacant dots w.tree names with
  | .error e => throw (errnoError e)
  | .ok (above, name) => do
    set { w with backing := some (w.tree.create above name node) }
    pure (above ++ [name])

def mkdir (names : List Bytes) : Run Unit := do
  let _ ← makeNode k .exist names (.directory k.made)
  pure ()

/-- `is_dir`: a refused call is no directory. -/
def isDir (names : List Bytes) : Run Bool := fun w =>
  match k.fault w.calls with
  | some _ => .ok false { w with calls := w.calls + 1 }
  | none =>
    match w.tree.inRoot 0 [] names with
    | .error _ => .ok false { w with calls := w.calls + 1 }
    | .ok there => .ok (w.tree.isDirectory there) { w with calls := w.calls + 1 }

/-- An error, unless the directory is there. -/
def unlessDir (names : List Bytes) (e : IoError) : Run Unit := do
  let there ← isDir k names
  if there then pure () else throw e

/-- A new directory, or what is done without. -/
def mkdirOr (names : List Bytes) (fallback : IoError → Run Unit) : Run Unit := do
  let made ← attempt (mkdir k names)
  match made with
  | .ok () => pure ()
  | .error e => fallback e

/-- With the names from the last one on. -/
def createDirAll : List Bytes → Run Unit
  | [] => mkdirOr k [] (unlessDir k [])
  | name :: above =>
    mkdirOr k (name :: above).reverse fun e =>
      if e.kind = .notFound then do
        createDirAll above
        mkdirOr k (name :: above).reverse (unlessDir k (name :: above).reverse)
      else unlessDir k (name :: above).reverse e

/-- A file that was opened to be written. -/
def createNew (names : List Bytes) : Run (List Bytes) := makeNode k .other names (.file [] 0o600)

def World.put (w : World) (there : List Bytes) (node : Node) : World :=
  { w with backing := some (w.tree.change there node), calls := w.calls + 1 }

def writeAll (there : List Bytes) (bytes : Bytes) : Run Unit := fun w =>
  match k.fault w.calls with
  | some e => .error e (w.put there (.file (bytes.take (k.short w.calls)) 0o600))
  | none => .ok () (w.put there (.file bytes 0o600))

def setPermissions (there : List Bytes) (bytes : Bytes) (mode : Nat) : Run Unit := fun w =>
  match k.fault w.calls with
  | some e => .error e { w with calls := w.calls + 1 }
  | none => .ok () (w.put there (.file bytes mode))

/-- The mode of a captured file. -/
def FormatterFile.mode (file : FormatterFile) : Nat := if file.executable then 0o555 else 0o444

def stageFile (entry : ContextPath × FormatterFile) : Run Unit := do
  createDirAll k entry.1.names.dropLast.reverse
  let there ← createNew k entry.1.names
  writeAll k there entry.2.bytes
  setPermissions k there entry.2.bytes entry.2.mode
  call k

/-- "dev" -/
def dev : Bytes := [100, 101, 118]

def stageAll (c : CapturedFormatter) : Run Unit :=
  if c.files.keys.any (fun path => path.names.head? == some dev) then
    throw (.invalidInput "formatter runtime reserves /dev for its assigned device")
  else do
    mkdir k [dev]
    c.files.entries.forM (stageFile k)
    -- the root, its clone, and the clone's attributes
    call k
    call k
    call k

/-- `TempDir::close`. -/
def close : Run Unit := fun w =>
  match k.fault w.calls with
  | some e => .error e { w with backing := w.backing.map k.remains, calls := w.calls + 1 }
  | none => .ok () { w with backing := none, calls := w.calls + 1 }

structure StageError where
  error : IoError
  /-- "formatter staging cleanup: {cleanup}" -/
  cleanup : Option IoError

def stage (c : CapturedFormatter) : Effect World StageError Unit := do
  EStateM.adaptExcept (fun e => ⟨e, none⟩) do
    call k
    call k
    modify fun w => { w with backing := some .empty }
  let staged ← attempt (stageAll k c)
  match staged with
  | .ok () => pure ()
  | .error e => do
    let closed ← attempt (close k)
    match closed with
    | .ok () => throw ⟨e, none⟩
    | .error cleanup => throw ⟨e, some cleanup⟩

end Calls

end Conglobate.Formatter
