import Conglobate.Lib.Ascii
import Conglobate.Lib.Mounts
import Conglobate.Lib.OrdMap
import Conglobate.Lib.Text
import Mathlib.Data.List.Sort

/- The child mounts of a supervisor-supplied tree (`filesystem/children.rs`).

   The kernel's mount table is read into a map, and the mounts below the root are
   collected in rounds over it until one adds none. Their paths are taken relative to
   the root's, shortest first, and each is pinned at its parent directory, which is
   opened beneath the root, where the mount of its name must be the one expected.

   Correspondence (Rust ↔ Lean):
     `MountChildren::path`                      ↔ `unescape`
     one line of `MountChildren::entries`       ↔ `addRecord`
     `MountChildren::entries`                   ↔ `readEntries`
     one round of the closure loop, the loop    ↔ `closureRound`, `closure`
     `path.strip_prefix(root_path)` and checks  ↔ `relative`
     one round of the last loop                 ↔ `pin`
     `MountChildren::capture`                   ↔ `capture`
     `MountChildren::close`                     ↔ `close`
     `openat2`, `statx`                         ↔ `openBeneath`, `identity` -/
namespace Conglobate.Filesystem

open Vfs

inductive CaptureError where
  /-- "mount tree capture requires procfs" -/
  | notProcfs
  /-- "mount table exceeds capture limit" -/
  | limit
  /-- "incomplete kernel mount record" -/
  | incompleteRecord
  | number
  /-- "invalid kernel mount identity" -/
  | invalidIdentity
  /-- "truncated mount path escape" -/
  | truncatedEscape
  /-- "invalid mount path escape" -/
  | invalidEscape
  /-- "NUL in kernel mount path" -/
  | nul
  /-- "assigned mount is not attached" -/
  | notAttached
  /-- An index into the table that panics. -/
  | unknownMount
  /-- A closure without end. -/
  | endless
  | notBeneathRoot
  /-- "overmounted assigned root" -/
  | overmounted
  /-- An object is missing, no directory or outside. -/
  | notFound
  /-- "kernel did not report assigned mount ID" -/
  | noMountId
  /-- "mount has no name" -/
  | noName
  /-- "assigned child mount changed during capture" -/
  | changed
  deriving DecidableEq

/-! The mount table. -/

def backslash : UInt8 := 92
def separator : UInt8 := 47
def dotName : Bytes := [46]
def dotdotName : Bytes := [46, 46]

/-- What an escape stands for. -/
def escaped (text : Bytes) : Option UInt8 :=
  if text = [92, 48, 52, 48] then some 32
  else if text = [92, 48, 49, 49] then some 9
  else if text = [92, 48, 49, 50] then some 10
  else if text = [92, 49, 51, 52] then some 92
  else none

def unescape : Bytes → Except CaptureError Bytes
  | [] => .ok []
  | first :: rest =>
    if first = backslash then
      match rest with
      | a :: b :: c :: rest =>
        match escaped [first, a, b, c] with
        | none => .error .invalidEscape
        | some byte => (byte :: ·) <$> unescape rest
      | _ => .error .truncatedEscape
    else if first = 0 then .error .nul
    else (first :: ·) <$> unescape rest

/-- `parse::<u64>`: a field that is no UTF-8 has a byte that is no digit. -/
def parseId (field : Bytes) : Except CaptureError Nat :=
  match Decimal.parseUnsigned 64 (field.map fun b => Char.ofNat b.toNat) with
  | some n => .ok n
  | none => .error .number

/-- Mounts by their identifier: the parent's, and the path. -/
abbrev MountTable := OrdMap Nat (Nat × Bytes)

def isAbsolute (path : Bytes) : Bool := path.head? = some separator

def addRecord (table : MountTable) (line : Bytes) : Except CaptureError MountTable :=
  match (line.splitOn Ascii.blank).take 6 with
  | [idField, parentField, _, _, pathField, _] => do
    let id ← parseId idField
    let parent ← parseId parentField
    let path ← unescape pathField
    if id = 0 ∨ isAbsolute path = false ∨ table.contains id = true then .error .invalidIdentity
    else .ok (table.insert id (parent, path))
  | _ => .error .incompleteRecord

def readEntries (bytes : Bytes) : Except CaptureError MountTable :=
  ((bytes.splitOn Ascii.newline).filter (fun line => line ≠ [])).foldlM addRecord OrdMap.empty

/-! The mounts below the root. -/

abbrev IdSet := OrdMap Nat Unit

/-- A mount is selected behind its parent. -/
def select (selected : IdSet) (e : Nat × Nat × Bytes) : IdSet :=
  if selected.contains e.2.1 then selected.insert e.1 () else selected

def closureRound (table : MountTable) (selected : IdSet) :
    IdSet := table.entries.foldl select selected

/-- Rounds until one adds none. -/
def closure (table : MountTable) : Nat → IdSet → Option IdSet
  | 0, _ => none
  | fuel + 1, selected =>
    let next := closureRound table selected
    if selected.keys.length = next.keys.length then some next else closure table fuel next

/-! Where they are. -/

/-- The names of an absolute path. -/
def pathNames (path : Bytes) : List Bytes :=
  (path.splitOn separator).filter (fun part => part ≠ [] && part ≠ dotName)

/-- A mount with its path below the root's. -/
def relative (table : MountTable) (rootPath : Bytes) (id : Nat) :
    Except CaptureError (Nat × List Bytes) :=
  match table.get? id with
  | none => .error .unknownMount
  | some (_, path) =>
    if (pathNames rootPath).isPrefixOf (pathNames path) then
      let names := (pathNames path).drop (pathNames rootPath).length
      if names = [] then .error .overmounted else .ok (id, names)
    else .error .notBeneathRoot

/-- The order of `sort_by_key`. -/
def NoLonger (a b : Nat × List Bytes) : Prop := a.2.length ≤ b.2.length

instance : DecidableRel NoLonger := fun a b => inferInstanceAs (Decidable (a.2.length ≤ b.2.length))

/-- What is pinned: a directory and a name in it. -/
structure Point where
  parent : Place Bytes
  name : Bytes
  deriving DecidableEq

/-- `openat2` of a directory, without links and beneath the root. -/
def openBeneath (mounts : Mounts Bytes) (root : Nat) (names : List Bytes) :
    Except CaptureError (Place Bytes) :=
  match mounts.walk ⟨root, []⟩ names with
  | some (place :: _) => if mounts.kind place = some .directory then .ok place else .error .notFound
  | _ => .error .notFound

/-- `statx` of a name in a directory, for its mount. -/
def identity (mounts : Mounts Bytes) (parent : Place Bytes) (name : Bytes) :
    Except CaptureError Nat :=
  let place : Place Bytes := ⟨parent.mount, parent.path ++ [name]⟩
  if (mounts.kind place).isNone then .error .notFound
  else
    let id := (mounts.top place).mount
    if id = 0 then .error .noMountId else .ok id

/-- The last name of a path, and the directory it is in. -/
def pin (mounts : Mounts Bytes) (root : Nat) (found : Nat × List Bytes) :
    Except CaptureError Point := do
  let parent ← openBeneath mounts root found.2.dropLast
  match found.2.getLast? with
  | none => .error .noName
  | some name =>
    if name = dotdotName then .error .noName
    else
      let id ← identity mounts parent name
      if id ≠ found.1 then .error .changed else .ok ⟨parent, name⟩

/-- What there is to capture from: the mounts, the one given, and the kernel's table. -/
structure Host where
  mounts : Mounts Bytes
  dots : mounts.dotdot = dotdotName
  root : Nat
  procfs : Bool
  mountinfo : Bytes

/-- 2 MiB. -/
def captureLimit : Nat := 2 * 1024 * 1024

def capture (host : Host) : Except CaptureError (List Point) :=
  if host.root = 0 then .error .noMountId
  else if host.procfs = false then .error .notProcfs
  else if captureLimit < host.mountinfo.length then .error .limit
  else do
    let table ← readEntries host.mountinfo
    match table.get? host.root with
    | none => .error .notAttached
    | some (_, rootPath) =>
      match closure table (table.entries.length + 1) (OrdMap.empty.insert host.root ()) with
      | none => .error .endless
      | some selected => do
        let paths ← (selected.erase host.root).keys.mapM (relative table rootPath)
        (paths.insertionSort NoLonger).mapM (pin host.mounts host.root)

/-! Detaching. -/

/-- From the last point on, up to one that cannot be detached. -/
def detach (unmount : List Point → Bool) : List Point → List Point × Bool
  | [] => ([], true)
  | last :: rest => if unmount (last :: rest) then detach unmount rest else (last :: rest, false)

/-- The points that are left, and whether none had to be; `unmount` is asked for the last
    point of those there are. -/
def close (unmount : List Point → Bool) (points : List Point) : List Point × Bool :=
  let (left, done) := detach (fun reversed => unmount reversed.reverse) points.reverse
  (left.reverse, done)

end Conglobate.Filesystem
