import Conglobate.Network.ResolverProps

/- Runtime mount targets (`isolation/runtime.rs`).

   An image root is a tree on one file system, with a mode on each inode; a directory has
   one name, so its inode tells where it is. A system call may fail at any time
   (`Kernel.fault`), and then has done nothing. Nobody else changes the image.

   Correspondence (Rust ↔ Lean):
     `openat2` with `IN_ROOT`, `O_DIRECTORY`    ↔ `Tree.openDirectory`
     `mkdirat`, `chmodat`                       ↔ `Image.mkdir`, `Image.chmod`
     `RuntimeTargets::open_directory`           ↔ `openDirectory`
     `RuntimeTargets::directory`                ↔ `directory`
     `RuntimeTargets::reject_nested`, its loop  ↔ `rejectNested`, `ascend`
     `RuntimeTargets::resolve`, its checks      ↔ `resolve`, `check` -/
namespace Conglobate.Isolation.Runtime

open Network Copy

/-- A directory has one name. -/
structure Image where
  tree : Tree
  /-- The mode of an inode. -/
  modes : Nat → Nat
  root : tree.root.kind = .directory
  named : ∀ path path' object object', tree.get? path = some object →
    tree.get? path' = some object' →
    object.kind = .directory → object.ino = object'.ino → path = path'

inductive Call where
  | open (name : Bytes) (again : Bool)
  | mkdir (name : Bytes)
  | chmod (name : Bytes)
  /-- Of a target, or of the root. -/
  | metadata (name : Option Bytes)
  /-- The calls of the upward walks, by the rounds left. -/
  | clone (start other : Bytes)
  | parent (start other : Bytes) (left : Nat)
  | parentMetadata (start other : Bytes) (left : Nat)
  | before (start other : Bytes) (left : Nat)

structure Kernel where
  fault : Call → Bool
  alloc : Tree → Nat
  fresh : ∀ t path object, t.get? path = some object → object.ino ≠ alloc t
  /-- The mode `mkdirat` gives, by the umask. -/
  made : Bytes → Nat

inductive RuntimeError where
  | io
  /-- "command runtime target /{path}: {error}" -/
  | target (path : Bytes) (errno : Errno)
  | other (text : String)

/-- "dev", "proc" and "sys". -/
def dev : Bytes := [100, 101, 118]
def proc : Bytes := [112, 114, 111, 99]
def sys : Bytes := [115, 121, 115]

namespace Image

/-- A new directory of the root, whose inode is new. An error says the name is taken. -/
def mkdir (k : Kernel) (i : Image) (name : Bytes) : Except Errno Image :=
  match h : i.tree.create [] name ⟨k.alloc i.tree, .directory⟩ with
  | .error e => .error e
  | .ok t => .ok {
      tree := t
      modes := Function.update i.modes (k.alloc i.tree) (k.made name)
      root := by rw [(Tree.create_eq_ok h).2.2.1, i.root]
      named := by
        intro path path' object object' hget hget' hkind hino
        rw [Tree.get?_create h] at hget hget'
        split at hget <;> split at hget'
        · rename_i hpath hpath'
          rw [hpath, hpath']
        · obtain rfl := Option.some.inj hget
          exact absurd hino.symm (k.fresh _ _ _ hget')
        · obtain rfl := Option.some.inj hget'
          exact absurd hino (k.fresh _ _ _ hget)
        · exact i.named path path' object object' hget hget' hkind hino }

/-- `chmodat` of a name of the root. -/
def chmod (i : Image) (name : Bytes) (mode : Nat) : Image :=
  match i.tree.get? [name] with
  | none => i
  | some object => { i with modes := Function.update i.modes object.ino mode }

end Image

def openDirectory (k : Kernel) (i : Image) (name : Bytes) (again : Bool) :
    Except Errno (List Bytes × Nat) :=
  if k.fault (.open name again) then .error .other else i.tree.openDirectory [name]

/-- The directory of a name: where it is and its inode, and what the image is then. -/
def directory (k : Kernel) (i : Image) (name : Bytes) :
    Except RuntimeError (List Bytes × Nat) × Image :=
  match openDirectory k i name false with
  | .ok file => (.ok file, i)
  | .error .noent =>
    if k.fault (.mkdir name) then (.error (.target name .other), i)
    else
      match i.mkdir k name with
      | .ok made =>
        if k.fault (.chmod name) then (.error (.target name .other), made)
        else
          ((openDirectory k (made.chmod name 0o755) name true).mapError (.target name),
            made.chmod name 0o755)
      -- a dangling symlink or other non-directory occupies the name
      | .error _ => ((openDirectory k i name true).mapError (.target name), i)
  | .error e => (.error (.target name e), i)

/-- The walk up from a directory, some rounds of it left. The root itself is no target, so
    what is above it does not matter. -/
def ascend (k : Kernel) (i : Image) (start other : Bytes) (otherIno : Nat) :
    Nat → List Bytes → Except RuntimeError Unit
  | 0, _ => .error (.other "runtime target ancestry is not bounded by image root")
  | left + 1, current =>
    if k.fault (.parent start other left) || k.fault (.parentMetadata start other left) then
      .error .io
    else if current = [] then .error (.other "runtime target ancestry is not bounded by image root")
    else
      match i.tree.get? current.dropLast with
      | none => .error .io
      | some parent =>
        if parent.ino = otherIno then .error (.other "runtime mount targets are nested")
        else if parent.ino = i.tree.root.ino then .ok ()
        else if k.fault (.before start other left) then .error .io
        else if some parent.ino = (i.tree.get? current).map Object.ino then
          .error (.other "runtime target ancestry is not bounded by image root")
        else ascend k i start other otherIno left current.dropLast

def rejectNested (k : Kernel) (i : Image) (start other : Bytes) (directory : List Bytes)
    (otherIno : Nat) :
    Except RuntimeError Unit :=
  if k.fault (.clone start other) then
    .error .io
  else
    ascend k i start other otherIno 4096 directory

/-- The three targets: where each is, and its inode. -/
structure RuntimeTargets where
  proc : List Bytes × Nat
  sys : List Bytes × Nat
  dev : List Bytes × Nat

/-- `File::metadata`. -/
def metadata (k : Kernel) (name : Option Bytes) : Except RuntimeError Unit :=
  if k.fault (.metadata name) then .error .io else .ok ()

/-- What `resolve` does with the directories it opened. -/
def check (k : Kernel) (i : Image) (t : RuntimeTargets) : Except RuntimeError RuntimeTargets := do
  metadata k none
  metadata k (some proc)
  metadata k (some sys)
  if t.proc.2 = i.tree.root.ino ∨ t.sys.2 = i.tree.root.ino ∨ t.proc.2 = t.sys.2 then
    .error (.other "runtime mount targets alias root or each other")
  else do
    rejectNested k i proc sys t.proc.1 t.sys.2
    rejectNested k i sys proc t.sys.1 t.proc.2
    metadata k (some dev)
    if t.dev.2 ∈ [i.tree.root.ino, t.proc.2, t.sys.2] then
      .error (.other "device target aliases another runtime target")
    else do
      rejectNested k i dev proc t.dev.1 t.proc.2
      rejectNested k i proc dev t.proc.1 t.dev.2
      rejectNested k i dev sys t.dev.1 t.sys.2
      rejectNested k i sys dev t.sys.1 t.dev.2
      .ok t

/-- `RuntimeTargets::resolve`, and the image it leaves. -/
def resolve (k : Kernel) (i : Image) : Except RuntimeError RuntimeTargets × Image :=
  match directory k i dev with
  | (.error e, i₁) => (.error e, i₁)
  | (.ok devFile, i₁) =>
    match directory k i₁ proc with
    | (.error e, i₂) => (.error e, i₂)
    | (.ok procFile, i₂) =>
      match directory k i₂ sys with
      | (.error e, i₃) => (.error e, i₃)
      | (.ok sysFile, i₃) => (check k i₃ ⟨procFile, sysFile, devFile⟩, i₃)

end Conglobate.Isolation.Runtime
