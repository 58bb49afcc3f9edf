import Conglobate.Context.Capture
import Conglobate.Copy.DestinationProps

/- The trees COPY writes to (`copy/destination/mod.rs`).

   A name in a directory has an object's number, and two names of one number are hard
   links of one object; a directory has one name. The output's tree stands beside the
   root's, and a path of the image is in one of them (`Volume.spot`). What is written is
   done by calls on an open directory. The kernel may refuse to look a path up; other
   refusals end the copy and are left out.

   Correspondence (Rust ↔ Lean):
     `root`, `output`, and what is below them ↔ `Volume`
     `location`                               ↔ `Volume.spot`
     `mkdirat`, `openat2` with `DIRECTORY`    ↔ `Volume.mkdirat`, `Volume.openDirectory`
     `unlinkat`                               ↔ `Volume.unlinkat`
     `openat` with `EXCL`, `symlinkat`, and the owner given then ↔ `Volume.create`
     `file_metadata` of a directory           ↔ `Volume.fileMetadata`
     `directory`                              ↔ `Volume.directory`
     the middle of `leaf` and of `image_leaf` ↔ `Volume.replace` -/
namespace Conglobate.Copy

inductive WriteError where
  | selection (error : SelectionError)
  | context (error : Context.ContextError)
  /-- `resolve` or `observe` failed. -/
  | resolution (error : CopyError)
  | io
  | invalid (text : String)
  deriving DecidableEq

inductive Content where
  | directory
  | file (bytes : Bytes)
  | symlink (target : Bytes)
  | special
  deriving DecidableEq

structure Object where
  content : Content
  uid : Nat
  gid : Nat
  mode : Nat
  deriving DecidableEq

/-- A directory of the copy's own making. -/
def rootDirectory : Object := ⟨.directory, 0, 0, 0o755⟩

/-- How `resolve` sees it. -/
def Content.node : Content → ImageNode
  | .directory => .directory
  | .symlink target => .symlink target
  | _ => .file

inductive Side where
  | root
  | output
  deriving DecidableEq

/-- A path in one of the two trees. -/
structure Spot where
  side : Side
  path : List Bytes
  deriving DecidableEq

def Spot.child (k : Spot) (name : Bytes) : Spot := ⟨k.side, k.path ++ [name]⟩

structure Volume where
  /-- The output's tree is at "mnt". -/
  bootstrap : Bool
  inode : Spot → Option Nat
  object : Nat → Object
  /-- No object has this number, nor one above. -/
  next : Nat
  /-- Paths the kernel does not look up. -/
  refused : List Bytes → Bool
  roots : ∀ side, ∃ i, inode ⟨side, []⟩ = some i ∧ (object i).content = .directory
  parents : ∀ k name, inode (Spot.child k name) ≠ none → ∃ i, inode k = some i ∧
    (object i).content = .directory
  known : ∀ k i, inode k = some i → i < next
  single : ∀ k k' i, inode k = some i → inode k' = some i → (object i).content = .directory → k = k'

theorem Spot.child_inj {k k' : Spot} {name name' : Bytes} (h : k.child name = k'.child name') :
    k = k' ∧ name = name' := by
  obtain ⟨hside, hpath⟩ := Spot.mk.inj h
  obtain ⟨hfront, hlast⟩ := List.append_inj' hpath rfl
  obtain ⟨side, path⟩ := k
  obtain ⟨side', path'⟩ := k'
  obtain rfl : side = side' := hside
  obtain rfl : path = path' := hfront
  exact ⟨rfl, List.singleton_inj.mp hlast⟩

theorem Spot.child_ne_top (k : Spot) (name : Bytes) (side : Side) : k.child name ≠ ⟨side, []⟩ := by
  intro h
  exact List.concat_ne_nil name k.path (Spot.mk.inj h).2

namespace Volume

variable (v : Volume)

def found (k : Spot) : Option Object := (v.inode k).map v.object

def isDirectory (k : Spot) : Bool := (v.found k).any fun o => decide (o.content = .directory)

theorem isDirectory_iff {v : Volume} {k : Spot} :
    v.isDirectory k = true ↔ ∃ i, v.inode k = some i ∧ (v.object i).content = .directory := by
  rw [isDirectory, found]
  cases v.inode k with
  | none => simp
  | some i => simp

theorem isDirectory_top (side : Side) : v.isDirectory ⟨side, []⟩ = true :=
  isDirectory_iff.mpr (v.roots side)

theorem isDirectory_parent {v : Volume} {k : Spot} {name : Bytes}
    (h : v.inode (k.child name) ≠ none) : v.isDirectory k = true :=
  isDirectory_iff.mpr (v.parents k name h)

/-! What the kernel does. -/

/-- A new object, and a new name for it. -/
def attach (parent : Spot) (name : Bytes) (o : Object) (hparent : v.isDirectory parent = true)
    (hfree : v.inode (parent.child name) = none) : Volume where
  bootstrap := v.bootstrap
  inode k := if k = parent.child name then some v.next else v.inode k
  object i := if i = v.next then o else v.object i
  next := v.next + 1
  refused := v.refused
  roots side := by
    obtain ⟨i, hi, hdir⟩ := v.roots side
    refine ⟨i, ?_, ?_⟩
    · rw [if_neg (Spot.child_ne_top parent name side).symm, hi]
    · rw [if_neg (Nat.ne_of_lt (v.known _ _ hi)), hdir]
  parents k other hother := by
    have hk : ∃ i, v.inode k = some i ∧ (v.object i).content = .directory := by
      by_cases heq : k.child other = parent.child name
      · rw [(Spot.child_inj heq).1]
        exact isDirectory_iff.mp hparent
      · rw [if_neg heq] at hother
        exact v.parents k other hother
    obtain ⟨i, hi, hdir⟩ := hk
    have hne : k ≠ parent.child name := fun heq => by
      rw [heq, hfree] at hi
      cases hi
    refine ⟨i, ?_, ?_⟩
    · rw [if_neg hne, hi]
    · rw [if_neg (Nat.ne_of_lt (v.known _ _ hi)), hdir]
  known k i hi := by
    split at hi
    · rw [← Option.some.inj hi]
      exact Nat.lt_succ_self _
    · exact Nat.lt_succ_of_lt (v.known k i hi)
  single k k' i hk hk' hdir := by
    -- the new number has the new name only
    have hnew : ∀ l, (if l = parent.child name then some v.next else v.inode l) = some v.next →
        l = parent.child name := by
      intro l hl
      by_contra hne
      rw [if_neg hne] at hl
      exact lt_irrefl _ (v.known l _ hl)
    by_cases hi : i = v.next
    · subst hi
      rw [hnew k hk, hnew k' hk']
    · have hold : ∀ l, (if l = parent.child name then some v.next else v.inode l) = some i →
          v.inode l = some i := by
        intro l hl
        split at hl
        · exact absurd (Option.some.inj hl).symm hi
        · exact hl
      rw [if_neg hi] at hdir
      exact v.single k k' i (hold k hk) (hold k' hk') hdir

/-- One name less. -/
def detach (k : Spot) (hfile : v.isDirectory k = false) : Volume where
  bootstrap := v.bootstrap
  inode l := if l = k then none else v.inode l
  object := v.object
  next := v.next
  refused := v.refused
  roots side := by
    have hne : (⟨side, []⟩ : Spot) ≠ k := fun heq => by
      rw [← heq, v.isDirectory_top side] at hfile
      cases hfile
    rw [if_neg hne]
    exact v.roots side
  parents l name hname := by
    split at hname
    · exact absurd rfl hname
    · obtain ⟨i, hi, hdir⟩ := v.parents l name hname
      refine ⟨i, ?_, hdir⟩
      rw [if_neg, hi]
      rintro rfl
      rw [isDirectory_iff.mpr ⟨i, hi, hdir⟩] at hfile
      cases hfile
  known l i hi := by
    split at hi
    · cases hi
    · exact v.known l i hi
  single l l' i hl hl' hdir := by
    split at hl
    · cases hl
    split at hl'
    · cases hl'
    exact v.single l l' i hl hl' hdir

/-- Owned by root, and of this mode. -/
def fileMetadata (k : Spot) (mode : Nat) : Volume where
  bootstrap := v.bootstrap
  inode := v.inode
  object i := if v.inode k = some i then ⟨(v.object i).content, 0, 0, mode⟩ else v.object i
  next := v.next
  refused := v.refused
  roots side := by
    obtain ⟨i, hi, hdir⟩ := v.roots side
    refine ⟨i, hi, ?_⟩
    split
    · exact hdir
    · exact hdir
  parents l name hname := by
    obtain ⟨i, hi, hdir⟩ := v.parents l name hname
    refine ⟨i, hi, ?_⟩
    split
    · exact hdir
    · exact hdir
  known := v.known
  single l l' i hl hl' hdir := by
    apply v.single l l' i hl hl'
    split at hdir
    · exact hdir
    · exact hdir

/-- Whether it was made; what is there already is left as it is. -/
def mkdirat (parent : Spot) (name : Bytes) : Except WriteError (Bool × Volume) :=
  if hparent : v.isDirectory parent = true then
    if hfree : v.inode (parent.child name) = none then
      .ok (true, v.attach parent name ⟨.directory, 0, 0, 0o700⟩ hparent hfree)
    else .ok (false, v)
  else .error .io

def openDirectory (k : Spot) : Except WriteError Unit :=
  if v.isDirectory k then .ok () else .error .io

/-- A missing name is none to remove. -/
def unlinkat (parent : Spot) (name : Bytes) : Except WriteError Volume :=
  if hdirectory : v.isDirectory (parent.child name) = false then
    .ok (v.detach (parent.child name) hdirectory) else .error .io

def create (parent : Spot) (name : Bytes) (o : Object) : Except WriteError Volume :=
  if hparent : v.isDirectory parent = true then
    if hfree : v.inode (parent.child name) = none then
      .ok (v.attach parent name o hparent hfree)
    else
      .error .io
  else .error .io

/-! Paths of the image. -/

def tree (side : Side) : ImageTree where
  node path := (v.found ⟨side, path⟩).map fun o => o.content.node
  parents path name h := by
    right
    have hname : v.inode (Spot.child ⟨side, path⟩ name) ≠ none := by
      intro hnone
      apply h
      rw [found]
      show Option.map _ (Option.map _ (v.inode (Spot.child ⟨side, path⟩ name))) = none
      rw [hnone]
      rfl
    obtain ⟨i, hi, hdir⟩ := v.parents _ _ hname
    rw [found, hi, Option.map_some, Option.map_some, hdir]
    rfl

/-- What is resolved in. -/
def destination : Destination where
  root := v.tree .root
  output := if v.bootstrap then some (v.tree .output) else none
  refused := v.refused

def spot (path : List Bytes) : Spot :=
  if v.bootstrap = true ∧ path.head? = some mntName then ⟨.output, path.tail⟩ else ⟨.root, path⟩

/-- The object of a path. -/
def atPath (path : List Bytes) : Option Object := v.found (v.spot path)

def observe (path : List Bytes) : Except WriteError (Option ImageNode) :=
  (v.destination.observe path).mapError .resolution

/-- The loop of `directory`, at a directory it has opened. -/
def directoryFrom (v : Volume) (here : List Bytes) : List Bytes → Except WriteError Volume
  | [] => .ok v
  | name :: rest =>
    if v.bootstrap = true ∧ here ++ [name] = [mntName] then do
      v.openDirectory (v.spot (here ++ [name]))
      directoryFrom v (here ++ [name]) rest
    else do
      let made ← v.mkdirat (v.spot here) name
      made.2.openDirectory ((v.spot here).child name)
      directoryFrom (if made.1 then made.2.fileMetadata ((v.spot here).child name) 0o755
        else made.2) (here ++ [name]) rest

def directory (path : List Bytes) : Except WriteError Volume := v.directoryFrom [] path

/-- A new object at a name, in place of what is there. What is there is removed before the
    new object is known. -/
def replace (parent : List Bytes) (name : Bytes) (made : Except WriteError Object) :
    Except WriteError Volume := do
  let v ← v.directory parent
  let v ← v.unlinkat (v.spot parent) name
  let o ← made
  v.create (v.spot parent) name o

end Volume

end Conglobate.Copy
