import Conglobate.Lib.Mounts
import Conglobate.Planner.Order
import Mathlib.Data.List.Sort

/- Stage mounts (`storage/volume/stage.rs`, and `Point::image`, `with_mounts`, `mount_ext4`,
   `unmount`, `into_snapshot` of `storage/volume/mod.rs`).

   The filesystems of a stage are made once, in the order of their destinations' lengths,
   and attached to each volume in that order: filesystem `i` is mount `i + 1`, the volume's
   root mount 0. A destination is walked from the root, name by name, with what is missing
   on the way created. Any call may be refused (`Kernel`); a refused attachment leaves
   nothing mounted.

   Correspondence (Rust ↔ Lean):
     `normalized().split('/').count()`   ↔ `depth`
     `StageMounts::populate`, its loop   ↔ `populate`, `populateEach`
     `Point::image`, its loop            ↔ `destination`, `pointImage`
     `StageMounts::attach`, one round    ↔ `attachEach`, `attachOne`
     `MountLease::close`                 ↔ `Closing`
     the two `close`, which pop          ↔ `unwind`
     `unmount`, `into_snapshot`          ↔ `unmount`, `intoSnapshot`
     `discard`, on its way               ↔ `discard`
     `with_mounts`, `mount_ext4`         ↔ `withMounts`, `mountExt4`
     `volume.unmount()?.into_snapshot()?` ↔ `release` -/
namespace Conglobate.Storage.StageMounts

open Plan (ImagePath)
open Vfs (Place Kind Mounts)

structure StageFilesystem where
  path : ImagePath
  kind : Plan.Mount

/-- What refuses a call, if anything does. -/
structure Kernel where
  /-- Any of the calls that make a filesystem. -/
  populate : ImagePath → Option IoError
  /-- `verify_current`, before the walk. -/
  verify : ImagePath → Option IoError
  mkdir : Place Text → Option IoError
  /-- `chmodat` of what was made, or `openat2`. -/
  openBelow : Place Text → Option IoError
  /-- `open_tree`, `openat` or `move_mount`. -/
  clone : ImagePath → Option IoError
  /-- Any of the calls that mount the root. -/
  root : Option IoError
  closeChild : ImagePath → Option IoError
  closeRoot : Option IoError
  closeStage : ImagePath → Option IoError

/-! The filesystems. -/

def depth (path : ImagePath) : Nat := (path.normalized.splitOn '/').length

/-- `sort_by_key`, which is stable. -/
def Shallower (a b : ImagePath × Plan.Mount) : Prop := depth a.1 ≤ depth b.1

instance : DecidableRel Shallower := fun a b => inferInstanceAs (Decidable (depth a.1 ≤ depth b.1))

instance : Std.Total Shallower := ⟨fun a b => Nat.le_total (depth a.1) (depth b.1)⟩

instance : IsTrans (ImagePath × Plan.Mount) Shallower := ⟨fun _ _ _ hab hbc => Nat.le_trans hab hbc⟩

def ordered (mounts : OrdMap ImagePath Plan.Mount) :
    List (ImagePath × Plan.Mount) := mounts.entries.insertionSort Shallower

/-- The loop of `populate`, and the filesystems it leaves. -/
def populateEach (k : Kernel) : List (ImagePath × Plan.Mount) → List StageFilesystem →
    Except IoError Unit × List StageFilesystem
  | [], filesystems => (.ok (), filesystems)
  | (path, kind) :: rest, filesystems =>
    match k.populate path with
    | some e => (.error e, filesystems)
    | none => populateEach k rest (filesystems ++ [⟨path, kind⟩])

def populate (k : Kernel) (filesystems : List StageFilesystem)
    (mounts : OrdMap ImagePath Plan.Mount) :
    Except IoError Unit × List StageFilesystem :=
  if filesystems ≠ [] then (.error ⟨.other, "stage mounts are already configured"⟩, filesystems)
  else populateEach k (ordered mounts) filesystems

/-! Attaching them. -/

/-- The files of every mount, and what is mounted where. -/
structure View where
  attached : List (Vfs.Mount Text)
  kind : Place Text → Option Kind

/-- What is seen at a place. -/
def View.top (v : View) (place : Place Text) : Place Text := v.attached.foldl Mounts.cover place

/-- `mkdirat`, which leaves what is there. -/
def View.mkdir (v : View) (place : Place Text) : View :=
  if v.kind place = none then
    { v with kind := Function.update v.kind place (some .directory) }
  else
    v

/-- The names below the root that a normalized path has. -/
def destination (path : Text) : List Text := (path.dropWhile (· == '/')).splitOn '/'

def inner (here : Place Text) (name : Text) : Place Text := ⟨here.mount, here.path ++ [name]⟩

/-- A lease that is closed. -/
inductive Closing where
  | child (path : ImagePath)
  | root
  | stage (path : ImagePath)
  deriving DecidableEq

def Kernel.close (k : Kernel) : Closing → Option IoError
  | .child path => k.closeChild path
  | .root => k.closeRoot
  | .stage path => k.closeStage path

/-- Leases closed one after the other, until one is refused; what is behind that is kept. -/
def unwind (k : Kernel) : List Closing → Except IoError Unit × List Closing
  | [] => (.ok (), [])
  | lease :: rest =>
    match k.close lease with
    | some e => (.error e, [lease])
    | none => ((unwind k rest).1, lease :: (unwind k rest).2)

/-- `Vec::pop` takes the last attachment first. -/
def children (points : List (StageFilesystem × Vfs.Mount Text)) : List Closing :=
  points.reverse.map fun point => .child point.1.path

def stages (filesystems : List StageFilesystem) :
    List Closing := filesystems.reverse.map fun filesystem => .stage filesystem.path

/-- `Volume::unmount`: the children, then the root. -/
def unmount (k : Kernel) (points : List (StageFilesystem × Vfs.Mount Text)) :
    Except IoError Unit × List Closing :=
  match unwind k (children points) with
  | (.error e, closed) => (.error e, closed)
  | (.ok (), closed) => ((unwind k [.root]).1, closed ++ (unwind k [.root]).2)

/-- What `Volume::into_snapshot` closes: the stage's filesystems. -/
def intoSnapshot (k : Kernel) (filesystems : List StageFilesystem) :
    Except IoError Unit × List Closing :=
  unwind k (stages filesystems)

/-- A volume's end: what was attached to it, then the stage's filesystems. -/
def release (k : Kernel) (filesystems : List StageFilesystem)
    (points : List (StageFilesystem × Vfs.Mount Text)) : Except IoError Unit × List Closing :=
  match unmount k points with
  | (.error e, closed) => (.error e, closed)
  | (.ok (), closed) => ((intoSnapshot k filesystems).1, closed ++ (intoSnapshot k filesystems).2)

/-- What `discard` closes of the stage. -/
def discard (k : Kernel) (filesystems : List StageFilesystem) :
    List Closing := (intoSnapshot k filesystems).2

end Conglobate.Storage.StageMounts
