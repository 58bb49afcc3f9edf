import Conglobate.Copy.Write

/- COPY from a stage (`CopyDestination::image`, `copy/destination/image.rs`).

   The source is walked with a stack of directory streams, each with the path its
   directory was given. What the source's path names in the stage is the kernel's to say;
   a stage is finished, so its files do not change under a copy. The budget is left out.

   Correspondence (Rust ↔ Lean):
     what a directory's stream and an observation give ↔ `Node`
     `Directory`, still to be read                     ↔ its entries, and its target
     `image_leaf`                                      ↔ `imageLeaf`
     the loop of `image`                               ↔ `imageFrom`
     `image`                                           ↔ `image` -/
namespace Conglobate.Copy

/-- An object of a stage; a directory's entries are in the order of its stream. -/
inductive Node where
  | directory (entries : List (Bytes × Node))
  | file (bytes : Bytes) (mode : Nat)
  | symlink (target : Bytes)
  | special

/-- What `image_leaf` makes of it. -/
def Node.object : Node → Option Object
  | .file bytes mode => some ⟨.file bytes, 0, 0, if mode &&& 0o111 ≠ 0 then 0o755 else 0o644⟩
  | .symlink target => some ⟨.symlink target, 0, 0, 0o777⟩
  | _ => none

def imageLeaf (v : Volume) (source : Node) (target : List Bytes) : Except WriteError Volume :=
  match source.object with
  | none => .error (.invalid "COPY cannot read special image files")
  | some o => do
    let found ← v.observe target
    if found = some .directory then .error (.invalid "COPY file conflicts with directory")
    else
      match target.getLast? with
      | none => .error (.invalid "COPY file destination is root")
      | some name => v.replace target.dropLast name (.ok o)

/-- What is left to read of streams. -/
noncomputable def weight (pending : List (List (Bytes × Node) × List Bytes)) :
    Nat := (pending.map fun s => sizeOf s.1 + 1).sum

/-- The loop of `image`: the innermost directory is first. -/
def imageFrom (v : Volume) : List (List (Bytes × Node) × List Bytes) → Except WriteError Volume
  | [] => .ok v
  | ([], _) :: pending => imageFrom v pending
  | ((name, source) :: rest, directory) :: pending =>
    if name = dotName ∨ name = dotdotName then imageFrom v ((rest, directory) :: pending)
    else
      match (v.destination.resolveFrom false 0 [] (directory ++
          [name])).mapError WriteError.resolution with
      | .error e => .error e
      | .ok target =>
        match source with
        | .directory entries =>
          match v.directory target with
          | .error e => .error e
          | .ok v => imageFrom v ((entries, target) :: (rest, directory) :: pending)
        | source =>
          match imageLeaf v source target with
          | .error e => .error e
          | .ok v => imageFrom v ((rest, directory) :: pending)
termination_by pending => weight pending
decreasing_by
  · simp [weight]
  · simp [weight]
  · simp [weight]
    omega
  · simp [weight]

/-- `Path::file_name`: neither the root nor a dot. -/
def imageName (path : Bytes) : Option Bytes :=
  (pathIter path).getLast?.filter fun name => name ≠ dotdotName && name ≠ dotName && name ≠ [slash]

/-- Where a file goes: into the target, if that is a directory. -/
def imagePath (path : Bytes) (target : List Bytes) (found : Option ImageNode) :
    Except WriteError (List Bytes) :=
  if found = some .directory then
    match imageName path with
    | none => .error (.invalid "COPY source has no filename")
    | some name => .ok (target ++ [name])
  else .ok target

/-- What `opened` is the source's path names in the stage. -/
def image (opened : Except WriteError Node) (path : Bytes) (d : CopyDirective) (v : Volume) :
    Except WriteError Volume := do
  let source ← opened
  match source with
  | .directory entries => do
    let target ← (v.destination.resolve d.destination true).mapError WriteError.resolution
    let v ← openTarget d target v
    let v ← v.directory target
    imageFrom v [(entries, target)]
  | .file bytes mode => do
    let target ← (v.destination.resolve d.destination true).mapError WriteError.resolution
    let v ← openTarget d target v
    let found ← v.observe target
    let target ← imagePath path target found
    imageLeaf v (.file bytes mode) target
  | _ => .error (.invalid "COPY source is not a directory or regular file")

end Conglobate.Copy
