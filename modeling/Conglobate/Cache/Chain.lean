import Conglobate.Input.CheckedImage

/- Chains found in the cache (`cache/chain.rs`).

   Preparing a scute leaves, beside its blob, a directory of variants: a verity
   hash file each, and the inflated data they share. Discovery goes from the tip
   to the base. At each scute it looks through the variants for the one whose root
   block hashes to the root required so far; that variant's salt starts with the
   root required of the scute below.

   The header codec and the hash are those of other crates: `Verity` holds them,
   and nothing is assumed of either. A file is its bytes, and the files do not
   change during a discovery.

   Correspondence (Rust ↔ Lean):
     `devmap_verity::Header`, with the sizes it computes ↔ `VerityHeader`
     `cache.regular_file(path)`          ↔ `PreparedFiles.file`
     `Dir::read_from(&handle)`           ↔ `PreparedFiles.list`
     the body of the loop over entries   ↔ `consider`, of `inspect` and `choose`
     the body of the loop over layers    ↔ `descend`
     `scutes.push`, `scutes.reverse()`   ↔ appending in `descend`, `reverse` -/
namespace Conglobate.Cache

open Artifact

abbrev Name := Bytes

inductive Algorithm where
  | sha256
  | other (name : Text)
  deriving DecidableEq

inductive HashType where
  | normal
  | chromeOs
  deriving DecidableEq

/-- A decoded header: its parameters, and the sizes computed from them. -/
structure VerityHeader where
  algorithm : Algorithm
  hashType : HashType
  salt : Bytes
  dataBlock : Nat
  hashBlock : Nat
  dataSize : Except CacheError Nat
  treeSize : Except CacheError Nat
  totalSize : Except CacheError Nat
  prefixSize : Nat

/-- The header codec, and SHA-256. -/
structure Verity where
  decode : Bytes → Except CacheError VerityHeader
  sha256 : Bytes → Hash

/-- A place in the cache: a blob, or a file of its `.prepared` directory. -/
inductive CachePath where
  | blob (digest : Digest)
  | prepared (digest : Digest) (name : Name)

/-- The cache's files. A directory lists each name once, in some order. -/
structure PreparedFiles where
  list : Digest → Except CacheError (List Name)
  file : CachePath → Except CacheError Bytes
  nodup : ∀ digest names, list digest = .ok names → names.Nodup

/-- `carapace::Scute`. -/
structure Scute where
  data : Bytes
  hash : Bytes

/-- `carapace::Chain`, from the base to the tip. -/
structure Chain where
  root : Hash
  scutes : List Scute

/-- `Path::extension`: what follows the last dot, unless the name starts with that dot. -/
def extension (name : Name) : Option Name :=
  match name.reverse.dropWhile (· != 46) with
  | [] => none
  | [_] => none
  | _ => some (name.reverse.takeWhile (· != 46)).reverse

/-- The name ends in ".verity". -/
def isVerity (name : Name) : Bool := extension name == some [118, 101, 114, 105, 116, 121]

/-- ".deflated" -/
def deflated : Text := ['.', 'd', 'e', 'f', 'l', 'a', 't', 'e', 'd']

/-- Where a scute's data is: inflated beside its variants, or the blob itself. -/
def dataPath (digest : Digest) (layer : Layer) (size : Nat) : CachePath :=
  match layer with
  | .scuteZstd _ => .prepared digest (Text.utf8 (Decimal.write size ++ deflated))
  | _ =>
    if layer.size.toNat ≠ size then
      .prepared digest (Text.utf8 (Decimal.write size ++ deflated))
    else
      .blob digest

/-- The first half of a salt. -/
def parentOf (salt : Bytes) : Except CacheError Hash :=
  if h : 32 ≤ salt.length then .ok ⟨(salt.take 32).toArray, by simpa using h⟩
  else .error (.invalid "prepared scute salt has no parent root")

/-- The block the root is the hash of: the top of the tree, or the only data block. -/
def rootBlock (header : VerityHeader) (tree : Nat) (scute : Scute) : Except IoError Bytes :=
  if tree = 0 then scute.data.readExactAt 0 header.dataBlock
  else scute.hash.readExactAt header.prefixSize header.hashBlock

/-- A variant with the root it has and the one it was prepared on. -/
structure Variant where
  scute : Scute
  parent : Hash
  root : Hash

section Discovery
variable (v : Verity) (files : PreparedFiles)

/-- One variant; `none` when it follows another hash convention. -/
def inspect (digest : Digest) (layer : Layer) (name : Name) :
    Except CacheError (Option Variant) := do
  let hash ← files.file (.prepared digest name)
  let record ← (hash.readExactAt 0 512).mapError CacheError.io
  let header ← v.decode record
  if header.algorithm = .sha256 ∧ header.hashType = .normal then
    let parent ← parentOf header.salt
    let size ← header.dataSize
    let total ← header.totalSize
    if hash.length ≠ total then .error (.invalid "prepared hash extent mismatch")
    else
      let data ← files.file (dataPath digest layer size)
      if data.length ≠ size then .error (.invalid "prepared data extent mismatch")
      else
        let tree ← header.treeSize
        let block ← (rootBlock header tree ⟨data, hash⟩).mapError CacheError.io
        .ok (some ⟨⟨data, hash⟩, parent, v.sha256 (header.salt ++ block)⟩)
  else .ok none

/-- A variant of the required root, beside what was selected before. -/
def choose (root : Hash) (selected : Option (Scute × Hash)) (variant : Option Variant) :
    Except CacheError (Option (Scute × Hash)) :=
  match variant with
  | none => .ok selected
  | some w =>
    if w.root ≠ root then .ok selected
    else if selected.isSome then .error (.invalid "ambiguous prepared scute variants")
    else .ok (some (w.scute, w.parent))

def consider (digest : Digest) (layer : Layer) (root : Hash) (selected : Option (Scute × Hash))
    (name : Name) :
    Except CacheError (Option (Scute × Hash)) :=
  if isVerity name then inspect v files digest layer name >>= choose root selected else .ok selected

def preparedScute (layer : Layer) (root : Hash) : Except CacheError (Scute × Hash) := do
  let digest ← (Digest.fromStr layer.digestStr).mapError
    (fun _ => CacheError.invalid "invalid scute digest")
  let names ← files.list digest
  let selected ← names.foldlM (consider v files digest layer root) none
  match selected with
  | some found => .ok found
  | none => .error (.invalid "prepared scute does not match the chain root")

/-- One layer, from the tip: the root required next, and the scutes found so far. -/
def descend (found : Hash × List Scute) (layer : Layer) : Except CacheError (Hash × List Scute) :=
  if layer.scute?.isNone then .ok found
  else if found.1 = zeroHash then .error (.invalid "scutes are not in base-to-tip order")
  else do
    let next ← preparedScute v files layer found.1
    .ok (next.2, found.2 ++ [next.1])

/-- `Chain::from_index`. -/
def fromIndex (image : CheckedImage) : Except CacheError Chain :=
  match image.root with
  | none => .error (.invalid "indexed image has no carapace")
  | some root => do
    let found ← image.manifest.layers.reverse.foldlM (descend v files) (root, [])
    if found.2 = [] ∨ found.1 ≠ zeroHash then
      .error (.invalid "manifest does not contain a complete chain")
    else .ok ⟨root, found.2.reverse⟩

end Discovery

end Conglobate.Cache
