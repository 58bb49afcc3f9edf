import Conglobate.Output.Assembly

/- What an assembly takes over, and what may stop it (`output/assembly.rs`).

   A verity parameter is what its annotation says, or its default; dropping explicit
   defaults keeps all four (`Settles.parameter`). Failures of the files are told from
   refusals by their error (`Io`): a write or a removal, a blob that cannot be read
   as what its descriptor says, and metadata that is not what it was written as or
   over the limit. What is taken over from a base is the JSON it has there, read as
   the layers the base was checked with (`scuteItems_read`). -/
namespace Conglobate.Output

open Artifact Content Storage Pipeline

/-! The verity parameters. -/

/-- The number a verity parameter stands for: its annotation's, or the default. -/
def parameter (t : OrdMap Text Text) (p : Text × Nat) : Option Nat :=
  match t.get? p.1 with
  | none => some p.2
  | some value => Decimal.parseUnsigned 32 value

/-- Explicit defaults may be gone; nothing else has changed. -/
def Settles (t u : OrdMap Text Text) : Prop :=
  ∀ k, u.get? k = t.get? k ∨
    u.get? k = none ∧ ∃ d, (k, d) ∈ verityDefaults ∧
      (t.get? k).bind (Decimal.parseUnsigned 32) = some d

theorem verityDefaults_unique {k : Text} {d d' : Nat} (h : (k, d) ∈ verityDefaults)
    (h' : (k, d') ∈ verityDefaults) :
    d = d' := by
  have hall : ∀ p ∈ verityDefaults, ∀ q ∈ verityDefaults, p.1 = q.1 → p.2 = q.2 := by decide
  exact hall (k, d) h (k, d') h' rfl

/-- **Dropping explicit defaults changes no parameter.** -/
theorem Settles.parameter {t u : OrdMap Text Text} (h : Settles t u) {p : Text × Nat}
    (hp : p ∈ verityDefaults) :
    parameter u p = parameter t p := by
  rcases h p.1 with heq | ⟨hnone, d, hd, hvalue⟩
  · rw [Output.parameter, Output.parameter, heq]
  · obtain ⟨value, hget, hparse⟩ := Option.bind_eq_some_iff.mp hvalue
    rw [Output.parameter, Output.parameter, hnone, hget]
    simp only
    rw [hparse, verityDefaults_unique hd hp]

theorem Settles.erase {t u : OrdMap Text Text} (h : Settles t u) {p : Text × Nat}
    (hp : p ∈ verityDefaults) (hvalue : (u.get? p.1).bind (Decimal.parseUnsigned 32) = some p.2) :
    Settles t (u.erase p.1) := by
  intro k
  rw [OrdMap.get?_erase]
  by_cases hk : k = p.1
  · rw [if_pos hk, hk]
    refine .inr ⟨rfl, p.2, hp, ?_⟩
    rcases h p.1 with heq | ⟨hnone, -⟩
    · rw [← heq, hvalue]
    · rw [hnone] at hvalue
      cases hvalue
  · rw [if_neg hk]
    exact h k

/-- New scutes are put on a base. -/
def newOnBase (root : Root) : Prop := root.base.isSome ∧ root.produced ≠ []

/-- Reading a blob, or reading it back. -/
def readingMessages : List String :=
  ["blob size mismatch", "blob truncated during read", "blob content mismatch",
    "metadata size mismatch or limit exceeded",
    "metadata content mismatch", "truncated produced scute", "produced scute content mismatch"]

def isReading : CacheError → Bool
  | .io _ => true
  | .invalid message => readingMessages.contains message
  | _ => false

/-- A failure of the files. -/
def AssemblyError.isIo : AssemblyError → Bool
  | .io _ => true
  | .cache error => isReading error
  | _ => false

/-- A failure of the files only. -/
def Io (e : AssemblyError) : Prop := e.isIo = true

section Writes
variable {w : Files} {s : Staging} {digest : Digest} {size : UInt64} {bytes : Bytes}

theorem fails_io {ε α : Type} {f : ε → AssemblyError} (hf : ∀ e, Io (f e)) (x : Except ε α) :
    Fails Io (x.mapError f) :=
  Fails.mapError (fun e _ => hf e)

theorem writeBlob_fails : Fails Io (writeBlob w s digest bytes) :=
  Fails.bind (fails_io (f := AssemblyError.io) (fun _ => rfl) _) (fun _ _ => Fails.ok _)

theorem storeBlob_fails : Fails Io (storeBlob w s bytes) := writeBlob_fails

theorem copyVerified_fails {sha256 : Sha256} {blobs : Blobs} :
    Fails (fun e => isReading e = true) (copyVerified sha256 blobs digest size) := by
  refine Fails.bind (Fails.mapError (fun _ _ => rfl)) (fun file _ => ?_)
  split
  · exact Fails.error rfl
  split
  · exact Fails.error rfl
  split
  · exact Fails.error rfl
  · exact Fails.ok _

theorem removeBlob_fails : Fails Io (removeBlob w s digest) := by
  rw [removeBlob]
  split
  · exact Fails.bind (fails_io (f := AssemblyError.io) (fun _ => rfl) _) (fun _ _ => Fails.ok _)
  · exact Fails.error rfl

theorem metadata_fails {sha256 : Sha256} {blobs : Blobs} {expected : Option UInt64} :
    Fails (fun e => isReading e = true) (metadata sha256 blobs digest expected) := by
  refine Fails.bind (Fails.mapError (fun _ _ => rfl)) (fun file _ => ?_)
  split
  · exact Fails.error rfl
  split
  · exact Fails.error rfl
  split
  · exact Fails.error rfl
  · exact Fails.ok _

theorem verify_fails {sha256 : Sha256} {blobs : Blobs} :
    Fails (fun e => isReading e = true) (verify sha256 blobs digest size) :=
  Fails.bind copyVerified_fails (fun _ _ => Fails.ok _)

end Writes

/-! The layers. -/

/-- The items read as the layers. -/
def Reads (items : List Json) (layers : List Layer) :
    Prop := List.Forall₂ (fun j l => Layer.ofJson j = .ok l) items layers

theorem layersOfJson_eq_ok {items : List Json} {layers : List Layer} :
    Manifest.layersOfJson (.array items) = .ok layers ↔ Reads items layers := except_mapM_eq_ok

/-- The fields of an image whose manifest is an object. -/
theorem image_fields {image : CheckedImage} {fields : List (Text × Json)}
    (h : image.json = .object fields) :
    Manifest.ofFields (Json.fieldMap fields) = .ok image.manifest := by
  have hdecoded := image.decoded
  rw [h] at hdecoded
  exact hdecoded

theorem originalLayers_read {image : CheckedImage} {fields : List (Text × Json)}
    (h : image.json = .object fields) :
    Reads (originalLayers image.json) image.manifest.layers := by
  obtain ⟨-, ⟨layers, hlayers, hread⟩, -⟩ := Manifest.ofFields_parts (image_fields h)
  cases layers with
  | array items =>
    rw [h, originalLayers, hlayers]
    exact layersOfJson_eq_ok.mp hread
  | _ => cases hread

/-- New scutes on a root: each is sealed on the one before it, and no root is zero. -/
def Chained : Hash → List SealedScute → Prop
  | _, [] => True
  | parent, scute :: rest => scute.parent = parent ∧ scute.root ≠ zeroHash ∧ Chained scute.root rest

/-- The new scutes continue the base's chain. -/
def Grown (root : Root) : Prop :=
  ∃ start, baseParent root.base = .ok start ∧ Chained start root.produced

/-- The layer of a produced scute. -/
def producedLayer (scute : SealedScute) : Layer := .scuteZstd scute.descriptor

theorem baseParent_hash {root : Root} {start : Hash} (h : baseParent root.base = .ok start) :
    root.hash = (root.produced.getLast?.map SealedScute.root).getD start := by
  have hget : some root.hash = (root.produced.getLast?.map SealedScute.root).or
      (root.base.bind CheckedImage.root) :=
    Option.some_get _
  have hhashed := root.hashed
  cases hlast : root.produced.getLast? with
  | some scute =>
    rw [hlast] at hget
    exact Option.some.inj hget
  | none =>
    rw [hlast] at hget hhashed
    cases hbase : root.base with
    | none =>
      rw [hbase] at hhashed
      cases hhashed
    | some image =>
      rw [hbase] at h hget
      rw [baseParent] at h
      split at h
      · rename_i hash hroot
        cases h
        change some root.hash = image.root at hget
        rw [hroot] at hget
        exact Option.some.inj hget
      · cases h

end Conglobate.Output
