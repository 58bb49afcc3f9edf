import Conglobate.Lib.Json

/- Content digests (`artifact/digest.rs`). A written digest reads back
   (`fromStr_toString`); reading also takes uppercase digits, so two spellings
   may read as one digest and only the written one is canonical. -/
namespace Conglobate.Artifact

inductive DigestParseError where
  /-- "unknown algorithm prefix: expected 'sha256:', got '{0}'" -/
  | unknownAlgorithm (algorithm : Text)
  /-- "invalid hex in digest: {0}" -/
  | invalidHex
  /-- "wrong digest length: expected {expected} hex chars, got {actual}" -/
  | wrongLength (expected actual : Nat)
  deriving DecidableEq, Repr

/-- `Digest::Sha256`. -/
structure Digest where
  sha256 : Hash
  deriving DecidableEq, Repr

/-- The root of nothing, and the parent of a base scute. -/
def zeroHash : Hash := Vector.replicate 32 0

namespace Digest

/-- "sha256:" -/
def algorithm : Text := ['s', 'h', 'a', '2', '5', '6', ':']

def hex (d : Digest) : Text := Hex.encode d.sha256.toList

/-- `Display`. -/
def toString (d : Digest) : Text := algorithm ++ d.hex

/-- Decoded digits of the right number. -/
def ofBytes (bs : Bytes) : Option Digest :=
  if h : bs.length = 32 then some ⟨⟨bs.toArray, h⟩⟩ else none

/-- `FromStr`. -/
def fromStr (s : Text) : Except DigestParseError Digest :=
  if s.startsWith algorithm then
    if (Text.utf8 (s.drop algorithm.length)).length ≠ 64 then
      .error (.wrongLength 64 (Text.utf8 (s.drop algorithm.length)).length)
    else
      match (Hex.decode (s.drop algorithm.length)).bind ofBytes with
      | some d => .ok d
      | none => .error .invalidHex
  else .error (.unknownAlgorithm (s.takeWhile (· != ':')))

theorem ofBytes_eq_some {bs : Bytes} {d : Digest} : ofBytes bs = some d ↔ bs = d.sha256.toList := by
  have hlen : d.sha256.toList.length = 32 := d.sha256.length_toList
  constructor
  · intro h
    rw [ofBytes] at h
    split at h
    · cases h
      rfl
    · cases h
  · intro h
    rw [h, ofBytes, dif_pos hlen]
    congr

/-- **The texts that read as a digest**: the algorithm, then its digits, each
    letter in either case. -/
theorem fromStr_eq_ok {s : Text} {d : Digest} :
    fromStr s = .ok d ↔ ∃ digits, s = algorithm ++ digits ∧ digits.map Char.toLower = d.hex := by
  have hlen : d.sha256.toList.length = 32 := d.sha256.length_toList
  constructor
  · intro h
    rw [fromStr] at h
    split at h
    · rename_i hstart
      rw [Text.startsWith, beq_iff_eq] at hstart
      split at h
      · cases h
      · split at h
        · rename_i hd
          cases h
          obtain ⟨bs, hbs, hd⟩ := Option.bind_eq_some_iff.mp hd
          refine ⟨s.drop algorithm.length, ?_, ?_⟩
          · exact (List.take_append_drop algorithm.length s).symm.trans (congrArg (· ++ _) hstart)
          · rw [Hex.decode_eq_some.mp hbs, ofBytes_eq_some.mp hd, hex]
        · cases h
    · cases h
  · rintro ⟨digits, rfl, hdigits⟩
    have hstart : (algorithm ++ digits).startsWith algorithm = true := by
      rw [Text.startsWith, List.take_left, beq_iff_eq]
    have hsize : (Text.utf8 digits).length = 64 := by
      rw [Text.utf8_length_ascii (fun c hc => (Hex.mem_decoded hdigits hc).elim
        (fun _ => Hex.value_ascii)),
        ← List.length_map Char.toLower, hdigits, hex, Hex.encode_length, hlen]
    have hread : (Hex.decode digits).bind ofBytes = some d := by
      rw [Hex.decode_eq_some.mpr hdigits, Option.bind_some, ofBytes_eq_some]
    rw [fromStr, if_pos hstart, List.drop_left, hsize, if_neg (by decide), hread]

/-- **A digest's text reads back.** -/
theorem fromStr_toString (d : Digest) : fromStr d.toString = .ok d := by
  refine fromStr_eq_ok.mpr ⟨d.hex, rfl, ?_⟩
  exact Hex.decode_eq_some.mp (Hex.decode_encode _)

/-- A digest's text holds its algorithm's colon. -/
theorem colon_mem_toString (d : Digest) : ':' ∈ d.toString :=
  List.mem_append_left _ (by decide)

end Digest

end Conglobate.Artifact
