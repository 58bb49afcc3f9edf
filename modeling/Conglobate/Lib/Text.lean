import Conglobate.Lib.ByteStore
import Mathlib.Data.Nat.Digits.Defs

/- Strings as their characters, and the two spellings of numbers the formats of
   this development use in them: bytes as hexadecimal digits, naturals as decimal
   digits. What is written reads back (`Hex.decode_encode`, `parseDigits_decimal`). -/
namespace Conglobate

/-- A string, as its characters. -/
abbrev Text := List Char

namespace Text

/-- The bytes of a string. -/
def utf8 (t : Text) : Bytes := t.flatMap String.utf8EncodeChar

/-- `starts_with`. -/
def startsWith (t p : Text) : Bool := t.take p.length == p

/-- Only uppercase letters have another lowercase letter. -/
theorem toLower_eq_self {c : Char} (h : 90 < c.toNat) : c.toLower = c := by
  refine dif_neg ?_
  intro hup
  have : c.toNat ≤ 90 := hup.2
  omega

theorem toLower_eq_colon {c : Char} : c.toLower = ':' ↔ c = ':' := by
  by_cases hc : c.toNat < 128
  · have hall : ∀ n : Fin 128, (Char.ofNat n).toLower = ':' ↔ Char.ofNat n = ':' := by
      decide +kernel
    have hn := hall ⟨c.toNat, hc⟩
    rwa [Char.ofNat_toNat] at hn
  · rw [toLower_eq_self (by omega)]

/-- ASCII characters are one byte each. -/
theorem utf8_length_ascii {t : Text} (h : ∀ c ∈ t, c.toNat < 128) :
    (Text.utf8 t).length = t.length := by
  have hall : ∀ n : Fin 128, (String.utf8EncodeChar (Char.ofNat n)).length = 1 := by decide
  induction t with
  | nil => rfl
  | cons c rest ih =>
    obtain ⟨hc, hrest⟩ := List.forall_mem_cons.mp h
    have hone := hall ⟨c.toNat, hc⟩
    rw [Char.ofNat_toNat] at hone
    rw [Text.utf8] at ih ⊢
    rw [List.flatMap_cons, List.length_append, ih hrest, hone, List.length_cons, Nat.add_comm]

end Text

/-- A SHA-256 digest's bytes. -/
abbrev Hash := Vector UInt8 32

namespace Hex

/-- The lowercase digit of a value below sixteen. -/
def digit (n : Nat) : Char := if n < 10 then Char.ofNat (48 + n) else Char.ofNat (87 + n)

/-- `hex::encode`. -/
def encode : Bytes → Text
  | [] => []
  | b :: rest => digit (b.toNat / 16) :: digit (b.toNat % 16) :: encode rest

/-- The value of a digit of either case. -/
def value (c : Char) : Option Nat :=
  if '0' ≤ c ∧ c ≤ '9' then some (c.toNat - 48)
  else if 'a' ≤ c ∧ c ≤ 'f' then some (c.toNat - 87)
  else if 'A' ≤ c ∧ c ≤ 'F' then some (c.toNat - 55)
  else none

/-- `hex::decode`. -/
def decode : Text → Option Bytes
  | [] => some []
  | [_] => none
  | a :: b :: rest =>
    match value a, value b, decode rest with
    | some high, some low, some bs => some (UInt8.ofNat (16 * high + low) :: bs)
    | _, _, _ => none

theorem value_digit {n : Nat} (h : n < 16) : value (digit n) = some n := by
  have hall : ∀ m : Fin 16, value (digit m) = some m.val := by decide
  exact hall ⟨n, h⟩

@[simp] theorem encode_length (bs : Bytes) : (encode bs).length = 2 * bs.length := by
  induction bs with
  | nil => rfl
  | cons b rest ih =>
    simp only [encode, List.length_cons, ih]
    omega

/-- **Hexadecimal reads back.** -/
theorem decode_encode (bs : Bytes) : decode (encode bs) = some bs := by
  induction bs with
  | nil => rfl
  | cons b rest ih =>
    have hb := b.toNat_lt
    have hbyte : UInt8.ofNat (16 * (b.toNat / 16) + b.toNat % 16) = b := by
      rw [Nat.div_add_mod, UInt8.ofNat_toNat]
    rw [encode, decode, value_digit (by omega), value_digit (by omega), ih]
    exact congrArg (fun x => some (x :: rest)) hbyte

theorem value_ascii {c : Char} {n : Nat} (h : value c = some n) : c.toNat < 128 := by
  refine Decidable.of_not_not (fun hc => ?_)
  have hle : ∀ d : Char, d.toNat < 128 → ¬ c ≤ d := by
    intro d hd hcd
    have : c.toNat ≤ d.toNat := hcd
    omega
  simp [value, hle] at h

/-- A character is read as a digit in either case. -/
theorem value_eq_some {c : Char} {n : Nat} : value c = some n ↔ n < 16 ∧ c.toLower = digit n := by
  by_cases hc : c.toNat < 128
  · have hall : ∀ k : Fin 128, (value (Char.ofNat k)).all (· < 16) ∧
        ∀ n : Fin 16, value (Char.ofNat k) = some n.val ↔ (Char.ofNat k).toLower = digit n := by
          decide +kernel
    obtain ⟨hlt, hiff⟩ := hall ⟨c.toNat, hc⟩
    rw [show Char.ofNat c.toNat = c from Char.ofNat_toNat c] at hlt hiff
    constructor
    · intro h
      have hn : n < 16 := by simpa [h] using hlt
      exact ⟨hn, (hiff ⟨n, hn⟩).mp h⟩
    · intro h
      exact (hiff ⟨n, h.1⟩).mpr h.2
  · have hvalue : value c = none := by
      cases hv : value c with
      | none => rfl
      | some m => exact absurd (value_ascii hv) hc
    have hlower : c.toLower = c := Text.toLower_eq_self (by omega)
    have hdigit : ∀ m : Fin 16, (digit m).toNat < 128 := by decide
    rw [hvalue, hlower]
    refine iff_of_false (fun h => by cases h) ?_
    intro h
    have := hdigit ⟨n, h.1⟩
    rw [h.2] at hc
    exact hc this

theorem decode_cons {a b : Char} {rest : Text} {x : UInt8} {bs : Bytes} :
    decode (a :: b :: rest) = some (x :: bs) ↔
      value a = some (x.toNat / 16) ∧ value b = some (x.toNat % 16) ∧ decode rest = some bs := by
  have hx := x.toNat_lt
  constructor
  · intro h
    rw [decode] at h
    split at h
    · rename_i high low bs' ha hb hrest
      cases h
      have hhigh := (value_eq_some.mp ha).1
      have hlow := (value_eq_some.mp hb).1
      have hnat : (UInt8.ofNat (16 * high + low)).toNat = 16 * high + low := by
        rw [UInt8.toNat_ofNat']
        omega
      rw [hnat, ha, hb, hrest]
      exact ⟨congrArg some (by omega), congrArg some (by omega), rfl⟩
    · cases h
  · intro h
    have hbyte : UInt8.ofNat (16 * (x.toNat / 16) + x.toNat % 16) = x := by
      rw [Nat.div_add_mod, UInt8.ofNat_toNat]
    rw [decode, h.1, h.2.1, h.2.2]
    exact congrArg (fun y => some (y :: bs)) hbyte

/-- **The texts that read as some bytes**: their digits, each letter in either case. -/
theorem decode_eq_some {t : Text} {bs : Bytes} :
    decode t = some bs ↔ t.map Char.toLower = encode bs := by
  induction bs generalizing t with
  | nil =>
    cases t with
    | nil => exact iff_of_true rfl rfl
    | cons a t =>
      refine iff_of_false ?_ (by simp [encode])
      intro h
      cases t with
      | nil => cases h
      | cons b rest =>
        rw [decode] at h
        split at h <;> cases h
  | cons x bs ih =>
    have hx := x.toNat_lt
    rcases t with _ | ⟨a, _ | ⟨b, rest⟩⟩
    · exact iff_of_false (fun h => by cases h) (by simp [encode])
    · exact iff_of_false (fun h => by cases h) (by simp [encode])
    · rw [decode_cons, value_eq_some, value_eq_some, ih, encode, List.map_cons, List.map_cons,
        List.cons.injEq, List.cons.injEq]
      exact and_congr (and_iff_right (by omega)) (and_congr (and_iff_right (by omega)) Iff.rfl)

theorem mem_encode {c : Char} {bs : Bytes} (h : c ∈ encode bs) : ∃ n, n < 16 ∧ c = digit n := by
  induction bs with
  | nil => cases h
  | cons b rest ih =>
    have hb := b.toNat_lt
    rw [encode, List.mem_cons, List.mem_cons] at h
    rcases h with h | h | h
    · exact ⟨b.toNat / 16, by omega, h⟩
    · exact ⟨b.toNat % 16, by omega, h⟩
    · exact ih h

/-- No digit is a colon. -/
theorem colon_not_mem_encode (bs : Bytes) : ':' ∉ encode bs := by
  have hall : ∀ m : Fin 16, ':' ≠ digit m := by decide
  intro h
  obtain ⟨n, hn, heq⟩ := mem_encode h
  exact hall ⟨n, hn⟩ heq

/-- What reads as bytes is made of digits of either case. -/
theorem mem_decoded {t : Text} {bs : Bytes} (h : t.map Char.toLower = encode bs) {c : Char}
    (hc : c ∈ t) :
    ∃ n, value c = some n := by
  obtain ⟨n, hn, heq⟩ := mem_encode (h ▸ List.mem_map_of_mem hc)
  exact ⟨n, value_eq_some.mpr ⟨hn, heq⟩⟩

end Hex

namespace Decimal

def digit (n : Nat) : Char := Char.ofNat (48 + n)

/-- The decimal spelling of a number. -/
def write (n : Nat) : Text := if n = 0 then ['0'] else (Nat.digits 10 n).reverse.map digit

/-- The value of a nonempty run of digits. -/
def parseDigits (t : Text) : Option Nat :=
  if t ≠ [] ∧ t.all Char.isDigit then
    some (t.foldl (fun n c => 10 * n + (c.toNat - 48)) 0)
  else
    none

/-- `parse` to an unsigned integer of `bits` bits: one plus sign may lead. -/
def parseUnsigned (bits : Nat) (t : Text) : Option Nat :=
  (parseDigits (if t.head? = some '+' then t.tail else t)).filter (· < 2 ^ bits)

theorem digit_facts {n : Nat} (h : n < 10) : (digit n).isDigit = true ∧
    (digit n).toNat - 48 = n := by
  have hall : ∀ m : Fin 10, (digit m).isDigit = true ∧ (digit m).toNat - 48 = m.val := by decide
  exact hall ⟨n, h⟩

/-- Reading digits from the most significant is their positional value. -/
theorem foldl_digits {l : List Nat} (h : ∀ d ∈ l, d < 10) :
    (l.reverse.map digit).foldl (fun n c => 10 * n + (c.toNat - 48)) 0 = Nat.ofDigits 10 l := by
  induction l with
  | nil => rfl
  | cons d rest ih =>
    obtain ⟨hd, hrest⟩ := List.forall_mem_cons.mp h
    rw [List.reverse_cons, List.map_append, List.foldl_append, ih hrest, Nat.ofDigits_cons]
    simp only [List.map_cons, List.map_nil, List.foldl_cons, List.foldl_nil, (digit_facts hd).2]
    omega

/-- **A number's spelling reads back.** -/
theorem parseDigits_write (n : Nat) : parseDigits (write n) = some n := by
  unfold write
  split
  · rename_i hzero
    rw [hzero]
    rfl
  · rename_i hne
    have hlt : ∀ d ∈ Nat.digits 10 n, d < 10 := fun d hd => Nat.digits_lt_base (by omega) hd
    have hnil : (Nat.digits 10 n).reverse.map digit ≠ [] := by
      simpa [Nat.digits_ne_nil_iff_ne_zero] using hne
    have hdigits : ((Nat.digits 10 n).reverse.map digit).all Char.isDigit = true := by
      rw [List.all_map, List.all_eq_true]
      intro d hd
      exact (digit_facts (hlt d (List.mem_reverse.mp hd))).1
    rw [parseDigits, if_pos ⟨hnil, hdigits⟩, foldl_digits hlt, Nat.ofDigits_digits]

end Decimal

namespace Bytes

/-- `String::from_utf8` accepts the bytes. -/
def isUtf8 (bs : Bytes) : Bool := bs.toByteArray.validateUTF8

theorem utf8EncodeChar_ascii {b : UInt8} (h : b.toNat < 128) :
    String.utf8EncodeChar (Char.ofNat b.toNat) = [b] := by
  have hall : ∀ n : Fin 128, String.utf8EncodeChar (Char.ofNat n) = [UInt8.ofNat n] := by decide
  rw [hall ⟨b.toNat, h⟩, UInt8.ofNat_toNat]

/-- ASCII text is UTF-8. -/
theorem isUtf8_ascii {bs : Bytes} (h : ∀ b ∈ bs, b.toNat < 128) : isUtf8 bs = true := by
  have hencode : (bs.map (fun b => Char.ofNat b.toNat)).flatMap String.utf8EncodeChar = bs := by
    induction bs with
    | nil => rfl
    | cons b rest ih =>
      obtain ⟨hb, hrest⟩ := List.forall_mem_cons.mp h
      rw [List.map_cons, List.flatMap_cons, utf8EncodeChar_ascii hb, ih hrest]
      rfl
  rw [isUtf8, ByteArray.validateUTF8_eq_true_iff]
  exact ⟨bs.map (fun b => Char.ofNat b.toNat), by rw [List.utf8Encode, hencode]⟩

end Bytes

end Conglobate
