import Conglobate.Lib.Text

/- UTF-8 over lists of bytes.

   No character's encoding is a proper prefix of another's, so a text is read off its
   bytes in one way (`utf8_injective`), and where an encoding ends does not depend on
   what follows (`encoding_unique`). A byte that continues a character starts none
   (`continuation_starts_none`). -/
namespace Conglobate.Utf8

/-- The character the bytes start with. -/
def first? (bytes : Bytes) : Option Char := bytes.toByteArray.utf8DecodeChar? 0

theorem first?_encoding (c : Char) (rest : Bytes) :
    first? (String.utf8EncodeChar c ++ rest) = some c := by
  rw [first?, List.toByteArray_append]
  exact ByteArray.utf8DecodeChar?_utf8EncodeChar_append

/-- **An encoding is read in one way.** -/
theorem encoding_unique {c d : Char} {a b : Bytes}
    (h : String.utf8EncodeChar c ++ a = String.utf8EncodeChar d ++ b) :
    c = d ∧ a = b := by
  have hc := first?_encoding c a
  rw [h, first?_encoding] at hc
  cases hc
  exact ⟨rfl, List.append_cancel_left h⟩

theorem encoding_ne_nil (c : Char) : String.utf8EncodeChar c ≠ [] := String.utf8EncodeChar_ne_nil

theorem encoding_length (c : Char) : 1 ≤ (String.utf8EncodeChar c).length ∧
    (String.utf8EncodeChar c).length ≤ 4 := by
  rw [String.length_utf8EncodeChar]
  exact ⟨c.utf8Size_pos, c.utf8Size_le_four⟩

/-- Valid UTF-8 is a text's. -/
theorem isUtf8_iff {bytes : Bytes} : bytes.isUtf8 = true ↔ ∃ t : Text, bytes = t.utf8 := by
  rw [Bytes.isUtf8, ByteArray.validateUTF8_eq_true_iff]
  constructor
  · rintro ⟨t, ht⟩
    refine ⟨t, ?_⟩
    rw [List.utf8Encode, List.toByteArray_inj] at ht
    exact ht
  · rintro ⟨t, rfl⟩
    exact ⟨t, rfl⟩

/-- **A text is read off its bytes in one way.** -/
theorem utf8_injective {t u : Text} (h : t.utf8 = u.utf8) : t = u := by
  induction t generalizing u with
  | nil =>
    cases u with
    | nil => rfl
    | cons d u =>
      have hnil : String.utf8EncodeChar d ++ Text.utf8 u = [] := h.symm
      exact absurd (List.append_eq_nil_iff.mp hnil).1 (encoding_ne_nil d)
  | cons c t ih =>
    cases u with
    | nil =>
      have hnil : String.utf8EncodeChar c ++ Text.utf8 t = [] := h
      exact absurd (List.append_eq_nil_iff.mp hnil).1 (encoding_ne_nil c)
    | cons d u =>
      have happend : String.utf8EncodeChar c ++ Text.utf8 t = String.utf8EncodeChar d ++
        Text.utf8 u := h
      obtain ⟨rfl, hrest⟩ := encoding_unique happend
      rw [ih hrest]

/-- `str::from_utf8`. -/
def read (bytes : Bytes) : Option Text :=
  if h : bytes.isUtf8 = true then
    some (String.fromUTF8 bytes.toByteArray (ByteArray.validateUTF8_eq_true_iff.mp h)).toList
  else none

/-- **A text is what its bytes are read as.** -/
theorem read_utf8 (t : Text) : read t.utf8 = some t := by
  have hvalid : t.utf8.isUtf8 = true := isUtf8_iff.mpr ⟨t, rfl⟩
  have hstring : String.fromUTF8 t.utf8.toByteArray (ByteArray.validateUTF8_eq_true_iff.mp hvalid) =
    String.ofList t := rfl
  rw [read, dif_pos hvalid, hstring, String.toList_ofList]

/-! The bytes of a character. -/

/-- `10xxxxxx`. -/
def Continues (b : UInt8) : Prop := 128 ≤ b.toNat ∧ b.toNat < 192

/-- The first byte of an encoding starts a character. -/
theorem encoding_head {c : Char} {b : UInt8} {tail : Bytes}
    (h : String.utf8EncodeChar c = b :: tail) : ¬Continues b := by
  have hhead : ∀ n : Nat, n < 256 → (n < 128 ∨ 192 ≤ n) → ¬Continues (UInt8.ofNat n) := by
    intro n hn hrange hcontinues
    rw [Continues, UInt8.toNat_ofNat_of_lt' hn] at hcontinues
    omega
  have hval : c.val.toNat < 1114112 := by
    have hvalid := c.valid
    rcases hvalid with hlow | ⟨-, hhigh⟩ <;> omega
  rw [String.utf8EncodeChar] at h
  split at h
  · rw [← (List.cons_eq_cons.mp h).1]
    exact hhead _ (by omega) (by omega)
  split at h
  · rw [← (List.cons_eq_cons.mp h).1]
    exact hhead _ (by omega) (by omega)
  split at h
  · rw [← (List.cons_eq_cons.mp h).1]
    exact hhead _ (by omega) (by omega)
  · rw [← (List.cons_eq_cons.mp h).1]
    exact hhead _ (by omega) (by omega)

/-- The others continue it. -/
theorem encoding_tail {c : Char} {b : UInt8} {tail : Bytes}
    (h : String.utf8EncodeChar c = b :: tail) :
    ∀ x ∈ tail, Continues x := by
  have hsix : ∀ n : Nat, n < 64 → Continues (UInt8.ofNat (n + 128)) := by
    intro n hn
    rw [Continues, UInt8.toNat_ofNat_of_lt' (show n + 128 < 256 by omega)]
    omega
  have hsmall : ∀ n : Nat, Continues (UInt8.ofNat (n % 64 + 128)) :=
    fun n => hsix _ (Nat.mod_lt _ (by omega))
  rw [String.utf8EncodeChar] at h
  split at h
  · rw [← (List.cons_eq_cons.mp h).2]
    exact List.forall_mem_nil _
  split at h
  · rw [← (List.cons_eq_cons.mp h).2]
    simp only [List.mem_cons, List.not_mem_nil, or_false, forall_eq]
    exact hsmall _
  split at h
  · rw [← (List.cons_eq_cons.mp h).2]
    simp only [List.mem_cons, List.not_mem_nil, or_false, forall_eq_or_imp, forall_eq]
    exact ⟨hsmall _, hsmall _⟩
  · rw [← (List.cons_eq_cons.mp h).2]
    simp only [List.mem_cons, List.not_mem_nil, or_false, forall_eq_or_imp, forall_eq]
    exact ⟨hsmall _, hsmall _, hsmall _⟩

/-- **A byte that continues a character starts none.** -/
theorem continues_starts_none {b : UInt8} (h : Continues b) (c : Char) (tail rest : Bytes) :
    String.utf8EncodeChar c ++ tail ≠ b :: rest := by
  intro heq
  cases hencoding : String.utf8EncodeChar c with
  | nil => exact encoding_ne_nil c hencoding
  | cons head more =>
    rw [hencoding, List.cons_append] at heq
    have hhead := encoding_head hencoding
    rw [(List.cons_eq_cons.mp heq).1] at hhead
    exact hhead h

end Conglobate.Utf8
