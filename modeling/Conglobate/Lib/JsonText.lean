import Conglobate.Lib.Json
import Conglobate.Lib.Utf8

/- The compact text of a JSON value says which value it is.

   A value's text is a prefix code: its first character tells its kind
   (`text_head`), and where it ends does not depend on what follows, except that a
   number is not followed by a digit (`Ends`). So two values with one text are one
   value (`toVec_injective`). Numbers that are kept by their text alone (`other`) are
   left out (`Plain`). -/
namespace Conglobate
namespace Json

mutual

/-- No number by its text. -/
def Plain : Json → Prop
  | .other _ => False
  | .array items => PlainItems items
  | .object fields => PlainFields fields
  | _ => True

def PlainItems : List Json → Prop
  | [] => True
  | j :: rest => j.Plain ∧ PlainItems rest

def PlainFields : List (Text × Json) → Prop
  | [] => True
  | e :: rest => e.2.Plain ∧ PlainFields rest

end

/-! Strings. -/

/-- One character of a string, read back. -/
def unescape : Text → Option (Char × Text)
  | '\\' :: 'u' :: '0' :: '0' :: a :: b :: rest =>
    (Hex.value a).bind fun x => (Hex.value b).map fun y => (Char.ofNat (16 * x + y), rest)
  | '\\' :: c :: rest =>
    if c = '"' then some ('"', rest)
    else if c = '\\' then some ('\\', rest)
    else if c = 'b' then some (Char.ofNat 8, rest)
    else if c = 't' then some (Char.ofNat 9, rest)
    else if c = 'n' then some (Char.ofNat 10, rest)
    else if c = 'f' then some (Char.ofNat 12, rest)
    else if c = 'r' then some (Char.ofNat 13, rest)
    else none
  | c :: rest => if c = '"' ∨ c = '\\' then none else some (c, rest)
  | [] => none

theorem char_of_toNat {c : Char} {n : Nat} (h : c.toNat = n) : Char.ofNat n = c := by
  rw [← h]
  exact Char.ofNat_toNat c

/-- **An escaped character is read back**, whatever follows it. -/
theorem unescape_escape (c : Char) (rest : Text) :
    unescape (escape c ++ rest) = some (c, rest) := by
  unfold escape
  split
  · rename_i h
    subst h
    rfl
  split
  · rename_i h
    subst h
    rfl
  split
  · rename_i h
    rw [← char_of_toNat h]
    rfl
  split
  · rename_i h
    rw [← char_of_toNat h]
    rfl
  split
  · rename_i h
    rw [← char_of_toNat h]
    rfl
  split
  · rename_i h
    rw [← char_of_toNat h]
    rfl
  split
  · rename_i h
    rw [← char_of_toNat h]
    rfl
  split
  · rename_i h
    show (Hex.value (Hex.digit (c.toNat / 16))).bind _ = _
    rw [Hex.value_digit (by omega), Option.bind_some, Hex.value_digit (by omega), Option.map_some]
    rw [char_of_toNat (by omega : c.toNat = 16 * (c.toNat / 16) + c.toNat % 16)]
    rfl
  · rename_i hquote hescape _ _ _ _ _ _
    rw [List.singleton_append, unescape]
    · exact if_neg (not_or.mpr ⟨hquote, hescape⟩)
    · exact fun _ _ _ h => absurd h hescape
    · exact fun _ _ h => absurd h hescape

/-- A string's text ends at its own quote. -/
theorem stringText_inj {t u r s : Text} (h : stringText t ++ r = stringText u ++ s) :
    t = u ∧ r = s := by
  have hbody : t.flatMap escape ++ '"' :: r = u.flatMap escape ++ '"' :: s := by
    have h := (List.cons.inj h).2
    simpa using h
  clear h
  -- character by character, on the first string
  induction t generalizing u with
  | nil =>
    cases u with
    | nil => exact ⟨rfl, (List.cons.inj hbody).2⟩
    | cons c u =>
      have hread := congrArg unescape hbody
      rw [List.flatMap_cons, List.append_assoc, unescape_escape] at hread
      cases hread
  | cons c t ih =>
    cases u with
    | nil =>
      have hread := congrArg unescape hbody
      rw [List.flatMap_cons, List.append_assoc, unescape_escape] at hread
      cases hread
    | cons d u =>
      have hread := congrArg unescape hbody
      rw [List.flatMap_cons, List.append_assoc, unescape_escape, List.flatMap_cons,
        List.append_assoc, unescape_escape, Option.some.injEq, Prod.mk.injEq] at hread
      obtain ⟨rfl, hrest⟩ := hread
      obtain ⟨rfl, hr⟩ := ih hrest
      exact ⟨rfl, hr⟩

/-! Numbers. -/

/-- What may follow a number. -/
def Ends (r : Text) : Prop := ∀ c, r.head? = some c → c.isDigit = false

theorem write_digits (n : Nat) : ∀ c ∈ Decimal.write n, c.isDigit = true := by
  have hread := Decimal.parseDigits_write n
  rw [Decimal.parseDigits] at hread
  split at hread
  · rename_i hdigits
    exact List.all_eq_true.mp hdigits.2
  · cases hread

theorem write_ne_nil (n : Nat) : Decimal.write n ≠ [] := by
  intro hnil
  have hread := Decimal.parseDigits_write n
  rw [hnil] at hread
  cases hread

theorem takeWhile_write {n : Nat} {r : Text} (hr : Ends r) :
    (Decimal.write n ++ r).takeWhile Char.isDigit = Decimal.write n := by
  rw [List.takeWhile_append_of_pos (write_digits n)]
  cases r with
  | nil => simp
  | cons c rest => rw [List.takeWhile_cons_of_neg (by simp [hr c rfl]), List.append_nil]

theorem write_inj {n m : Nat} {r s : Text} (hr : Ends r) (hs : Ends s)
    (h : Decimal.write n ++ r = Decimal.write m ++ s) :
    n = m ∧ r = s := by
  have hdigits : Decimal.write n = Decimal.write m := by
    rw [← takeWhile_write hr, h, takeWhile_write hs]
  have hread := Decimal.parseDigits_write n
  rw [hdigits, Decimal.parseDigits_write, Option.some.injEq] at hread
  exact ⟨hread.symm, List.append_cancel_left (hdigits ▸ h)⟩

/-! Values. -/

/-- The kind a value's first character tells. -/
def kindOf (c : Char) : Nat :=
  if c = 'n' then
    0
  else if c = 't' then
    1
  else if c = 'f' then
    2
  else if c = '"' then
    4
  else if c = '[' then
    5
  else if c = '{' then 6 else if c.isDigit then 3 else 7

def kind : Json → Nat
  | .null => 0
  | .bool true => 1
  | .bool false => 2
  | .natural _ => 3
  | .string _ => 4
  | .array _ => 5
  | .object _ => 6
  | .other _ => 7

theorem kindOf_digit {c : Char} (h : c.isDigit = true) : kindOf c = 3 := by
  have hne : ∀ d : Char, d.isDigit = false → c ≠ d :=
    fun d hd heq => by rw [← heq, h] at hd; cases hd
  rw [kindOf, if_neg (hne _ rfl), if_neg (hne _ rfl), if_neg (hne _ rfl), if_neg (hne _ rfl),
    if_neg (hne _ rfl), if_neg (hne _ rfl), if_pos h]

/-- **The first character tells the kind.** -/
theorem text_head {a : Json} (h : a.Plain) : ∃ c rest, a.text = c :: rest ∧ kindOf c = a.kind := by
  cases a with
  | null => exact ⟨_, _, by rw [text], rfl⟩
  | bool value => cases value <;> exact ⟨_, _, by rw [text], rfl⟩
  | natural n =>
    obtain ⟨c, rest, hwrite⟩ := List.exists_cons_of_ne_nil (write_ne_nil n)
    exact ⟨c, rest, by rw [text, hwrite], kindOf_digit (write_digits n c (by simp [hwrite]))⟩
  | other => exact absurd h (by simp [Plain])
  | string t =>
    exact ⟨'"', t.flatMap escape ++ ['"'], by rw [text, stringText, List.cons_append], rfl⟩
  | array items => exact ⟨'[', itemsText items ++ [']'], by rw [text, List.cons_append], rfl⟩
  | object fields => exact ⟨'{', fieldsText fields ++ ['}'], by rw [text, List.cons_append], rfl⟩

theorem kind_eq {a b : Json} {r s : Text} (ha : a.Plain) (hb : b.Plain)
    (h : a.text ++ r = b.text ++ s) : a.kind = b.kind := by
  obtain ⟨c, rest, hc, hkind⟩ := text_head ha
  obtain ⟨d, rest', hd, hkind'⟩ := text_head hb
  rw [hc, hd] at h
  rw [← hkind, ← hkind', (List.cons.inj h).1]

/-- A value's text does not start with what stands between and behind values. -/
theorem text_ne_mark {a : Json} {c : Char} {r s : Text} (ha : a.Plain) (hc : kindOf c = 7) :
    a.text ++ r ≠ c :: s := by
  intro h
  obtain ⟨d, rest, hd, hkind⟩ := text_head ha
  rw [hd] at h
  obtain rfl := (List.cons.inj h).1
  rw [hc] at hkind
  cases a with
  | bool value => cases value <;> cases hkind
  | other => exact absurd ha (by simp [Plain])
  | _ => cases hkind

theorem ends_cons {c : Char} {r : Text} (h : c.isDigit = false) : Ends (c :: r) := by
  intro d hd
  rwa [← Option.some.inj hd]

/-- Items behind the first one. -/
theorem itemsText_cons (j : Json) (rest : List Json) :
    itemsText (j :: rest) = j.text ++ if rest = [] then [] else ',' :: itemsText rest := by
  cases rest <;> simp [itemsText]

theorem fieldsText_cons (e : Text × Json) (rest : List (Text × Json)) :
    fieldsText (e :: rest) = stringText e.1 ++ ':' :: e.2.text ++ if rest = [] then []
      else ',' :: fieldsText rest := by
  cases rest <;> simp [fieldsText]

theorem ends_items (js : List Json) (r : Text) :
    Ends ((if js = [] then [] else ',' :: itemsText js) ++ ']' :: r) := by
  split
  · exact ends_cons rfl
  · exact ends_cons rfl

theorem ends_fields (es : List (Text × Json)) (r : Text) :
    Ends ((if es = [] then [] else ',' :: fieldsText es) ++ '}' :: r) := by
  split
  · exact ends_cons rfl
  · exact ends_cons rfl

mutual

/-- **A value's text is a prefix code.** -/
theorem text_append_inj (a : Json) {b : Json} {r s : Text} (ha : a.Plain) (hb : b.Plain)
    (hr : Ends r) (hs : Ends s) (h : a.text ++ r = b.text ++ s) : a = b ∧ r = s := by
  have hkind := kind_eq ha hb h
  cases a with
  | null =>
    cases b with
    | null =>
      rw [text] at h
      exact ⟨rfl, List.append_cancel_left h⟩
    | bool value => cases value <;> cases hkind
    | _ => cases hkind
  | bool value =>
    cases b with
    | bool value' =>
      have hvalue : value = value' := by cases value <;> cases value' <;> first | rfl | cases hkind
      rw [hvalue] at h ⊢
      exact ⟨rfl, List.append_cancel_left h⟩
    | _ => cases value <;> cases hkind
  | natural n =>
    cases b with
    | natural m =>
      rw [text, text] at h
      obtain ⟨rfl, hrest⟩ := write_inj hr hs h
      exact ⟨rfl, hrest⟩
    | bool value => cases value <;> cases hkind
    | _ => cases hkind
  | other => exact absurd ha (by simp [Plain])
  | string t =>
    cases b with
    | string u =>
      rw [text, text] at h
      obtain ⟨rfl, hrest⟩ := stringText_inj h
      exact ⟨rfl, hrest⟩
    | bool value => cases value <;> cases hkind
    | _ => cases hkind
  | array items =>
    cases b with
    | array items' =>
      rw [text, text] at h
      have h := (List.cons.inj h).2
      obtain ⟨rfl, hrest⟩ := itemsText_inj items ha hb (by simpa using h)
      exact ⟨rfl, hrest⟩
    | bool value => cases value <;> cases hkind
    | _ => cases hkind
  | object fields =>
    cases b with
    | object fields' =>
      rw [text, text] at h
      have h := (List.cons.inj h).2
      obtain ⟨rfl, hrest⟩ := fieldsText_inj fields ha hb (by simpa using h)
      exact ⟨rfl, hrest⟩
    | bool value => cases value <;> cases hkind
    | _ => cases hkind

theorem itemsText_inj (l : List Json) {l' : List Json} {r s : Text} (hl : PlainItems l)
    (hl' : PlainItems l') (h : itemsText l ++ ']' :: r = itemsText l' ++ ']' :: s) :
    l = l' ∧ r = s := by
  cases l with
  | nil =>
    cases l' with
    | nil => exact ⟨rfl, (List.cons.inj h).2⟩
    | cons k ks =>
      rw [itemsText_cons, List.append_assoc] at h
      exact absurd h.symm (text_ne_mark hl'.1 (by decide))
  | cons j js =>
    cases l' with
    | nil =>
      rw [itemsText_cons, List.append_assoc] at h
      exact absurd h (text_ne_mark hl.1 (by decide))
    | cons k ks =>
      rw [itemsText_cons, itemsText_cons, List.append_assoc, List.append_assoc] at h
      obtain ⟨rfl, hrest⟩ := text_append_inj j hl.1 hl'.1 (ends_items js r) (ends_items ks s) h
      by_cases hjs : js = []
      · by_cases hks : ks = []
        · rw [if_pos hjs, if_pos hks] at hrest
          exact ⟨by rw [hjs, hks], (List.cons.inj hrest).2⟩
        · rw [if_pos hjs, if_neg hks] at hrest
          exact absurd (List.cons.inj hrest).1 (by decide)
      · by_cases hks : ks = []
        · rw [if_neg hjs, if_pos hks] at hrest
          exact absurd (List.cons.inj hrest).1 (by decide)
        · rw [if_neg hjs, if_neg hks] at hrest
          obtain ⟨rfl, hrs⟩ := itemsText_inj js hl.2 hl'.2 (List.cons.inj hrest).2
          exact ⟨rfl, hrs⟩

theorem fieldsText_inj (l : List (Text × Json)) {l' : List (Text × Json)} {r s : Text}
    (hl : PlainFields l) (hl' : PlainFields l')
    (h : fieldsText l ++ '}' :: r = fieldsText l' ++ '}' :: s) : l = l' ∧ r = s := by
  cases l with
  | nil =>
    cases l' with
    | nil => exact ⟨rfl, (List.cons.inj h).2⟩
    | cons f fs =>
      rw [fieldsText_cons, stringText] at h
      exact absurd (List.cons.inj h).1 (by decide)
  | cons e es =>
    cases l' with
    | nil =>
      rw [fieldsText_cons, stringText] at h
      exact absurd (List.cons.inj h).1 (by decide)
    | cons f fs =>
      rw [fieldsText_cons, fieldsText_cons] at h
      simp only [List.append_assoc, List.cons_append] at h
      obtain ⟨hname, hvalue⟩ := stringText_inj h
      obtain ⟨hjson, hrest⟩ :=
        text_append_inj e.2 hl.1 hl'.1 (ends_fields es r) (ends_fields fs s)
          (List.cons.inj hvalue).2
      have hfield : e = f := Prod.ext hname hjson
      by_cases hes : es = []
      · by_cases hfs : fs = []
        · rw [if_pos hes, if_pos hfs] at hrest
          exact ⟨by rw [hfield, hes, hfs], (List.cons.inj hrest).2⟩
        · rw [if_pos hes, if_neg hfs] at hrest
          exact absurd (List.cons.inj hrest).1 (by decide)
      · by_cases hfs : fs = []
        · rw [if_neg hes, if_pos hfs] at hrest
          exact absurd (List.cons.inj hrest).1 (by decide)
        · rw [if_neg hes, if_neg hfs] at hrest
          obtain ⟨rfl, hrs⟩ := fieldsText_inj es hl.2 hl'.2 (List.cons.inj hrest).2
          exact ⟨by rw [hfield], hrs⟩

end

/-- **One text, one value.** -/
theorem toVec_injective {a b : Json} (ha : a.Plain) (hb : b.Plain) (h : a.toVec = b.toVec) :
    a = b := by
  have htext : a.text ++ [] = b.text ++ [] := by rw [Utf8.utf8_injective h]
  have hends : Ends [] := fun c hc => by cases hc
  exact (text_append_inj a ha hb hends hends htext).1

end Json
end Conglobate
