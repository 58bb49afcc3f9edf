import Conglobate.Copy.Pattern
import Mathlib.Data.List.Forall2

/- The grammar of patterns (`copy/pattern.rs`).

   A pattern is the texts of its tokens one after the other, and no token's text
   depends on what follows it (`parse_iff`): a class ends at its own bracket, and a
   range is told from the next one by its dash, which starts none. -/
namespace Conglobate.Copy

/-- One character of a class. -/
inductive ItemText : Char → Text → Prop
  | escaped (c : Char) : ItemText c ['\\', c]
  | plain {c : Char} : c ≠ '\\' → c ≠ ']' → c ≠ '-' → ItemText c [c]

inductive RangeText : Char × Char → Text → Prop
  | single {c : Char} {t : Text} : ItemText c t → RangeText (c, c) t
  | range {low high : Char} {t u : Text} : ItemText low t → ItemText high u →
      RangeText (low, high) (t ++ '-' :: u)

/-- The ranges of a class, with its bracket. -/
inductive RangesText : List (Char × Char) → Text → Prop
  | close : RangesText [] [']']
  | cons {r : Char × Char} {found : List (Char × Char)} {t u : Text} :
      RangeText r t → RangesText found u → RangesText (r :: found) (t ++ u)

/-- What a token is written as. -/
inductive TokenText : Token → Text → Prop
  | star : TokenText .star ['*']
  | any : TokenText .any ['?']
  | escaped (c : Char) : TokenText (.literal (String.utf8EncodeChar c)) ['\\', c]
  | plain {c : Char} : c ≠ '*' → c ≠ '?' → c ≠ '[' → c ≠ '\\' →
      TokenText (.literal (String.utf8EncodeChar c)) [c]
  | class {found : List (Char × Char)} {t : Text} :
      found ≠ [] → t.head? ≠ some '^' → RangesText found t →
      TokenText (.class false found) ('[' :: t)
  | negated {found : List (Char × Char)} {t : Text} : found ≠ [] → RangesText found t →
      TokenText (.class true found) ('[' :: '^' :: t)

/-! Classes. -/

theorem classCharacter_iff {t rest : Text} {c : Char} :
    classCharacter t = .ok (c, rest) ↔ ∃ item, t = item ++ rest ∧ ItemText c item := by
  constructor
  · intro h
    unfold classCharacter at h
    split at h
    all_goals cases h
    · exact ⟨_, rfl, .escaped c⟩
    · rename_i hbracket hdash hescaped hdangling
      refine ⟨[c], rfl, .plain ?_ hbracket hdash⟩
      rintro rfl
      cases rest with
      | nil => exact hdangling rfl rfl
      | cons d rest => exact hescaped d rest rfl rfl
  · rintro ⟨item, rfl, hitem⟩
    cases hitem with
    | escaped => rfl
    | plain hescape hbracket hdash =>
      show classCharacter (c :: rest) = .ok (c, rest)
      unfold classCharacter
      split
      · rename_i heq
        exact absurd (List.cons_eq_cons.mp heq).1 hescape
      · rename_i heq
        exact absurd (List.cons_eq_cons.mp heq).1 hescape
      · rename_i heq
        exact absurd (List.cons_eq_cons.mp heq).1 hbracket
      · rename_i heq
        exact absurd (List.cons_eq_cons.mp heq).1 hdash
      · rename_i heq
        cases heq
      · rename_i heq
        cases heq
        rfl

theorem rangeEnd_iff {low high : Char} {t rest : Text} :
    rangeEnd low t = .ok (high, rest) ↔ (t.head? ≠ some '-' ∧ high = low ∧ rest = t) ∨
      ∃ item, t = '-' :: item ++ rest ∧ ItemText high item := by
  unfold rangeEnd
  constructor
  · intro h
    split at h
    · obtain ⟨item, rfl, hitem⟩ := classCharacter_iff.mp h
      exact .inr ⟨item, rfl, hitem⟩
    · rename_i hdash
      cases h
      refine .inl ⟨fun hhead => ?_, rfl, rfl⟩
      obtain ⟨tail, rfl⟩ := List.head?_eq_some_iff.mp hhead
      exact hdash tail rfl
  · rintro (⟨hdash, rfl, rfl⟩ | ⟨item, rfl, hitem⟩)
    · split
      · exact absurd rfl hdash
      · rfl
    · exact classCharacter_iff.mpr ⟨item, rfl, hitem⟩

/-- No item starts with a dash or a bracket. -/
theorem ItemText.head {c : Char} {t : Text} (h : ItemText c t) (r : Text) :
    (t ++ r).head? ≠ some '-' ∧ (t ++ r).head? ≠ some ']' := by
  cases h with
  | escaped => exact ⟨by simp, by simp⟩
  | plain _ hbracket hdash => exact ⟨by simpa using hdash, by simpa using hbracket⟩

/-- Nor does a range. -/
theorem RangeText.head {range : Char × Char} {t : Text} (h : RangeText range t) (r : Text) :
    (t ++ r).head? ≠ some '-' ∧ (t ++ r).head? ≠ some ']' := by
  cases h with
  | single hitem => exact hitem.head r
  | range hlow _ =>
    rw [List.append_assoc]
    exact hlow.head _

theorem RangesText.head {found : List (Char × Char)} {t : Text} (h : RangesText found t)
    (r : Text) :
    (t ++ r).head? ≠ some '-' := by
  cases h with
  | close => simp
  | cons hrange _ =>
    rw [List.append_assoc]
    exact (hrange.head _).1

/-- What is read as a range is one, and a range is read whole where no dash follows. -/
theorem range_iff {low high : Char} {t rest : Text} (hrest : rest.head? ≠ some '-') :
    (∃ r, classCharacter t = .ok (low, r) ∧ rangeEnd low r = .ok (high, rest)) ↔
      ∃ text, t = text ++ rest ∧ RangeText (low, high) text := by
  constructor
  · rintro ⟨r, hlow, hhigh⟩
    obtain ⟨item, rfl, hitem⟩ := classCharacter_iff.mp hlow
    obtain ⟨_, rfl, rfl⟩ | ⟨item', rfl, hitem'⟩ := rangeEnd_iff.mp hhigh
    · exact ⟨item, rfl, .single hitem⟩
    · exact ⟨item ++ '-' :: item', by simp, .range hitem hitem'⟩
  · rintro ⟨text, rfl, hrange⟩
    cases hrange with
    | single hitem =>
      exact ⟨rest, classCharacter_iff.mpr ⟨text, rfl, hitem⟩,
        rangeEnd_iff.mpr (.inl ⟨hrest, rfl, rfl⟩)⟩
    | @range _ _ t u hlow hhigh =>
      refine ⟨'-' :: u ++ rest, classCharacter_iff.mpr ⟨t, by simp, hlow⟩, ?_⟩
      exact rangeEnd_iff.mpr (.inr ⟨u, rfl, hhigh⟩)

/-- **The ranges of a class**, up to its bracket. -/
theorem ranges_iff {found out : List (Char × Char)} {t rest : Text} :
    ranges found t = .ok (out, rest) ↔ ∃ more text, out = found ++ more ∧ t = text ++ rest ∧
      RangesText more text ∧ out ≠ [] := by
  constructor
  · intro h
    fun_induction ranges found t with
    | case1 found t hclose =>
      cases h
      obtain ⟨tail, rfl⟩ := List.head?_eq_some_iff.mp hclose.2
      exact ⟨[], [']'], (List.append_nil _).symm, rfl, .close, hclose.1⟩
    | case2 => cases h
    | case3 => cases h
    | case4 found t hopen low r hlow high r' hhigh ih =>
      obtain ⟨more, text, rfl, rfl, hmore, hne⟩ := ih h
      obtain ⟨text', rfl, hrange⟩ := (range_iff (hmore.head rest)).mp ⟨r, hlow, hhigh⟩
      exact ⟨(low, high) :: more, text' ++ text, by simp, by simp, .cons hrange hmore, hne⟩
  · rintro ⟨more, text, rfl, rfl, htext, hne⟩
    induction htext generalizing found with
    | close =>
      rw [List.append_nil] at hne ⊢
      exact ranges_eq_ok.mpr (.inl ⟨hne, rfl, rfl⟩)
    | @cons range more t u hrange htext ih =>
      rw [List.append_assoc, ranges_eq_ok]
      obtain ⟨r, hlow, hhigh⟩ := (range_iff (htext.head rest)).mpr ⟨t, rfl, hrange⟩
      refine .inr ⟨fun hclose => (hrange.head _).2 hclose.2, range.1, r, range.2, u ++ rest,
        hlow, hhigh, ?_⟩
      have hmore : ranges (found ++ [range]) (u ++ rest) = .ok (found ++ [range] ++ more, rest) :=
        ih (by simp)
      rw [List.append_assoc] at hmore
      exact hmore

/-- The whole of a class. -/
theorem ranges_nil_iff {found : List (Char × Char)} {t rest : Text} :
    ranges [] t = .ok (found, rest) ↔ ∃ text, t = text ++ rest ∧ RangesText found text ∧
      found ≠ [] := by
  rw [ranges_iff]
  constructor
  · rintro ⟨more, text, rfl, rfl, htext, hne⟩
    exact ⟨text, rfl, htext, hne⟩
  · rintro ⟨text, rfl, htext, hne⟩
    exact ⟨found, text, rfl, rfl, htext, hne⟩

/-- A class that is not negated starts with another character. -/
theorem RangesText.plain {found : List (Char × Char)} {t : Text} (h : RangesText found t)
    (hcaret : t.head? ≠ some '^') (r : Text) :
    (t ++ r).head? ≠ some '^' := by
  cases t with
  | nil =>
    -- there is at least a bracket
    generalize hnil : ([] : Text) = text at h
    cases h with
    | close => cases hnil
    | cons hrange _ =>
      cases hrange with
      | single hitem =>
        cases hitem
        all_goals cases hnil
      | range hlow _ =>
        cases hlow
        all_goals cases hnil
  | cons c t => exact hcaret

/-! Tokens. -/

theorem token_iff {c : Char} {t rest : Text} {first : Token} :
    token c t = .ok (first, rest) ↔ ∃ text, c :: t = text ++ rest ∧ TokenText first text := by
  constructor
  · intro h
    unfold token at h
    split at h
    · cases h
      exact ⟨['*'], rfl, .star⟩
    · cases h
      exact ⟨['?'], rfl, .any⟩
    · unfold classOf at h
      split at h
      · obtain ⟨⟨found, rest'⟩, hranges, h⟩ := except_bind_eq_ok.mp h
        cases h
        obtain ⟨text, rfl, htext, hne⟩ := ranges_nil_iff.mp hranges
        exact ⟨'[' :: '^' :: text, rfl, .negated hne htext⟩
      · rename_i hcaret
        obtain ⟨⟨found, rest'⟩, hranges, h⟩ := except_bind_eq_ok.mp h
        cases h
        obtain ⟨text, rfl, htext, hne⟩ := ranges_nil_iff.mp hranges
        refine ⟨'[' :: text, rfl, .class hne (fun hhead => ?_) htext⟩
        obtain ⟨tail, rfl⟩ := List.head?_eq_some_iff.mp hhead
        exact hcaret _ rfl
    · cases h
    · rename_i d rest'
      cases h
      exact ⟨['\\', d], rfl, .escaped d⟩
    · rename_i hstar hany hclass hdangling hescaped
      injection h with h
      obtain ⟨rfl, rfl⟩ := Prod.mk.injEq _ _ _ _ ▸ h
      refine ⟨[c], rfl, .plain hstar hany hclass ?_⟩
      rintro rfl
      cases t with
      | nil => exact hdangling rfl rfl
      | cons d rest => exact hescaped d rest rfl rfl
  · rintro ⟨text, htext, hfirst⟩
    cases hfirst with
    | star =>
      cases htext
      rfl
    | any =>
      cases htext
      rfl
    | escaped d =>
      cases htext
      rfl
    | plain hstar hany hclass hescape =>
      cases htext
      show token c rest = _
      unfold token
      split
      · exact absurd rfl hstar
      · exact absurd rfl hany
      · exact absurd rfl hclass
      · exact absurd rfl hescape
      · exact absurd rfl hescape
      · rfl
    | @«class» found t hne hcaret hranges =>
      cases htext
      show classOf (t ++ rest) = _
      unfold classOf
      split
      · rename_i tail heq
        exact absurd (congrArg List.head? heq) (hranges.plain hcaret rest)
      · rw [ranges_nil_iff.mpr ⟨t, rfl, hranges, hne⟩]
        rfl
    | @negated found t hne hranges =>
      cases htext
      show classOf ('^' :: (t ++ rest)) = _
      rw [classOf, ranges_nil_iff.mpr ⟨t, rfl, hranges, hne⟩]
      rfl

theorem TokenText.cons {first : Token} {t : Text} (h : TokenText first t) : ∃ c r, t = c :: r := by
  cases h
  all_goals exact ⟨_, _, rfl⟩

/-- **A pattern is the texts of its tokens.** -/
theorem parse_iff {t : Text} {tokens : List Token} :
    parse t = .ok tokens ↔ ∃ texts, t = texts.flatten ∧ List.Forall₂ TokenText tokens texts := by
  constructor
  · intro h
    induction hn : t.length using Nat.strong_induction_on generalizing t tokens with
    | _ n ih =>
      subst hn
      cases t with
      | nil =>
        rw [parse] at h
        cases h
        exact ⟨[], rfl, .nil⟩
      | cons c rest =>
        obtain ⟨first, rest', more, hfirst, hmore, rfl⟩ := parse_cons_eq_ok.mp h
        obtain ⟨text, heq, htext⟩ := token_iff.mp hfirst
        obtain ⟨texts, rfl, htexts⟩ := ih _ (Nat.lt_succ_of_le (token_length hfirst)) hmore rfl
        exact ⟨text :: texts, heq, .cons htext htexts⟩
  · rintro ⟨texts, rfl, htexts⟩
    induction htexts with
    | nil => rw [List.flatten_nil, parse]
    | @cons first text tokens texts htext htexts ih =>
      obtain ⟨c, r, rfl⟩ := htext.cons
      rw [List.flatten_cons]
      show parse (c :: (r ++ texts.flatten)) = _
      exact parse_cons_eq_ok.mpr ⟨first, texts.flatten, tokens,
        token_iff.mpr ⟨c :: r, rfl, htext⟩, ih, rfl⟩

end Conglobate.Copy
