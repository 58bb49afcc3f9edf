import Conglobate.Plan.Basic

/- COPY source patterns (`copy/pattern.rs`): Go's `filepath.Match` grammar.

   Parsing walks the normalized source's characters; each function returns what
   it leaves of them, and leaves less than it was given.

   Correspondence (Rust ↔ Lean):
     `self.chars`                     ↔ the remaining characters
     `PatternParser::parse`, `class`,
       `class_character`              ↔ `parse`, `ranges`, `classCharacter` -/
namespace Conglobate.Copy

/-- "invalid COPY source or filename pattern" -/
inductive PatternError where
  | invalid
  deriving DecidableEq, Repr

inductive Token where
  | literal (bytes : Bytes)
  | star
  | any
  | class (negated : Bool) (ranges : List (Char × Char))
  deriving DecidableEq, Repr

structure SourcePattern where
  source : Text
  tokens : List Token
  deriving DecidableEq, Repr

def classCharacter : Text → Except PatternError (Char × Text)
  | '\\' :: c :: rest => .ok (c, rest)
  | '\\' :: [] => .error .invalid
  | ']' :: _ => .error .invalid
  | '-' :: _ => .error .invalid
  | [] => .error .invalid
  | c :: rest => .ok (c, rest)

theorem classCharacter_length {t rest : Text} {c : Char} (h : classCharacter t = .ok (c, rest)) :
    rest.length < t.length := by
  unfold classCharacter at h
  split at h
  all_goals cases h
  all_goals
    simp only [List.length_cons]
    omega

/-- A range's last character, after its first. -/
def rangeEnd (low : Char) : Text → Except PatternError (Char × Text)
  | '-' :: rest => classCharacter rest
  | rest => .ok (low, rest)

theorem rangeEnd_length {low high : Char} {t rest : Text} (h : rangeEnd low t = .ok (high, rest)) :
    rest.length ≤ t.length := by
  unfold rangeEnd at h
  split at h
  · have := classCharacter_length h
    rw [List.length_cons]
    omega
  · cases h
    exact Nat.le_refl _

/-- The ranges of a class up to its bracket, which closes it once there is one. -/
def ranges (found : List (Char × Char)) (t : Text) :
    Except PatternError (List (Char × Char) × Text) :=
  if found ≠ [] ∧ t.head? = some ']' then .ok (found, t.tail)
  else
    match _hlow : classCharacter t with
    | .error e => .error e
    | .ok (low, rest) =>
      match _hhigh : rangeEnd low rest with
      | .error e => .error e
      | .ok (high, rest') => ranges (found ++ [(low, high)]) rest'
termination_by t.length
decreasing_by
  have := classCharacter_length _hlow
  have := rangeEnd_length _hhigh
  omega

/-- A class, after its opening bracket. -/
def classOf : Text → Except PatternError (Token × Text)
  | '^' :: rest => do
    let (found, rest') ← ranges [] rest
    .ok (.class true found, rest')
  | rest => do
    let (found, rest') ← ranges [] rest
    .ok (.class false found, rest')

theorem ranges_length {found out : List (Char × Char)} {t rest : Text}
    (h : ranges found t = .ok (out, rest)) :
    rest.length ≤ t.length := by
  fun_induction ranges found t with
  | case1 found t hclose =>
    cases h
    rw [List.length_tail]
    omega
  | case2 => cases h
  | case3 => cases h
  | case4 found t _ low r hlow high r' hhigh ih =>
    have := classCharacter_length hlow
    have := rangeEnd_length hhigh
    have := ih h
    omega

theorem classOf_length {t rest : Text} {token : Token} (h : classOf t = .ok (token, rest)) :
    rest.length ≤ t.length := by
  unfold classOf at h
  split at h
  all_goals
    obtain ⟨⟨found, rest'⟩, hranges, h⟩ := except_bind_eq_ok.mp h
    have := ranges_length hranges
    cases h
  · rw [List.length_cons]
    omega
  · assumption

/-- The token a character starts, and what is left after it. -/
def token (c : Char) (rest : Text) : Except PatternError (Token × Text) :=
  match c, rest with
  | '*', rest => .ok (.star, rest)
  | '?', rest => .ok (.any, rest)
  | '[', rest => classOf rest
  | '\\', [] => .error .invalid
  | '\\', d :: rest => .ok (.literal (String.utf8EncodeChar d), rest)
  | c, rest => .ok (.literal (String.utf8EncodeChar c), rest)

theorem token_length {c : Char} {t rest : Text} {out : Token} (h : token c t = .ok (out, rest)) :
    rest.length ≤ t.length := by
  unfold token at h
  split at h
  · cases h
    exact Nat.le_refl _
  · cases h
    exact Nat.le_refl _
  · exact classOf_length h
  · cases h
  · cases h
    simp
  · cases h
    exact Nat.le_refl _

/-- `PatternParser::parse`. -/
def parse : Text → Except PatternError (List Token)
  | [] => .ok []
  | c :: rest =>
    match _h : token c rest with
    | .error e => .error e
    | .ok (first, rest') =>
      match parse rest' with
      | .error e => .error e
      | .ok tokens => .ok (first :: tokens)
termination_by t => t.length
decreasing_by
  have := token_length _h
  rw [List.length_cons]
  omega

/-- **One token, then the others.** -/
theorem parse_cons_eq_ok {c : Char} {rest : Text} {tokens : List Token} :
    parse (c :: rest) = .ok tokens ↔ ∃ first rest' more, token c rest = .ok (first, rest') ∧
      parse rest' = .ok more ∧ tokens = first :: more := by
  rw [parse]
  constructor
  · intro h
    split at h
    · cases h
    · rename_i first rest' hfirst
      split at h
      · cases h
      · rename_i more hmore
        cases h
        exact ⟨first, rest', more, hfirst, hmore, rfl⟩
  · rintro ⟨first, rest', more, hfirst, hmore, rfl⟩
    split
    · rename_i e herror
      rw [hfirst] at herror
      cases herror
    · rename_i other rest'' hother
      rw [hfirst] at hother
      cases hother
      rw [hmore]

/-- **One range, then the others**, up to the bracket. -/
theorem ranges_eq_ok {found : List (Char × Char)} {t : Text} {out : List (Char × Char) × Text} :
    ranges found t = .ok out ↔ (found ≠ [] ∧ t.head? = some ']' ∧ out = (found, t.tail)) ∨
      ¬(found ≠ [] ∧ t.head? = some ']') ∧ ∃ low rest high rest', classCharacter t =
        .ok (low, rest) ∧
        rangeEnd low rest = .ok (high, rest') ∧ ranges (found ++ [(low, high)]) rest' =
          .ok out := by
  constructor
  · intro h
    rw [ranges] at h
    split at h
    · rename_i hclose
      cases h
      exact .inl ⟨hclose.1, hclose.2, rfl⟩
    · rename_i hopen
      split at h
      · cases h
      · rename_i low rest hlow
        split at h
        · cases h
        · rename_i high rest' hhigh
          exact .inr ⟨hopen, low, rest, high, rest', hlow, hhigh, h⟩
  · rintro (⟨hfound, hclose, rfl⟩ | ⟨hopen, low, rest, high, rest', hlow, hhigh, h⟩)
    · rw [ranges, if_pos ⟨hfound, hclose⟩]
    · rw [ranges, if_neg hopen]
      split
      · rename_i e herror
        rw [hlow] at herror
        cases herror
      · rename_i low' r hlow'
        rw [hlow] at hlow'
        cases hlow'
        split
        · rename_i e herror
          rw [hhigh] at herror
          cases herror
        · rename_i high' r' hhigh'
          rw [hhigh] at hhigh'
          cases hhigh'
          exact h

/-- `trim_matches('/')`. -/
def trimSlashes (t : Text) : Text := ((t.dropWhile (· == '/')).reverse.dropWhile (· == '/')).reverse

/-- `FromStr`: leading and trailing separators select relative to the context. -/
def SourcePattern.fromStr (source : Text) : Except PatternError SourcePattern :=
  if source = [] ∨ '\x00' ∈ source ∨ ['.', '.'] ∈ source.splitOn '/' then .error .invalid
  else do
    let tokens ← parse (['/'].intercalate (Plan.ImagePath.components (trimSlashes source)))
    .ok ⟨source, tokens⟩

end Conglobate.Copy
