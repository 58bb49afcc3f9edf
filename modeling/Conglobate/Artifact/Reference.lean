import Conglobate.Artifact.Digest
import Conglobate.Lib.Flow
import Conglobate.Lib.Split
import Conglobate.Plan.Basic

/- Image references (`artifact/reference.rs`). A reference is read as a registry,
   a repository and a selector; docker.io and `latest` are assumed where they are
   left out.

   Correspondence (Rust ↔ Lean):
     `ReferenceKind`           ↔ `Plan.Selector`
     `looks_like_registry`     ↔ `looksLikeRegistry`
     `validate_path_component` ↔ `validatePathComponent`
     `validate_tag`            ↔ `validateTag`
     `Reference::from_str`     ↔ `splitDigest`, `splitTag`, `splitSelector`,
                                 `splitRegistry`, `fromStr` -/
namespace Conglobate.Artifact

open Conglobate.Plan (Selector)

inductive ReferenceParseError where
  /-- "empty reference" -/
  | empty
  /-- "repository must be lowercase: {0}" -/
  | notLowercase (repo : Text)
  /-- "invalid digest in reference: {0}" -/
  | invalidDigest (error : DigestParseError)
  /-- "path-traversal segment in reference: {0:?}" -/
  | pathTraversalSegment (segment : Text)
  /-- "empty segment in reference (consecutive '/' or leading/trailing '/')" -/
  | emptySegment
  /-- "invalid character in reference component: {0:?}" -/
  | invalidComponent (component : Text)
  /-- "invalid tag (must match OCI grammar): {0:?}" -/
  | invalidTag (tag : Text)
  deriving DecidableEq, Repr

structure Reference where
  registry : Text
  repo : Text
  kind : Selector
  deriving DecidableEq, Repr

namespace Reference

def localhost : Text := ['l', 'o', 'c', 'a', 'l', 'h', 'o', 's', 't']
def dockerIo : Text := ['d', 'o', 'c', 'k', 'e', 'r', '.', 'i', 'o']
def library : Text := ['l', 'i', 'b', 'r', 'a', 'r', 'y']
def latest : Text := ['l', 'a', 't', 'e', 's', 't']

/-- The first path component is a registry. -/
def looksLikeRegistry (component : Text) : Bool :=
  if component = ['.'] ∨ component = ['.', '.'] then false
  else component.contains '.' || component.contains ':' || component = localhost

def validatePathComponent (c : Text) : Except ReferenceParseError Unit :=
  if c = [] then .error .emptySegment
  else if c = ['.'] ∨ c = ['.', '.'] then .error (.pathTraversalSegment c)
  else if c.contains '\x00' || c.contains '\\' then .error (.invalidComponent c)
  else .ok ()

def tagChar (c : Char) : Bool := c.isAlphanum || c == '.' || c == '_' || c == '-'

def validateTag (tag : Text) : Except ReferenceParseError Unit :=
  if tag = [] ∨ 128 < (Text.utf8 tag).length then .error (.invalidTag tag)
  else if !tag.head?.any (fun first => first.isAlphanum || first == '_') then
    .error (.invalidTag tag)
  else if !tag.tail.all tagChar then .error (.invalidTag tag)
  else .ok ()

/-- What is before the first `@`, and the digest behind it. -/
def splitDigest (s : Text) : Except ReferenceParseError (Text × Option Selector) :=
  match splitOnce '@' s with
  | some p =>
    match Digest.fromStr p.2 with
    | .ok digest => .ok (p.1, some (.digest digest.sha256))
    | .error e => .error (.invalidDigest e)
  | none => .ok (s, none)

/-- Where the last component begins. -/
def searchFrom (s : Text) : Nat := (rsplitOnce '/' s).elim 0 (fun p => p.1.length + 1)

/-- What is before the last component's first colon, and the tag behind it. -/
def splitTag (s : Text) : Text × Option Selector :=
  match splitOnce ':' (s.drop (searchFrom s)) with
  | some p => (s.take (searchFrom s + p.1.length), some (.tag p.2))
  | none => (s, none)

/-- A digest is looked for before a tag, and then there is no tag. -/
def splitSelector (s : Text) : Except ReferenceParseError (Text × Selector) := do
  let before ← splitDigest s
  match before.2 with
  | some digest => return (before.1, digest)
  | none => return ((splitTag before.1).1, (splitTag before.1).2.getD (.tag latest))

def splitRegistry (s : Text) : Text × Text :=
  match splitOnce '/' s with
  | some p => if looksLikeRegistry p.1 then (p.1, p.2) else (dockerIo, s)
  | none => (dockerIo, library ++ '/' :: s)

/-- The checks of a repository: its case, then each component. -/
def validateRepo (repo : Text) : Except ReferenceParseError Unit :=
  if repo.any Char.isUpper then .error (.notLowercase repo)
  else (repo.splitOn '/').forM validatePathComponent

def validateKind : Selector → Except ReferenceParseError Unit
  | .tag tag => validateTag tag
  | .digest _ => .ok ()

/-- `FromStr`. -/
def fromStr (s : Text) : Except ReferenceParseError Reference :=
  if s = [] then .error .empty
  else if s.head? = some '/' ∨ s.head? = some '\\' then .error .emptySegment
  else do
    let before ← splitSelector s
    let parts := splitRegistry before.1
    validateRepo parts.2
    validateKind before.2
    return ⟨parts.1, parts.2, before.2⟩

/-! What is accepted. -/

theorem fromStr_eq_ok {s : Text} {r : Reference} :
    fromStr s = .ok r ↔ s ≠ [] ∧ s.head? ≠ some '/' ∧ s.head? ≠ some '\\' ∧
      ∃ before, splitSelector s = .ok (before, r.kind) ∧ splitRegistry before =
        (r.registry, r.repo) ∧ validateRepo r.repo = .ok () ∧ validateKind r.kind = .ok () := by
  rw [fromStr]
  by_cases hempty : s = []
  · rw [if_pos hempty]
    exact iff_of_false (fun h => by cases h) (fun h => h.1 hempty)
  rw [if_neg hempty]
  by_cases hhead : s.head? = some '/' ∨ s.head? = some '\\'
  · rw [if_pos hhead]
    exact iff_of_false (fun h => by cases h) (fun h => hhead.elim h.2.1 h.2.2.1)
  rw [if_neg hhead, except_bind_eq_ok]
  rw [not_or] at hhead
  constructor
  · rintro ⟨⟨before, kind⟩, hsplit, h⟩
    obtain ⟨u, hrepo, h⟩ := except_bind_eq_ok.mp h
    obtain ⟨v, hkind, h⟩ := except_bind_eq_ok.mp h
    cases h
    exact ⟨hempty, hhead.1, hhead.2, before, hsplit, rfl, hrepo, hkind⟩
  · rintro ⟨-, -, -, before, hsplit, hparts, hrepo, hkind⟩
    refine ⟨(before, r.kind), hsplit, ?_⟩
    simp only [hparts]
    rw [hrepo, except_ok_bind, hkind, except_ok_bind]
    rfl

theorem validateTag_eq_ok {tag : Text} :
    validateTag tag = .ok () ↔ tag ≠ [] ∧ (Text.utf8 tag).length ≤ 128 ∧
      tag.head?.any (fun first => first.isAlphanum || first == '_') = true ∧
        ∀ c ∈ tag.tail, tagChar c = true := by
  rw [validateTag]
  split
  · rename_i h
    exact iff_of_false (fun h => by cases h) (fun h' => h.elim h'.1 (Nat.not_lt.mpr h'.2.1))
  rename_i h
  rw [not_or, Nat.not_lt] at h
  split
  · rename_i hhead
    exact iff_of_false (fun h => by cases h) (fun h' => by simp [h'.2.2.1] at hhead)
  rename_i hhead
  split
  · rename_i htail
    refine iff_of_false (fun h => by cases h) (fun h' => ?_)
    rw [List.all_eq_true.mpr h'.2.2.2] at htail
    cases htail
  · rename_i htail
    refine iff_of_true rfl ⟨h.1, h.2, by simpa using hhead, ?_⟩
    simpa using htail

/-- Every character of a tag is one of the grammar's. -/
theorem validateTag_chars {tag : Text} (h : validateTag tag = .ok ()) :
    ∀ c ∈ tag, tagChar c = true := by
  obtain ⟨-, -, hhead, htail⟩ := validateTag_eq_ok.mp h
  cases tag with
  | nil => exact List.forall_mem_nil _
  | cons first rest =>
    refine List.forall_mem_cons.mpr ⟨?_, htail⟩
    rw [List.head?_cons, Option.any_some, Bool.or_eq_true] at hhead
    rcases hhead with h | h <;> simp [tagChar, h]

/-! Spellings of a selector. -/

/-- A text behind the repository that selects: the tag `latest` may be left out. -/
def Spelled : Selector → Text → Prop
  | .tag tag, spelling =>
    validateTag tag = .ok () ∧ (spelling = ':' :: tag ∨ spelling = [] ∧ tag = latest)
  | .digest digest, spelling => ∃ text, spelling = '@' :: text ∧ Digest.fromStr text = .ok ⟨digest⟩

/-- No spelling has a component of its own. -/
theorem Spelled.no_slash {kind : Selector} {spelling : Text} (h : Spelled kind spelling) :
    '/' ∉ spelling := by
  cases kind with
  | tag tag =>
    obtain ⟨htag, rfl | ⟨rfl, -⟩⟩ := h
    · intro hmem
      rcases List.mem_cons.mp hmem with hc | hc
      · cases hc
      · exact absurd (validateTag_chars htag _ hc) (by decide)
    · exact List.not_mem_nil
  | digest digest =>
    obtain ⟨text, rfl, hdigest⟩ := h
    obtain ⟨digits, rfl, hdigits⟩ := Digest.fromStr_eq_ok.mp hdigest
    intro hmem
    rcases List.mem_cons.mp hmem with hc | hc
    · cases hc
    rcases List.mem_append.mp hc with hc | hc
    · exact absurd hc (by decide)
    · obtain ⟨n, hn⟩ := Hex.mem_decoded hdigits hc
      cases hn

theorem searchFrom_le (s : Text) : searchFrom s ≤ s.length := by
  rw [searchFrom]
  cases h : rsplitOnce '/' s with
  | none => exact Nat.zero_le _
  | some p =>
    rw [(rsplitOnce_eq_some.mp h).1]
    simp

/-- What selects does not move the last component. -/
theorem searchFrom_append {before spelling : Text} (h : '/' ∉ spelling) :
    searchFrom (before ++ spelling) = searchFrom before := by
  rw [searchFrom, searchFrom, rsplitOnce_append before h]
  cases rsplitOnce '/' before <;> rfl

theorem splitTag_append {before tag : Text} (hcolon : ':' ∉ before.drop (searchFrom before))
    (htag : '/' ∉ tag) :
    splitTag (before ++ ':' :: tag) = (before, some (.tag tag)) := by
  have hle := searchFrom_le before
  have hslash : '/' ∉ ':' :: tag := by
    rw [List.mem_cons, not_or]
    exact ⟨by decide, htag⟩
  have hdrop : (before ++ ':' :: tag).drop (searchFrom before) = before.drop (searchFrom before) ++
      ':' :: tag :=
    List.drop_append_of_le_length hle
  rw [splitTag, searchFrom_append hslash, hdrop, splitOnce_eq_some.mpr ⟨rfl, hcolon⟩]
  simp only [List.length_drop]
  rw [Nat.add_sub_cancel' hle, List.take_left]

theorem splitTag_none {s : Text} (h : ':' ∉ s.drop (searchFrom s)) : splitTag s = (s, none) := by
  rw [splitTag, splitOnce_eq_none.mpr h]

/-- A split is where the text behind it begins. -/
theorem splitTag_spec (s : Text) :
    (∃ tag, splitTag s = ((splitTag s).1, some (.tag tag)) ∧ s = (splitTag s).1 ++ ':' :: tag) ∨
      splitTag s = (s, none) := by
  rw [splitTag]
  cases h : splitOnce ':' (s.drop (searchFrom s)) with
  | none => exact .inr rfl
  | some p =>
    refine .inl ⟨p.2, rfl, ?_⟩
    have hdrop := (splitOnce_eq_some.mp h).1
    calc s = s.take (searchFrom s) ++ s.drop (searchFrom s) := (List.take_append_drop _ _).symm
      _ = s.take (searchFrom s) ++ (p.1 ++ ':' :: p.2) := by rw [hdrop]
      _ = s.take (searchFrom s + p.1.length) ++ ':' :: p.2 := by
        rw [List.take_add, hdrop, List.take_left, List.append_assoc]

/-- **A selector that is read is spelled behind what is before it.** -/
theorem splitSelector_spelled {s before : Text} {kind : Selector}
    (h : splitSelector s = .ok (before, kind)) (hkind : validateKind kind = .ok ()) :
    ∃ spelling, s = before ++ spelling ∧ Spelled kind spelling ∧ '@' ∉ before := by
  rw [splitSelector, splitDigest] at h
  cases hat : splitOnce '@' s with
  | some p =>
    rw [hat] at h
    obtain ⟨hs, hnot⟩ := splitOnce_eq_some.mp hat
    cases hdigest : Digest.fromStr p.2 with
    | error e =>
      simp only [hdigest] at h
      cases h
    | ok digest =>
      simp only [hdigest] at h
      cases h
      exact ⟨'@' :: p.2, hs, ⟨p.2, rfl, hdigest⟩, hnot⟩
  | none =>
    rw [hat] at h
    cases h
    have hnot := splitOnce_eq_none.mp hat
    rcases splitTag_spec s with ⟨tag, htag, hs⟩ | htag
    · rw [htag] at hkind ⊢
      refine ⟨':' :: tag, hs, ⟨hkind, .inl rfl⟩, ?_⟩
      intro hmem
      rw [hs] at hnot
      exact hnot (List.mem_append_left _ hmem)
    · rw [htag] at hkind ⊢
      exact ⟨[], (List.append_nil s).symm, ⟨hkind, .inr ⟨rfl, rfl⟩⟩, hnot⟩

/-- **Every spelling is read.** -/
theorem splitSelector_append {before spelling : Text} {kind : Selector} (h : Spelled kind spelling)
    (hat : '@' ∉ before) (hcolon : ':' ∉ before.drop (searchFrom before)) :
    splitSelector (before ++ spelling) = .ok (before, kind) := by
  cases kind with
  | digest digest =>
    obtain ⟨text, rfl, hdigest⟩ := h
    rw [splitSelector, splitDigest, splitOnce_eq_some.mpr ⟨rfl, hat⟩]
    simp only [hdigest]
    rfl
  | tag tag =>
    have hslash := h.no_slash
    obtain ⟨htag, rfl | ⟨rfl, rfl⟩⟩ := h
    · have hnot : '@' ∉ before ++ ':' :: tag := by
        intro hmem
        rcases List.mem_append.mp hmem with hc | hc
        · exact hat hc
        rcases List.mem_cons.mp hc with hc | hc
        · cases hc
        · exact absurd (validateTag_chars htag _ hc) (by decide)
      rw [splitSelector, splitDigest, splitOnce_eq_none.mpr hnot, except_ok_bind]
      simp only
      rw [splitTag_append hcolon (fun hc => hslash (List.mem_cons_of_mem _ hc))]
      rfl
    · rw [List.append_nil, splitSelector, splitDigest, splitOnce_eq_none.mpr hat, except_ok_bind]
      simp only
      rw [splitTag_none hcolon]
      rfl

end Reference

end Conglobate.Artifact
