import Conglobate.BootConfig.Document
import Conglobate.BootConfig.Parser

/- How a document is written.

   Each relation is between a text, what it says and the text behind it. What
   follows decides how something reads: an unquoted value keeps its trailing
   blanks at the end of the text only, and a comment runs to its line's end. A
   scope is closed by its brace, or at the top by the end of the text. -/
namespace Conglobate.BootConfig

open Ascii

/-- Blanks on one line, or on several. -/
def Blanks (newlines : Bool) (b : Bytes) : Prop :=
  ∀ c ∈ b, (space c && (newlines || c != newline)) = true

/-- A value ends at a delimiter, or with the text. -/
def ValueEnds (rest : Bytes) : Prop := ∀ c ∈ rest.head?, delimiter c = true

/-- One value: quoted, or not. -/
inductive Item : Bytes → Bytes → Bytes → Prop
  | quoted {quote : UInt8} {before value after rest : Bytes} :
      quote = singleQuote ∨ quote = doubleQuote → Blanks false before → (∀ c ∈ value, c ≠ quote) →
      Blanks false after → ValueEnds rest →
      Item (before ++ (quote :: (value ++ (quote :: (after ++ rest))))) value rest
  | unquoted {before raw rest : Bytes} :
      Blanks false before → (∀ c ∈ raw, delimiter c = false) →
      (∀ c ∈ raw.head?, space c = false ∧ c ≠ singleQuote ∧ c ≠ doubleQuote) → ValueEnds rest →
      Item (before ++ (raw ++ rest)) (if rest = [] then raw else raw.rdropWhile space) rest

/-- The bytes of a comment behind its `#`, up to the end of the line. -/
structure Comment (note rest : Bytes) : Prop where
  line : ∀ c ∈ note, c ≠ newline
  ends : ∀ c ∈ rest.head?, c = newline

/-- The blanks, lines and comments between a comma and the next value. -/
inductive Gap : Bytes → Bytes → Prop
  | done {rest : Bytes} : (∀ c ∈ rest.head?, space c = false ∧ c ≠ hash) → Gap rest rest
  | blank {c : UInt8} {text rest : Bytes} : space c = true → Gap text rest → Gap (c :: text) rest
  | comment {note text rest : Bytes} : Comment note text → Gap text rest →
      Gap (hash :: (note ++ text)) rest

/-- The values of an array behind the first. -/
inductive More : Bytes → List Bytes → Bytes → Prop
  | done {rest : Bytes} : rest.head? ≠ some comma → More rest [] rest
  | value {text text' mid rest value : Bytes} {values : List Bytes} :
      Gap text text' → Item text' value mid → More mid values rest →
        More (comma :: text) (value :: values) rest

/-- An array of values. -/
inductive Items : Bytes → List Bytes → Bytes → Prop
  | mk {text mid rest value : Bytes} {values : List Bytes} :
      Item text value mid → More mid values rest → Items text (value :: values) rest

/-- A key as it is written. -/
def Word (word : Bytes) : Prop := word ≠ [] ∧ ∀ c ∈ word, Parser.wordByte c = true

def Operator.text : Operator → Bytes
  | .set => [equals]
  | .replace => [colon, equals]
  | .append => [plus, equals]

/-- What ends a bare key. -/
def BareEnds (text : Bytes) : Prop :=
  ∃ c, text.head? = some c ∧ (c = semicolon ∨ c = newline ∨ c = hash ∨ c = closeBrace)

/-- The statements of a scope, to its closing brace or, at the top, to the end of the text. -/
inductive Body : Bool → Bytes → Document → Bytes → Prop
  | finish : Body true [] .done []
  | close {rest : Bytes} : Body false (closeBrace :: rest) .done rest
  | blank {top : Bool} {c : UInt8} {text rest : Bytes} {d : Document} :
      space c = true → Body top text d rest → Body top (c :: text) d rest
  | semicolon {top : Bool} {text rest : Bytes} {d : Document} :
      Body top text d rest → Body top (Ascii.semicolon :: text) d rest
  | comment {top : Bool} {note text rest : Bytes} {d : Document} :
      Comment note text → Body top text d rest → Body top (hash :: (note ++ text)) d rest
  | bare {top : Bool} {word blanks text rest : Bytes} {d : Document} :
      Word word → Blanks false blanks → BareEnds text → Body top text d rest →
      Body top (word ++ (blanks ++ text)) (.bare word d) rest
  | assign {top : Bool} {word blanks text mid rest : Bytes} {op : Operator} {values : List Bytes}
      {d : Document} :
      Word word → Blanks false blanks → Items text values mid → Body top mid d rest →
      Body top (word ++ (blanks ++ (op.text ++ text))) (.assign word op values d) rest
  | group {top : Bool} {word blanks text mid rest : Bytes} {body d : Document} :
      Word word → Blanks false blanks → Body false text body mid → Body top mid d rest →
      Body top (word ++ (blanks ++ (openBrace :: text))) (.group word body d) rest

/-- A text that says a document. It has no NUL. -/
def Renders (document : Document) (text : Bytes) :
    Prop := (0 : UInt8) ∉ text ∧ Body true text document []

/-! What is left is the end of the text. -/

theorem item_suffix {text v rest : Bytes} (h : Item text v rest) : rest <:+ text := by
  cases h with
  | @quoted quote _ _ after _ =>
    have hafter : rest <:+ v ++ (quote :: (after ++ rest)) :=
      List.suffix_append_of_suffix List.suffix_cons_append
    exact List.suffix_append_of_suffix (hafter.trans (List.suffix_cons _ _))
  | unquoted =>
    apply List.suffix_append_of_suffix
    exact List.suffix_append _ _

theorem gap_suffix {text rest : Bytes} (h : Gap text rest) : rest <:+ text := by
  induction h with
  | done _ => exact List.suffix_refl _
  | blank _ _ ih => exact ih.trans (List.suffix_cons _ _)
  | comment _ _ ih => exact ih.trans (List.suffix_cons_append)

theorem more_suffix {text rest : Bytes} {values : List Bytes} (h : More text values rest) :
    rest <:+ text := by
  induction h with
  | done _ => exact List.suffix_refl _
  | value hgap hitem _ ih =>
    exact (ih.trans ((item_suffix hitem).trans (gap_suffix hgap))).trans (List.suffix_cons _ _)

theorem items_suffix {text rest : Bytes} {values : List Bytes} (h : Items text values rest) :
    rest <:+ text := by
  obtain ⟨hitem, hmore⟩ := h
  exact (more_suffix hmore).trans (item_suffix hitem)

theorem body_suffix {top : Bool} {text rest : Bytes} {d : Document} (h : Body top text d rest) :
    rest <:+ text := by
  induction h with
  | finish => exact List.suffix_refl _
  | close => exact List.suffix_cons _ _
  | blank _ _ ih => exact ih.trans (List.suffix_cons _ _)
  | semicolon _ ih => exact ih.trans (List.suffix_cons _ _)
  | comment _ _ ih => exact ih.trans List.suffix_cons_append
  | bare _ _ _ _ ih => exact (ih.trans (List.suffix_append _ _)).trans (List.suffix_append _ _)
  | assign _ _ hitems _ ih =>
    have htext := ih.trans (items_suffix hitems)
    exact ((htext.trans (List.suffix_append _ _)).trans (List.suffix_append _ _)).trans
      (List.suffix_append _ _)
  | group _ _ _ _ ihbody ih =>
    have htext := (ih.trans ihbody).trans (List.suffix_cons openBrace _)
    exact (htext.trans (List.suffix_append _ _)).trans (List.suffix_append _ _)

end Conglobate.BootConfig
