import Conglobate.Copy.Pattern
import Conglobate.Lib.Utf8

/- Matching a name (`copy/pattern.rs`).

   A token's round fills the offsets it reaches from those reached before it, lowest
   first. `Piece` says what a token consumes of the name where it stands, and a name
   splits for a pattern when there are consecutive pieces, one for each token
   (`Splits`). The state vector finds exactly these (`matches_iff`).

   Correspondence (Rust ↔ Lean):
     `Rune::decode`               ↔ `Rune.decode`
     the body of the offset loop  ↔ `advance`
     one round of the token loop  ↔ `stateRound`
     `reachable`, `next`          ↔ the lists of `advance`
     `SourcePattern::matches`     ↔ `SourcePattern.matchesName` -/
namespace Conglobate.Copy

open Utf8

/-! Runes. -/

structure Rune where
  value : Char
  width : Nat
  deriving DecidableEq, Repr

/-- U+FFFD. -/
def replacement : Char := Char.ofNat 65533

/-- The shortest prefix of at most four bytes that is UTF-8, or one invalid byte. -/
def Rune.decode (bytes : Bytes) : Rune :=
  match (List.range' 1 (min 4 bytes.length)).find?
      (fun width => Bytes.isUtf8 (bytes.take width)) with
  | some width => ⟨(first? (bytes.take width)).getD replacement, width⟩
  | none => ⟨replacement, 1⟩

/-- The bytes up to `rest` are one rune. -/
inductive OneRune : Bytes → Bytes → Char → Prop
  | char (c : Char) (rest : Bytes) : OneRune (String.utf8EncodeChar c) rest c
  | invalid (b : UInt8) (rest : Bytes) : (∀ c tail, String.utf8EncodeChar c ++ tail ≠ b :: rest) →
      OneRune [b] rest replacement

theorem OneRune.ne_nil {piece rest : Bytes} {c : Char} (h : OneRune piece rest c) : piece ≠ [] := by
  cases h with
  | char c rest => exact encoding_ne_nil c
  | invalid b rest _ => exact List.cons_ne_nil _ _

/-- Bytes that are there start with a rune. -/
theorem exists_oneRune {bytes : Bytes} (h : bytes ≠ []) :
    ∃ piece rest c, bytes = piece ++ rest ∧ OneRune piece rest c := by
  by_cases hchar : ∃ c tail, String.utf8EncodeChar c ++ tail = bytes
  · obtain ⟨c, tail, rfl⟩ := hchar
    exact ⟨_, tail, c, rfl, .char c tail⟩
  · cases bytes with
    | nil => exact absurd rfl h
    | cons b rest =>
      exact ⟨[b], rest, replacement, rfl, .invalid b rest (fun c tail heq => hchar ⟨c, tail, heq⟩)⟩

/-- A prefix that is UTF-8 starts with a character. -/
theorem char_of_isUtf8 {bytes : Bytes} {width : Nat} (hwidth : 1 ≤ width)
    (hlength : width ≤ bytes.length) (h : Bytes.isUtf8 (bytes.take width) = true) :
    ∃ c more, bytes.take width = String.utf8EncodeChar c ++ more ∧
      bytes = String.utf8EncodeChar c ++ (more ++ bytes.drop width) := by
  obtain ⟨t, ht⟩ := isUtf8_iff.mp h
  cases t with
  | nil =>
    have hzero := congrArg List.length ht
    rw [List.length_take_of_le hlength] at hzero
    change width = 0 at hzero
    omega
  | cons c t =>
    have hprefix : bytes.take width = String.utf8EncodeChar c ++ Text.utf8 t := ht
    refine ⟨c, Text.utf8 t, hprefix, ?_⟩
    rw [← List.append_assoc, ← hprefix, List.take_append_drop]

/-- **A rune is decoded** as what it is, whatever follows. -/
theorem decode_oneRune {piece rest : Bytes} {c : Char} (h : OneRune piece rest c) :
    Rune.decode (piece ++ rest) = ⟨c, piece.length⟩ := by
  cases h with
  | char c rest =>
    obtain ⟨hpos, hfour⟩ := encoding_length c
    have hfind : (List.range' 1 (min 4 (String.utf8EncodeChar c ++ rest).length)).find?
        (fun width => Bytes.isUtf8 ((String.utf8EncodeChar c ++ rest).take width)) =
            some (String.utf8EncodeChar c).length := by
      rw [List.find?_range'_eq_some]
      refine ⟨?_, ?_, ?_⟩
      · rw [List.take_left', isUtf8_iff]
        · exact ⟨[c], (List.append_nil _).symm⟩
        · rfl
      · rw [List.mem_range'_1, List.length_append]
        omega
      · intro width hwidth hlt
        rw [Bool.not_eq_true']
        refine Bool.eq_false_iff.mpr (fun hvalid => ?_)
        have hlength : width ≤ (String.utf8EncodeChar c ++ rest).length := by
          rw [List.length_append]
          omega
        -- a shorter prefix would be the encoding of the same character
        obtain ⟨d, more, htake, hbytes⟩ := char_of_isUtf8 hwidth hlength hvalid
        obtain ⟨rfl, -⟩ := encoding_unique hbytes
        have hshort := congrArg List.length htake
        rw [List.length_take_of_le hlength, List.length_append] at hshort
        omega
    have hfirst : first? (String.utf8EncodeChar c) = some c := by
      have hread := first?_encoding c []
      rwa [List.append_nil] at hread
    rw [Rune.decode, hfind]
    simp only
    rw [List.take_left' rfl, hfirst]
    rfl
  | invalid b rest hnone =>
    have hfind : (List.range' 1 (min 4 (b :: rest).length)).find?
        (fun width => Bytes.isUtf8 ((b :: rest).take width)) = none := by
      rw [List.find?_range'_eq_none]
      intro width hwidth hlt
      rw [Bool.not_eq_true']
      refine Bool.eq_false_iff.mpr (fun hvalid => ?_)
      obtain ⟨d, more, -, hbytes⟩ := char_of_isUtf8 hwidth (by omega) hvalid
      exact hnone d _ hbytes.symm
    rw [Rune.decode, List.singleton_append, hfind]
    rfl

/-- A rune is the only one its bytes start with. -/
theorem OneRune.unique {piece piece' rest rest' : Bytes} {c c' : Char} (h : OneRune piece rest c)
    (h' : OneRune piece' rest' c') (heq : piece ++ rest = piece' ++ rest') :
    piece = piece' ∧ rest = rest' ∧ c = c' := by
  have hdecode := decode_oneRune h
  rw [heq, decode_oneRune h', Rune.mk.injEq] at hdecode
  obtain ⟨hpiece, hrest⟩ := List.append_inj heq hdecode.2.symm
  exact ⟨hpiece, hrest, hdecode.1.symm⟩

/-! Matching. -/

def slash : UInt8 := 47

/-- A class has the character. -/
def inClass (negated : Bool) (ranges : List (Char × Char)) (c : Char) : Bool :=
  ranges.any (fun r => decide (r.1 ≤ c ∧ c ≤ r.2)) != negated

/-- One offset of a token's round. -/
def advance (bytes : Bytes) (token : Token) (reachable next : List Bool) (offset : Nat) :
    List Bool :=
  match token with
  | .star =>
    next.set offset (reachable.getD offset false ||
      (decide (0 < offset) && bytes.getD (offset - 1) 0 != slash && next.getD (offset - 1) false))
  | .literal literal =>
    if reachable.getD offset false && literal.isPrefixOf (bytes.drop offset) then
      next.set (offset + literal.length) true
    else next
  | .any =>
    if reachable.getD offset false && decide (offset < bytes.length) &&
      bytes.getD offset 0 != slash then
      next.set (offset + (Rune.decode (bytes.drop offset)).width) true
    else next
  | .class negated ranges =>
    if reachable.getD offset false && decide (offset < bytes.length) &&
        inClass negated ranges (Rune.decode (bytes.drop offset)).value then
      next.set (offset + (Rune.decode (bytes.drop offset)).width) true
    else next

/-- The offsets a token reaches. -/
def stateRound (bytes : Bytes) (reachable : List Bool) (token : Token) : List Bool :=
  (List.range (bytes.length + 1)).foldl (advance bytes token reachable)
    (List.replicate (bytes.length + 1) false)

/-- `SourcePattern::matches`. -/
def SourcePattern.matchesName (p : SourcePattern) (name : Bytes) : Bool :=
  (p.tokens.foldl (stateRound name) (true :: List.replicate name.length false)).getD name.length false

/-! What a pattern means. -/

/-- What a token consumes, with what is left of the name after it. -/
inductive Piece : Token → Bytes → Bytes → Prop
  | literal (bytes rest : Bytes) : Piece (.literal bytes) bytes rest
  | star {run : Bytes} (rest : Bytes) : slash ∉ run → Piece .star run rest
  | any {piece rest : Bytes} {c : Char} : OneRune piece rest c → c ≠ '/' → Piece .any piece rest
  | class {negated : Bool} {ranges : List (Char × Char)} {piece rest : Bytes} {c : Char} :
      OneRune piece rest c → inClass negated ranges c = true →
        Piece (.class negated ranges) piece rest

/-- The name splits into consecutive pieces, one for each token. -/
inductive Splits : List Token → Bytes → Prop
  | nil : Splits [] []
  | cons {token : Token} {tokens : List Token} {piece rest : Bytes} :
      Piece token piece rest → Splits tokens rest → Splits (token :: tokens) (piece ++ rest)

/-! The offsets a token takes. -/

/-- A token takes the name from one offset to another. -/
def Takes (bytes : Bytes) (token : Token) (i j : Nat) : Prop :=
  ∃ piece rest, bytes.drop i = piece ++ rest ∧ j = i + piece.length ∧ Piece token piece rest

/-- Consecutive tokens take the name from one offset to another. -/
def Path (bytes : Bytes) : List Token → Nat → Nat → Prop
  | [], i, j => i = j
  | token :: tokens, i, j => ∃ k, Takes bytes token i k ∧ Path bytes tokens k j

section Offsets
variable {bytes : Bytes} {i j : Nat}

theorem Takes.le {token : Token} (h : Takes bytes token i j) (hi : i ≤ bytes.length) :
    i ≤ j ∧ j ≤ bytes.length := by
  obtain ⟨piece, rest, hdrop, rfl, -⟩ := h
  have hlength := congrArg List.length hdrop
  rw [List.length_drop, List.length_append] at hlength
  omega

/-- **Paths are splits.** -/
theorem path_iff {tokens : List Token} (hi : i ≤ bytes.length) :
    Path bytes tokens i bytes.length ↔ Splits tokens (bytes.drop i) := by
  induction tokens generalizing i with
  | nil =>
    constructor
    · intro h
      have h : i = bytes.length := h
      rw [h, List.drop_length]
      exact .nil
    · intro h
      generalize hrest : bytes.drop i = rest at h
      cases h
      have hlength := congrArg List.length hrest
      rw [List.length_drop, List.length_nil] at hlength
      show i = bytes.length
      omega
  | cons token tokens ih =>
    constructor
    · rintro ⟨k, htakes, hpath⟩
      have hk := (htakes.le hi).2
      obtain ⟨piece, rest, hdrop, rfl, hpiece⟩ := htakes
      have hrest : bytes.drop (i + piece.length) = rest := by
        rw [← List.drop_drop, hdrop, List.drop_left]
      rw [hdrop]
      exact .cons hpiece (hrest ▸ (ih hk).mp hpath)
    · intro h
      generalize hbytes : bytes.drop i = whole at h
      cases h with
      | cons hpiece hsplits =>
        rename_i piece rest
        have htakes : Takes bytes token i (i + piece.length) := ⟨piece, rest, hbytes, rfl, hpiece⟩
        have hrest : bytes.drop (i + piece.length) = rest := by
          rw [← List.drop_drop, hbytes, List.drop_left]
        exact ⟨i + piece.length, htakes, (ih (htakes.le hi).2).mpr (hrest ▸ hsplits)⟩

/-! Tokens but stars, who take one offset to at most one. -/

/-- Where a token other than a star leads. -/
def target (bytes : Bytes) (token : Token) (offset : Nat) : Option Nat :=
  match token with
  | .star => none
  | .literal literal =>
    if literal.isPrefixOf (bytes.drop offset) then
      some (offset + literal.length)
    else
      none
  | .any =>
    if offset < bytes.length ∧ bytes.getD offset 0 ≠ slash then
      some (offset + (Rune.decode (bytes.drop offset)).width)
    else none
  | .class negated ranges =>
    if offset < bytes.length ∧ inClass negated ranges (Rune.decode (bytes.drop offset)).value =
      true then
      some (offset + (Rune.decode (bytes.drop offset)).width)
    else none

theorem advance_target {token : Token} (h : token ≠ .star) (reachable next : List Bool)
    (offset : Nat) :
    advance bytes token reachable next offset =
      if reachable.getD offset false = true then
        (target bytes token offset).elim next (fun j => next.set j true) else next := by
  cases token with
  | star => exact absurd rfl h
  | literal literal =>
    simp only [advance, target]
    cases reachable.getD offset false <;> cases literal.isPrefixOf (bytes.drop offset) <;> rfl
  | any =>
    simp only [advance, target, bne, Bool.and_assoc]
    cases reachable.getD offset false with
    | false => rfl
    | true =>
      generalize bytes.getD offset 0 = b
      by_cases hinside : offset < bytes.length <;> by_cases hslash : b = slash <;> simp [hinside, hslash]
  | «class» negated ranges =>
    simp only [advance, target, Bool.and_assoc]
    cases reachable.getD offset false with
    | false => rfl
    | true =>
      by_cases hinside : offset < bytes.length <;>
        cases hclass : inClass negated ranges (Rune.decode (bytes.drop offset)).value <;> simp [hinside]

/-- A separator is its own rune. -/
theorem OneRune.head {piece rest : Bytes} {c : Char} (h : OneRune piece rest c) :
    piece.head? = some slash ↔ c = '/' := by
  have hslash : String.utf8EncodeChar '/' = [slash] := by decide
  cases h with
  | char c rest =>
    constructor
    · intro hhead
      obtain ⟨tail, htail⟩ := List.head?_eq_some_iff.mp hhead
      have happend : String.utf8EncodeChar c ++ [] = String.utf8EncodeChar '/' ++ tail := by
        rw [List.append_nil, htail, hslash]
        rfl
      exact (encoding_unique happend).1
    · rintro rfl
      rw [hslash]
      rfl
  | invalid b rest hnone =>
    refine iff_of_false (fun hhead => ?_) (by decide)
    have hb : b = slash := Option.some.inj hhead
    refine hnone '/' rest ?_
    rw [hslash, hb]
    rfl

theorem takes_target {token : Token} (h : token ≠ .star) :
    Takes bytes token i j ↔ target bytes token i = some j := by
  -- a rune at the offset is the one decoded there
  have hrune : ∀ {piece rest : Bytes} {c : Char}, bytes.drop i = piece ++ rest →
      OneRune piece rest c →
      i < bytes.length ∧ Rune.decode (bytes.drop i) = ⟨c, piece.length⟩ ∧
          (bytes.getD i 0 = slash ↔ c = '/') := by
    intro piece rest c hdrop hone
    have hlength := congrArg List.length hdrop
    have hpiece := List.length_pos_iff.mpr hone.ne_nil
    rw [List.length_drop, List.length_append] at hlength
    have hinside : i < bytes.length := by omega
    refine ⟨hinside, by rw [hdrop, decode_oneRune hone], ?_⟩
    have hhead : piece.head? = some (bytes.getD i 0) := by
      have happend : (piece ++ rest).head? = piece.head? :=
        List.head?_append_of_ne_nil piece hone.ne_nil
      rw [← happend, ← hdrop, List.head?_drop, List.getD_eq_getElem?_getD,
        List.getElem?_eq_getElem hinside, Option.getD_some]
    rw [← hone.head, hhead, Option.some.injEq]
  cases token with
  | star => exact absurd rfl h
  | literal literal =>
    rw [target]
    constructor
    · rintro ⟨piece, rest, hdrop, rfl, hpiece⟩
      cases hpiece
      rw [if_pos]
      rw [List.isPrefixOf_iff_prefix, hdrop]
      exact List.prefix_append _ _
    · intro heq
      split at heq
      · rename_i hprefix
        obtain ⟨rest, hrest⟩ := List.isPrefixOf_iff_prefix.mp hprefix
        cases heq
        exact ⟨literal, rest, hrest.symm, rfl, .literal literal rest⟩
      · cases heq
  | any =>
    rw [target]
    constructor
    · rintro ⟨piece, rest, hdrop, rfl, hpiece⟩
      cases hpiece with
      | any hone hslash =>
        obtain ⟨hinside, hdecode, hhead⟩ := hrune hdrop hone
        rw [if_pos ⟨hinside, fun hb => hslash (hhead.mp hb)⟩, hdecode]
    · intro heq
      split at heq
      · rename_i hcond
        have hne : bytes.drop i ≠ [] :=
          fun hnil => Nat.not_le.mpr hcond.1 (List.drop_eq_nil_iff.mp hnil)
        obtain ⟨piece, rest, c, hdrop, hone⟩ := exists_oneRune hne
        obtain ⟨-, hdecode, hhead⟩ := hrune hdrop hone
        rw [hdecode] at heq
        cases heq
        exact ⟨piece, rest, hdrop, rfl, .any hone (fun hc => hcond.2 (hhead.mpr hc))⟩
      · cases heq
  | «class» negated ranges =>
    rw [target]
    constructor
    · rintro ⟨piece, rest, hdrop, rfl, hpiece⟩
      cases hpiece with
      | «class» hone hclass =>
        obtain ⟨hinside, hdecode, -⟩ := hrune hdrop hone
        rw [hdecode, if_pos ⟨hinside, hclass⟩]
    · intro heq
      split at heq
      · rename_i hcond
        have hne : bytes.drop i ≠ [] :=
          fun hnil => Nat.not_le.mpr hcond.1 (List.drop_eq_nil_iff.mp hnil)
        obtain ⟨piece, rest, c, hdrop, hone⟩ := exists_oneRune hne
        obtain ⟨-, hdecode, -⟩ := hrune hdrop hone
        rw [hdecode] at heq hcond
        cases heq
        exact ⟨piece, rest, hdrop, rfl, .class hone hcond.2⟩
      · cases heq

/-! Stars, who take an offset over all that are no separator. -/

theorem takes_star_zero (hi : i ≤ bytes.length) : Takes bytes .star i 0 ↔ i = 0 := by
  constructor
  · exact fun h => Nat.le_zero.mp (h.le hi).1
  · rintro rfl
    exact ⟨[], bytes.drop 0, rfl, rfl, .star _ List.not_mem_nil⟩

/-- **A star takes one more byte** that is no separator, or starts. -/
theorem takes_star_succ (hi : i ≤ bytes.length) (hj : j < bytes.length) :
    Takes bytes .star i (j + 1) ↔ i = j + 1 ∨ bytes.getD j 0 ≠ slash ∧ Takes bytes .star i j := by
  have hbyte : bytes.drop j = bytes.getD j 0 :: bytes.drop (j + 1) := by
    rw [List.getD_eq_getElem?_getD, List.getElem?_eq_getElem hj, Option.getD_some]
    exact List.drop_eq_getElem_cons hj
  constructor
  · rintro ⟨run, rest, hdrop, hlength, hpiece⟩
    cases hpiece with
    | star _ hslash =>
      cases hrun : run.reverse with
      | nil =>
        rw [List.reverse_eq_nil_iff.mp hrun] at hlength
        exact .inl hlength.symm
      | cons b front =>
        have hsplit : run = front.reverse ++ [b] := by
          rw [← List.reverse_cons, ← hrun, List.reverse_reverse]
        rw [hsplit] at hdrop hlength hslash
        rw [List.length_append, List.length_singleton] at hlength
        have hj' : j = i + front.reverse.length := by omega
        rw [List.append_assoc] at hdrop
        have hrest : bytes.drop j = [b] ++ rest := by
          rw [hj', ← List.drop_drop, hdrop, List.drop_left]
        rw [hbyte] at hrest
        obtain ⟨hb, -⟩ := List.cons_eq_cons.mp hrest
        refine .inr ⟨?_, front.reverse, [b] ++ rest, hdrop, hj', .star _ ?_⟩
        · rw [hb]
          exact fun heq => hslash (List.mem_append_right _ (List.mem_singleton.mpr heq.symm))
        · exact fun hmem => hslash (List.mem_append_left _ hmem)
  · rintro (rfl | ⟨hslash, run, rest, hdrop, hlength, hpiece⟩)
    · exact ⟨[], bytes.drop (j + 1), rfl, rfl, .star _ List.not_mem_nil⟩
    · cases hpiece with
      | star _ hrun =>
        have hrest : bytes.drop j = rest := by rw [hlength, ← List.drop_drop, hdrop, List.drop_left]
        refine ⟨run ++ [bytes.getD j 0], bytes.drop (j + 1), ?_, ?_, .star _ ?_⟩
        · rw [List.append_assoc, List.singleton_append, ← hbyte, hrest, hdrop]
        · rw [List.length_append, List.length_singleton, hlength, Nat.add_assoc]
        · rw [List.mem_append, List.mem_singleton, not_or]
          exact ⟨hrun, fun heq => hslash heq.symm⟩

end Offsets

/-! The rounds. -/

section Rounds
variable {bytes : Bytes} {reachable : List Bool}

theorem getD_set {l : List Bool} {k j : Nat} {b : Bool} (hj : j < l.length) :
    (l.set k b).getD j false = if k = j then b else l.getD j false := by
  rw [List.getD_eq_getElem?_getD, List.getD_eq_getElem?_getD, List.getElem?_set]
  split
  · rename_i heq
    rw [if_pos (heq ▸ hj)]
    rfl
  · rfl

theorem getD_replicate_false (n j : Nat) : (List.replicate n false).getD j false = false := by
  rw [List.getD_eq_getElem?_getD, List.getElem?_replicate]
  split <;> rfl

theorem length_advance (token : Token) (next : List Bool) (offset : Nat) :
    (advance bytes token reachable next offset).length = next.length := by
  cases token with
  | star => exact List.length_set
  | _ =>
    simp only [advance]
    split
    · exact List.length_set
    · rfl

theorem length_advances (token : Token) (next : List Bool) (offsets : List Nat) :
    (offsets.foldl (advance bytes token reachable) next).length = next.length := by
  induction offsets generalizing next with
  | nil => rfl
  | cons offset rest ih => rw [List.foldl_cons, ih, length_advance]

/-- Another token's offsets, in any order. -/
theorem advances_target {token : Token} (h : token ≠ .star) {next : List Bool} {offsets : List Nat}
    {j : Nat} (hj : j < next.length) :
    (offsets.foldl (advance bytes token reachable) next).getD j false = true ↔
      next.getD j false = true ∨
      ∃ i ∈ offsets, reachable.getD i false = true ∧ target bytes token i = some j := by
  induction offsets generalizing next with
  | nil => simp
  | cons offset rest ih =>
    have hset : (advance bytes token reachable next offset).getD j false = true ↔
        next.getD j false = true ∨
        reachable.getD offset false = true ∧ target bytes token offset = some j := by
      rw [advance_target h]
      split
      · rename_i hreachable
        cases htarget : target bytes token offset with
        | none => simp
        | some k =>
          rw [Option.elim_some, getD_set hj]
          split
          · rename_i heq
            exact iff_of_true rfl (.inr ⟨hreachable, congrArg some heq⟩)
          · rename_i hne
            exact (or_iff_left (fun h => hne (Option.some.inj h.2))).symm
      · rename_i hreachable
        exact (or_iff_left (fun h => hreachable h.1)).symm
    rw [List.foldl_cons, ih (by rwa [length_advance]), hset]
    simp only [List.mem_cons, exists_eq_or_imp, or_assoc]

/-- A star's offsets, lowest first: those below `m` are settled after `m` of them. -/
theorem advances_star {m : Nat} (hm : m ≤ bytes.length + 1) {j : Nat} (hj : j < bytes.length + 1) :
    ((List.range m).foldl (advance bytes .star reachable)
      (List.replicate (bytes.length + 1) false)).getD j false = true ↔
      j < m ∧ ∃ i ≤ bytes.length, reachable.getD i false = true ∧ Takes bytes .star i j := by
  induction m generalizing j with
  | zero =>
    rw [List.range_zero, List.foldl_nil, getD_replicate_false]
    exact iff_of_false Bool.false_ne_true (fun h => Nat.not_lt_zero _ h.1)
  | succ m ih =>
    have hlength := @length_advances bytes reachable .star (List.replicate (bytes.length + 1) false)
      (List.range m)
    rw [List.length_replicate] at hlength
    rw [List.range_succ, List.foldl_append, List.foldl_cons, List.foldl_nil]
    simp only [advance]
    rw [getD_set (by rwa [hlength])]
    split
    · rename_i heq
      rw [← heq, Bool.or_eq_true]
      refine Iff.trans ?_ (and_iff_right (Nat.lt_succ_self m)).symm
      cases m with
      | zero =>
        constructor
        · rintro (hreachable | hbefore)
          · exact ⟨0, Nat.zero_le _, hreachable, (takes_star_zero (Nat.zero_le _)).mpr rfl⟩
          · cases hbefore
        · rintro ⟨i, hi, hreachable, htakes⟩
          rw [(takes_star_zero hi).mp htakes] at hreachable
          exact .inl hreachable
      | succ k =>
        have hk : k < bytes.length := by omega
        have hbelow := ih (by omega) (j := k) (by omega)
        rw [Nat.add_sub_cancel, Bool.and_eq_true, Bool.and_eq_true, hbelow, bne_iff_ne]
        constructor
        · rintro (hreachable | ⟨⟨-, hslash⟩, -, i, hi, hstart, htakes⟩)
          · exact ⟨k + 1, by omega, hreachable, (takes_star_succ (by omega) hk).mpr (.inl rfl)⟩
          · exact ⟨i, hi, hstart, (takes_star_succ hi hk).mpr (.inr ⟨hslash, htakes⟩)⟩
        · rintro ⟨i, hi, hstart, htakes⟩
          rcases (takes_star_succ hi hk).mp htakes with rfl | ⟨hslash, htakes⟩
          · exact .inl hstart
          · exact .inr ⟨⟨by simp, hslash⟩, Nat.lt_succ_self k, i, hi, hstart, htakes⟩
    · rename_i hne
      rw [ih (by omega) hj]
      refine and_congr_left (fun _ => ?_)
      omega

/-- **A round reaches what its token takes.** -/
theorem stateRound_iff {token : Token} {j : Nat} (hj : j ≤ bytes.length) :
    (stateRound bytes reachable token).getD j false = true ↔
      ∃ i ≤ bytes.length, reachable.getD i false = true ∧ Takes bytes token i j := by
  rw [stateRound]
  by_cases hstar : token = .star
  · rw [hstar, advances_star (Nat.le_refl _) (Nat.lt_succ_of_le hj)]
    exact and_iff_right (Nat.lt_succ_of_le hj)
  · rw [advances_target hstar (by rw [List.length_replicate]; omega)]
    rw [getD_replicate_false, or_iff_right Bool.false_ne_true]
    refine exists_congr (fun i => ?_)
    rw [List.mem_range, Nat.lt_succ_iff, takes_target hstar]

theorem stateRounds_iff {tokens : List Token} {j : Nat} (hj : j ≤ bytes.length) :
    (tokens.foldl (stateRound bytes) reachable).getD j false = true ↔
      ∃ i ≤ bytes.length, reachable.getD i false = true ∧ Path bytes tokens i j := by
  induction tokens generalizing reachable with
  | nil =>
    constructor
    · exact fun h => ⟨j, hj, h, rfl⟩
    · rintro ⟨i, -, h, rfl⟩
      exact h
  | cons token tokens ih =>
    rw [List.foldl_cons, ih]
    constructor
    · rintro ⟨k, hk, hround, hpath⟩
      obtain ⟨i, hi, hreachable, htakes⟩ := (stateRound_iff hk).mp hround
      exact ⟨i, hi, hreachable, k, htakes, hpath⟩
    · rintro ⟨i, hi, hreachable, k, htakes, hpath⟩
      have hk := (htakes.le hi).2
      exact ⟨k, hk, (stateRound_iff hk).mpr ⟨i, hi, hreachable, htakes⟩, hpath⟩

end Rounds

/-- The state vector reaches the end of a name exactly along a path of the tokens. -/
theorem matches_path (p : SourcePattern) (name : Bytes) :
    p.matchesName name = true ↔ Path name p.tokens 0 name.length := by
  have hstart : ∀ i, (true :: List.replicate name.length false).getD i false = true ↔ i = 0 := by
    intro i
    cases i with
    | zero => exact iff_of_true rfl rfl
    | succ i =>
      rw [List.getD_cons_succ, getD_replicate_false]
      exact iff_of_false Bool.false_ne_true (Nat.succ_ne_zero i)
  rw [SourcePattern.matchesName, stateRounds_iff (Nat.le_refl _)]
  constructor
  · rintro ⟨i, -, hi, h⟩
    rwa [(hstart i).mp hi] at h
  · exact fun h => ⟨0, Nat.zero_le _, (hstart 0).mpr rfl, h⟩

/-- A path through a whole name is a splitting of it. -/
theorem path_splits {tokens : List Token} {name : Bytes} :
    Path name tokens 0 name.length ↔ Splits tokens name := by
  rw [path_iff (Nat.zero_le _), List.drop_zero]

/-- **Matching is splitting**: the state vector reaches the end of a name exactly when
    the name splits into consecutive pieces, one for each token. -/
theorem matches_iff (p : SourcePattern) (name : Bytes) :
    p.matchesName name = true ↔ Splits p.tokens name :=
  (matches_path p name).trans path_splits

end Conglobate.Copy
