import Conglobate.Copy.Match
import Mathlib.Data.List.TakeWhile

/- Names as sequences of runes (`copy/pattern.rs`).

   Read rune by rune a pattern means less than byte by byte: a star stops at any
   byte, so inside a character it leaves bytes that are no rune of the name, each
   of which a question mark or a class then takes for one.

   What is proved:
     1. `runeSplits_splits` — what matches by runes matches byte by byte;
     2. `splits_runeSplits` — where no star strays into a rune, what matches byte by byte
        matches by runes;
     3. `oneByte_of_agree` — the readings agree for every pattern only on the names whose
        runes are all one byte wide;
     4. `runewise` — when a pattern is matched rune by rune. -/
namespace Conglobate.Copy

open Utf8

/-! A name's runes. -/

theorem decode_width {bytes : Bytes} (h : bytes ≠ []) :
    1 ≤ (Rune.decode bytes).width ∧ (Rune.decode bytes).width ≤ bytes.length := by
  obtain ⟨piece, rest, c, rfl, hone⟩ := exists_oneRune h
  have hpiece := List.length_pos_iff.mpr hone.ne_nil
  rw [decode_oneRune hone, List.length_append]
  exact ⟨hpiece, Nat.le_add_right _ _⟩

/-- The runes of a name, each with its bytes. -/
def runes (bytes : Bytes) : List (Bytes × Char) :=
  if _h : bytes = [] then []
  else
    (bytes.take (Rune.decode bytes).width, (Rune.decode bytes).value) :: runes
      (bytes.drop (Rune.decode bytes).width)
termination_by bytes.length
decreasing_by
  have hwidth := decode_width _h
  rw [List.length_drop]
  omega

theorem runes_nil : runes [] = [] := by rw [runes, dif_pos rfl]

theorem runes_append {piece rest : Bytes} {c : Char} (h : OneRune piece rest c) :
    runes (piece ++ rest) = (piece, c) :: runes rest := by
  have hne : piece ++ rest ≠ [] := fun hnil => h.ne_nil (List.append_eq_nil_iff.mp hnil).1
  rw [runes, dif_neg hne, decode_oneRune h, List.take_left, List.drop_left]

/-! What a pattern means for runes. -/

/-- What a token matches of the runes. -/
inductive RunePiece : Token → List (Bytes × Char) → Prop
  | literal (bytes : Bytes) (c : Char) : RunePiece (.literal bytes) [(bytes, c)]
  | star {run : List (Bytes × Char)} : (∀ r ∈ run, r.2 ≠ '/') → RunePiece .star run
  | any {r : Bytes × Char} : r.2 ≠ '/' → RunePiece .any [r]
  | class {negated : Bool} {ranges : List (Char × Char)} {r : Bytes × Char} :
      inClass negated ranges r.2 = true → RunePiece (.class negated ranges) [r]

/-- The runes match the tokens one after the other. -/
inductive RuneSplits : List Token → List (Bytes × Char) → Prop
  | nil : RuneSplits [] []
  | cons {token : Token} {tokens : List Token} {piece rest : List (Bytes × Char)} :
      RunePiece token piece → RuneSplits tokens rest → RuneSplits (token :: tokens) (piece ++ rest)

/-- **Question marks take a rune each**: fewer runes do not match. -/
theorem RuneSplits.count {tokens : List Token} {rs : List (Bytes × Char)}
    (h : RuneSplits tokens rs) :
    tokens.countP (fun t => t = .any) ≤ rs.length := by
  induction h with
  | nil => exact Nat.le_refl _
  | cons hpiece _ ih =>
    rw [List.countP_cons, List.length_append]
    cases hpiece with
    | any _ =>
      rw [if_pos (by rfl), List.length_singleton]
      omega
    | _ =>
      rw [if_neg (by simp)]
      omega

/-! The two readings. -/

/-- The literals of a pattern are characters. -/
def CharLiterals (tokens : List Token) : Prop :=
  ∀ bytes, Token.literal bytes ∈ tokens → ∃ c, bytes = String.utf8EncodeChar c

theorem token_literal {c : Char} {t rest : Text} {bytes : Bytes}
    (h : token c t = .ok (.literal bytes, rest)) :
    ∃ d, bytes = String.utf8EncodeChar d := by
  unfold token at h
  split at h
  · cases h
  · cases h
  · unfold classOf at h
    split at h
    all_goals
      obtain ⟨found, -, h⟩ := except_bind_eq_ok.mp h
      cases h
  · cases h
  · rename_i d _
    cases h
    exact ⟨d, rfl⟩
  · cases h
    exact ⟨c, rfl⟩

/-- A pattern's literals are characters. -/
theorem parse_literals {t : Text} {tokens : List Token} (h : parse t = .ok tokens) :
    CharLiterals tokens := by
  fun_induction parse t generalizing tokens with
  | case1 =>
    cases h
    exact fun _ hmem => by cases hmem
  | case2 => cases h
  | case3 => cases h
  | case4 c rest first rest' hfirst more hmore ih =>
    cases h
    intro bytes hmem
    rcases List.mem_cons.mp hmem with rfl | hmem
    · exact token_literal hfirst
    · exact ih hmore bytes hmem

theorem fromStr_tokens {source : Text} {p : SourcePattern}
    (h : SourcePattern.fromStr source = .ok p) :
    parse (['/'].intercalate (Plan.ImagePath.components (trimSlashes source))) = .ok p.tokens := by
  rw [SourcePattern.fromStr] at h
  split at h
  · cases h
  · obtain ⟨tokens, htokens, h⟩ := except_bind_eq_ok.mp h
    cases h
    exact htokens

/-- A name with runes starts with the first of them. -/
theorem runes_cons {name : Bytes} {r : Bytes × Char} {rest : List (Bytes × Char)}
    (h : runes name = r :: rest) :
    ∃ tail, name = r.1 ++ tail ∧ OneRune r.1 tail r.2 ∧ runes tail = rest := by
  have hne : name ≠ [] := by
    rintro rfl
    rw [runes_nil] at h
    cases h
  obtain ⟨piece, tail, c, rfl, hone⟩ := exists_oneRune hne
  rw [runes_append hone] at h
  cases h
  exact ⟨tail, rfl, hone, rfl⟩

/-- A rune that is no separator has none in its bytes. -/
theorem OneRune.slash_not_mem {piece rest : Bytes} {c : Char} (h : OneRune piece rest c)
    (hc : c ≠ '/') : slash ∉ piece := by
  intro hmem
  have hhead := h.head
  cases h with
  | char c rest =>
    cases hencoding : String.utf8EncodeChar c with
    | nil => exact encoding_ne_nil c hencoding
    | cons b tail =>
      rw [hencoding] at hmem hhead
      rcases List.mem_cons.mp hmem with rfl | htail
      · exact hc (hhead.mp rfl)
      · have hcontinues := encoding_tail hencoding slash htail
        exact absurd hcontinues.1 (by decide)
  | invalid b rest _ =>
    rw [List.mem_singleton] at hmem
    rw [hmem] at hhead
    exact hc (hhead.mp rfl)

/-- A run of runes is a run of bytes. -/
theorem runes_run {name : Bytes} {run rest : List (Bytes × Char)} (h : runes name = run ++ rest)
    (hrun : ∀ r ∈ run, r.2 ≠ '/') : ∃ front tail, name = front ++ tail ∧ slash ∉ front ∧
    runes tail = rest := by
  induction run generalizing name with
  | nil => exact ⟨[], name, rfl, List.not_mem_nil, h⟩
  | cons r run ih =>
    obtain ⟨hr, hrun⟩ := List.forall_mem_cons.mp hrun
    obtain ⟨tail, rfl, hone, htail⟩ := runes_cons h
    obtain ⟨front, rest', rfl, hslash, hrest⟩ := ih htail hrun
    refine ⟨r.1 ++ front, rest', (List.append_assoc ..).symm, ?_, hrest⟩
    rw [List.mem_append, not_or]
    exact ⟨hone.slash_not_mem hr, hslash⟩

/-- **What matches by runes matches.** -/
theorem runeSplits_splits {tokens : List Token} {name : Bytes}
    (h : RuneSplits tokens (runes name)) : Splits tokens name := by
  generalize hrunes : runes name = rs at h
  induction h generalizing name with
  | nil =>
    cases name with
    | nil => exact .nil
    | cons b rest =>
      obtain ⟨piece, tail, c, hbytes, hone⟩ := exists_oneRune (List.cons_ne_nil b rest)
      rw [hbytes, runes_append hone] at hrunes
      cases hrunes
  | cons hpiece _ ih =>
    cases hpiece with
    | literal bytes c =>
      obtain ⟨tail, rfl, -, htail⟩ := runes_cons hrunes
      exact .cons (.literal bytes tail) (ih htail)
    | star hrun =>
      obtain ⟨front, tail, rfl, hslash, htail⟩ := runes_run hrunes hrun
      exact .cons (.star tail hslash) (ih htail)
    | any hr =>
      obtain ⟨tail, rfl, hone, htail⟩ := runes_cons hrunes
      exact .cons (.any hone hr) (ih htail)
    | «class» hr =>
      obtain ⟨tail, rfl, hone, htail⟩ := runes_cons hrunes
      exact .cons (.class hone hr) (ih htail)

/-- Every rune of the name is one byte wide. -/
def OneByte (name : Bytes) : Prop := ∀ r ∈ runes name, r.1.length = 1

theorem OneByte.cons {b : UInt8} {rest : Bytes} (h : OneByte (b :: rest)) :
    (∃ c, OneRune [b] rest c) ∧ OneByte rest := by
  obtain ⟨piece, tail, c, hbytes, hrune⟩ := exists_oneRune (List.cons_ne_nil b rest)
  rw [OneByte, hbytes, runes_append hrune] at h
  obtain ⟨hwidth, hrest⟩ := List.forall_mem_cons.mp h
  obtain ⟨x, rfl⟩ := List.length_eq_one_iff.mp hwidth
  obtain ⟨rfl, rfl⟩ := List.cons_eq_cons.mp hbytes
  exact ⟨⟨c, hrune⟩, hrest⟩

theorem OneByte.append {run rest : Bytes} (h : OneByte (run ++ rest)) : OneByte rest := by
  induction run with
  | nil => exact h
  | cons b run ih => exact ih h.cons.2

/-! Stars that stray. -/

/-- A rune of the name goes on behind `run`. -/
def Cut (run rest : Bytes) : Prop := ¬ runes rest <:+ runes (run ++ rest)

/-- A token that takes a byte that is no rune. -/
def Token.takesStray : Token → Bool
  | .any => true
  | .class negated ranges => inClass negated ranges replacement
  | _ => false

/-- A star stops inside a rune of the name, before a token that takes what is left of the rune. -/
inductive Strays : List Token → Bytes → Prop
  | here {token : Token} {tokens : List Token} {run rest : Bytes} :
      slash ∉ run → Cut run rest → token.takesStray = true →
        Strays (.star :: token :: tokens) (run ++ rest)
  | later {token : Token} {tokens : List Token} {piece rest : Bytes} :
      Piece token piece rest → Strays tokens rest → Strays (token :: tokens) (piece ++ rest)

/-- No star stands before a token that takes a byte that is no rune. -/
def Sheltered (tokens : List Token) : Prop :=
  ∀ token, [Token.star, token] <:+: tokens → token.takesStray = false

theorem Sheltered.not_strays {tokens : List Token} (hsheltered : Sheltered tokens) {name : Bytes} :
    ¬Strays tokens name := by
  intro h
  induction h with
  | here _ _ hstray =>
    rw [hsheltered _ ⟨[], _, rfl⟩] at hstray
    cases hstray
  | later _ _ ih =>
    exact ih (fun token hbetween => hsheltered token
      (hbetween.trans (List.suffix_cons _ _).isInfix))

theorem OneByte.not_cut {run rest : Bytes} (h : OneByte (run ++ rest)) : ¬Cut run rest := by
  intro hcut
  apply hcut
  induction run with
  | nil => exact List.suffix_refl _
  | cons b run ih =>
    obtain ⟨⟨c, hrune⟩, hrest⟩ := OneByte.cons h
    have hrunes : runes (b :: run ++ rest) = ([b], c) :: runes (run ++ rest) := runes_append hrune
    rw [hrunes]
    exact (ih hrest (fun hends => hcut (hrunes ▸ hends.trans (List.suffix_cons _ _)))).trans
      (List.suffix_cons _ _)

theorem OneByte.not_strays {tokens : List Token} {name : Bytes} (hone : OneByte name) :
    ¬Strays tokens name := by
  intro h
  induction h with
  | here _ hcut _ => exact hone.not_cut hcut
  | later _ _ ih => exact ih hone.append

/-- A name is the bytes of its runes. -/
theorem runes_flatten (name : Bytes) : ((runes name).map Prod.fst).flatten = name := by
  generalize hrunes : runes name = rs
  induction rs generalizing name with
  | nil =>
    cases name with
    | nil => rfl
    | cons b rest =>
      obtain ⟨piece, tail, c, hbytes, hone⟩ := exists_oneRune (List.cons_ne_nil b rest)
      rw [hbytes, runes_append hone] at hrunes
      cases hrunes
  | cons r rs ih =>
    obtain ⟨tail, rfl, -, htail⟩ := runes_cons hrunes
    rw [List.map_cons, List.flatten_cons, ih tail htail]

/-- A separator among the runes is one among the bytes. -/
theorem slash_mem_of_rune {name : Bytes} {r : Bytes × Char} (h : r ∈ runes name) (hr : r.2 = '/') :
    slash ∈ r.1 := by
  obtain ⟨before, after, hsplit⟩ := List.append_of_mem h
  generalize hrunes : runes name = rs at hsplit
  subst hsplit
  induction before generalizing name with
  | nil =>
    obtain ⟨tail, rfl, hone, -⟩ := runes_cons hrunes
    obtain ⟨rest, hrest⟩ := List.head?_eq_some_iff.mp (hone.head.mpr hr)
    rw [hrest]
    exact List.mem_cons_self
  | cons first before ih =>
    obtain ⟨tail, rfl, -, htail⟩ := runes_cons hrunes
    exact ih (by rw [htail]; exact List.mem_append_right _ List.mem_cons_self) htail

/-- A run that ends with a rune is one of runes. -/
theorem runes_of_not_cut {run rest : Bytes} (hslash : slash ∉ run) (h : ¬Cut run rest) :
    ∃ front, runes (run ++ rest) = front ++ runes rest ∧ ∀ r ∈ front, r.2 ≠ '/' := by
  obtain ⟨front, hfront⟩ := not_not.mp h
  refine ⟨front, hfront.symm, fun r hr hvalue => hslash ?_⟩
  have hbytes := runes_flatten (run ++ rest)
  rw [← hfront, List.map_append, List.flatten_append, runes_flatten,
    List.append_cancel_right_eq] at hbytes
  have hmem : r ∈ runes (run ++ rest) := hfront ▸ List.mem_append_left _ hr
  rw [← hbytes]
  exact List.mem_flatten.mpr ⟨r.1, List.mem_map_of_mem hr, slash_mem_of_rune hmem hvalue⟩

/-- What is cut goes on with a byte that continues a character. -/
theorem cut_continues {run rest : Bytes} (h : Cut run rest) :
    ∃ b tail, rest = b :: tail ∧ Continues b := by
  by_contra hnone
  refine h ?_
  clear h
  induction hlength : run.length using Nat.strongRecOn generalizing run with
  | ind n ih =>
    by_cases hnil : run = []
    · rw [hnil]
      exact List.suffix_refl _
    obtain ⟨piece, tail, c, hbytes, hone⟩ :=
      exists_oneRune (List.append_ne_nil_of_left_ne_nil hnil rest)
    rcases List.append_eq_append_iff.mp hbytes with ⟨more, hpiece, hrest⟩ | ⟨run', hrun, htail⟩
    · -- the rune goes on behind the run, if it does not end with it
      cases more with
      | nil =>
        rw [List.append_nil] at hpiece
        rw [List.nil_append] at hrest
        rw [hbytes, runes_append hone, hrest]
        exact List.suffix_cons _ _
      | cons b more =>
        refine absurd ⟨b, more ++ tail, hrest, ?_⟩ hnone
        obtain ⟨first, run', rfl⟩ := List.exists_cons_of_ne_nil hnil
        cases hone with
        | char c _ => exact encoding_tail hpiece b (List.mem_append_right _ List.mem_cons_self)
        | invalid first' _ _ =>
          have hwidth := congrArg List.length hpiece
          rw [List.length_singleton, List.length_append, List.length_cons,
            List.length_cons] at hwidth
          omega
    · have hpos := List.length_pos_iff.mpr hone.ne_nil
      have hshort : run'.length < n := by
        rw [← hlength, hrun, List.length_append]
        omega
      rw [hbytes, runes_append hone, htail]
      exact (ih run'.length hshort rfl).trans (List.suffix_cons _ _)

/-- What stands behind a cut takes a byte that is no rune, or is a star. -/
theorem Piece.takesStray {token : Token} {run piece rest : Bytes} (h : Piece token piece rest)
    (htoken : token ≠ .star)
    (hliteral : ∀ bytes, token = .literal bytes → ∃ c, bytes = String.utf8EncodeChar c)
    (hcut : Cut run (piece ++ rest)) :
    token.takesStray = true := by
  obtain ⟨b, tail, hbytes, hcontinues⟩ := cut_continues hcut
  have hlost : ∀ {c : Char}, OneRune piece rest c → c = replacement := by
    intro c hone
    exact (hone.unique (.invalid b tail (fun c' more =>
      continues_starts_none hcontinues c' more tail)) hbytes).2.2
  cases h with
  | literal bytes rest =>
    obtain ⟨c, rfl⟩ := hliteral _ rfl
    exact absurd hbytes (continues_starts_none hcontinues c rest tail)
  | star _ _ => exact absurd rfl htoken
  | any _ _ => rfl
  | «class» hone hclass =>
    rw [hlost hone] at hclass
    exact hclass

/-- **Where no star strays**, what matches matches by runes. -/
theorem splits_runeSplits {tokens : List Token} (hliterals : CharLiterals tokens) {name : Bytes}
    (h : Splits tokens name) :
    (¬Strays tokens name → RuneSplits tokens (runes name)) ∧
    ∀ run, slash ∉ run → ¬Strays (.star :: tokens) (run ++ name) →
      RuneSplits (.star :: tokens) (runes (run ++ name)) := by
  induction h with
  | nil =>
    refine ⟨fun _ => ?_, fun run hslash _ => ?_⟩
    · rw [runes_nil]
      exact .nil
    · -- the run is all of the name
      have hwhole : ¬Cut run [] := fun hcut => hcut (runes_nil ▸ List.nil_suffix)
      obtain ⟨front, hfront, hrunes⟩ := runes_of_not_cut hslash hwhole
      rw [hfront, runes_nil]
      exact .cons (.star hrunes) .nil
  | @cons token tokens piece rest hpiece hsplits ih =>
    have hmore : CharLiterals tokens :=
      fun bytes hmem => hliterals bytes (List.mem_cons_of_mem _ hmem)
    obtain ⟨ihhere, ihstar⟩ := ih hmore
    have hhere : ¬Strays (token :: tokens) (piece ++ rest) →
        RuneSplits (token :: tokens) (runes (piece ++ rest)) := by
      intro hstrays
      have hrest : ¬Strays tokens rest := fun hlater => hstrays (.later hpiece hlater)
      cases hpiece with
      | literal bytes rest =>
        obtain ⟨c, rfl⟩ := hliterals _ List.mem_cons_self
        rw [runes_append (.char c _)]
        exact .cons (.literal _ c) (ihhere hrest)
      | star _ hslash => exact ihstar piece hslash hstrays
      | any hrune hc =>
        rw [runes_append hrune]
        exact .cons (.any hc) (ihhere hrest)
      | «class» hrune hc =>
        rw [runes_append hrune]
        exact .cons (.class hc) (ihhere hrest)
    refine ⟨hhere, fun run hslash hstrays => ?_⟩
    by_cases htoken : token = .star
    · -- the two stars take their runs as one
      subst htoken
      cases hpiece with
      | star _ hslash' =>
        have hboth : slash ∉ run ++ piece := by
          rw [List.mem_append, not_or]
          exact ⟨hslash, hslash'⟩
        have hone : ¬Strays (.star :: tokens) (run ++ piece ++ rest) := by
          intro hstray
          rw [List.append_assoc] at hstray
          have hempty : Piece .star [] (run ++ (piece ++ rest)) := .star _ List.not_mem_nil
          exact hstrays (@Strays.later _ _ [] (run ++ (piece ++ rest)) hempty hstray)
        have hsplit := ihstar (run ++ piece) hboth hone
        rw [List.append_assoc] at hsplit
        exact .cons (.star (List.forall_mem_nil _)) hsplit
    · have hcut : ¬Cut run (piece ++ rest) := fun hcut =>
        hstrays (.here hslash hcut (hpiece.takesStray htoken
          (fun bytes heq => hliterals bytes (heq ▸ List.mem_cons_self)) hcut))
      obtain ⟨front, hfront, hrunes⟩ := runes_of_not_cut hslash hcut
      rw [hfront]
      exact .cons (.star hrunes) (hhere (fun hlater => hstrays (.later (.star _ hslash) hlater)))

/-! A pattern that tells the readings apart. -/

/-- `[^z-a]`: every rune. -/
def anyText : Text := ['[', '^', 'z', '-', 'a', ']']

def anyToken : Token := .class true [('z', 'a')]

/-- A class of U+FFFD, which a byte that is no rune is read as. -/
def lostText : Text := ['[', replacement, ']']

def lostToken : Token := .class false [( replacement, replacement)]

/-- One rune of any kind each, a star, then bytes that are none, and runes again. -/
def tellingText (before lost after : Nat) : Text :=
  (List.replicate before anyText).flatten ++ '*' :: ((List.replicate lost lostText).flatten ++
    (List.replicate after anyText).flatten)

def tellingTokens (before lost after : Nat) : List Token :=
  List.replicate before anyToken ++ .star :: (List.replicate lost lostToken ++
    List.replicate after anyToken)

theorem token_anyText (t : Text) : token '[' ('^' :: 'z' :: '-' :: 'a' :: ']' :: t) =
    .ok (anyToken, t) := by
  have hranges : ranges [] ('z' :: '-' :: 'a' :: ']' :: t) = .ok ([('z', 'a')], t) :=
    ranges_eq_ok.mpr (.inr ⟨fun h => h.1 rfl, 'z', '-' :: 'a' :: ']' :: t, 'a', ']' :: t, rfl, rfl,
      ranges_eq_ok.mpr (.inl ⟨List.cons_ne_nil _ _, rfl, rfl⟩)⟩)
  show (ranges [] ('z' :: '-' :: 'a' :: ']' :: t) >>= fun found => .ok
    (Token.class true found.1, found.2)) = _
  rw [hranges]
  rfl

theorem token_lostText (t : Text) : token '[' ( replacement :: ']' :: t) = .ok (lostToken, t) := by
  have hranges : ranges [] ( replacement :: ']' :: t) = .ok ([( replacement, replacement)], t) :=
    ranges_eq_ok.mpr (.inr ⟨fun h => h.1 rfl, replacement, ']' :: t, replacement,
      ']' :: t, rfl, rfl, ranges_eq_ok.mpr (.inl ⟨List.cons_ne_nil _ _, rfl, rfl⟩)⟩)
  show (ranges [] ( replacement :: ']' :: t) >>= fun found => .ok
    (Token.class false found.1, found.2)) = _
  rw [hranges]
  rfl

/-- **The telling text** is read as the telling tokens. -/
theorem parse_tellingText (before lost after : Nat) :
    parse (tellingText before lost after) = .ok (tellingTokens before lost after) := by
  have hany : ∀ {t : Text} {tokens : List Token}, parse t = .ok tokens → ∀ n,
      parse ((List.replicate n anyText).flatten ++ t) =
          .ok (List.replicate n anyToken ++ tokens) := by
    intro t tokens h n
    induction n with
    | zero => exact h
    | succ n ih => exact parse_cons_eq_ok.mpr ⟨_, _, _, token_anyText _, ih, rfl⟩
  have hlost : ∀ {t : Text} {tokens : List Token}, parse t = .ok tokens → ∀ n,
      parse ((List.replicate n lostText).flatten ++ t) =
          .ok (List.replicate n lostToken ++ tokens) := by
    intro t tokens h n
    induction n with
    | zero => exact h
    | succ n ih => exact parse_cons_eq_ok.mpr ⟨_, _, _, token_lostText _, ih, rfl⟩
  have hnil : parse [] = .ok [] := by rw [parse]
  have hafter := hany hnil after
  rw [List.append_nil, List.append_nil] at hafter
  exact hany (parse_cons_eq_ok.mpr ⟨.star, _, _, rfl, hlost hafter lost, rfl⟩) before

theorem tellingText_plain (before lost after : Nat) :
    '/' ∉ tellingText before lost after ∧ '\x00' ∉ tellingText before lost after := by
  have hflat : ∀ (c : Char) (part : Text) (n : Nat), c ∉ part →
      c ∉ (List.replicate n part).flatten := by
    intro c part n hpart hmem
    obtain ⟨l, hl, hc⟩ := List.mem_flatten.mp hmem
    rw [List.eq_of_mem_replicate hl] at hc
    exact hpart hc
  have hplain : ∀ c, c ∉ anyText → c ∉ lostText → c ≠ '*' → c ∉ tellingText before lost after := by
    intro c hany hlost hstar
    rw [tellingText, List.mem_append, List.mem_cons, List.mem_append, not_or, not_or, not_or]
    exact ⟨hflat c _ _ hany, hstar, hflat c _ _ hlost, hflat c _ _ hany⟩
  exact ⟨hplain _ (by decide) (by decide) (by decide), hplain _ (by decide) (by decide) (by decide)⟩

theorem trimSlashes_plain {t : Text} (h : '/' ∉ t) : trimSlashes t = t := by
  have hkeep : ∀ l : Text, '/' ∉ l → l.dropWhile (· == '/') = l := by
    intro l hl
    rw [List.dropWhile_eq_self_iff]
    intro hlt heq
    rw [beq_iff_eq] at heq
    exact hl (heq ▸ List.getElem_mem hlt)
  rw [trimSlashes, hkeep t h, hkeep t.reverse (fun hmem => h (List.mem_reverse.mp hmem)),
    List.reverse_reverse]

theorem fromStr_tellingText (before lost after : Nat) :
    SourcePattern.fromStr (tellingText before lost after) =
      .ok ⟨tellingText before lost after, tellingTokens before lost after⟩ := by
  obtain ⟨hslash, hnul⟩ := tellingText_plain before lost after
  have hstar : '*' ∈ tellingText before lost after := List.mem_append_right _ List.mem_cons_self
  have hsplit : (tellingText before lost after).splitOn '/' = [tellingText before lost after] :=
    List.splitOn_eq_singleton hslash
  have hother : ∀ other : Text, '*' ∉ other → tellingText before lost after ≠ other :=
    fun other hnot heq => hnot (heq ▸ hstar)
  have hcomponents : Plan.ImagePath.components (tellingText before lost after) =
      [tellingText before lost after] := by
    rw [Plan.ImagePath.components, hsplit, List.filter_cons_of_pos]
    · rfl
    · rw [Bool.and_eq_true, decide_eq_true_iff, decide_eq_true_iff]
      exact ⟨hother _ (by decide), hother _ (by decide)⟩
  rw [SourcePattern.fromStr, if_neg, trimSlashes_plain hslash, hcomponents]
  · have hjoined : ['/'].intercalate [tellingText before lost after] =
        tellingText before lost after := by
      simp [List.intercalate]
    rw [hjoined, parse_tellingText]
    rfl
  · rw [hsplit, List.mem_singleton, not_or, not_or]
    exact ⟨hother _ (by decide), hnul, fun heq => hother _ (by decide) heq.symm⟩

/-- Tokens that take a rune each take as many as there are. -/
theorem RuneSplits.replicate {token : Token}
    (htoken : ∀ {piece}, RunePiece token piece → ∃ r, piece = [r]) {n : Nat} {tokens : List Token}
    {rs : List (Bytes × Char)} (h : RuneSplits (List.replicate n token ++ tokens) rs) :
    ∃ front rest, rs = front ++ rest ∧ front.length = n ∧ RuneSplits tokens rest := by
  induction n generalizing rs with
  | zero => exact ⟨[], rs, rfl, rfl, h⟩
  | succ n ih =>
    cases h with
    | cons hpiece hsplits =>
      obtain ⟨r, rfl⟩ := htoken hpiece
      obtain ⟨front, rest, rfl, hlength, hrest⟩ := ih hsplits
      exact ⟨r :: front, rest, rfl, by rw [List.length_cons, hlength], hrest⟩

theorem class_piece {negated : Bool} {ranges : List (Char × Char)} {piece : List (Bytes × Char)}
    (h : RunePiece (.class negated ranges) piece) : ∃ r, piece = [r] := by
  cases h with
  | «class» _ => exact ⟨_, rfl⟩

theorem RuneSplits.head_class {negated : Bool} {ranges : List (Char × Char)} {tokens : List Token}
    {r : Bytes × Char} {rest : List (Bytes × Char)}
    (h : RuneSplits (.class negated ranges :: tokens) (r :: rest)) :
    inClass negated ranges r.2 = true := by
  generalize hrs : r :: rest = rs at h
  cases h with
  | cons hpiece _ =>
    cases hpiece with
    | «class» hclass =>
      cases hrs
      exact hclass

theorem inClass_single {c d : Char} : inClass false [(c, c)] d = true ↔ d = c := by
  rw [inClass, List.any_cons, List.any_nil, Bool.or_false, bne_iff_ne, ne_eq, Bool.not_eq_false,
    decide_eq_true_iff]
  constructor
  · exact fun h => le_antisymm h.2 h.1
  · rintro rfl
    exact ⟨le_refl _, le_refl _⟩

/-- By runes the telling tokens need as many runes as there are, and one that is
    U+FFFD where the wide one stands. -/
theorem telling_runeSplits {before after : List (Bytes × Char)} {r : Bytes × Char} {lost : Nat}
    (hlost : 1 ≤ lost)
    (h : RuneSplits (tellingTokens before.length lost after.length) (before ++ r :: after)) :
    lost = 1 ∧ r.2 = replacement := by
  obtain ⟨front, rest, heq, hlength, hrest⟩ := RuneSplits.replicate class_piece h
  obtain ⟨-, rfl⟩ := List.append_inj heq hlength.symm
  generalize hrs : r :: after = rs at hrest
  cases hrest with
  | cons hpiece hsplits =>
    cases hpiece with
    | star _ =>
      rename_i run others _
      obtain ⟨middle, last, rfl, hmiddle, hlast⟩ := RuneSplits.replicate class_piece hsplits
      have hends : List.replicate after.length anyToken = List.replicate after.length anyToken ++
        [] := (List.append_nil _).symm
      rw [hends] at hlast
      obtain ⟨final, nothing, rfl, hfinal, hnil⟩ := RuneSplits.replicate class_piece hlast
      cases hnil
      have hcount := congrArg List.length hrs
      simp only [List.length_cons, List.length_append, List.length_nil] at hcount
      have hone : lost = 1 := by omega
      have hrun : run = [] := List.length_eq_zero_iff.mp (by omega)
      refine ⟨hone, ?_⟩
      subst hone
      rw [hrun, List.nil_append] at hrs
      rw [← hrs] at hsplits
      exact inClass_single.mp hsplits.head_class

theorem inClass_any (c : Char) : inClass true [('z', 'a')] c = true := by
  have hempty : ¬('z' ≤ c ∧ c ≤ 'a') := fun h => absurd (le_trans h.1 h.2) (by decide)
  rw [inClass, List.any_cons, List.any_nil, decide_eq_false hempty]
  rfl

/-- The first runes, one by one. -/
theorem splits_anys {front rs : List (Bytes × Char)} {name : Bytes} (h : runes name = front ++ rs) :
    ∃ tail, runes tail = rs ∧
      ∀ tokens, Splits tokens tail → Splits (List.replicate front.length anyToken ++
        tokens) name := by
  induction front generalizing name with
  | nil => exact ⟨name, h, fun _ hsplits => hsplits⟩
  | cons r front ih =>
    obtain ⟨rest, rfl, hone, hrest⟩ := runes_cons h
    obtain ⟨tail, htail, hmore⟩ := ih hrest
    exact ⟨tail, htail, fun tokens hsplits => .cons (.class hone (inClass_any _))
      (hmore tokens hsplits)⟩

/-- Bytes that continue a character are a lost rune each. -/
theorem splits_lost {conts rest : Bytes} (hconts : ∀ b ∈ conts, Continues b) {tokens : List Token}
    (h : Splits tokens rest) :
    Splits (List.replicate conts.length lostToken ++ tokens) (conts ++ rest) := by
  induction conts with
  | nil => exact h
  | cons b conts ih =>
    obtain ⟨hb, hconts⟩ := List.forall_mem_cons.mp hconts
    have hone : OneRune [b] (conts ++ rest) replacement :=
      .invalid b _ (fun c tail => continues_starts_none hb c tail _)
    have hpiece : Piece lostToken [b] (conts ++ rest) := .class hone (inClass_single.mpr rfl)
    exact @Splits.cons _ _ [b] (conts ++ rest) hpiece (ih hconts)

/-- **Byte by byte the telling tokens match**: the star stops behind the first byte of
    the wide rune. -/
theorem telling_splits {before after : List (Bytes × Char)} {r : Bytes × Char} {name : Bytes}
    (h : runes name = before ++ r :: after) (hwide : r.1.length ≠ 1) :
    Splits (tellingTokens before.length (r.1.length - 1) after.length) name := by
  obtain ⟨tail, htail, hbefore⟩ := splits_anys h
  refine hbefore _ ?_
  obtain ⟨rest, rfl, hone, hrest⟩ := runes_cons htail
  obtain ⟨last, hlast, hruns⟩ := splits_anys (hrest.trans (List.append_nil _).symm)
  have hend : Splits [] last := by
    cases last with
    | nil => exact .nil
    | cons b last =>
      obtain ⟨piece, more, c, hbytes, hrune⟩ := exists_oneRune (List.cons_ne_nil b last)
      rw [hbytes, runes_append hrune] at hlast
      cases hlast
  have hsuffix := hruns [] hend
  rw [List.append_nil] at hsuffix
  generalize hbytes : r.1 = bytes at hone hwide ⊢
  generalize r.2 = c at hone
  cases hone with
  | invalid b _ _ => exact absurd rfl hwide
  | char c _ =>
    cases hencoding : String.utf8EncodeChar c with
    | nil => exact absurd hencoding (encoding_ne_nil c)
    | cons b conts =>
      have hlead : slash ∉ [b] := by
        intro hmem
        have hslash : OneRune (String.utf8EncodeChar c) rest c := .char c rest
        rw [hencoding] at hslash
        have hc := hslash.head.mp (congrArg some (List.mem_singleton.mp hmem).symm)
        rw [hc] at hwide
        exact hwide (by decide)
      have hstar : Piece .star [b] (conts ++ rest) := .star _ hlead
      exact @Splits.cons _ _ [b] (conts ++ rest) hstar
        (splits_lost (encoding_tail hencoding) hsuffix)

/-- **Some pattern tells the readings apart** on a name with a wide rune. -/
theorem oneByte_of_agree {name : Bytes}
    (hagree : ∀ source p, SourcePattern.fromStr source = .ok p →
    (p.matchesName name = true → RuneSplits p.tokens (runes name))) :
    OneByte name := by
  intro r hr
  by_contra hwide
  obtain ⟨before, after, hsplit⟩ := List.append_of_mem hr
  have hpattern := fromStr_tellingText before.length (r.1.length - 1) after.length
  have hsplits := path_splits.mpr (telling_splits hsplit hwide)
  have hrunes := hagree _ _ hpattern ((matches_path _ name).mpr hsplits)
  rw [hsplit] at hrunes
  obtain ⟨tail, -, hone, -⟩ := runes_cons (splits_anys hsplit).choose_spec.1
  have hpos := List.length_pos_iff.mpr hone.ne_nil
  -- by runes the wide one would have to be U+FFFD, in two bytes
  obtain ⟨htwo, hvalue⟩ := telling_runeSplits (by omega) hrunes
  rw [hvalue] at hone
  generalize hpiece : r.1 = piece at hone htwo hwide
  cases hone with
  | char _ _ =>
    have hthree : (String.utf8EncodeChar replacement).length = 3 := by decide
    rw [hthree] at htwo
    cases htwo
  | invalid b _ _ => exact hwide rfl

/-- An accepted pattern matches by runes where no star strays. -/
theorem matches_runeSplits {source : Text} {p : SourcePattern}
    (hp : SourcePattern.fromStr source = .ok p) {name : Bytes} (hstrays : ¬Strays p.tokens name) :
    p.matchesName name = true ↔ RuneSplits p.tokens (runes name) := by
  rw [matches_path, path_splits]
  exact ⟨fun h => (splits_runeSplits (parse_literals (fromStr_tokens hp)) h).1 hstrays,
    runeSplits_splits⟩

/-- **Matching is rune-wise** where no star of the pattern strays into a rune of the name: if
    no star stands before a question mark or a class of U+FFFD, and if every rune of the name
    is one byte wide. What matches by runes always matches. On a name with a wider rune some
    pattern matches that does not match by runes. -/
theorem runewise {source : Text} {p : SourcePattern} (hp : SourcePattern.fromStr source = .ok p)
    (name : Bytes) :
    (RuneSplits p.tokens (runes name) → p.matchesName name = true) ∧
    (¬Strays p.tokens name →
      (p.matchesName name = true ↔ RuneSplits p.tokens (runes name)) ∧
      (p.matchesName name = true → p.tokens.countP (fun t => t = .any) ≤ (runes name).length)) ∧
    (Sheltered p.tokens ∨ OneByte name → ¬Strays p.tokens name) ∧
    ((∀ source' p', SourcePattern.fromStr source' = .ok p' →
      (p'.matchesName name = true ↔ RuneSplits p'.tokens (runes name))) ↔ OneByte name) := by
  refine ⟨fun h => (matches_path _ _).mpr (path_splits.mpr (runeSplits_splits h)),
    fun hstrays => ?_, ?_, ?_, ?_⟩
  · have hiff := matches_runeSplits hp hstrays
    exact ⟨hiff, fun hmatches => (hiff.mp hmatches).count⟩
  · exact fun h => h.elim (fun hsheltered => hsheltered.not_strays) (fun hone => hone.not_strays)
  · exact fun hagree => oneByte_of_agree (fun source' p' hp' => (hagree source' p' hp').mp)
  · exact fun hone source' p' hp' => matches_runeSplits hp' hone.not_strays

/-- `*本` takes the character before it whole. -/
theorem runewise_sample : ∃ p, SourcePattern.fromStr ['*', '本'] = .ok p ∧
    p.matchesName (String.utf8EncodeChar '日' ++ String.utf8EncodeChar '本') = true ∧
    RuneSplits p.tokens (runes (String.utf8EncodeChar '日' ++ String.utf8EncodeChar '本')) := by
  have hparse : parse ['*', '本'] = .ok [.star, .literal (String.utf8EncodeChar '本')] := by
    have hnil : parse [] = .ok [] := by rw [parse]
    exact parse_cons_eq_ok.mpr ⟨.star, _, _, rfl, parse_cons_eq_ok.mpr ⟨_, _, _, rfl, hnil, rfl⟩,
      rfl⟩
  have hp : SourcePattern.fromStr ['*', '本'] =
      .ok ⟨['*', '本'], [.star, .literal (String.utf8EncodeChar '本')]⟩ := by
    show (parse ['*', '本'] >>= fun tokens => .ok (SourcePattern.mk ['*', '本'] tokens)) = _
    rw [hparse]
    rfl
  have hsheltered : Sheltered [.star, .literal (String.utf8EncodeChar '本')] := by
    intro token hbetween
    obtain ⟨-, hsame⟩ := List.cons_eq_cons.mp (hbetween.eq_of_length rfl)
    obtain ⟨rfl, -⟩ := List.cons_eq_cons.mp hsame
    rfl
  have hmatches : SourcePattern.matchesName ⟨['*', '本'],
      [.star, .literal (String.utf8EncodeChar '本')]⟩
      (String.utf8EncodeChar '日' ++ String.utf8EncodeChar '本') = true := by
    rw [matches_path, path_splits]
    have hliteral : Splits [.literal (String.utf8EncodeChar '本')]
        (String.utf8EncodeChar '本' ++ []) :=
      .cons (.literal _ []) .nil
    rw [List.append_nil] at hliteral
    exact .cons (.star _ (by decide)) hliteral
  obtain ⟨-, hrunewise, hstrays, -⟩ :=
    runewise hp (String.utf8EncodeChar '日' ++ String.utf8EncodeChar '本')
  exact ⟨_, hp, hmatches, (hrunewise (hstrays (.inl hsheltered))).1.mp hmatches⟩

/-- `*??` matches a name of one character: the star takes its first byte, and each
    question mark one of the others. -/
theorem one_rune_matches_two_marks :
    ∃ p, SourcePattern.fromStr ['*', '?', '?'] = .ok p ∧
      p.matchesName (String.utf8EncodeChar '日') = true ∧
      (runes (String.utf8EncodeChar '日')).length = 1 ∧
        ¬RuneSplits p.tokens (runes (String.utf8EncodeChar '日')) := by
  have hparse : parse ['*', '?', '?'] = .ok [.star, .any, .any] := by
    have hnil : parse [] = .ok [] := by rw [parse]
    refine parse_cons_eq_ok.mpr ⟨.star, _, _, rfl, ?_, rfl⟩
    exact parse_cons_eq_ok.mpr ⟨.any, _, _, rfl, parse_cons_eq_ok.mpr ⟨.any, _, _, rfl, hnil, rfl⟩,
      rfl⟩
  have hrunes : runes (String.utf8EncodeChar '日') = [(String.utf8EncodeChar '日', '日')] := by
    have happend := runes_append (OneRune.char '日' [])
    rwa [List.append_nil, runes_nil] at happend
  refine ⟨⟨['*', '?', '?'], [.star, .any, .any]⟩, ?_, ?_, ?_, ?_⟩
  · show (parse ['*', '?', '?'] >>= fun tokens => .ok (SourcePattern.mk ['*', '?', '?'] tokens)) = _
    rw [hparse]
    rfl
  · rw [matches_path, path_splits]
    have hbytes : String.utf8EncodeChar '日' = [230] ++ ([151] ++ ([165] ++ [])) := by decide
    have hlost : ∀ (b : UInt8) (rest : Bytes), Continues b → Piece .any [b] rest := fun b rest hb =>
      .any (.invalid b rest (fun c tail => continues_starts_none hb c tail rest)) (by decide)
    rw [hbytes]
    exact .cons (.star _ (by decide)) (.cons (hlost _ _ ⟨by decide, by decide⟩)
      (.cons (hlost _ _ ⟨by decide, by decide⟩) .nil))
  · rw [hrunes]
    rfl
  · rw [hrunes]
    intro h
    exact absurd h.count (by decide)

end Conglobate.Copy
