import Conglobate.BootConfig.Grammar
import Conglobate.BootConfig.RoundTrip

/- The parser reads what a text says (`parse_renders`).

   For each relation of the grammar, the function that reads it succeeds or fails
   as the document's evaluation does, and stops where the relation says. The
   scopes are by induction on how the text is derived: a round of the parser takes
   a blank, a separator, a comment or a statement off the front, and what is left
   is derived by a smaller derivation. -/
namespace Conglobate.BootConfig

open Ascii

namespace Parser

variable {n : Nat} {w : Values} {q : Finset Bytes} {k : Nat}

/-- What the parser has counted. -/
def tally (s : Parser) : Tally := ⟨s.values, s.keys, s.allocatedValues⟩

/-- Blanks are skipped, whatever follows them. -/
theorem spaces_blanks {newlines : Bool} {a r : Bytes} (ha : Blanks newlines a)
    (hr : ∀ c ∈ r.head?, (space c && (newlines || c != newline)) = false) :
    spaces newlines ⟨a ++ r, n, w, q, k⟩ = ⟨r, n + a.length, w, q, k⟩ := (skipWhile_eq ha hr).1

/-- A blank before a scan over blanks belongs to it. -/
theorem spaces_cons {c : UInt8} (hc : space c = true) {r : Bytes} :
    spaces true ⟨c :: r, n, w, q, k⟩ = spaces true ⟨r, n + 1, w, q, k⟩ := by
  have hblank : (space c && (true || c != newline)) = true := by
    rw [hc, Bool.true_or, Bool.and_self]
  rw [spaces, spaces, skipWhile, skipWhile]
  simp only [List.dropWhile_cons, List.takeWhile_cons, hblank, if_true, List.length_cons,
    Nat.add_assoc, Nat.add_comm 1]

/-- No delimiter is a blank within a line. -/
theorem delimiter_not_blank {c : UInt8} (h : delimiter c = true) :
    (space c && (false || c != newline)) = false := by
  simp only [delimiter, Bool.or_eq_true, beq_iff_eq] at h
  rcases h with (((rfl | rfl) | rfl) | rfl) | rfl <;> decide

theorem valueEnds_not_blank {rest : Bytes} (h : ValueEnds rest) :
    ∀ c ∈ rest.head?, (space c && (false || c != newline)) = false :=
      fun c hc => delimiter_not_blank (h c hc)

theorem valueEnds_not_value {rest : Bytes} (h : ValueEnds rest) :
    ∀ c ∈ rest.head?, (!delimiter c) = false := by
  intro c hc
  rw [h c hc]
  rfl

/-! Values. -/

/-- **A quoted value.** -/
theorem quoted_reads {quote : UInt8} {v after rest : Bytes} (hvalue : ∀ c ∈ v, c ≠ quote)
    (hafter : Blanks false after) (hends : ValueEnds rest) :
    ∃ m, quoted quote ⟨v ++ (quote :: (after ++ rest)), n, w, q, k⟩ =
      (do checkValue v; .ok (v, ⟨rest, m, w, q, k⟩)) := by
  have hskip := skipWhile_eq (p := fun c => c != quote) (r := quote :: (after ++ rest))
    (n := n) (w := w) (q := q)
    (k := k) (fun c hc => by simpa using hvalue c hc) (by simp)
  have hspaces := spaces_blanks (n := n + v.length + 1) (w := w) (q := q) (k := k) hafter
    (valueEnds_not_blank hends)
  have hadvance : (⟨quote :: (after ++ rest), n + v.length, w, q, k⟩ : Parser).advance =
      ⟨after ++ rest, n + v.length + 1, w, q, k⟩ := rfl
  refine ⟨n + v.length + 1 + after.length, ?_⟩
  rw [quoted, hskip.1, hadvance, hspaces, hskip.2, if_neg (by simp [peek]), if_neg]
  intro hany
  rw [peek, Option.any_eq_true] at hany
  obtain ⟨c, hc, hnot⟩ := hany
  rw [hends c hc] at hnot
  cases hnot

/-- **An unquoted value.** -/
theorem unquoted_reads {raw rest : Bytes} (hraw : ∀ c ∈ raw, delimiter c = false)
    (hends : ValueEnds rest) :
    ∃ m, unquoted ⟨raw ++ rest, n, w, q, k⟩ =
      (do
        checkValue (if rest = [] then raw else raw.rdropWhile space)
        .ok (if rest = [] then raw else raw.rdropWhile space, ⟨rest, m, w, q, k⟩)) := by
  obtain ⟨hskip, htake⟩ :=
    skipWhile_eq (p := fun c => !delimiter c) (n := n) (w := w) (q := q) (k := k)
    (fun c hc => by rw [hraw c hc]; rfl) (valueEnds_not_value hends)
  refine ⟨n + raw.length, ?_⟩
  rw [unquoted, hskip, htake]
  cases rest with
  | nil => rfl
  | cons c rest => rfl

/-- **A value is read as it is written**, if it is printable. -/
theorem value_reads {text v rest : Bytes} (h : Item text v rest) :
    ∃ m, value ⟨text, n, w, q, k⟩ = (do checkValue v; .ok (v, ⟨rest, m, w, q, k⟩)) := by
  cases h with
  | @quoted quote before _ after rest hquote hbefore hvalue hafter hends =>
    have hspaces := spaces_blanks (n := n) (w := w) (q := q) (k := k) (r := quote ::
      (v ++ (quote :: (after ++ rest))))
      hbefore (by
        intro c hc
        cases hc
        rcases hquote with rfl | rfl <;> decide)
    obtain ⟨m, hm⟩ := quoted_reads (n := n + before.length + 1)
      (w := w) (q := q) (k := k) hvalue hafter hends
    refine ⟨m, ?_⟩
    rw [Parser.value, hspaces]
    show (if quote = singleQuote ∨ quote = doubleQuote then _ else _) = _
    rw [if_pos hquote]
    exact hm
  | @unquoted before raw rest hbefore hraw hhead hends =>
    have hfirst : ∀ c ∈ (raw ++ rest).head?, (space c && (false || c != newline)) = false ∧
        ¬ (c = singleQuote ∨ c = doubleQuote) := by
      intro c hc
      cases raw with
      | nil =>
        refine ⟨delimiter_not_blank (hends c hc), ?_⟩
        have hdelim := hends c hc
        rintro (rfl | rfl) <;> cases hdelim
      | cons d raw =>
        cases hc
        obtain ⟨hspace, hsingle, hdouble⟩ := hhead _ rfl
        exact ⟨by rw [hspace]; rfl, fun hquote => hquote.elim hsingle hdouble⟩
    have hspaces := spaces_blanks (n := n) (w := w) (q := q) (k := k) hbefore
      (fun c hc => (hfirst c hc).1)
    obtain ⟨m, hm⟩ := unquoted_reads (n := n + before.length) (w := w) (q := q) (k := k) hraw hends
    refine ⟨m, ?_⟩
    rw [Parser.value, hspaces]
    cases hpeek : (raw ++ rest).head? with
    | none =>
      rw [show (⟨raw ++ rest, n + before.length, w, q, k⟩ : Parser).peek = none from hpeek]
      exact hm
    | some c =>
      rw [show (⟨raw ++ rest, n + before.length, w, q, k⟩ : Parser).peek = some c from hpeek]
      dsimp only
      rw [if_neg (hfirst c hpeek).2]
      exact hm

/-- A comment is skipped to the end of its line. -/
theorem comment_reads {note rest : Bytes} (h : Comment note rest) :
    ∃ m, comment ⟨hash :: (note ++ rest), n, w, q, k⟩ = ⟨rest, m, w, q, k⟩ := by
  have hnote : ∀ c ∈ hash :: note, (c != newline) = true := by
    intro c hc
    rcases List.mem_cons.mp hc with rfl | hc
    · decide
    · simpa using h.line c hc
  have hskip := skipWhile_eq (p := fun c => c != newline) (n := n) (w := w) (q := q) (k := k) hnote
    (fun c hc => by simpa using h.ends c hc)
  exact ⟨_, hskip.1⟩

/-- **A gap is skipped** whole. -/
theorem skipComments_reads {text rest : Bytes} (h : Gap text rest) {f : Nat}
    (hfuel : text.length < f) :
    ∃ m, skipComments f ⟨text, n, w, q, k⟩ = ⟨rest, m, w, q, k⟩ := by
  induction h generalizing f n with
  | @done rest hrest =>
    obtain ⟨fuel, rfl⟩ : ∃ g, f = g + 1 := ⟨f - 1, by omega⟩
    have hspaces : spaces true ⟨rest, n, w, q, k⟩ = ⟨rest, n, w, q, k⟩ :=
      spaces_none (fun c hc => (hrest c hc).1)
    refine ⟨n, ?_⟩
    rw [skipComments, hspaces, if_neg]
    intro hpeek
    exact (hrest hash hpeek).2 rfl
  | @blank c text rest hc _ ih =>
    obtain ⟨fuel, rfl⟩ : ∃ g, f = g + 1 := ⟨f - 1, by omega⟩
    obtain ⟨m, hm⟩ := ih (f := fuel + 1) (n := n + 1) (by rw [List.length_cons] at hfuel; omega)
    refine ⟨m, ?_⟩
    rw [← hm, skipComments, skipComments, spaces_cons hc]
  | @comment note text rest hnote _ ih =>
    obtain ⟨fuel, rfl⟩ : ∃ g, f = g + 1 := ⟨f - 1, by omega⟩
    rw [List.length_cons, List.length_append] at hfuel
    obtain ⟨m', hcomment⟩ := comment_reads (n := n) (w := w) (q := q) (k := k) hnote
    obtain ⟨m, hm⟩ := ih (f := fuel) (n := m') (by omega)
    have hspaces : spaces true ⟨hash :: (note ++ text), n, w, q, k⟩ =
        ⟨hash :: (note ++ text), n, w, q, k⟩ :=
      spaces_none (by simp; decide)
    have hpeek : peek ⟨hash :: (note ++ text), n, w, q, k⟩ = some hash := rfl
    refine ⟨m, ?_⟩
    rw [skipComments, hspaces, if_pos hpeek, hcomment, hm]

/-- **The values behind a comma**, by induction on how they are written. -/
theorem arrayMore_reads {text rest : Bytes} {vs : List Bytes} (h : More text vs rest) {fuel : Nat}
    (hfuel : text.length < fuel) (acc : List Bytes) (hacc : acc.length ≤ maxNodes) :
    ∃ m, (arrayMore fuel acc ⟨text, n, w, q, k⟩).toOption =
      if (∀ v ∈ vs, checkValue v = .ok ()) ∧ (acc ++ vs).length ≤ maxNodes then
        some (acc ++ vs, ⟨rest, m, w, q, k⟩)
      else none := by
  induction h generalizing fuel acc n with
  | @done rest hrest =>
    obtain ⟨fuel, rfl⟩ : ∃ f, fuel = f + 1 := ⟨fuel - 1, by omega⟩
    have hpeek : peek ⟨rest, n, w, q, k⟩ ≠ some comma := hrest
    refine ⟨n, ?_⟩
    rw [arrayMore, if_neg hpeek, if_pos ⟨by simp, by rwa [List.append_nil]⟩, List.append_nil]
    rfl
  | @value text text' mid rest v vs hgap hitem hmore ih =>
    obtain ⟨fuel, rfl⟩ : ∃ f, fuel = f + 1 := ⟨fuel - 1, by omega⟩
    rw [List.length_cons] at hfuel
    obtain ⟨m₁, hskip⟩ := skipComments_reads (n := n + 1) (w := w) (q := q) (k := k) hgap
      (f := (comma :: text).length + 1) (by rw [List.length_cons]; omega)
    obtain ⟨m₂, hvalue⟩ := value_reads (n := m₁) (w := w) (q := q) (k := k) hitem
    have hpeek : peek ⟨comma :: text, n, w, q, k⟩ = some comma := rfl
    have hadvance : advance ⟨comma :: text, n, w, q, k⟩ = ⟨text, n + 1, w, q, k⟩ := rfl
    have hless : mid.length < fuel :=
      Nat.lt_of_le_of_lt ((item_suffix hitem).trans (gap_suffix hgap)).length_le (by omega)
    rw [arrayMore, if_pos hpeek, hadvance, hskip, hvalue]
    cases hcheck : checkValue v with
    | error e =>
      refine ⟨n, ?_⟩
      rw [if_neg]
      · rfl
      · intro h
        rw [h.1 v List.mem_cons_self] at hcheck
        cases hcheck
    | ok u =>
      dsimp only [except_ok_bind]
      by_cases hlen : (acc ++ [v]).length ≤ maxNodes
      · obtain ⟨m, hm⟩ := ih (n := m₂) hless (acc ++ [v]) hlen
        refine ⟨m, ?_⟩
        rw [if_neg (Nat.not_lt.mpr hlen), hm]
        simp only [List.append_assoc, List.singleton_append, List.forall_mem_cons, hcheck, true_and]
      · refine ⟨n, ?_⟩
        rw [if_pos (Nat.lt_of_not_le hlen), if_neg]
        · rfl
        · intro h
          rw [List.append_cons, List.length_append] at h
          exact hlen (by omega)

/-- **An array is read as it is written**, if its values are printable and few enough. -/
theorem array_reads {text rest : Bytes} {vs : List Bytes} (h : Items text vs rest) :
    ∃ m, (array ⟨text, n, w, q, k⟩).toOption =
      if (∀ v ∈ vs, checkValue v = .ok ()) ∧ vs.length ≤ maxNodes then
        some (vs, ⟨rest, m, w, q, k⟩)
      else
        none := by
  obtain ⟨hitem, hmore⟩ := h
  rename_i mid v vs
  obtain ⟨m₁, hvalue⟩ := value_reads (n := n) (w := w) (q := q) (k := k) hitem
  obtain ⟨m, hm⟩ := arrayMore_reads (n := m₁) (w := w) (q := q) (k := k) hmore
    (Nat.lt_succ_self mid.length) [v] (show 1 ≤ maxNodes by decide)
  refine ⟨m, ?_⟩
  rw [array, hvalue]
  cases hcheck : checkValue v with
  | error e =>
    rw [if_neg]
    · rfl
    · intro h
      rw [h.1 v List.mem_cons_self] at hcheck
      cases hcheck
  | ok u =>
    show (arrayMore (mid.length + 1) [v] ⟨mid, m₁, w, q, k⟩).toOption = _
    rw [hm]
    simp only [List.singleton_append, List.forall_mem_cons, hcheck, true_and]

/-! Keys and what follows them. -/

end Parser

/-- The state of a reader that has counted `t`, before `rest`. -/
def Tally.reader (t : Tally) (rest : Bytes) (n : Nat) :
    Parser := ⟨rest, n, t.values, t.keys, t.allocated⟩

def Operator.byte : Operator → UInt8
  | .set => equals
  | .replace => colon
  | .append => plus

namespace Parser

theorem reader_tally {s : Parser} {t : Tally} {rest : Bytes} (h : (s.tally, s.rest) = (t, rest)) :
    s = t.reader rest s.offset := by
  cases h
  rfl

/-- A key counted has been entered. -/
theorem mention_entered {t u : Tally} {key : Bytes} (h : t.mention key = some u) (rest : Bytes)
    (m : Nat) :
    (u.reader rest m).enter key = u.reader rest m := by
  have hcontains : u.values.contains key = true := by
    rw [Tally.mention] at h
    split at h
    · cases h
      dsimp only
      split
      · assumption
      · simp [OrdMap.contains_insert]
    · cases h
  rw [enter, Tally.reader]
  simp only [hcontains, if_true]

/-- Entering a key twice is entering it once, so what follows a key may be read with it entered. -/
theorem operator_enter (key : Bytes) (s : Parser) :
    operator key (s.enter key) = operator key s := by
  have htwice : (s.enter key).enter key = s.enter key := by
    by_cases hcontains : s.values.contains key = true
    · simp only [enter, hcontains, if_true]
    · simp [enter, hcontains, OrdMap.contains_insert]
  rw [operator, operator, htwice]
  rfl

/-- **A key is read as it is written**, if it is valid and within the budget. -/
theorem key_reads (scopeKey : Bytes) {word rest : Bytes} (hword : Word word)
    (hrest : ∀ c ∈ rest.head?, wordByte c = false) (t : Tally) (n : Nat) :
    (key scopeKey (t.reader (word ++ rest) n)).toOption.map (fun x => (x.1, x.2.enter x.1)) =
      (t.mention (dottedKey scopeKey word)).map
        (fun u => (dottedKey scopeKey word, u.reader rest (n + word.length))) := by
  obtain ⟨hskip, htake⟩ :=
    skipWhile_eq (n := n) (w := t.values) (q := t.keys) (k := t.allocated) hword.2 hrest
  have hread : (t.reader (word ++ rest) n).rest.takeWhile wordByte = word := htake
  have hafter : skipWhile wordByte (t.reader (word ++ rest) n) = t.reader rest (n + word.length) :=
    hskip
  -- the state behind the key, counted and not yet entered
  have hkey : key scopeKey (t.reader (word ++ rest) n) =
      (do
        checkKey (dottedKey scopeKey word)
        checkNodes ⟨rest, n + word.length, t.values, t.keys ∪ keyNodes (dottedKey scopeKey word),
          t.allocated⟩
        .ok (dottedKey scopeKey word,
          ⟨rest, n + word.length, t.values, t.keys ∪ keyNodes (dottedKey scopeKey word),
              t.allocated⟩)) := by
    rw [key, hread, hafter, if_neg hword.1]
    rfl
  rw [hkey, Tally.mention]
  by_cases hvalid : keyValid (dottedKey scopeKey word) = true
  · rw [checkKey, if_pos hvalid, except_ok_bind]
    by_cases hbudget : (t.keys ∪ keyNodes (dottedKey scopeKey word)).card + t.allocated ≤ maxNodes
    · rw [if_pos ⟨hvalid, hbudget⟩, checkNodes, if_neg (Nat.not_lt.mpr hbudget)]
      rfl
    · rw [if_neg (fun h => hbudget h.2), checkNodes, if_pos (Nat.lt_of_not_le hbudget)]
      rfl
  · rw [if_neg (fun h => hvalid h.1), checkKey, if_neg hvalid]
    rfl

/-- What may follow a key and its blanks. -/
def Follows (c : UInt8) : Prop :=
  c = openBrace ∨ c = equals ∨ c = colon ∨ c = plus ∨ c = Ascii.semicolon ∨ c = newline ∨ c = hash ∨
    c = closeBrace

theorem follows_plain {c : UInt8} (h : Follows c) :
    wordByte c = false ∧ (space c && (false || c != newline)) = false := by
  rcases h with rfl | rfl | rfl | rfl | rfl | rfl | rfl | rfl <;> decide

theorem space_not_word {c : UInt8} (h : space c = true) : wordByte c = false := by
  cases hword : wordByte c with
  | false => rfl
  | true =>
    rw [(wordByte_plain hword).1] at h
    cases h

/-- **A round over a statement** reads its key, then what follows it. -/
theorem round_word (scopeKey : Bytes) {word blanks text : Bytes} {c : UInt8} (hword : Word word)
    (hblanks : Blanks false blanks) (hpeek : text.head? = some c) (hc : Follows c) (t : Tally)
    (n : Nat) :
    (round scopeKey (t.reader (word ++ (blanks ++ text)) n)).toOption =
      (t.mention (dottedKey scopeKey word)).bind (fun u =>
        (operator (dottedKey scopeKey word) (u.reader text
          (n + word.length + blanks.length))).toOption) := by
  have hhead : ∀ d ∈ (blanks ++ text).head?, wordByte d = false := by
    intro d hd
    cases blanks with
    | nil =>
      rw [List.nil_append, hpeek] at hd
      cases hd
      exact (follows_plain hc).1
    | cons b blanks =>
      cases hd
      have hb := hblanks d List.mem_cons_self
      rw [Bool.and_eq_true] at hb
      exact space_not_word hb.1
  have hkey := key_reads scopeKey hword hhead t n
  obtain ⟨d, word', rfl⟩ := List.exists_cons_of_ne_nil hword.1
  obtain ⟨-, hsemicolon, hhash, hclose⟩ := wordByte_plain (hword.2 d List.mem_cons_self)
  have hfirst : (t.reader (d :: word' ++ (blanks ++ text)) n).peek = some d := rfl
  rw [round, hfirst]
  dsimp only
  rw [if_neg hsemicolon, if_neg hhash, if_neg (fun h => hclose h.1)]
  cases hread : key scopeKey (t.reader (d :: word' ++ (blanks ++ text)) n) with
  | error e =>
    rw [hread] at hkey
    rw [Option.map_eq_none_iff.mp hkey.symm]
    rfl
  | ok x =>
    rw [hread] at hkey
    obtain ⟨u, hu, hx⟩ := Option.map_eq_some_iff.mp hkey.symm
    obtain ⟨hname, hentered⟩ := Prod.mk.inj hx
    rw [hu, Option.bind_some, except_ok_bind, ← hname, ← operator_enter]
    have hspaces := spaces_blanks (n := n + (d :: word').length)
      (w := u.values) (q := u.keys) (k := u.allocated)
      hblanks (r := text) (by
        intro e he
        rw [hpeek] at he
        cases he
        exact (follows_plain hc).2)
    have hskipped : (x.2.spaces false).enter (dottedKey scopeKey (d :: word')) =
        u.reader text (n + (d :: word').length + blanks.length) := by
      rw [show (x.2.spaces false).enter (dottedKey scopeKey (d :: word')) =
        (x.2.enter (dottedKey scopeKey (d :: word'))).spaces false from rfl, hname, ← hentered]
      exact hspaces
    rw [hskipped]

theorem checkNodes_reads (s : Parser) :
    ((do s.checkNodes; .ok s : Except Error Parser)).toOption =
      if s.keys.card + s.allocatedValues ≤ maxNodes then some s else none := by
  rw [checkNodes]
  by_cases h : s.keys.card + s.allocatedValues ≤ maxNodes
  · rw [if_neg (Nat.not_lt.mpr h), if_pos h]
    rfl
  · rw [if_pos (Nat.lt_of_not_le h), if_neg h]
    rfl

/-- An assignment is stored as its operator says, within the budget. -/
theorem store_reads (op : Operator) (key : Bytes) (vs : List Bytes) (u : Tally) (rest : Bytes)
    (m : Nat) :
    (store op.byte key vs (u.reader rest m)).toOption =
      if u.keys.card + (u.allocated + Tally.fresh op ((u.values.get? key).getD []) vs) ≤
        maxNodes then
        (Flat.apply u.values (.assign key op vs)).map (fun values =>
          Tally.reader { u with
            values, allocated :=
              u.allocated + Tally.fresh op ((u.values.get? key).getD []) vs } rest m)
      else none := by
  have hread : (u.reader rest m).values.get? key = u.values.get? key := rfl
  rw [store, hread]
  cases op with
  | append =>
    rw [if_neg (fun h => absurd h.1 (by decide)), if_pos
      (show Operator.append.byte = plus from rfl)]
    exact checkNodes_reads _
  | replace =>
    rw [if_neg (fun h => absurd h.1 (by decide)),
      if_neg (show ¬ Operator.replace.byte = plus by decide)]
    exact checkNodes_reads _
  | set =>
    cases hcurrent : (u.values.get? key).getD [] with
    | nil =>
      rw [if_neg (fun h => h.2 rfl), if_neg (show ¬ Operator.set.byte = plus by decide)]
      simp only [Flat.apply, hcurrent]
      exact checkNodes_reads _
    | cons v current =>
      rw [if_pos ⟨rfl, List.cons_ne_nil v current⟩]
      simp only [Flat.apply, hcurrent]
      exact (ite_self none).symm

/-- **An assignment is read as it is written**, from behind its first byte. -/
theorem assign_reads {text mid : Bytes} {vs : List Bytes} (h : Items text vs mid) (key : Bytes)
    (op : Operator) (u : Tally) (m : Nat) :
    ∃ m', (assign op.byte key (u.reader (op.text ++ text) m).advance).toOption =
      (u.assign key op vs).map (fun u' => u'.reader mid m') := by
  obtain ⟨m', harray⟩ := array_reads (n := m + op.text.length)
    (w := u.values) (q := u.keys) (k := u.allocated) h
  have harm : assign op.byte key (u.reader (op.text ++ text) m).advance =
      (do
        let x ← array ⟨text, m + op.text.length, u.values, u.keys, u.allocated⟩
        store op.byte key x.1 x.2) := by
    cases op <;> rfl
  refine ⟨m', ?_⟩
  rw [harm, except_toOption_bind, harray, Tally.assign]
  by_cases hvalues : (∀ v ∈ vs, checkValue v = .ok ()) ∧ vs.length ≤ maxNodes
  · rw [if_pos hvalues]
    refine (store_reads op key vs u mid m').trans ?_
    by_cases hbudget : u.keys.card + (u.allocated + Tally.fresh op
      ((u.values.get? key).getD []) vs) ≤ maxNodes
    · rw [if_pos hbudget, if_pos ⟨hvalues.1, hvalues.2, hbudget⟩, Option.map_map]
      rfl
    · rw [if_neg hbudget, if_neg (fun h => hbudget h.2.2)]
      rfl
  · rw [if_neg hvalues, if_neg (fun h => hvalues ⟨h.1, h.2.1⟩)]
    rfl

/-- What an assignment leaves is the next round. -/
theorem operator_assign {text mid : Bytes} {vs : List Bytes} (h : Items text vs mid) {key : Bytes}
    (op : Operator) {u : Tally} {m : Nat}
    (hentered : (u.reader (op.text ++ text) m).enter key = u.reader (op.text ++ text) m) :
    ∃ m', (operator key (u.reader (op.text ++ text) m)).toOption =
      (u.assign key op vs).map (fun u' => .again (u'.reader mid m')) := by
  obtain ⟨m', hassign⟩ := assign_reads h key op u m
  have harm : operator key (u.reader (op.text ++ text) m) =
      (do
        let assigned ← assign op.byte key (u.reader (op.text ++ text) m).advance
        .ok (.again assigned)) := by
    rw [operator, hentered]
    cases op <;> rfl
  refine ⟨m', ?_⟩
  rw [harm, except_toOption_bind, hassign]
  cases u.assign key op vs <;> rfl

/-- A group is read next. -/
theorem operator_group {key text : Bytes} {u : Tally} {m : Nat}
    (hentered : (u.reader (openBrace :: text) m).enter key = u.reader (openBrace :: text) m) :
    operator key (u.reader (openBrace :: text) m) = .ok (.group key (u.reader text (m + 1))) := by
  rw [operator, hentered]
  rfl

/-! Scopes. -/

/-- What a reader is left with: what it has counted, and the text behind. -/
def left (x : Except Error Parser) : Option (Tally × Bytes) :=
  x.toOption.map (fun s => (s.tally, s.rest))

/-- A round that leaves the next round to do. -/
theorem scope_again {fuel : Nat} {scopeKey : Bytes} {s s' : Parser}
    (h : round scopeKey (s.spaces true) = .ok (.again s')) :
    scope (fuel + 1) scopeKey s = scope fuel scopeKey s' := by
  rw [scope, h]
  rfl

/-- A blank starts no round. -/
theorem scope_blank {fuel : Nat} {scopeKey r : Bytes} {c : UInt8} (hc : space c = true) (t : Tally)
    (n : Nat) :
    scope (fuel + 1) scopeKey (t.reader (c :: r) n) =
      scope (fuel + 1) scopeKey (t.reader r (n + 1)) := by
  rw [scope, scope]
  exact congrArg (fun s => round scopeKey s >>= _) (spaces_cons hc)

/-- A separator is a round of its own. -/
theorem scope_separator {fuel : Nat} {scopeKey r : Bytes} (t : Tally) (n : Nat) :
    scope (fuel + 1) scopeKey (t.reader (Ascii.semicolon :: r) n) =
      scope fuel scopeKey (t.reader r (n + 1)) := by
  apply scope_again
  have hspaces : (t.reader (Ascii.semicolon :: r) n).spaces true =
      t.reader (Ascii.semicolon :: r) n :=
    spaces_none (by simp; decide)
  rw [hspaces]
  rfl

/-- So is a comment. -/
theorem scope_comment {fuel : Nat} {scopeKey r : Bytes} (t : Tally) (n : Nat) :
    scope (fuel + 1) scopeKey (t.reader (hash :: r) n) =
      scope fuel scopeKey (t.reader (hash :: r) n).comment := by
  apply scope_again
  have hspaces : (t.reader (hash :: r) n).spaces true = t.reader (hash :: r) n :=
    spaces_none (by simp; decide)
  rw [hspaces]
  rfl

/-- **A bare key leaves the text behind it**, its separator read or not. -/
theorem scope_bare (fuel : Nat) {key text : Bytes} {u : Tally} {m : Nat} (scopeKey : Bytes)
    (hends : BareEnds text) (hentered : (u.reader text m).enter key = u.reader text m) :
    ∃ s fuel', operator key (u.reader text m) = .ok (.again s) ∧ fuel ≤ fuel' ∧
      scope (fuel + 1) scopeKey s = scope (fuel' + 1) scopeKey (u.reader text m) := by
  obtain ⟨c, hpeek, hc⟩ := hends
  cases text with
  | nil => cases hpeek
  | cons d r =>
    cases hpeek
    rcases hc with rfl | rfl | rfl | rfl
    · exact ⟨u.reader r (m + 1), fuel + 1, by rw [operator, hentered]; rfl, Nat.le_succ fuel,
        (scope_separator u m).symm⟩
    · exact ⟨u.reader r (m + 1), fuel, by rw [operator, hentered]; rfl, Nat.le_refl fuel,
        (scope_blank (by decide) u m).symm⟩
    · exact ⟨(u.reader (hash :: r) m).comment, fuel + 1, by rw [operator, hentered]; rfl, Nat.le_succ fuel,
        (scope_comment u m).symm⟩
    · exact ⟨u.reader (closeBrace :: r) m, fuel, by rw [operator, hentered]; rfl, Nat.le_refl fuel, rfl⟩

/-- The first byte of what may follow a key. -/
theorem bareEnds_follows {text : Bytes} (h : BareEnds text) :
    ∃ c, text.head? = some c ∧ Follows c := by
  obtain ⟨c, hpeek, hc⟩ := h
  refine ⟨c, hpeek, ?_⟩
  rcases hc with rfl | rfl | rfl | rfl <;> simp [Follows]

theorem operator_follows (op : Operator) (text : Bytes) :
    ∃ c, (op.text ++ text).head? = some c ∧ Follows c :=
  ⟨op.byte, by cases op <;> rfl, by cases op <;> simp [Follows, Operator.byte]⟩

/-- No blank starts a key. -/
theorem word_spaces {word r : Bytes} (hword : Word word) {t : Tally} {n : Nat} :
    (t.reader (word ++ r) n).spaces true = t.reader (word ++ r) n := by
  obtain ⟨c, word, rfl⟩ := List.exists_cons_of_ne_nil hword.1
  apply spaces_none
  intro d hd
  cases hd
  exact (wordByte_plain (hword.2 c List.mem_cons_self)).1

/-- **A scope is read as it is written**, by induction on how it is: each round of the
    parser takes the front of the text, and the statements behind it are written in what
    is left. -/
theorem scope_reads {top : Bool} {text rest : Bytes} {d : Document} (h : Body top text d rest)
    (scopeKey : Bytes) (htop : top = true ↔ scopeKey = []) (t : Tally) (n fuel : Nat)
    (hfuel : text.length < fuel) :
    left (scope fuel scopeKey (t.reader text n)) =
      (d.eval scopeKey t).map (fun u => (u, rest)) := by
  induction h generalizing scopeKey t n fuel with
  | finish =>
    obtain ⟨fuel, rfl⟩ : ∃ f, fuel = f + 1 := ⟨fuel - 1, by omega⟩
    cases htop.mp rfl
    rfl
  | @close rest =>
    obtain ⟨fuel, rfl⟩ : ∃ f, fuel = f + 1 := ⟨fuel - 1, by omega⟩
    have hinner : scopeKey ≠ [] := fun h => Bool.false_ne_true (htop.mpr h)
    have hspaces : (t.reader (closeBrace :: rest) n).spaces true =
        t.reader (closeBrace :: rest) n :=
      spaces_none (by simp; decide)
    have hround : round scopeKey (t.reader (closeBrace :: rest) n) =
        .ok (.closed (t.reader rest (n + 1))) :=
      if_pos ⟨rfl, hinner⟩
    rw [scope, hspaces, hround]
    rfl
  | blank hc _ ih =>
    obtain ⟨fuel, rfl⟩ : ∃ f, fuel = f + 1 := ⟨fuel - 1, by omega⟩
    rw [List.length_cons] at hfuel
    rw [scope_blank hc]
    exact ih scopeKey htop t (n + 1) _ (by omega)
  | semicolon _ ih =>
    obtain ⟨fuel, rfl⟩ : ∃ f, fuel = f + 1 := ⟨fuel - 1, by omega⟩
    rw [List.length_cons] at hfuel
    rw [scope_separator]
    exact ih scopeKey htop t (n + 1) _ (by omega)
  | comment hnote _ ih =>
    obtain ⟨fuel, rfl⟩ : ∃ f, fuel = f + 1 := ⟨fuel - 1, by omega⟩
    rw [List.length_cons, List.length_append] at hfuel
    obtain ⟨m, hcomment⟩ :=
      comment_reads (n := n) (w := t.values) (q := t.keys) (k := t.allocated) hnote
    rw [scope_comment, show (t.reader _ n).comment = t.reader _ m from hcomment]
    exact ih scopeKey htop t m _ (by omega)
  | @bare top word blanks text rest d hword hblanks hends _ ih =>
    obtain ⟨fuel, rfl⟩ : ∃ f, fuel = f + 1 := ⟨fuel - 1, by omega⟩
    rw [List.length_append, List.length_append] at hfuel
    have hpos := List.length_pos_iff.mpr hword.1
    obtain ⟨fuel, rfl⟩ : ∃ f, fuel = f + 1 := ⟨fuel - 1, by omega⟩
    obtain ⟨c, hpeek, hc⟩ := bareEnds_follows hends
    have hround := round_word scopeKey hword hblanks hpeek hc t n
    rw [Document.eval, left, scope, word_spaces hword, except_toOption_bind, hround]
    cases hmention : t.mention (dottedKey scopeKey word) with
    | none => rfl
    | some u =>
      obtain ⟨s, fuel', hagain, hle, hscope⟩ := scope_bare fuel scopeKey hends
        (mention_entered hmention text (n + word.length + blanks.length))
      rw [Option.bind_some, hagain, Option.bind_some, ← ih scopeKey htop u
        (n + word.length + blanks.length)
        (fuel' + 1) (by omega), ← hscope]
      rfl
  | @assign top word blanks text mid rest op values d hword hblanks hitems _ ih =>
    obtain ⟨fuel, rfl⟩ : ∃ f, fuel = f + 1 := ⟨fuel - 1, by omega⟩
    rw [List.length_append, List.length_append, List.length_append] at hfuel
    have hpos := List.length_pos_iff.mpr hword.1
    have hle := (items_suffix hitems).length_le
    obtain ⟨c, hpeek, hc⟩ := operator_follows op text
    have hround := round_word scopeKey hword hblanks hpeek hc t n
    rw [Document.eval, left, scope, word_spaces hword, except_toOption_bind, hround]
    cases hmention : t.mention (dottedKey scopeKey word) with
    | none => rfl
    | some u =>
      obtain ⟨m, hassign⟩ := operator_assign hitems op
        (mention_entered hmention (op.text ++ text) (n + word.length + blanks.length))
      rw [Option.bind_some, Option.bind_some, hassign]
      cases u.assign (dottedKey scopeKey word) op values with
      | none => rfl
      | some u' => exact ih scopeKey htop u' m _ (by omega)
  | @group top word blanks text mid rest body d hword hblanks hbody _ ihbody ihnext =>
    obtain ⟨fuel, rfl⟩ : ∃ f, fuel = f + 1 := ⟨fuel - 1, by omega⟩
    rw [List.length_append, List.length_append, List.length_cons] at hfuel
    have hle := (body_suffix hbody).length_le
    have hround := round_word scopeKey hword hblanks
      (rfl : (openBrace :: text).head? = some openBrace) (.inl rfl) t n
    rw [Document.eval, left, scope, word_spaces hword, except_toOption_bind, hround]
    cases hmention : t.mention (dottedKey scopeKey word) with
    | none => rfl
    | some u =>
      have hinner := ihbody (dottedKey scopeKey word)
        (iff_of_false Bool.false_ne_true (dottedKey_ne_nil hword.1)) u
          (n + word.length + blanks.length + 1)
        fuel (by omega)
      rw [Option.bind_some, Option.bind_some,
        operator_group (mention_entered hmention (openBrace :: text)
          (n + word.length + blanks.length))]
      show ((scope fuel (dottedKey scopeKey word) _ >>= _ : Except Error Parser)).toOption.map _ = _
      rw [except_toOption_bind]
      rw [left] at hinner
      cases hscope : scope fuel (dottedKey scopeKey word)
          (u.reader text (n + word.length + blanks.length + 1)) with
      | error e =>
        rw [hscope] at hinner
        rw [Option.map_eq_none_iff.mp hinner.symm]
        rfl
      | ok s =>
        rw [hscope] at hinner
        obtain ⟨u', hu', hs⟩ := Option.map_eq_some_iff.mp hinner.symm
        rw [hu', reader_tally hs.symm]
        exact ihnext scopeKey htop u' s.offset _ (by omega)

/-- **A text is parsed as it is written**: to what its document evaluates to, unless it
    has no keys. -/
theorem parse_reads {d : Document} {text : Bytes} (h : Renders d text) (m : Values) :
    parse text = .ok m ↔
      ∃ t, d.eval [] Tally.empty = some t ∧ t.values = m ∧ (text ≠ [] → m.entries ≠ []) := by
  have hnul : ¬ text.contains 0 = true := fun hmem => h.1 (List.contains_iff_mem.mp hmem)
  have hscope := scope_reads h.2 [] (iff_of_true rfl rfl) Tally.empty 0 _
    (Nat.lt_succ_self text.length)
  rw [parse, if_neg hnul, except_bind_eq_ok]
  have hstart : start text = Tally.empty.reader text 0 := rfl
  rw [hstart]
  constructor
  · rintro ⟨s, hs, hkeys⟩
    rw [hs] at hscope
    obtain ⟨t, ht, hleft⟩ := Option.map_eq_some_iff.mp hscope.symm
    obtain ⟨htally, -⟩ := Prod.mk.inj hleft
    subst htally
    split at hkeys
    · cases hkeys
    · rename_i hsome
      cases hkeys
      exact ⟨_, ht, rfl, fun hne hempty => hsome ⟨hne, hempty⟩⟩
  · rintro ⟨t, ht, rfl, hkeys⟩
    rw [ht] at hscope
    obtain ⟨s, hs, hleft⟩ := Option.map_eq_some_iff.mp hscope
    refine ⟨s, ?_, ?_⟩
    · cases hrun : scope (text.length + 1) [] (Tally.empty.reader text 0) with
      | error e =>
        rw [hrun] at hs
        cases hs
      | ok s' =>
        rw [hrun] at hs
        cases hs
        rfl
    · obtain ⟨htally, -⟩ := Prod.mk.inj hleft
      subst htally
      rw [if_neg (fun h => hkeys h.1 h.2)]
      rfl

end Parser

/-- Only the empty document is written as nothing. -/
theorem body_nil {top : Bool} {text rest : Bytes} {d : Document} (h : Body top text d rest)
    (htext : text = []) :
    d = .done := by
  cases h with
  | finish => rfl
  | close => rfl
  | blank => cases htext
  | semicolon => cases htext
  | comment => cases htext
  | bare hword => exact absurd (List.append_eq_nil_iff.mp htext).1 hword.1
  | assign hword => exact absurd (List.append_eq_nil_iff.mp htext).1 hword.1
  | group hword => exact absurd (List.append_eq_nil_iff.mp htext).1 hword.1

theorem rewrites_ne_done {d d' : Document} (h : d.Rewrites d') : d ≠ .done ∧ d' ≠ .done := by
  cases h <;> exact ⟨nofun, nofun⟩

/-- **Writing out a group of a text changes nothing**: neither whether it is accepted, nor the values. -/
theorem parse_rewrites {d d' : Document} {text text' : Bytes} (hrewrites : d.Rewrites d')
    (h : Renders d text) (h' : Renders d' text') (m : Values) :
    Parser.parse text = .ok m ↔ Parser.parse text' = .ok m := by
  obtain ⟨hd, hd'⟩ := rewrites_ne_done hrewrites
  have hne : text ≠ [] := fun hnil => hd (body_nil h.2 hnil)
  have hne' : text' ≠ [] := fun hnil => hd' (body_nil h'.2 hnil)
  rw [Parser.parse_reads h, Parser.parse_reads h', hrewrites.eval]
  simp only [hne, hne', ne_eq, not_false_eq_true, true_implies]

/-- **What is parsed is the fold of the document.** -/
theorem parse_fold {d : Document} {text : Bytes} {m : Values} (h : Renders d text)
    (hparse : Parser.parse text = .ok m) :
    d.fold = some m := by
  obtain ⟨t, ht, rfl, -⟩ := (Parser.parse_reads h m).mp hparse
  exact eval_values ht

end Conglobate.BootConfig
