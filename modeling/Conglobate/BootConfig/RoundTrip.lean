import Conglobate.BootConfig.Parser
import Conglobate.Lib.Split

/- The parser reads back what the writer writes.

   A written value, in any of the three quoting forms, reads as itself
   (`value_encode`), so a written list does (`array_encode`), so a line enters its
   key with its values (`scope_entry`). The walk over the lines is by induction on
   the entries still to be read: `Read done s` says the state holds exactly the
   entries before them, and the nodes counted are theirs, which the writer's own
   budget bounds. -/
namespace Conglobate.BootConfig

open Ascii

namespace Parser

variable {w : Values} {q : Finset Bytes} {n k : Nat}

/-! Scanning. -/

/-- A scan takes the bytes that pass and stops at the first that does not. -/
theorem skipWhile_eq {p : UInt8 → Bool} {a r : Bytes} (ha : ∀ c ∈ a, p c = true)
    (hr : ∀ c ∈ r.head?, p c = false) :
    skipWhile p ⟨a ++ r, n, w, q, k⟩ = ⟨r, n + a.length, w, q, k⟩ ∧
      (a ++ r).takeWhile p = a := by
  have hdrop : r.dropWhile p = r := by
    cases r with
    | nil => rfl
    | cons c rest => exact List.dropWhile_cons_of_neg (by simpa using hr c rfl)
  have htake : r.takeWhile p = [] := by
    cases r with
    | nil => rfl
    | cons c rest => exact List.takeWhile_cons_of_neg (by simpa using hr c rfl)
  have hall : (a ++ r).takeWhile p = a := by
    rw [List.takeWhile_append_of_pos ha, htake, List.append_nil]
  refine ⟨?_, hall⟩
  rw [skipWhile]
  simp only [hall, List.dropWhile_append_of_pos ha, hdrop]

/-- Blanks are skipped, and nothing else. -/
theorem spaces_eq {newlines : Bool} {a r : Bytes} (ha : ∀ c ∈ a, c = blank)
    (hr : ∀ c ∈ r.head?, (space c && (newlines || c != newline)) = false) :
    spaces newlines ⟨a ++ r, n, w, q, k⟩ = ⟨r, n + a.length, w, q, k⟩ := by
  refine (skipWhile_eq ?_ hr).1
  intro c hc
  rw [ha c hc]
  cases newlines <;> decide

/-- A byte that is no blank ends a scan over blanks. -/
theorem spaces_none {newlines : Bool} {r : Bytes} (hr : ∀ c ∈ r.head?, space c = false) :
    spaces newlines ⟨r, n, w, q, k⟩ = ⟨r, n, w, q, k⟩ := by
  have h : spaces newlines ⟨[] ++ r, n, w, q, k⟩ = ⟨r, n + 0, w, q, k⟩ :=
    spaces_eq (by simp) (fun c hc => by rw [hr c hc, Bool.false_and])
  simpa using h

theorem delimiter_not_space {d : UInt8} (hd : d = comma ∨ d = semicolon) :
    space d = false ∧ delimiter d = true := by
  rcases hd with rfl | rfl <;> decide

/-! Values. -/

/-- A quoted value is read up to its quote. -/
theorem quoted_eq {quote d : UInt8} {v r : Bytes} (hv : ∀ c ∈ v, c ≠ quote)
    (hcheck : checkValue v = .ok ()) (hd : d = comma ∨ d = semicolon) :
    ∃ m, quoted quote ⟨v ++ quote :: d :: r, n, w, q, k⟩ = .ok (v, ⟨d :: r, m, w, q, k⟩) := by
  obtain ⟨hspace, hdelim⟩ := delimiter_not_space hd
  obtain ⟨hskip, htake⟩ := skipWhile_eq (p := fun c => c != quote) (a := v) (r := quote :: d :: r)
    (n := n) (w := w) (q := q) (k := k) (by simpa using hv) (by simp)
  have hafter : (advance ⟨quote :: d :: r, n + v.length, w, q, k⟩).spaces false =
      ⟨d :: r, n + v.length + 1, w, q, k⟩ :=
    spaces_none (by simpa using hspace)
  refine ⟨n + v.length + 1, ?_⟩
  rw [quoted, hskip, hafter, htake, if_neg (by simp [peek]),
    if_neg (by simp [peek, hdelim]), hcheck, except_ok_bind]

/-- An unquoted value is read up to the delimiter, its own bytes no delimiters and
    its last no blank. -/
theorem unquoted_eq {d : UInt8} {v r : Bytes} (hv : ∀ c ∈ v, delimiter c = false)
    (hlast : ∀ h : v ≠ [], ¬ space (v.getLast h) = true) (hcheck : checkValue v = .ok ())
    (hd : d = comma ∨ d = semicolon) :
    ∃ m, unquoted ⟨v ++ d :: r, n, w, q, k⟩ = .ok (v, ⟨d :: r, m, w, q, k⟩) := by
  obtain ⟨-, hdelim⟩ := delimiter_not_space hd
  obtain ⟨hskip, htake⟩ := skipWhile_eq (p := fun c => !delimiter c) (a := v) (r := d :: r)
    (n := n) (w := w) (q := q) (k := k) (by simpa using hv) (by simpa using hdelim)
  have htrim : v.rdropWhile space = v := List.rdropWhile_eq_self_iff.mpr hlast
  refine ⟨n + v.length, ?_⟩
  rw [unquoted, hskip, htake, htrim, if_neg (by simp [peek]), hcheck, except_ok_bind]

/-- **A written value reads as itself**, whichever quoting it was written in. -/
theorem value_encode {v item l r : Bytes} {d : UInt8} (he : encode v = .ok item)
    (hlead : ∀ c ∈ l, c = blank) (hd : d = comma ∨ d = semicolon) :
    ∃ m, value ⟨l ++ (item ++ d :: r), n, w, q, k⟩ = .ok (v, ⟨d :: r, m, w, q, k⟩) := by
  rw [encode, except_bind_eq_ok] at he
  obtain ⟨⟨⟩, hcheck, he⟩ := he
  have hquote : ∀ quote : UInt8, quote = singleQuote ∨ quote = doubleQuote →
      v.contains quote = false → item = quote :: v ++ [quote] →
      ∃ m, value ⟨l ++ (item ++ d :: r), n, w, q, k⟩ = .ok (v, ⟨d :: r, m, w, q, k⟩) := by
    intro quote hq hnot hitem
    have hspace : space quote = false := by rcases hq with rfl | rfl <;> decide
    have hshape : item ++ d :: r = quote :: (v ++ quote :: d :: r) := by simp [hitem]
    have hopen : spaces false ⟨l ++ (item ++ d :: r), n, w, q, k⟩ =
        ⟨item ++ d :: r, n + l.length, w, q, k⟩ :=
      spaces_eq hlead (by rw [hshape]; simp [hspace])
    have hne : ∀ c ∈ v, c ≠ quote := by
      intro c hc heq
      rw [heq] at hc
      simp [hc] at hnot
    rw [value, hopen, hshape]
    simp only [peek, List.head?_cons, hq, if_true, advance, List.tail_cons]
    exact quoted_eq hne hcheck hd
  split at he
  · rename_i hno
    exact hquote doubleQuote (.inr rfl) (by simpa using hno) (Except.ok.inj he).symm
  · rename_i hdouble
    split at he
    · rename_i hno
      exact hquote singleQuote (.inl rfl) (by simpa using hno) (Except.ok.inj he).symm
    · -- both quote characters occur: the value is written as it is
      split at he
      · rename_i hplain
        cases he
        simp only [Bool.and_eq_true, Bool.not_eq_true', List.any_eq_false,
          Bool.not_eq_true] at hplain
        obtain ⟨⟨hdelim, hhead⟩, hlast⟩ := hplain
        cases hv : v with
        | nil => simp [hv] at hdouble
        | cons c rest =>
          have hc : space c = false ∧ c ≠ singleQuote ∧ c ≠ doubleQuote := by
            simp only [hv, List.head?_cons, Option.any_some, Bool.or_eq_false_iff,
              beq_eq_false_iff_ne] at hhead
            exact ⟨hhead.1.1, hhead.1.2, hhead.2⟩
          have hopen : spaces false ⟨l ++ (v ++ d :: r), n, w, q, k⟩ =
              ⟨v ++ d :: r, n + l.length, w, q, k⟩ :=
            spaces_eq hlead (by rw [hv]; simp [hc.1])
          have hlast' : ∀ h : v ≠ [], ¬ space (v.getLast h) = true := by
            intro h
            rw [List.getLast?_eq_some_getLast h, Option.any_some] at hlast
            simp [hlast]
          obtain ⟨m, hread⟩ := unquoted_eq (n := n + l.length) (w := w) (q := q) (k := k) (r := r)
            hdelim hlast' hcheck hd
          refine ⟨m, ?_⟩
          rw [← hv, value, hopen]
          have hpeek : peek ⟨v ++ d :: r, n + l.length, w, q, k⟩ = some c := by rw [hv]; rfl
          rw [hpeek]
          simp only [hc.2.1, hc.2.2, or_self, if_false]
          exact hread
      · cases he

/-! Lists of values. -/

/-- A written value starts with a byte no scan between values skips. -/
theorem encode_head {v item : Bytes} (he : encode v = .ok item) :
    ∃ c t, item = c :: t ∧ space c = false ∧ c ≠ hash := by
  rw [encode, except_bind_eq_ok] at he
  obtain ⟨⟨⟩, -, he⟩ := he
  split at he
  · cases he
    exact ⟨doubleQuote, _, rfl, by decide, by decide⟩
  · rename_i hdouble
    split at he
    · cases he
      exact ⟨singleQuote, _, rfl, by decide, by decide⟩
    · split at he
      · rename_i hplain
        cases he
        simp only [Bool.and_eq_true, Bool.not_eq_true', List.any_eq_false,
          Bool.not_eq_true] at hplain
        obtain ⟨⟨hdelim, hhead⟩, -⟩ := hplain
        cases v with
        | nil => simp at hdouble
        | cons c rest =>
          simp only [List.head?_cons, Option.any_some, Bool.or_eq_false_iff] at hhead
          refine ⟨c, rest, rfl, hhead.1.1, ?_⟩
          rintro rfl
          exact absurd (hdelim _ List.mem_cons_self) (by decide)
      · cases he

theorem encodeMore_length {values : List Bytes} {more : Bytes} (h : encodeMore values = .ok more) :
    values.length ≤ more.length := by
  induction values generalizing more with
  | nil => exact Nat.zero_le _
  | cons v values ih =>
    obtain ⟨item, -, h⟩ := except_bind_eq_ok.mp h
    obtain ⟨rest, hrest, h⟩ := except_bind_eq_ok.mp h
    cases h
    have := ih hrest
    simp only [List.cons_append, List.length_cons, List.length_append]
    omega

/-- After a value comes a comma, or the semicolon that ends the line. -/
theorem encodeMore_next {values : List Bytes} {more : Bytes} (h : encodeMore values = .ok more)
    (r : Bytes) :
    ∃ d t, more ++ semicolon :: r = d :: t ∧ (d = comma ∨ d = semicolon) := by
  cases values with
  | nil =>
    cases h
    exact ⟨semicolon, r, rfl, .inr rfl⟩
  | cons v values =>
    obtain ⟨item, -, h⟩ := except_bind_eq_ok.mp h
    obtain ⟨rest, -, h⟩ := except_bind_eq_ok.mp h
    cases h
    exact ⟨comma, _, rfl, .inl rfl⟩

/-- Between two values only the blank is skipped. -/
theorem skipComments_blank {fuel : Nat} {c : UInt8} {t : Bytes} (hc : space c = false)
    (hh : c ≠ hash) :
    skipComments (fuel + 1) ⟨blank :: c :: t, n, w, q, k⟩ = ⟨c :: t, n + 1, w, q, k⟩ := by
  have hskip : spaces true ⟨blank :: c :: t, n, w, q, k⟩ = ⟨c :: t, n + 1, w, q, k⟩ :=
    spaces_eq (a := [blank]) (by simp) (by simp [hc])
  rw [skipComments, hskip, if_neg (by simpa [peek] using hh)]

/-- **The values after the first**, by induction on what is still to be read. -/
theorem arrayMore_encode {values b : List Bytes} {more r : Bytes} {f : Nat}
    (h : encodeMore values = .ok more) (hfuel : values.length < f)
    (hmax : b.length + values.length ≤ maxNodes) :
    ∃ m, arrayMore f b ⟨more ++ semicolon :: r, n, w, q, k⟩ =
      .ok (b ++ values, ⟨semicolon :: r, m, w, q, k⟩) := by
  induction values generalizing b more f n with
  | nil =>
    cases h
    obtain ⟨f, rfl⟩ := Nat.exists_eq_add_of_lt hfuel
    have hend : ¬ peek ⟨[] ++ semicolon :: r, n, w, q, k⟩ = some comma :=
      (by decide : ¬ some semicolon = some comma)
    refine ⟨n, ?_⟩
    rw [List.append_nil, arrayMore, if_neg hend]
    rfl
  | cons v values ih =>
    obtain ⟨item, hitem, h⟩ := except_bind_eq_ok.mp h
    obtain ⟨rest, hrest, h⟩ := except_bind_eq_ok.mp h
    cases h
    obtain ⟨f, rfl⟩ : ∃ g, f = g + 1 := ⟨f - 1, by simp at hfuel; omega⟩
    obtain ⟨c, t, hc, hspace, hhash⟩ := encode_head hitem
    obtain ⟨d, t', hd, hdelim⟩ := encodeMore_next hrest r
    obtain ⟨m, hvalue⟩ :=
      value_encode (l := []) (r := t') (n := n + 1 + 1) (w := w) (q := q) (k := k)
      hitem (by simp) hdelim
    obtain ⟨m', hmore⟩ := ih (b := b ++ [v]) (n := m) hrest (f := f)
      (by simp at hfuel; omega) (by simp at hmax ⊢; omega)
    refine ⟨m', ?_⟩
    have hpeek : peek ⟨(comma :: blank :: item ++ rest) ++ semicolon :: r, n, w, q, k⟩ =
      some comma := rfl
    have hnext : advance ⟨(comma :: blank :: item ++ rest) ++ semicolon :: r, n, w, q, k⟩ =
        ⟨blank :: c :: (t ++ d :: t'), n + 1, w, q, k⟩ := by
      simp [advance, hc, hd]
    have hshape : c :: (t ++ d :: t') = [] ++ (item ++ d :: t') := by simp [hc]
    rw [arrayMore, if_pos hpeek, hnext, skipComments_blank hspace hhash, hshape, hvalue]
    simp only [except_ok_bind]
    rw [if_neg (by simp at hmax ⊢; omega), ← hd, hmore, List.append_assoc, List.singleton_append]

/-- **A written list reads as itself.** -/
theorem array_encode {v item more r : Bytes} {values : List Bytes} (hitem : encode v = .ok item)
    (hmore : encodeMore values = .ok more) (hmax : (v :: values).length ≤ maxNodes) :
    ∃ m, array ⟨blank :: (item ++ more) ++ semicolon :: r, n, w, q, k⟩ =
      .ok (v :: values, ⟨semicolon :: r, m, w, q, k⟩) := by
  obtain ⟨d, t, hd, hdelim⟩ := encodeMore_next hmore r
  obtain ⟨m, hvalue⟩ := value_encode (l := [blank]) (r := t) (n := n) (w := w) (q := q) (k := k)
    hitem (by simp) hdelim
  have hlen := encodeMore_length hmore
  obtain ⟨m', hrest⟩ := arrayMore_encode (b := [v]) (r := r) (n := m) (w := w) (q := q) (k := k)
    (f := (more ++ semicolon :: r).length + 1) hmore (by simp; omega) (by simp at hmax ⊢; omega)
  refine ⟨m', ?_⟩
  have hshape : blank :: (item ++ more) ++ semicolon :: r = [blank] ++ (item ++ d :: t) := by
    rw [← hd]
    simp
  rw [array, hshape, hvalue, except_ok_bind]
  simp only
  rw [← hd, hrest]
  rfl

/-! Keys. -/

theorem wordByte_plain {c : UInt8} (h : wordByte c = true) :
    space c = false ∧ c ≠ semicolon ∧ c ≠ hash ∧ c ≠ closeBrace := by
  refine ⟨?_, ?_, ?_, ?_⟩
  · cases hs : space c with
    | false => rfl
    | true =>
      simp only [space, Bool.or_eq_true, beq_iff_eq] at hs
      rcases hs with ((((rfl | rfl) | rfl) | rfl) | rfl) | rfl <;> exact absurd h (by decide)
  all_goals
    rintro rfl
    exact absurd h (by decide)

theorem keyByte_word {c : UInt8} (h : keyByte c = true) : wordByte c = true := by
  simp only [keyByte, wordByte, Bool.or_eq_true] at h ⊢
  rcases h with (h | h) | h
  · exact .inl (.inl (.inl h))
  · exact .inl (.inr h)
  · exact .inr h

/-- A valid key is a nonempty word. -/
theorem keyValid_word {key : Bytes} (h : keyValid key = true) :
    key ≠ [] ∧ ∀ c ∈ key, wordByte c = true := by
  simp only [keyValid, Bool.and_eq_true, List.all_eq_true, Bool.not_eq_true',
    decide_eq_true_eq] at h
  obtain ⟨-, hparts⟩ := h
  refine ⟨?_, ?_⟩
  · rintro rfl
    have := (hparts [] (by simp)).1
    simp at this
  · intro c hc
    have hsplit : c = dot ∨ ∃ part ∈ key.splitOn dot, c ∈ part := mem_splitOn hc
    rcases hsplit with rfl | ⟨part, hp, hc⟩
    · decide
    · exact keyByte_word ((hparts part hp).2 c hc)

/-- **A key reads as itself**, and counts its own nodes. -/
theorem key_eq {name r : Bytes} {d : UInt8} (hkey : keyValid name = true) (hd : wordByte d = false)
    (hbudget : (q ∪ keyNodes name).card + k ≤ maxNodes) :
    key [] ⟨name ++ d :: r, n, w, q, k⟩ =
      .ok (name, ⟨d :: r, n + name.length, w, q ∪ keyNodes name, k⟩) := by
  obtain ⟨hne, hword⟩ := keyValid_word hkey
  obtain ⟨hskip, htake⟩ := skipWhile_eq (p := wordByte) (a := name) (r := d :: r) (n := n) (w := w)
    (q := q) (k := k) hword (by simpa using hd)
  have hfull : fullKey [] name = name := if_pos rfl
  rw [key, htake, if_neg hne, hskip, hfull, checkKey_eq_ok.mpr hkey, except_ok_bind, checkNodes,
    if_neg (by simp only; omega), except_ok_bind]

/-! Rounds. -/

/-- Before a key there is nothing to skip, and it starts no other round. -/
theorem round_key {name r : Bytes} (hkey : keyValid name = true) :
    spaces true ⟨name ++ r, n, w, q, k⟩ = ⟨name ++ r, n, w, q, k⟩ ∧
    round [] ⟨name ++ r, n, w, q, k⟩ =
      key [] ⟨name ++ r, n, w, q, k⟩ >>= fun x => operator x.1 (x.2.spaces false) := by
  obtain ⟨hne, hword⟩ := keyValid_word hkey
  cases name with
  | nil => exact absurd rfl hne
  | cons c rest =>
    obtain ⟨hspace, hsemi, hhash, hclose⟩ := wordByte_plain (hword c List.mem_cons_self)
    refine ⟨spaces_none (by simpa using hspace), ?_⟩
    rw [round]
    simp only [peek, List.cons_append, List.head?_cons, hsemi, hhash, hclose, if_false, false_and]

/-- The state with one more key entered. -/
theorem enter_above {name : Bytes} (h : ∀ e ∈ w.entries, e.1 < name) :
    enter name ⟨r, n, w, q, k⟩ = ⟨r, n, w.insert name [], q, k⟩ := by
  have hnone : w.get? name = none := OrdMap.get?_eq_none.mpr (fun e he => ne_of_lt (h e he))
  simp [enter, OrdMap.contains, hnone]

/-- A bare line enters its key. -/
theorem round_bare {name r : Bytes} (hkey : keyValid name = true)
    (habove : ∀ e ∈ w.entries, e.1 < name) (hbudget : (q ∪ keyNodes name).card + k ≤ maxNodes) :
    ∃ m, round [] (spaces true ⟨name ++ semicolon :: r, n, w, q, k⟩) =
      .ok (.again ⟨r, m, w.insert name [], q ∪ keyNodes name, k⟩) := by
  obtain ⟨hspaces, hround⟩ :=
    round_key (r := semicolon :: r) (n := n) (w := w) (q := q) (k := k) hkey
  refine ⟨n + name.length + 1, ?_⟩
  rw [hspaces, hround, key_eq hkey (by decide) hbudget, except_ok_bind,
    spaces_none (by simp; decide), operator]
  simp only [peek, List.head?_cons, enter_above habove]
  rfl

/-- Storing the values of a key just entered. -/
theorem store_entered {name rest : Bytes} {values : List Bytes}
    (habove : ∀ e ∈ w.entries, e.1 < name) (hbudget : q.card + (k + values.length) ≤ maxNodes) :
    store equals name values ⟨rest, n, w.insert name [], q, k⟩ =
      .ok ⟨rest, n, (w.insert name []).insert name values, q, k + values.length⟩ := by
  have hcurrent : (w.insert name []).get? name = some [] :=
    OrdMap.get?_eq_some.mpr (by rw [OrdMap.insert_above habove]; simp)
  have hop : ¬ equals = plus := by decide
  rw [store]
  simp only [hcurrent, Option.getD_some, ne_eq, not_true_eq_false, and_false, if_false,
    hop, if_true, Nat.sub_zero, checkNodes]
  rw [if_neg (by omega)]
  rfl

/-- A line with values enters its key and stores them. -/
theorem round_assigned {name v item more r : Bytes} {values : List Bytes}
    (hkey : keyValid name = true) (habove : ∀ e ∈ w.entries, e.1 < name)
    (hitem : encode v = .ok item) (hmore : encodeMore values = .ok more)
    (hbudget : (q ∪ keyNodes name).card + (k + (v :: values).length) ≤ maxNodes) :
    ∃ m, round [] (spaces true
        ⟨name ++ (blank :: equals :: blank :: (item ++ more) ++ semicolon :: r), n, w, q, k⟩) =
      .ok (.again ⟨semicolon :: r, m, (w.insert name []).insert name (v :: values),
        q ∪ keyNodes name, k + (v :: values).length⟩) := by
  obtain ⟨hspaces, hround⟩ :=
    round_key (r := blank :: equals :: blank :: (item ++ more) ++ semicolon :: r)
    (n := n) (w := w) (q := q) (k := k) hkey
  obtain ⟨m, harray⟩ := array_encode (r := r) (n := n + name.length + 1 + 1) (w := w.insert name [])
    (q := q ∪ keyNodes name) (k := k) hitem hmore (by omega)
  have hblank : spaces false ⟨blank :: (equals :: blank :: (item ++ more) ++ semicolon :: r),
      n + name.length, w, q ∪ keyNodes name, k⟩ =
      ⟨equals :: blank :: (item ++ more) ++ semicolon :: r, n + name.length + 1, w,
        q ∪ keyNodes name, k⟩ :=
    spaces_eq (a := [blank]) (by simp) (by simp; decide)
  refine ⟨m, ?_⟩
  rw [hspaces, hround, List.cons_append, key_eq hkey (by decide) (by omega), except_ok_bind]
  simp only [hblank, operator, enter_above habove]
  have hassign : assign equals name
      (advance ⟨equals :: blank :: (item ++ more) ++ semicolon :: r, n + name.length + 1,
        w.insert name [], q ∪ keyNodes name, k⟩) =
      .ok ⟨semicolon :: r, m, (w.insert name []).insert name (v :: values), q ∪ keyNodes name,
        k + (v :: values).length⟩ := by
    rw [assign, if_neg (by simp), if_pos rfl]
    change array ⟨blank :: (item ++ more) ++ semicolon :: r, _, _, _, _⟩ >>= _ = _
    rw [harray, except_ok_bind]
    exact store_entered habove hbudget
  have hpeek : peek ⟨equals :: blank :: (item ++ more) ++ semicolon :: r, n + name.length + 1, w,
      q ∪ keyNodes name, k⟩ = some equals := rfl
  rw [hpeek]
  simp only [hassign]
  rfl

/-! The walk over the lines. -/

/-- The line break after a line starts no round. -/
theorem scope_newline {f : Nat} {r : Bytes} :
    ∃ m, scope (f + 1) [] ⟨newline :: r, n, w, q, k⟩ = scope (f + 1) [] ⟨r, m, w, q, k⟩ := by
  have hspaces : spaces true ⟨newline :: r, n, w, q, k⟩ = spaces true ⟨r, n + 1, w, q, k⟩ := by
    have hnl : (space newline && (true || newline != newline)) = true := by decide
    rw [spaces, spaces, skipWhile, skipWhile]
    simp only [List.dropWhile_cons, List.takeWhile_cons, hnl, if_true, List.length_cons]
    rw [Nat.add_assoc, Nat.add_comm 1]
  exact ⟨n + 1, by rw [scope, scope, hspaces]⟩

/-- The semicolon after values is a round of its own. -/
theorem scope_semicolon {f : Nat} {r : Bytes} :
    scope (f + 1) [] ⟨semicolon :: r, n, w, q, k⟩ = scope f [] ⟨r, n + 1, w, q, k⟩ := by
  rw [scope, spaces_none (by simp; decide)]
  rfl

theorem nodesOf_append (a b : List (Bytes × List Bytes)) :
    nodesOf (a ++ b) = nodesOf a ∪ nodesOf b := by
  ext x
  simp only [mem_nodesOf, Finset.mem_union, List.mem_append]
  constructor
  · rintro ⟨e, he | he, hx⟩
    · exact .inl ⟨e, he, hx⟩
    · exact .inr ⟨e, he, hx⟩
  · rintro (⟨e, he, hx⟩ | ⟨e, he, hx⟩)
    · exact ⟨e, .inl he, hx⟩
    · exact ⟨e, .inr he, hx⟩

theorem countOf_append (a b : List (Bytes × List Bytes)) :
    countOf (a ++ b) = countOf a + countOf b := by
  simp [countOf]

/-- **One line.** A round, or two, from the state before an entry to the state after it. -/
theorem scope_entry {entry : Bytes × List Bytes} {line r : Bytes} {f : Nat}
    (hkey : keyValid entry.1 = true) (hline : encodeEntry entry = .ok line)
    (habove : ∀ e ∈ w.entries, e.1 < entry.1)
    (hbudget : (q ∪ keyNodes entry.1).card + (k + entry.2.length) ≤ maxNodes) (hfuel : 3 ≤ f) :
    ∃ f' m w', f ≤ f' + 2 ∧ w'.entries = w.entries ++ [entry] ∧
      scope f [] ⟨line ++ r, n, w, q, k⟩ =
        scope f' [] ⟨r, m, w', q ∪ keyNodes entry.1, k + entry.2.length⟩ := by
  obtain ⟨name, values⟩ := entry
  obtain ⟨f, rfl⟩ : ∃ g, f = g + 3 := ⟨f - 3, by omega⟩
  cases values with
  | nil =>
    cases hline
    obtain ⟨m, hround⟩ :=
      round_bare (r := newline :: r) (n := n) (q := q) (k := k) hkey habove (by simpa using hbudget)
    obtain ⟨m', hnewline⟩ := scope_newline (f := f + 1) (r := r) (n := m) (w := w.insert name [])
      (q := q ∪ keyNodes name) (k := k)
    refine ⟨f + 2, m', w.insert name [], by omega, OrdMap.insert_above habove, ?_⟩
    have hshape : name ++ [semicolon, newline] ++ r = name ++ semicolon :: newline :: r := by simp
    rw [hshape, scope, hround, except_ok_bind]
    exact hnewline
  | cons v values =>
    obtain ⟨item, hitem, hline⟩ := except_bind_eq_ok.mp hline
    obtain ⟨more, hmore, hline⟩ := except_bind_eq_ok.mp hline
    cases hline
    obtain ⟨m, hround⟩ :=
      round_assigned (r := newline :: r) (n := n) (q := q) (k := k) hkey habove hitem hmore hbudget
    obtain ⟨m', hnewline⟩ := scope_newline (f := f) (r := r) (n := m + 1)
      (w := (w.insert name []).insert name (v :: values)) (q := q ∪ keyNodes name)
      (k := k + (v :: values).length)
    have hentries : ((w.insert name []).insert name (v :: values)).entries = w.entries ++
        [(name, v :: values)] := by
      change OrdMap.insertEntries name (v :: values) (w.insert name []).entries = _
      rw [OrdMap.insert_above habove, OrdMap.insertEntries_append habove]
      simp [OrdMap.insertEntries]
    refine ⟨f + 1, m', _, by omega, hentries, ?_⟩
    have hshape : name ++ [blank, equals, blank] ++ (item ++ more) ++ [semicolon, newline] ++ r =
        name ++ (blank :: equals :: blank :: (item ++ more) ++ semicolon :: newline :: r) := by simp
    rw [hshape, scope, hround, except_ok_bind]
    simp only
    rw [scope_semicolon]
    exact hnewline

theorem encodeEntry_length {entry : Bytes × List Bytes} {line : Bytes}
    (hkey : keyValid entry.1 = true) (h : encodeEntry entry = .ok line) : 3 ≤ line.length := by
  obtain ⟨name, values⟩ := entry
  have hname : 0 < name.length := List.length_pos_iff.mpr (keyValid_word hkey).1
  cases values with
  | nil =>
    cases h
    simp only [List.length_append, List.length_cons, List.length_nil]
    omega
  | cons v values =>
    obtain ⟨item, -, h⟩ := except_bind_eq_ok.mp h
    obtain ⟨more, -, h⟩ := except_bind_eq_ok.mp h
    cases h
    simp only [List.length_append, List.length_cons, List.length_nil]
    omega

/-- **Every line**, by induction on the entries still to be read: the state holds the
    entries `b` before them and has counted their nodes. -/
theorem scope_entries {entries b : List (Bytes × List Bytes)} {text : Bytes} {f : Nat}
    (htext : encodeEntries entries = .ok text) (hkeys : ∀ e ∈ entries, keyValid e.1 = true)
    (hsorted : (b ++ entries).Pairwise (fun a b => a.1 < b.1))
    (hbudget : countOf (b ++ entries) + (nodesOf (b ++ entries)).card ≤ maxNodes)
    (hfuel : text.length < f) (hread : w.entries = b) :
    ∃ s, scope f [] ⟨text, n, w, nodesOf b, countOf b⟩ = .ok s ∧
      s.values.entries = b ++ entries := by
  induction entries generalizing b text f n w with
  | nil =>
    cases htext
    obtain ⟨f, rfl⟩ := Nat.exists_eq_add_of_lt hfuel
    refine ⟨⟨[], n, w, nodesOf b, countOf b⟩, ?_, by simpa using hread⟩
    rw [scope, spaces_none (by simp)]
    rfl
  | cons entry entries ih =>
    obtain ⟨line, hline, htext⟩ := except_bind_eq_ok.mp htext
    obtain ⟨rest, hrest, htext⟩ := except_bind_eq_ok.mp htext
    cases htext
    obtain ⟨hkey, hkeys⟩ := List.forall_mem_cons.mp hkeys
    have habove : ∀ e ∈ w.entries, e.1 < entry.1 := by
      rw [hread]
      intro e he
      exact (List.pairwise_append.mp hsorted).2.2 e he entry List.mem_cons_self
    have hsplit : b ++ entry :: entries = (b ++ [entry]) ++ entries := by simp
    rw [hsplit] at hsorted hbudget
    have hnodes : nodesOf b ∪ keyNodes entry.1 = nodesOf (b ++ [entry]) := by
      rw [nodesOf_append]
      simp [nodesOf]
    have hcount : countOf b + entry.2.length = countOf (b ++ [entry]) := by
      rw [countOf_append]
      simp [countOf]
    have hcard : (nodesOf b ∪ keyNodes entry.1).card + (countOf b + entry.2.length) ≤ maxNodes := by
      rw [hnodes, hcount]
      rw [countOf_append, nodesOf_append] at hbudget
      have hsub : nodesOf (b ++ [entry]) ⊆ nodesOf (b ++ [entry]) ∪ nodesOf entries :=
        Finset.subset_union_left
      have := Finset.card_le_card hsub
      omega
    have hlen := encodeEntry_length hkey hline
    rw [List.length_append] at hfuel
    obtain ⟨f', m, w', hle, hentries, hscope⟩ := scope_entry (r := rest) (n := n) (q := nodesOf b)
      (k := countOf b) hkey hline habove hcard (f := f) (by omega)
    obtain ⟨s, hs, hvalues⟩ := ih (n := m) (f := f') hrest hkeys hsorted hbudget (by omega)
      (by rw [hentries, hread])
    refine ⟨s, ?_, by rw [hvalues, hsplit]⟩
    rw [hscope, hnodes, hcount]
    exact hs

/-! A written text is printable, so it holds no NUL and is ASCII. -/

/-- A byte `check_value` allows. -/
def printable (c : UInt8) : Bool := isGraphic c || space c

theorem word_printable {c : UInt8} (h : wordByte c = true) : printable c = true := by
  simp only [wordByte, isAlphanumeric, Bool.or_eq_true, Bool.and_eq_true,
    decide_eq_true_eq, beq_iff_eq, UInt8.le_iff_toNat_le, ← UInt8.toNat_inj, UInt8.toNat_ofNat] at h
  simp only [printable, isGraphic, Bool.or_eq_true, Bool.and_eq_true, decide_eq_true_eq,
    UInt8.le_iff_toNat_le, UInt8.toNat_ofNat]
  omega

theorem printable_ascii {c : UInt8} (h : printable c = true) : c.toNat < 128 := by
  simp only [printable, isGraphic, space, Bool.or_eq_true, Bool.and_eq_true,
    decide_eq_true_eq, beq_iff_eq, UInt8.le_iff_toNat_le, ← UInt8.toNat_inj, UInt8.toNat_ofNat] at h
  omega

theorem encode_printable {v item : Bytes} (h : encode v = .ok item) :
    ∀ c ∈ item, printable c = true := by
  obtain ⟨⟨⟩, hcheck, h⟩ := except_bind_eq_ok.mp h
  have hv : ∀ c ∈ v, printable c = true := by
    intro c hc
    rw [checkValue] at hcheck
    split at hcheck
    · rename_i hall
      exact List.all_eq_true.mp hall c hc
    · cases hcheck
  have hquote : ∀ quote : UInt8, printable quote = true → ∀ c ∈ quote :: v ++
      [quote], printable c = true := by
    intro quote hq c hc
    rw [List.mem_append, List.mem_cons, List.mem_singleton] at hc
    rcases hc with (rfl | hc) | rfl
    · exact hq
    · exact hv c hc
    · exact hq
  split at h
  · cases h
    exact hquote doubleQuote (by decide)
  · split at h
    · cases h
      exact hquote singleQuote (by decide)
    · split at h
      · cases h
        exact hv
      · cases h

theorem encodeMore_printable {values : List Bytes} {more : Bytes}
    (h : encodeMore values = .ok more) :
    ∀ c ∈ more, printable c = true := by
  induction values generalizing more with
  | nil =>
    cases h
    simp
  | cons v values ih =>
    obtain ⟨item, hitem, h⟩ := except_bind_eq_ok.mp h
    obtain ⟨rest, hrest, h⟩ := except_bind_eq_ok.mp h
    cases h
    intro c hc
    rw [List.mem_append, List.mem_cons, List.mem_cons] at hc
    rcases hc with (rfl | rfl | hc) | hc
    · decide
    · decide
    · exact encode_printable hitem c hc
    · exact ih hrest c hc

theorem encodeEntry_printable {entry : Bytes × List Bytes} {line : Bytes}
    (hkey : keyValid entry.1 = true) (h : encodeEntry entry = .ok line) :
    ∀ c ∈ line, printable c = true := by
  obtain ⟨name, values⟩ := entry
  have hname : ∀ c ∈ name, printable c = true :=
    fun c hc => word_printable ((keyValid_word hkey).2 c hc)
  have hend : ∀ c ∈ [semicolon, newline], printable c = true := by
    simp [semicolon, newline, printable, isGraphic, space]
  have hmid : ∀ c ∈ [blank, equals, blank], printable c = true := by
    simp [blank, equals, printable, isGraphic, space]
  cases values with
  | nil =>
    cases h
    intro c hc
    rcases List.mem_append.mp hc with hc | hc
    · exact hname c hc
    · exact hend c hc
  | cons v values =>
    obtain ⟨item, hitem, h⟩ := except_bind_eq_ok.mp h
    obtain ⟨more, hmore, h⟩ := except_bind_eq_ok.mp h
    cases h
    intro c hc
    rw [List.mem_append, List.mem_append, List.mem_append, List.mem_append] at hc
    rcases hc with ((hc | hc) | hc | hc) | hc
    · exact hname c hc
    · exact hmid c hc
    · exact encode_printable hitem c hc
    · exact encodeMore_printable hmore c hc
    · exact hend c hc

theorem encodeEntries_printable {entries : List (Bytes × List Bytes)} {text : Bytes}
    (hkeys : ∀ e ∈ entries, keyValid e.1 = true) (h : encodeEntries entries = .ok text) :
    ∀ c ∈ text, printable c = true := by
  induction entries generalizing text with
  | nil =>
    cases h
    simp
  | cons entry entries ih =>
    obtain ⟨line, hline, h⟩ := except_bind_eq_ok.mp h
    obtain ⟨rest, hrest, h⟩ := except_bind_eq_ok.mp h
    cases h
    obtain ⟨hkey, hkeys⟩ := List.forall_mem_cons.mp hkeys
    intro c hc
    rcases List.mem_append.mp hc with hc | hc
    · exact encodeEntry_printable hkey hline c hc
    · exact ih hkeys hrest c hc

/-- **A canonical text parses to its values.** -/
theorem parse_canonical {values : Values} {text : Bytes}
    (h : canonicalize values = .ok (values, text)) :
    parse text = .ok values := by
  obtain ⟨hkeys, hbudget, -, htext⟩ := canonicalize_eq_ok.mp h
  have hnul : text.contains 0 = false := by
    rw [← Bool.not_eq_true, List.contains_iff_mem]
    exact fun hmem => absurd (encodeEntries_printable hkeys htext 0 hmem) (by decide)
  obtain ⟨s, hscope, hentries⟩ := scope_entries (b := []) (n := 0) (w := OrdMap.empty) htext hkeys
    (by simpa using values.sorted) (by simpa using hbudget) (Nat.lt_succ_self text.length) rfl
  rw [List.nil_append] at hentries
  have hstart : scope (text.length + 1) [] (start text) = .ok s := hscope
  rw [parse, hnul, if_neg (by simp), hstart, except_ok_bind, if_neg, OrdMap.ext hentries]
  rintro ⟨hne, hempty⟩
  rw [hentries] at hempty
  rw [hempty] at htext
  cases htext
  exact hne rfl

end Parser

/-- A canonical text is ASCII. -/
theorem text_ascii (c : BootConfig) : ∀ b ∈ c.text, b.toNat < 128 := by
  obtain ⟨hkeys, -, -, htext⟩ := canonicalize_eq_ok.mp c.canonical
  exact fun b hb => Parser.printable_ascii (Parser.encodeEntries_printable hkeys htext b hb)

/-- The canonical text of a configuration reads back as the configuration. -/
theorem fromStr_canonical (c : BootConfig) : fromStr c.text = .ok c := by
  rw [fromStr, Parser.parse_canonical c.canonical, except_ok_bind, tryFrom_eq_ok, c.canonical]

/-- **Boot configurations round trip.** Whatever map is accepted, its canonical text
    parses to exactly the values kept (the given ones, less bare keys that are an
    ancestor of another), and building from the text gives the configuration back. -/
theorem fromStr_text {values : Values} {c : BootConfig} (h : tryFrom values = .ok c) :
    c.values = retained values ∧ Parser.parse c.text = .ok c.values ∧ fromStr c.text = .ok c := by
  obtain ⟨-, -, hkept, -⟩ := canonicalize_eq_ok.mp (tryFrom_eq_ok.mp h)
  exact ⟨hkept, Parser.parse_canonical c.canonical, fromStr_canonical c⟩

/-- A bare key `a` above `a.b`, whose values hold a quote and nothing. -/
def sampleValues : Values :=
  (OrdMap.empty.insert [97] []).insert [97, 46, 98] [[105, 34, 115], []]

theorem fromStr_text_sample : ∃ c, tryFrom sampleValues = .ok c ∧
    c.values = retained sampleValues ∧ Parser.parse c.text = .ok c.values ∧
      fromStr c.text = .ok c := by
  have hcanon : ∃ text, canonicalize sampleValues = .ok (retained sampleValues, text) :=
    ⟨_, rfl⟩
  obtain ⟨text, htext⟩ := hcanon
  have hfrom : tryFrom sampleValues = .ok ⟨retained sampleValues, text, canonicalize_idem htext⟩ :=
    tryFrom_eq_ok.mpr htext
  exact ⟨_, hfrom, fromStr_text hfrom⟩

end Conglobate.BootConfig
