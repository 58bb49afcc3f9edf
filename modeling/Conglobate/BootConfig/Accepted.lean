import Conglobate.BootConfig.Semantics

/- What the parser accepts is written in the grammar (`parse_renders`), so the
   relations of the grammar leave no accepted text out.

   The functions are taken in the order they call each other: what each returns
   is written in front of what it leaves. A run of `scope` is by induction on its
   fuel, a round at a time. -/
namespace Conglobate.BootConfig

open Ascii

namespace Parser

/-- A scan splits the text where it stops. -/
theorem skipWhile_split (p : UInt8 → Bool) (s : Parser) :
    s.rest = s.rest.takeWhile p ++ (s.skipWhile p).rest := List.takeWhile_append_dropWhile.symm

theorem skipWhile_head (p : UInt8 → Bool) (s : Parser) :
    ∀ c ∈ (s.skipWhile p).rest.head?, p c = false := by
  intro c hc
  have hhead := List.head?_dropWhile_not p s.rest
  rw [show (s.rest.dropWhile p).head? = some c from hc] at hhead
  simpa using hhead

theorem mem_takeWhile {p : UInt8 → Bool} {text : Bytes} {c : UInt8} (h : c ∈ text.takeWhile p) :
    p c = true :=
  List.all_eq_true.mp (List.all_takeWhile (p := p) (l := text)) c h

theorem peek_split {s : Parser} {c : UInt8} (h : s.peek = some c) :
    s.rest = c :: s.advance.rest := by
  cases hrest : s.rest with
  | nil =>
    rw [peek, hrest] at h
    cases h
  | cons d r =>
    rw [peek, hrest] at h
    cases h
    rw [advance, hrest]
    rfl

theorem peek_none {s : Parser} (h : s.peek = none) : s.rest = [] := List.head?_eq_none_iff.mp h

theorem spaces_split (newlines : Bool) (s : Parser) :
    ∃ blanks, Blanks newlines blanks ∧ s.rest = blanks ++ (s.spaces newlines).rest :=
  ⟨_, fun _ hc => mem_takeWhile hc, skipWhile_split _ s⟩

/-- A value that is read is printable. -/
theorem checkValue_bind_eq_ok {α : Type} {v : Bytes} {x : Except Error α} {a : α}
    (h : (do checkValue v; x) = .ok a) : checkValue v = .ok () ∧ x = .ok a := by
  obtain ⟨⟨⟩, hcheck, hx⟩ := except_bind_eq_ok.mp h
  exact ⟨hcheck, hx⟩

/-! Values. -/

theorem quoted_item {quote : UInt8} {s s' : Parser} {v : Bytes} (h : quoted quote s = .ok (v, s')) :
    ∃ after, (∀ c ∈ v, c ≠ quote) ∧ Blanks false after ∧ ValueEnds s'.rest ∧ checkValue v = .ok () ∧
      s.rest = v ++ (quote :: (after ++ s'.rest)) := by
  rw [quoted] at h
  split at h
  · cases h
  · rename_i hclosed
    split at h
    · cases h
    · rename_i hends
      obtain ⟨hcheck, hv⟩ := checkValue_bind_eq_ok h
      cases hv
      obtain ⟨after, hafter, hsplit⟩ :=
        spaces_split false (s.skipWhile (fun c => c != quote)).advance
      refine ⟨after, ?_, hafter, ?_, hcheck, ?_⟩
      · intro c hc
        simpa using mem_takeWhile hc
      · intro c hc
        rw [peek, show ((s.skipWhile (fun c => c != quote)).advance.spaces false).rest.head? =
          some c from hc] at hends
        simpa using hends
      · rw [← hsplit]
        obtain ⟨d, hd⟩ :=
          Option.ne_none_iff_exists'.mp (fun hnone => hclosed (Option.isNone_iff_eq_none.mpr hnone))
        have hquote : d = quote := by simpa using skipWhile_head (fun c => c != quote) s d hd
        subst hquote
        rw [← peek_split hd]
        exact skipWhile_split (fun c => c != d) s

theorem unquoted_item {s s' : Parser} {v : Bytes} (h : unquoted s = .ok (v, s')) :
    ∃ raw, (∀ c ∈ raw, delimiter c = false) ∧ ValueEnds s'.rest ∧ checkValue v = .ok () ∧
      s.rest = raw ++ s'.rest ∧ v = if s'.rest = [] then raw else raw.rdropWhile space := by
  have hraw : ∀ c ∈ s.rest.takeWhile (fun c => !delimiter c), delimiter c = false := by
    intro c hc
    simpa using mem_takeWhile hc
  have hends : ValueEnds (s.skipWhile (fun c => !delimiter c)).rest := by
    intro c hc
    simpa using skipWhile_head (fun c => !delimiter c) s c hc
  have hsplit := skipWhile_split (fun c => !delimiter c) s
  rw [unquoted] at h
  split at h
  · rename_i hnone
    obtain ⟨hcheck, hv⟩ := checkValue_bind_eq_ok h
    cases hv
    exact ⟨_, hraw, hends, hcheck, hsplit, (if_pos (peek_none
      (Option.isNone_iff_eq_none.mp hnone))).symm⟩
  · rename_i hsome
    obtain ⟨hcheck, hv⟩ := checkValue_bind_eq_ok h
    cases hv
    refine ⟨_, hraw, hends, hcheck, hsplit, (if_neg ?_).symm⟩
    intro hnil
    exact hsome (by rw [peek, hnil]; rfl)

/-- **A value read is written** in front of what it leaves. -/
theorem value_item {s s' : Parser} {v : Bytes} (h : value s = .ok (v, s')) :
    Item s.rest v s'.rest ∧ checkValue v = .ok () := by
  obtain ⟨before, hbefore, hsplit⟩ := spaces_split false s
  have hunquoted (hread : unquoted (s.spaces false) = .ok (v, s'))
      (hfirst : ∀ c ∈ (s.spaces false).rest.head?, c ≠ singleQuote ∧ c ≠ doubleQuote) :
      Item s.rest v s'.rest ∧ checkValue v = .ok () := by
    obtain ⟨raw, hraw, hends, hcheck, hrest, hv⟩ := unquoted_item hread
    refine ⟨?_, hcheck⟩
    rw [hsplit, hrest, hv]
    refine .unquoted hbefore hraw (fun c hc => ?_) hends
    have hhead : c ∈ (s.spaces false).rest.head? := by
      rw [hrest, List.head?_append, hc]
      rfl
    refine ⟨?_, hfirst c hhead⟩
    -- a blank that is no line break would have been skipped, and a line break is a delimiter
    have hstop := skipWhile_head _ s c hhead
    cases hspace : space c with
    | false => rfl
    | true =>
      have hnewline : c = newline := by simpa [hspace] using hstop
      have hnot := hraw c (List.mem_of_mem_head? hc)
      rw [hnewline] at hnot
      cases hnot
  rw [value] at h
  split at h
  · rename_i c hpeek
    split at h
    · rename_i hquote
      obtain ⟨after, hv, hafter, hends, hcheck, hrest⟩ := quoted_item h
      refine ⟨?_, hcheck⟩
      rw [hsplit, peek_split hpeek, hrest]
      exact .quoted hquote hbefore hv hafter hends
    · rename_i hplain
      apply hunquoted h
      intro d hd
      rw [show (s.spaces false).rest.head? = some c from hpeek] at hd
      cases hd
      exact ⟨fun hc => hplain (.inl hc), fun hc => hplain (.inr hc)⟩
  · rename_i hpeek
    apply hunquoted h
    intro d hd
    rw [show (s.spaces false).rest.head? = none from hpeek] at hd
    cases hd

/-! Arrays. -/

theorem gap_blanks {newlines : Bool} {blanks text rest : Bytes} (hblanks : Blanks newlines blanks)
    (h : Gap text rest) : Gap (blanks ++ text) rest := by
  induction blanks with
  | nil => exact h
  | cons c blanks ih =>
    obtain ⟨hc, hblanks⟩ := List.forall_mem_cons.mp hblanks
    rw [Bool.and_eq_true] at hc
    exact .blank hc.1 (ih hblanks)

/-- A comment skipped is written behind its `#`. -/
theorem comment_split {s : Parser} (h : s.peek = some hash) :
    ∃ note, Comment note s.comment.rest ∧ s.rest = hash :: (note ++ s.comment.rest) := by
  have hrest := peek_split h
  have hcomment : s.comment.rest = s.advance.comment.rest := by
    rw [comment, comment, skipWhile, skipWhile, hrest]
    rfl
  refine ⟨s.advance.rest.takeWhile (fun c => c != newline), ⟨?_, ?_⟩, ?_⟩
  · intro c hc
    simpa using mem_takeWhile hc
  · intro c hc
    rw [hcomment] at hc
    simpa using skipWhile_head (fun c => c != newline) s.advance c hc
  · rw [hcomment, comment, ← skipWhile_split]
    exact hrest

theorem skipComments_gap {fuel : Nat} {s : Parser} (h : s.rest.length < fuel) :
    Gap s.rest (skipComments fuel s).rest := by
  induction fuel generalizing s with
  | zero => omega
  | succ fuel ih =>
    obtain ⟨blanks, hblanks, hsplit⟩ := spaces_split true s
    rw [skipComments]
    split
    · rename_i hpeek
      obtain ⟨note, hnote, hrest⟩ := comment_split hpeek
      have hlen := congrArg List.length hsplit
      rw [hrest, List.length_append, List.length_cons, List.length_append] at hlen
      rw [hsplit, hrest]
      exact gap_blanks hblanks (.comment hnote (ih (by omega)))
    · rename_i hpeek
      rw [hsplit]
      refine gap_blanks hblanks (.done (fun c hc => ⟨?_, ?_⟩))
      · simpa using skipWhile_head _ s c hc
      · rintro rfl
        exact hpeek hc

theorem arrayMore_more {fuel : Nat} {acc vs : List Bytes} {s s' : Parser}
    (h : arrayMore fuel acc s = .ok (vs, s')) :
    ∃ new, vs = acc ++ new ∧ More s.rest new s'.rest := by
  induction fuel generalizing acc s with
  | zero => cases h
  | succ fuel ih =>
    rw [arrayMore] at h
    split at h
    · rename_i hcomma
      obtain ⟨⟨item, t⟩, hvalue, h⟩ := except_bind_eq_ok.mp h
      dsimp only at h
      split at h
      · cases h
      · obtain ⟨new, hvs, hmore⟩ := ih h
        refine ⟨item :: new, by rw [hvs, List.append_assoc, List.singleton_append], ?_⟩
        have hle := advance_rest_le s
        rw [peek_split hcomma]
        exact .value (skipComments_gap (by omega)) (value_item hvalue).1 hmore
    · rename_i hend
      cases h
      exact ⟨[], (List.append_nil _).symm, .done hend⟩

/-- **An array read is written** in front of what it leaves. -/
theorem array_items {s s' : Parser} {vs : List Bytes} (h : array s = .ok (vs, s')) :
    Items s.rest vs s'.rest := by
  obtain ⟨⟨item, t⟩, hvalue, h⟩ := except_bind_eq_ok.mp h
  obtain ⟨new, rfl, hmore⟩ := arrayMore_more h
  exact .mk (value_item hvalue).1 hmore

/-! Statements. -/

theorem key_word {scopeKey name : Bytes} {s s' : Parser} (h : key scopeKey s = .ok (name, s')) :
    ∃ word, Word word ∧ name = dottedKey scopeKey word ∧ s.rest = word ++ s'.rest := by
  rw [key] at h
  split at h
  · cases h
  · rename_i hword
    obtain ⟨⟨⟩, -, h⟩ := except_bind_eq_ok.mp h
    obtain ⟨⟨⟩, -, h⟩ := except_bind_eq_ok.mp h
    cases h
    exact ⟨_, ⟨hword, fun _ hc => mem_takeWhile hc⟩, rfl, skipWhile_split wordByte s⟩

theorem store_rest {op : UInt8} {name : Bytes} {vs : List Bytes} {s s' : Parser}
    (h : store op name vs s = .ok s') : s'.rest = s.rest := by
  rw [store] at h
  split at h
  · cases h
  · obtain ⟨⟨⟩, -, h⟩ := except_bind_eq_ok.mp h
    cases h
    split <;> rfl

theorem assign_items {op : UInt8} {name : Bytes} {s s' : Parser}
    (hop : op = equals ∨ op = colon ∨ op = plus) (h : assign op name s = .ok s') :
    ∃ o vs text, op :: s.rest = Operator.text o ++ text ∧ Items text vs s'.rest := by
  rw [assign] at h
  split at h
  · cases h
  · rename_i hequals
    obtain ⟨⟨vs, t⟩, harray, hstore⟩ := except_bind_eq_ok.mp h
    have hitems := array_items harray
    rw [← store_rest hstore] at hitems
    by_cases hset : op = equals
    · rw [if_pos hset] at hitems
      exact ⟨.set, vs, s.rest, by rw [hset]; rfl, hitems⟩
    · rw [if_neg hset] at hitems
      have hpeek : s.peek = some equals := by
        by_contra hne
        exact hequals ⟨hset, hne⟩
      rcases hop with hop | rfl | rfl
      · exact absurd hop hset
      · exact ⟨.replace, vs, s.advance.rest, by rw [peek_split hpeek]; rfl, hitems⟩
      · exact ⟨.append, vs, s.advance.rest, by rw [peek_split hpeek]; rfl, hitems⟩

/-- What follows a key: a group, an assignment, or the end of a bare key. -/
theorem operator_cases {name : Bytes} {s : Parser} {r : Round} (h : operator name s = .ok r) :
    (∃ s', r = .group name s' ∧ s.rest = openBrace :: s'.rest) ∨
    (∃ s' op vs text, r = .again s' ∧ s.rest = Operator.text op ++ text ∧ Items text vs s'.rest) ∨
    ∃ s', r = .again s' ∧ BareEnds s.rest ∧
      ∀ top d rest, Body top s'.rest d rest → Body top s.rest d rest := by
  rw [operator] at h
  split at h
  · cases h
  · rename_i op hpeek
    have hrest := peek_split hpeek
    split at h
    · rename_i hbrace
      cases h
      rw [hbrace] at hrest
      exact .inl ⟨_, rfl, hrest⟩
    · split at h
      · rename_i hop
        obtain ⟨t, hassign, h⟩ := except_bind_eq_ok.mp h
        cases h
        obtain ⟨o, vs, text, htext, hitems⟩ := assign_items hop hassign
        exact .inr (.inl ⟨t, o, vs, text, rfl, hrest.trans htext, hitems⟩)
      · split at h
        · rename_i hend
          cases h
          refine .inr (.inr ⟨_, rfl, ⟨op, hpeek, hend.imp id .inl⟩, fun top d rest hbody => ?_⟩)
          rw [hrest]
          rcases hend with rfl | rfl
          · exact .semicolon hbody
          · exact .blank (by decide) hbody
        · split at h
          · rename_i hhash
            cases h
            obtain ⟨note, hnote, hsplit⟩ := comment_split (hhash ▸ hpeek)
            refine .inr (.inr ⟨_, rfl, ⟨op, hpeek, .inr (.inr (.inl hhash))⟩,
              fun top d rest hbody => ?_⟩)
            rw [hsplit]
            exact .comment hnote hbody
          · split at h
            · rename_i hclose
              cases h
              exact .inr (.inr ⟨_, rfl, ⟨op, hpeek, .inr (.inr (.inr hclose))⟩,
                fun _ _ _ hbody => hbody⟩)
            · cases h

/-! Scopes. -/

theorem body_blanks {top : Bool} {blanks text rest : Bytes} {d : Document}
    (hblanks : Blanks true blanks) (h : Body top text d rest) :
    Body top (blanks ++ text) d rest := by
  induction blanks with
  | nil => exact h
  | cons c blanks ih =>
    obtain ⟨hc, hblanks⟩ := List.forall_mem_cons.mp hblanks
    rw [Bool.and_eq_true] at hc
    exact .blank hc.1 (ih hblanks)

/-- **A round read is written**, whatever is written in what it leaves. -/
theorem round_body {scopeKey : Bytes} {s : Parser} {r : Round} (h : round scopeKey s = .ok r) :
    match r with
    | .closed s' => Body (decide (scopeKey = [])) s.rest .done s'.rest
    | .again s' => ∀ d rest, Body (decide (scopeKey = [])) s'.rest d rest →
        ∃ d', Body (decide (scopeKey = [])) s.rest d' rest
    | .group name s' => name ≠ [] ∧ ∀ body mid d rest, Body false s'.rest body mid →
        Body (decide (scopeKey = [])) mid d rest →
            ∃ d', Body (decide (scopeKey = [])) s.rest d' rest := by
  rw [round] at h
  split at h
  · rename_i hpeek
    split at h
    · rename_i htop
      cases h
      show Body (decide (scopeKey = [])) s.rest .done s.rest
      rw [peek_none hpeek, decide_eq_true htop]
      exact .finish
    · cases h
  · rename_i c hpeek
    have hrest := peek_split hpeek
    split at h
    · rename_i hsemicolon
      cases h
      refine fun d rest hbody => ⟨d, ?_⟩
      rw [hrest, hsemicolon]
      exact .semicolon hbody
    · split at h
      · rename_i hhash
        cases h
        obtain ⟨note, hnote, hsplit⟩ := comment_split (hhash ▸ hpeek)
        refine fun d rest hbody => ⟨d, ?_⟩
        rw [hsplit]
        exact .comment hnote hbody
      · split at h
        · rename_i hclose
          cases h
          show Body (decide (scopeKey = [])) s.rest .done s.advance.rest
          rw [hrest, hclose.1, decide_eq_false hclose.2]
          exact .close
        · obtain ⟨⟨name, t⟩, hkey, h⟩ := except_bind_eq_ok.mp h
          obtain ⟨word, hword, hname, hsplit⟩ := key_word hkey
          obtain ⟨blanks, hblanks, hafter⟩ := spaces_split false t
          rw [hsplit, hafter]
          rcases operator_cases h with ⟨s', rfl, hopen⟩ | ⟨s', op, vs, text, rfl, htext,
            hitems⟩ | ⟨s', rfl, hends, hbody⟩
          · refine ⟨by rw [hname]; exact dottedKey_ne_nil hword.1, fun body mid d rest hinner houter =>
              ⟨.group word body d, ?_⟩⟩
            rw [hopen]
            exact .group hword hblanks hinner houter
          · refine fun d rest hnext => ⟨.assign word op vs d, ?_⟩
            rw [htext]
            exact .assign hword hblanks hitems hnext
          · exact fun d rest hnext => ⟨_, .bare hword hblanks hends (hbody _ d rest hnext)⟩

/-- **A scope read is written**, by induction on the rounds. -/
theorem scope_body {fuel : Nat} {scopeKey : Bytes} {s s' : Parser}
    (h : scope fuel scopeKey s = .ok s') :
    ∃ d, Body (decide (scopeKey = [])) s.rest d s'.rest := by
  induction fuel generalizing scopeKey s s' with
  | zero => cases h
  | succ fuel ih =>
    obtain ⟨blanks, hblanks, hsplit⟩ := spaces_split true s
    rw [hsplit]
    obtain ⟨r, hround, h⟩ := except_bind_eq_ok.mp h
    have hround := round_body hround
    suffices hbody : ∃ d, Body (decide (scopeKey = [])) (s.spaces true).rest d s'.rest by
      obtain ⟨d, hd⟩ := hbody
      exact ⟨d, body_blanks hblanks hd⟩
    cases r with
    | closed t =>
      cases h
      exact ⟨.done, hround⟩
    | again t =>
      obtain ⟨d, hd⟩ := ih h
      exact hround d s'.rest hd
    | group name t =>
      obtain ⟨inner, hinner, h⟩ := except_bind_eq_ok.mp h
      obtain ⟨body, hbody⟩ := ih hinner
      obtain ⟨d, hd⟩ := ih h
      rw [decide_eq_false hround.1] at hbody
      exact hround.2 body inner.rest d s'.rest hbody hd

end Parser

/-- At the top nothing is left. -/
theorem body_top_rest {top : Bool} {text rest : Bytes} {d : Document} (h : Body top text d rest)
    (htop : top = true) :
    rest = [] := by
  induction h with
  | finish => rfl
  | close => cases htop
  | blank _ _ ih => exact ih htop
  | semicolon _ ih => exact ih htop
  | comment _ _ ih => exact ih htop
  | bare _ _ _ _ ih => exact ih htop
  | assign _ _ _ _ ih => exact ih htop
  | group _ _ _ _ _ ih => exact ih htop

/-- **What is accepted is written in the grammar.** -/
theorem parse_renders {text : Bytes} {m : Values} (h : Parser.parse text = .ok m) :
    ∃ d, Renders d text := by
  rw [Parser.parse] at h
  split at h
  · cases h
  · rename_i hnul
    obtain ⟨s, hscope, -⟩ := except_bind_eq_ok.mp h
    obtain ⟨d, hd⟩ := Parser.scope_body hscope
    have hbody : Body true text d s.rest := hd
    rw [body_top_rest hbody rfl] at hbody
    exact ⟨d, fun hmem => hnul (List.contains_iff_mem.mpr hmem), hbody⟩

/-- **The meaning of boot configurations.** A text that is accepted is written in the
    grammar, and whatever document it is a writing of, what is parsed is that document's
    left-to-right fold. Of a text and one that writes out a group as the mention of its
    key and its dotted statements, both are accepted, with the same values, or neither. -/
theorem parse_meaning :
    (∀ text m, Parser.parse text = .ok m → ∃ d, Renders d text) ∧
    (∀ d text m, Renders d text → Parser.parse text = .ok m → d.fold = some m) ∧
    ∀ d d' text text', Document.Rewrites d d' → Renders d text → Renders d' text' →
      ∀ m, Parser.parse text = .ok m ↔ Parser.parse text' = .ok m :=
  ⟨fun _ _ => parse_renders, fun _ _ _ => parse_fold, fun _ _ _ _ => parse_rewrites⟩

/-- `a {b=1}`. -/
def sampleGroup : Bytes := [97, 32, 123, 98, 61, 49, 125]

/-- `a;a.b=1`. -/
def sampleDotted : Bytes := [97, 59, 97, 46, 98, 61, 49]

def sampleGroupValues : Values := (OrdMap.empty.insert [97] []).insert [97, 46, 98] [[49]]

theorem sample_words : Word [97] ∧ Word [98] ∧ Word [97, 46, 98] := by
  refine ⟨⟨?_, ?_⟩, ⟨?_, ?_⟩, ⟨?_, ?_⟩⟩ <;> simp <;> decide

theorem sampleGroup_renders : Renders (.group [97]
    (.assign [98] .set [[49]] .done) .done) sampleGroup := by
  have hitem : Item [49, 125] [49] [125] :=
    @Item.unquoted [] [49] [125] (by simp [Blanks]) (by simp; decide) (by simp; decide)
      (by simp [ValueEnds]; decide)
  have hassign : Body false [98, 61, 49, 125] (.assign [98] .set [[49]] .done) [] :=
    @Body.assign false [98] [] [49, 125] [125] [] .set _ _ sample_words.2.1 (by simp [Blanks])
      (.mk hitem (.done (by simp; decide))) .close
  exact ⟨by decide, @Body.group true [97] [32] _ _ _ _ _ sample_words.1
    (by simp [Blanks]; decide) hassign .finish⟩

theorem sampleDotted_renders : Renders (.bare [97]
    (.assign [97, 46, 98] .set [[49]] .done)) sampleDotted := by
  have hitem : Item [49] [49] [] :=
    @Item.unquoted [] [49] [] (by simp [Blanks]) (by simp; decide) (by simp; decide)
      (by simp [ValueEnds])
  have hassign : Body true [97, 46, 98, 61, 49] (.assign [97, 46, 98] .set [[49]] .done) [] :=
    @Body.assign true [97, 46, 98] [] [49] [] [] .set _ _ sample_words.2.2 (by simp [Blanks])
      (.mk hitem (.done (by simp))) .finish
  exact ⟨by decide, @Body.bare true [97] [] _ _ _ sample_words.1 (by simp [Blanks])
    ⟨semicolon, rfl, .inl rfl⟩
    (.semicolon hassign)⟩

theorem parse_meaning_sample : (∃ d, Renders d sampleGroup) ∧
    Document.fold (.group [97] (.assign [98] .set [[49]] .done) .done) = some sampleGroupValues ∧
    Parser.parse sampleDotted = .ok sampleGroupValues := by
  have hparse : Parser.parse sampleGroup = .ok sampleGroupValues := rfl
  exact ⟨parse_meaning.1 sampleGroup _ hparse, parse_meaning.2.1 _ _ _ sampleGroup_renders hparse,
    (parse_meaning.2.2 _ _ _ _ (.here _ _ _) sampleGroup_renders sampleDotted_renders _).mp hparse⟩

end Conglobate.BootConfig
