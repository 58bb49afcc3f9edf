import Conglobate.Copy.Grammar
import Conglobate.Copy.RuneWise
import Conglobate.Copy.Source
import Conglobate.Lib.Flow
import Conglobate.Lib.Split

/- Accepted sources and their components (`copy/pattern.rs`, `copy/source.rs`).

   A source is accepted as one pattern and walked component by component, each
   parsed again. The two readings are the same exactly when no separator of the
   source is quoted: put behind a backslash, or inside a class
   (`components_iff`). Otherwise a component ends in the middle of a token. -/
namespace Conglobate.Copy

/-- No separator of the pattern is quoted; `inside` a class, one is. -/
def unquoted : Bool → Text → Bool
  | _, [] => true
  | inside, '\\' :: c :: rest => c != '/' && unquoted inside rest
  | false, '[' :: rest => unquoted true rest
  | true, ']' :: rest => unquoted false rest
  | true, '/' :: _ => false
  | inside, _ :: rest => unquoted inside rest

/-- What is parsed: the source's components, joined again. -/
def normalized (source : Text) : Text :=
  ['/'].intercalate (Plan.ImagePath.components (trimSlashes source))

/-! Tokens with a separator. -/

theorem escaped_plain {c : Char} : '/' ∉ ['\\', c] ↔ (c != '/') = true := by
  rw [bne_iff_ne, List.mem_cons, List.mem_singleton, not_or]
  exact ⟨fun h heq => h.2 heq.symm, fun h => ⟨by decide, fun heq => h heq.symm⟩⟩

theorem unquoted_item {c : Char} {t : Text} (h : ItemText c t) (r : Text) :
    unquoted true (t ++ r) = true ↔ '/' ∉ t ∧ unquoted true r = true := by
  cases h with
  | escaped =>
    show (c != '/' && unquoted true r) = true ↔ _
    rw [Bool.and_eq_true, escaped_plain]
  | plain hescape hbracket _ =>
    by_cases hslash : c = '/'
    · subst hslash
      simp [unquoted]
    · have hnext : unquoted true (c :: r) = unquoted true r := by
        rw [unquoted]
        all_goals simp_all
      show unquoted true (c :: r) = true ↔ _
      rw [hnext, List.mem_singleton]
      exact (and_iff_right (fun heq => hslash heq.symm)).symm

theorem unquoted_range {range : Char × Char} {t : Text} (h : RangeText range t) (r : Text) :
    unquoted true (t ++ r) = true ↔ '/' ∉ t ∧ unquoted true r = true := by
  cases h with
  | single hitem => exact unquoted_item hitem r
  | @range _ _ t u hlow hhigh =>
    have hdash : unquoted true ('-' :: (u ++ r)) = unquoted true (u ++ r) := by
      rw [unquoted]
      all_goals simp
    rw [List.append_assoc, unquoted_item hlow]
    show '/' ∉ t ∧ unquoted true ('-' :: (u ++ r)) = true ↔ _
    rw [hdash, unquoted_item hhigh, List.mem_append, List.mem_cons]
    simp [and_assoc]

theorem unquoted_ranges {found : List (Char × Char)} {t : Text} (h : RangesText found t)
    (r : Text) :
    unquoted true (t ++ r) = true ↔ '/' ∉ t ∧ unquoted false r = true := by
  induction h with
  | close =>
    have hnext : unquoted true (']' :: r) = unquoted false r := by rw [unquoted]
    show unquoted true (']' :: r) = true ↔ _
    simp [hnext]
  | cons hrange _ ih =>
    rw [List.append_assoc, unquoted_range hrange, ih, List.mem_append, not_or, and_assoc]

/-- **A token has no separator but the token that is one.** -/
theorem unquoted_token {first : Token} {t : Text} (h : TokenText first t) (r : Text) :
    unquoted false (t ++ r) = true ↔ ('/' ∉ t ∨ t = ['/']) ∧ unquoted false r = true := by
  cases h with
  | star => simp [unquoted]
  | any => simp [unquoted]
  | escaped c =>
    show (c != '/' && unquoted false r) = true ↔ _
    rw [Bool.and_eq_true, escaped_plain, or_iff_left (by simp)]
  | @plain c _ _ hclass hescape =>
    have hnext : unquoted false (c :: r) = unquoted false r := by
      rw [unquoted]
      all_goals simp_all
    show unquoted false (c :: r) = true ↔ _
    rw [hnext]
    by_cases hslash : c = '/'
    · rw [hslash]
      exact (and_iff_right (.inr rfl)).symm
    · refine (and_iff_right (.inl fun hmem => ?_)).symm
      exact hslash (List.mem_singleton.mp hmem).symm
  | @«class» found t _ _ hranges =>
    show unquoted true (t ++ r) = true ↔ _
    rw [unquoted_ranges hranges]
    simp
  | @negated found t _ hranges =>
    have hcaret : unquoted true ('^' :: (t ++ r)) = unquoted true (t ++ r) := by
      rw [unquoted]
      all_goals simp
    show unquoted true ('^' :: (t ++ r)) = true ↔ _
    rw [hcaret, unquoted_ranges hranges]
    simp

/-- **Unquoted separators are tokens of their own.** -/
theorem unquoted_iff {tokens : List Token} {texts : List Text}
    (h : List.Forall₂ TokenText tokens texts) :
    unquoted false texts.flatten = true ↔ ∀ t ∈ texts, '/' ∉ t ∨ t = ['/'] := by
  induction h with
  | nil => simp [unquoted]
  | cons htext _ ih => rw [List.flatten_cons, unquoted_token htext, ih, List.forall_mem_cons]

/-! The components of a pattern. -/

/-- A pattern's components are patterns where its separators are tokens. -/
theorem splitOn_parses {tokens : List Token} {texts : List Text}
    (h : List.Forall₂ TokenText tokens texts) (hplain : ∀ t ∈ texts, '/' ∉ t ∨ t = ['/']) :
    ∀ part ∈ texts.flatten.splitOn '/', ∃ tokens, parse part = .ok tokens := by
  induction h with
  | nil =>
    intro part hpart
    rw [List.flatten_nil, List.splitOn_nil, List.mem_singleton] at hpart
    exact ⟨[], by rw [hpart, parse]⟩
  | @cons first t tokens texts htext htexts ih =>
    intro part hpart
    have hrest := ih (fun u hu => hplain u (List.mem_cons_of_mem _ hu))
    rw [List.flatten_cons] at hpart
    obtain hslash | rfl := hplain t List.mem_cons_self
    · obtain ⟨head, tail, hsplit, hjoined⟩ := splitOn_append_of_not_mem hslash texts.flatten
      rw [hsplit] at hrest
      rw [hjoined] at hpart
      obtain rfl | hpart := List.mem_cons.mp hpart
      · -- the token is put in front of the first of the other components
        obtain ⟨more, hmore⟩ := hrest head List.mem_cons_self
        obtain ⟨texts', rfl, htexts'⟩ := parse_iff.mp hmore
        exact ⟨first :: more, parse_iff.mpr ⟨t :: texts', rfl, .cons htext htexts'⟩⟩
      · exact hrest part (List.mem_cons_of_mem _ hpart)
    · have hsplit : (['/'] ++ texts.flatten).splitOn '/' = [] :: texts.flatten.splitOn '/' :=
        List.splitOn_append_cons_self_of_not_mem List.not_mem_nil _
      rw [hsplit] at hpart
      obtain rfl | hpart := List.mem_cons.mp hpart
      · exact ⟨[], by rw [parse]⟩
      · exact hrest part hpart

/-- The separator as a token. -/
def separator : Token := .literal (String.utf8EncodeChar '/')

/-- **Components that are patterns make one**, with their tokens in it. -/
theorem join_parses {parts : List Text} {found : List (List Token)}
    (h : List.Forall₂ (fun part tokens => parse part = .ok tokens) parts found) :
    ∃ texts, ['/'].intercalate parts = texts.flatten ∧
      List.Forall₂ TokenText ([separator].intercalate found) texts ∧
      ((∀ part ∈ parts, '/' ∉ part) → ∀ t ∈ texts, '/' ∉ t ∨ t = ['/']) := by
  induction h with
  | nil => exact ⟨[], rfl, .nil, fun _ t ht => by cases ht⟩
  | @cons part tokens parts found hpart hparts ih =>
    obtain ⟨texts, hjoined, htexts, hplain⟩ := ih
    obtain ⟨front, rfl, hfront⟩ := parse_iff.mp hpart
    have hfree : '/' ∉ front.flatten → ∀ t ∈ front, '/' ∉ t :=
      fun h t ht hmem => h (List.mem_flatten.mpr ⟨t, ht, hmem⟩)
    cases hparts with
    | nil =>
      refine ⟨front, List.intercalate_singleton, ?_, fun hslash t ht => .inl
        (hfree (hslash _ List.mem_cons_self) t ht)⟩
      rw [List.intercalate_singleton]
      exact hfront
    | cons hnext hmore =>
      refine ⟨front ++ ['/'] :: texts, ?_, ?_, ?_⟩
      · rw [List.intercalate_cons_cons, hjoined]
        simp
      · rw [List.intercalate_cons_cons, List.append_assoc]
        exact List.rel_append hfront (.cons (.plain (by decide) (by decide) (by decide)
          (by decide)) htexts)
      · intro hslash t ht
        rw [List.forall_mem_cons] at hslash
        obtain ht | ht := List.mem_append.mp ht
        · exact .inl (hfree hslash.1 t ht)
        · obtain rfl | ht := List.mem_cons.mp ht
          · exact .inr rfl
          · exact hplain hslash.2 t ht

/-! The components of a source. -/

/-- Separators around a source name no component. -/
theorem components_slashes {front back : Text} (hfront : ∀ c ∈ front, c = '/')
    (hback : ∀ c ∈ back, c = '/') (t : Text) :
    Plan.ImagePath.components (front ++ t ++ back) = Plan.ImagePath.components t := by
  have hleft : ∀ t, Plan.ImagePath.components (front ++ t) = Plan.ImagePath.components t := by
    induction front with
    | nil => exact fun _ => rfl
    | cons c front ih =>
      intro t
      rw [List.forall_mem_cons] at hfront
      have hsplit : (c :: front ++ t).splitOn '/' = [] :: (front ++ t).splitOn '/' := by
        rw [hfront.1]
        exact List.splitOn_append_cons_self_of_not_mem List.not_mem_nil _
      rw [← ih hfront.2 t, Plan.ImagePath.components, hsplit, List.filter_cons_of_neg (by simp)]
      rfl
  rw [List.append_assoc, hleft]
  clear hleft
  induction back generalizing t with
  | nil => rw [List.append_nil]
  | cons c back ih =>
    rw [List.forall_mem_cons] at hback
    have hsplit : (t ++ c :: back).splitOn '/' = t.splitOn '/' ++ back.splitOn '/' := by
      rw [hback.1]
      exact List.splitOn_append_cons_self t back
    have hnone := ih hback.2 []
    rw [Plan.ImagePath.components, hsplit, List.filter_append]
    show Plan.ImagePath.components t ++ Plan.ImagePath.components ([] ++ back) = _
    rw [hnone]
    exact List.append_nil _

theorem components_trimSlashes (source : Text) :
    Plan.ImagePath.components (trimSlashes source) = Plan.ImagePath.components source := by
  have hslash : ∀ l : Text, ∀ c ∈ l.takeWhile (· == '/'), c = '/' := by
    intro l c hc
    have heq : (c == '/') = true := List.mem_takeWhile_imp (p := (· == '/')) hc
    exact beq_iff_eq.mp heq
  have hsource : source.takeWhile (· == '/') ++ trimSlashes source ++
      ((source.dropWhile (· == '/')).reverse.takeWhile (· == '/')).reverse = source := by
    rw [trimSlashes, List.append_assoc, ← List.reverse_append, List.takeWhile_append_dropWhile,
      List.reverse_reverse, List.takeWhile_append_dropWhile]
  conv_rhs => rw [← hsource]
  rw [components_slashes (hslash source)]
  exact fun c hc => hslash _ c (List.mem_reverse.mp hc)

/-- What a component of an accepted source is. -/
structure PlainPart (part : Text) : Prop where
  slash : '/' ∉ part
  nonempty : part ≠ []
  dot : part ≠ ['.']
  dots : part ≠ ['.', '.']
  nul : '\x00' ∉ part

theorem sourcePart_plain {source : Text} {p : SourcePattern}
    (h : SourcePattern.fromStr source = .ok p) {part : Text} (hpart : part ∈ sourceParts p) :
    PlainPart part := by
  rw [SourcePattern.fromStr] at h
  split at h
  · cases h
  · rename_i hvalid
    obtain ⟨tokens, _, h⟩ := except_bind_eq_ok.mp h
    cases h
    rw [sourceParts, components_trimSlashes, Plan.ImagePath.components, List.mem_filter,
      Bool.and_eq_true, decide_eq_true_iff, decide_eq_true_iff] at hpart
    rw [not_or, not_or] at hvalid
    obtain ⟨hslash, hsub⟩ := splitOn_part hpart.1
    refine ⟨hslash, hpart.2.1, hpart.2.2, ?_, fun hnul => hvalid.2.1 (hsub hnul)⟩
    rintro rfl
    exact hvalid.2.2 hpart.1

theorem fromStr_normalized {source : Text} {tokens : List Token}
    (hvalid : ¬(source = [] ∨ '\x00' ∈ source ∨ ['.', '.'] ∈ source.splitOn '/'))
    (h : parse (normalized source) = .ok tokens) :
    SourcePattern.fromStr source = .ok ⟨source, tokens⟩ := by
  rw [SourcePattern.fromStr, if_neg hvalid]
  show (parse (normalized source) >>= fun tokens => _) = _
  rw [h]
  rfl

/-- What a component is parsed as. -/
theorem fromStr_part {part : Text} (h : PlainPart part) {q : SourcePattern} :
    SourcePattern.fromStr part = .ok q ↔ parse part = .ok q.tokens ∧ q.source = part := by
  have hsplit : part.splitOn '/' = [part] := List.splitOn_eq_singleton h.slash
  have hcomponents : Plan.ImagePath.components (trimSlashes part) = [part] := by
    rw [components_trimSlashes, Plan.ImagePath.components, hsplit,
      List.filter_cons_of_pos (by simp [h.nonempty, h.dot])]
    rfl
  rw [SourcePattern.fromStr, if_neg, hcomponents, List.intercalate_singleton]
  · constructor
    · intro h
      obtain ⟨tokens, htokens, h⟩ := except_bind_eq_ok.mp h
      cases h
      exact ⟨htokens, rfl⟩
    · rintro ⟨htokens, rfl⟩
      rw [htokens]
      rfl
  · rw [hsplit, List.mem_singleton, not_or, not_or]
    exact ⟨h.nonempty, h.nul, Ne.symm h.dots⟩

/-- A list of components is parsed component by component. -/
theorem fromStr_parts {parts : List Text} (h : ∀ part ∈ parts, PlainPart part)
    {found : List (List Token)} :
    (∃ qs, List.Forall₂ (fun part q => SourcePattern.fromStr part = .ok q) parts qs ∧
      qs.map SourcePattern.tokens = found) ↔
      List.Forall₂ (fun part tokens => parse part = .ok tokens) parts found := by
  constructor
  · rintro ⟨qs, hqs, rfl⟩
    induction hqs with
    | nil => exact .nil
    | cons hq _ ih =>
      rw [List.forall_mem_cons] at h
      exact .cons ((fromStr_part h.1).mp hq).1 (ih h.2)
  · intro hfound
    induction hfound with
    | nil => exact ⟨[], .nil, rfl⟩
    | @cons part tokens parts found hpart _ ih =>
      rw [List.forall_mem_cons] at h
      obtain ⟨qs, hqs, rfl⟩ := ih h.2
      exact ⟨⟨part, tokens⟩ :: qs, .cons ((fromStr_part h.1).mpr ⟨hpart, rfl⟩) hqs, rfl⟩

theorem exists_forall₂_iff {α β : Type} {R : α → β → Prop} {l : List α} :
    (∃ bs, List.Forall₂ R l bs) ↔ ∀ a ∈ l, ∃ b, R a b := by
  induction l with
  | nil => exact iff_of_true ⟨[], .nil⟩ (fun a ha => by cases ha)
  | cons a l ih =>
    rw [List.forall_mem_cons, ← ih]
    constructor
    · rintro ⟨bs, hbs⟩
      cases hbs with
      | cons hb hbs => exact ⟨⟨_, hb⟩, _, hbs⟩
    · rintro ⟨⟨b, hb⟩, bs, hbs⟩
      exact ⟨b :: bs, .cons hb hbs⟩

/-- **The components of an accepted source are patterns** exactly when its separators are
    unquoted, and together they have its tokens. -/
theorem sourceParts_parse_iff {source : Text} {p : SourcePattern}
    (h : SourcePattern.fromStr source = .ok p) :
    (∃ found, List.Forall₂ (fun part tokens => parse part = .ok tokens) (sourceParts p) found ∧
      p.tokens = [separator].intercalate found) ↔ unquoted false (normalized source) = true := by
  have htokens := fromStr_tokens h
  have hparts : sourceParts p = Plan.ImagePath.components (trimSlashes source) := by
    rw [SourcePattern.fromStr] at h
    split at h
    · cases h
    · obtain ⟨tokens, _, h⟩ := except_bind_eq_ok.mp h
      cases h
      rfl
  have hplain : ∀ part ∈ sourceParts p, '/' ∉ part :=
    fun part hpart => (sourcePart_plain h hpart).slash
  rw [normalized]
  rw [← hparts] at htokens ⊢
  constructor
  · rintro ⟨found, hfound, _⟩
    obtain ⟨texts, hjoined, htexts, htextsPlain⟩ := join_parses hfound
    rw [hjoined, unquoted_iff htexts]
    exact htextsPlain hplain
  · intro hunquoted
    obtain ⟨texts, hsource, htexts⟩ := parse_iff.mp htokens
    rw [hsource, unquoted_iff htexts] at hunquoted
    have hall : ∀ part ∈ sourceParts p, ∃ tokens, parse part = .ok tokens := by
      intro part hpart
      refine splitOn_parses htexts hunquoted part ?_
      rw [← hsource, List.splitOn_intercalate '/' hplain (List.ne_nil_of_mem hpart)]
      exact hpart
    obtain ⟨found, hfound⟩ := exists_forall₂_iff.mpr hall
    refine ⟨found, hfound, ?_⟩
    -- the whole has one reading, so the tokens are the components' ones
    obtain ⟨texts', hjoined, htexts', _⟩ := join_parses hfound
    have hagain := parse_iff.mpr ⟨texts', hjoined, htexts'⟩
    rw [htokens] at hagain
    exact Except.ok.inj hagain

/-! Selection. -/

theorem resolveFrom_fails {entries : Entries} {path resolved pending : EntryPath} {links : Nat} :
    Fails (fun e => ∀ cause, e ≠ .pattern cause) (resolveFrom entries path links resolved pending) := by
  fun_induction resolveFrom entries path links resolved pending
  all_goals first
    | exact Fails.ok _
    | exact Fails.error (fun _ => by simp)
    | assumption

theorem visit_fails {entries : Entries} {part : Text} {matcher : SourcePattern} {seen : Bool}
    {next : List EntryPath} {path : EntryPath} :
    Fails (fun e => ∀ cause, e ≠ .pattern cause) (visit entries part matcher seen next path) := by
  unfold visit
  split
  · exact Fails.error (fun _ => by simp)
  · refine Fails.bind ?_ (fun actual _ => ?_)
    · unfold standing
      split
      · exact Fails.ok _
      · exact Fails.map _ resolveFrom_fails
    · split
      · exact Fails.ok _
      · split
        · exact Fails.ok _
        · exact Fails.ok _

theorem selectPath_fails {entries : Entries} {found : List CopySource} {selected : EntryPath} :
    Fails (fun e => ∀ cause, e ≠ .pattern cause) (selectPath entries found selected) := by
  refine Fails.bind resolveFrom_fails (fun resolved _ => ?_)
  split
  · exact Fails.error (fun _ => by simp)
  · exact Fails.ok _

/-- **Selecting fails as a pattern only where a component does.** -/
theorem select_fails {p : SourcePattern}
    (h : ∀ part ∈ sourceParts p, ∃ q, SourcePattern.fromStr part = .ok q) (entries : Entries) :
    Fails (fun e => ∀ cause, e ≠ .pattern cause) (select entries [p]) := by
  refine Fails.bind (Fails.foldlM fun found q hq => ?_) (fun found _ => ?_)
  · rw [List.mem_singleton.mp hq]
    refine Fails.bind (Fails.foldlM fun w part hpart => ?_) (fun w _ => ?_)
    · obtain ⟨q, hparsed⟩ := h part hpart
      refine Fails.bind (Fails.mapError fun e he => ?_) (fun matcher _ => ?_)
      · rw [hparsed] at he
        cases he
      · exact Fails.bind (Fails.foldlM fun _ _ _ => visit_fails) (fun _ _ => Fails.ok _)
    · split
      · exact Fails.error (fun _ => by simp)
      · exact Fails.foldlM fun _ _ _ => selectPath_fails
  · split
    · exact Fails.error (fun _ => by simp)
    · exact Fails.ok _

/-- **An accepted source is never refused as a pattern later** exactly when its
    separators are unquoted: its components are patterns then, with the tokens it was
    accepted with. -/
theorem components_iff {source : Text} {p : SourcePattern}
    (h : SourcePattern.fromStr source = .ok p) :
    ((∃ qs, List.Forall₂ (fun part q => SourcePattern.fromStr part = .ok q) (sourceParts p) qs ∧
        p.tokens = [separator].intercalate (qs.map SourcePattern.tokens)) ∧
      ∀ entries e, select entries [p] ≠ .error (.pattern e)) ↔
    unquoted false (normalized source) = true := by
  have hplain : ∀ part ∈ sourceParts p, PlainPart part := fun part hpart => sourcePart_plain h hpart
  rw [← sourceParts_parse_iff h]
  constructor
  · intro hparts
    obtain ⟨qs, hqs, htokens⟩ := hparts.1
    exact ⟨qs.map SourcePattern.tokens, (fromStr_parts hplain).mp ⟨qs, hqs, rfl⟩, htokens⟩
  · intro hparts
    obtain ⟨found, hfound, htokens⟩ := hparts
    obtain ⟨qs, hqs, rfl⟩ := (fromStr_parts hplain).mpr hfound
    refine ⟨⟨qs, hqs, htokens⟩, fun entries e herror => ?_⟩
    exact select_fails (exists_forall₂_iff.mp ⟨qs, hqs⟩) entries _ herror e rfl

/-- `a/*`, whose separator is no part of a token. -/
theorem components_sample : ∃ p, SourcePattern.fromStr ['a', '/', '*'] = .ok p ∧
    (∃ qs, List.Forall₂ (fun part q => SourcePattern.fromStr part = .ok q) (sourceParts p) qs ∧
      p.tokens = [separator].intercalate (qs.map SourcePattern.tokens)) ∧
    ∀ entries e, select entries [p] ≠ .error (.pattern e) := by
  have hnil : parse [] = .ok [] := by rw [parse]
  have hstar : parse ['*'] = .ok [.star] := parse_cons_eq_ok.mpr ⟨.star, _, _, rfl, hnil, rfl⟩
  have hslash : parse ['/', '*'] = .ok [separator, .star] :=
    parse_cons_eq_ok.mpr ⟨separator, _, _, rfl, hstar, rfl⟩
  have hparse : parse ['a', '/', '*'] = .ok [.literal [97], separator, .star] :=
    parse_cons_eq_ok.mpr ⟨.literal [97], _, _, rfl, hslash, rfl⟩
  have hnormalized : normalized ['a', '/', '*'] = ['a', '/', '*'] := by decide
  have hsource := @fromStr_normalized ['a', '/', '*'] _ (by decide) (by rw [hnormalized, hparse])
  exact ⟨_, hsource, (components_iff hsource).mpr (by rw [hnormalized]; rfl)⟩

/-- `[/]` is accepted, and its first component is an open bracket. -/
theorem class_of_separator_refused : ∃ p, SourcePattern.fromStr ['[', '/', ']'] = .ok p ∧
    ∀ entries, select entries [p] = .error (.pattern .invalid) := by
  have hnil : parse [] = .ok [] := by rw [parse]
  have hclass : token '[' ['/', ']'] = .ok (.class false [('/', '/')], []) :=
    token_iff.mpr ⟨['[', '/', ']'], rfl, .class (by decide) (by decide)
      (.cons (.single (.plain (by decide) (by decide) (by decide))) .close)⟩
  have hparse : parse ['[', '/', ']'] = .ok [.class false [('/', '/')]] :=
    parse_cons_eq_ok.mpr ⟨_, _, _, hclass, hnil, rfl⟩
  have hnormalized : normalized ['[', '/', ']'] = ['[', '/', ']'] := by decide
  have hsource := @fromStr_normalized ['[', '/', ']'] _ (by decide) (by rw [hnormalized, hparse])
  have hopen : SourcePattern.fromStr ['['] = .error .invalid := by
    cases hrefused : SourcePattern.fromStr ['['] with
    | error e => rfl
    | ok q =>
      -- a class needs its bracket
      obtain ⟨first, rest, more, hfirst, _, _⟩ := parse_cons_eq_ok.mp (fromStr_tokens hrefused)
      obtain ⟨out, hranges, _⟩ := except_bind_eq_ok.mp (hfirst : classOf [] = _)
      obtain ⟨hfound, _⟩ | ⟨_, low, rest', _, _, hlow, _⟩ := ranges_eq_ok.mp hranges
      · exact absurd rfl hfound
      · cases hlow
  refine ⟨_, hsource, fun entries => ?_⟩
  have hparts : sourceParts ⟨['[', '/', ']'], [.class false [('/', '/')]]⟩ = [['['], [']']] := by
    decide
  have hround : ∀ w, partRound entries w ['['] = .error (.pattern .invalid) := by
    intro w
    rw [partRound, hopen]
    rfl
  rw [select, List.foldlM_cons, selectPattern, hparts, List.foldlM_cons, hround]
  rfl

end Conglobate.Copy
