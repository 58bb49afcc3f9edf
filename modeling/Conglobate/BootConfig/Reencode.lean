import Conglobate.BootConfig.Accepted

/- Which parsed configurations can be written back (`parse_tryFrom`).

   What a document evaluates to keeps the writer's limits: its keys are valid, and
   the reader's count of nodes bounds the writer's (`Consistent`). So writing back
   can fail only for a value's quoting. A value is written unless it has both quotes
   and ends in a blank; a value read that is of that kind is the text's last item, an
   unquoted one, where trailing blanks count (`item_writable`, `body_writable`). -/
namespace Conglobate.BootConfig

open Ascii

/-! The limits. -/

/-- The writer's limits, kept by what a reader has counted. -/
structure Tally.Consistent (t : Tally) : Prop where
  valid : ∀ e ∈ t.values.entries, keyValid e.1 = true
  nodes : nodesOf t.values.entries ⊆ t.keys
  count : countOf t.values.entries ≤ t.allocated
  budget : t.keys.card + t.allocated ≤ maxNodes

theorem countOf_insert (values : Values) (key : Bytes) (v : List Bytes) :
    countOf (values.insert key v).entries + ((values.get? key).getD []).length =
      countOf values.entries + v.length := by
  have h := OrdMap.sum_insert values key v List.length
  cases hget : values.get? key with
  | none =>
    rw [hget] at h
    exact h
  | some current =>
    rw [hget] at h
    exact h

theorem nodesOf_insert (values : Values) (key : Bytes) (v : List Bytes) :
    nodesOf (values.insert key v).entries ⊆ nodesOf values.entries ∪ keyNodes key := by
  intro x hx
  obtain ⟨e, he, hmem⟩ := mem_nodesOf.mp hx
  rw [Finset.mem_union]
  rcases OrdMap.mem_insertEntries he with rfl | he
  · exact .inr hmem
  · exact .inl (mem_nodesOf.mpr ⟨e, he, hmem⟩)

theorem valid_insert {values : Values} {key : Bytes} (h : ∀ e ∈ values.entries, keyValid e.1 = true)
    (hkey : keyValid key = true) (v : List Bytes) :
    ∀ e ∈ (values.insert key v).entries, keyValid e.1 = true := by
  intro e he
  rcases OrdMap.mem_insertEntries he with rfl | he
  · exact hkey
  · exact h e he

theorem consistent_empty : Tally.empty.Consistent := by
  refine ⟨?_, ?_, ?_, ?_⟩ <;> simp [Tally.empty, OrdMap.empty, nodesOf, countOf]

/-- A key met keeps the limits, and is counted. -/
theorem mention_consistent {t t' : Tally} {key : Bytes} (h : t.Consistent)
    (hmention : t.mention key = some t') :
    t'.Consistent ∧ keyValid key = true ∧ keyNodes key ⊆ t'.keys := by
  rw [Tally.mention] at hmention
  split at hmention
  · rename_i hlimits
    cases hmention
    refine ⟨⟨?_, ?_, ?_, hlimits.2⟩, hlimits.1, Finset.subset_union_right⟩
    · dsimp only
      split
      · exact h.valid
      · exact valid_insert h.valid hlimits.1 []
    · dsimp only
      split
      · exact h.nodes.trans Finset.subset_union_left
      · exact (nodesOf_insert t.values key []).trans (Finset.union_subset_union_left h.nodes)
    · dsimp only
      split
      · exact h.count
      · have hcount := countOf_insert t.values key []
        have hle := h.count
        rw [List.length_nil] at hcount
        omega
  · cases hmention

/-- What an assignment inserts: nothing but old and new values, and no more nodes than it counts. -/
theorem assign_inserts {values values' : Values} {key : Bytes} {op : Operator} {new : List Bytes}
    (h : Flat.apply values (.assign key op new) = some values') :
    ∃ v, values' = values.insert key v ∧ (∀ x ∈ v, x ∈ (values.get? key).getD [] ∨ x ∈ new) ∧
      v.length ≤ ((values.get? key).getD []).length + Tally.fresh op
        ((values.get? key).getD []) new := by
  cases hcurrent : (values.get? key).getD [] with
  | nil =>
    have hinsert : values.insert key new = values' := by cases op <;> simpa [Flat.apply, hcurrent] using h
    refine ⟨new, hinsert.symm, fun x hx => .inr hx, ?_⟩
    cases op <;> simp [Tally.fresh]
  | cons c current =>
    cases op with
    | set => simp [Flat.apply, hcurrent] at h
    | replace =>
      have hinsert : values.insert key new = values' := by simpa [Flat.apply, hcurrent] using h
      refine ⟨new, hinsert.symm, fun x hx => .inr hx, ?_⟩
      simp only [Tally.fresh, if_neg (List.cons_ne_nil c current), List.length_cons]
      omega
    | append =>
      have hinsert : values.insert key (c :: current ++ new) = values' := by
        simpa [Flat.apply, hcurrent] using h
      refine ⟨c :: current ++ new, hinsert.symm, fun x hx => List.mem_append.mp hx, ?_⟩
      rw [List.length_append, Tally.fresh]

/-- So does an assignment to a key that is counted. -/
theorem assign_consistent {t t' : Tally} {key : Bytes} {op : Operator} {new : List Bytes}
    (h : t.Consistent) (hvalid : keyValid key = true) (hkey : keyNodes key ⊆ t.keys)
    (hassign : t.assign key op new = some t') :
    t'.Consistent := by
  rw [Tally.assign] at hassign
  split at hassign
  · rename_i hlimits
    obtain ⟨values, hvalues, rfl⟩ := Option.map_eq_some_iff.mp hassign
    obtain ⟨v, rfl, -, hlen⟩ := assign_inserts hvalues
    have hcount := countOf_insert t.values key v
    have hle := h.count
    refine ⟨valid_insert h.valid hvalid v, (nodesOf_insert t.values key v).trans
      (Finset.union_subset h.nodes hkey), ?_, hlimits.2.2⟩
    dsimp only
    omega
  · cases hassign

/-- **What is read keeps the writer's limits.** -/
theorem eval_consistent {d : Document} {scopeKey : Bytes} {t t' : Tally} (h : t.Consistent)
    (heval : d.eval scopeKey t = some t') : t'.Consistent := by
  induction d generalizing scopeKey t t' with
  | done =>
    cases heval
    exact h
  | bare word next ih =>
    obtain ⟨u, hu, heval⟩ := Option.bind_eq_some_iff.mp heval
    exact ih (mention_consistent h hu).1 heval
  | assign word op new next ih =>
    obtain ⟨w, hw, heval⟩ := Option.bind_eq_some_iff.mp heval
    obtain ⟨u, hu, hw⟩ := Option.bind_eq_some_iff.mp hw
    obtain ⟨hconsistent, hvalid, hkey⟩ := mention_consistent h hu
    exact ih (assign_consistent hconsistent hvalid hkey hw) heval
  | group word body next ihbody ihnext =>
    obtain ⟨w, hw, heval⟩ := Option.bind_eq_some_iff.mp heval
    obtain ⟨u, hu, hw⟩ := Option.bind_eq_some_iff.mp hw
    exact ihnext (ihbody (mention_consistent h hu).1 hw) heval

/-! The values. -/

/-- The values a document assigns. -/
def Document.written : Document → List Bytes
  | .done => []
  | .bare _ next => next.written
  | .assign _ _ values next => values ++ next.written
  | .group _ body next => body.written ++ next.written

/-- The values held. -/
def Holds (P : Bytes → Prop) (values : Values) : Prop := ∀ e ∈ values.entries, ∀ v ∈ e.2, P v

theorem holds_insert {P : Bytes → Prop} {values : Values} (h : Holds P values) {key : Bytes}
    {new : List Bytes} (hnew : ∀ v ∈ new, P v) : Holds P (values.insert key new) := by
  intro e he
  rcases OrdMap.mem_insertEntries he with rfl | he
  · exact hnew
  · exact h e he

theorem holds_get? {P : Bytes → Prop} {values : Values} (h : Holds P values) (key : Bytes) :
    ∀ v ∈ (values.get? key).getD [], P v := by
  cases hget : values.get? key with
  | none => intro v hv; cases hv
  | some current => exact h _ (OrdMap.get?_eq_some.mp hget)

theorem mention_holds {P : Bytes → Prop} {t t' : Tally} {key : Bytes} (h : Holds P t.values)
    (hmention : t.mention key = some t') : Holds P t'.values := by
  rw [← Option.some.inj (mention_values hmention)]
  split
  · exact h
  · exact holds_insert h (by simp)

/-- An assignment accepted has printable values, and holds the old and the new. -/
theorem assign_holds {P : Bytes → Prop} {t t' : Tally} {key : Bytes} {op : Operator}
    {new : List Bytes} (h : Holds P t.values) (hnew : ∀ v ∈ new, checkValue v = .ok () → P v)
    (hassign : t.assign key op new = some t') :
    Holds P t'.values := by
  have hprintable : ∀ v ∈ new, checkValue v = .ok () := by
    rw [Tally.assign] at hassign
    split at hassign
    · rename_i hlimits
      exact hlimits.1
    · cases hassign
  obtain ⟨v, hinsert, hmem, -⟩ := assign_inserts (assign_values hassign)
  rw [hinsert]
  apply holds_insert h
  intro x hx
  rcases hmem x hx with hx | hx
  · exact holds_get? h key x hx
  · exact hnew x hx (hprintable x hx)

/-- **What is read holds only what was there and what is assigned.** -/
theorem eval_holds {P : Bytes → Prop} {d : Document} {scopeKey : Bytes} {t t' : Tally}
    (h : Holds P t.values) (hwritten : ∀ v ∈ d.written, checkValue v = .ok () → P v)
    (heval : d.eval scopeKey t = some t') :
    Holds P t'.values := by
  induction d generalizing scopeKey t t' with
  | done =>
    cases heval
    exact h
  | bare word next ih =>
    obtain ⟨u, hu, heval⟩ := Option.bind_eq_some_iff.mp heval
    exact ih (mention_holds h hu) hwritten heval
  | assign word op new next ih =>
    obtain ⟨w, hw, heval⟩ := Option.bind_eq_some_iff.mp heval
    obtain ⟨u, hu, hw⟩ := Option.bind_eq_some_iff.mp hw
    exact ih (assign_holds (mention_holds h hu) (fun v hv => hwritten v
      (List.mem_append_left _ hv)) hw)
      (fun v hv => hwritten v (List.mem_append_right _ hv)) heval
  | group word body next ihbody ihnext =>
    obtain ⟨w, hw, heval⟩ := Option.bind_eq_some_iff.mp heval
    obtain ⟨u, hu, hw⟩ := Option.bind_eq_some_iff.mp hw
    exact ihnext (ihbody (mention_holds h hu) (fun v hv => hwritten v
      (List.mem_append_left _ hv)) hw)
      (fun v hv => hwritten v (List.mem_append_right _ hv)) heval

/-! Quoting. -/

/-- A value with both quotes that ends in a blank has no writing. -/
def Unquotable (v : Bytes) : Prop := singleQuote ∈ v ∧ doubleQuote ∈ v ∧ v.getLast?.any space = true

theorem encode_unquotable {v : Bytes} (hcheck : checkValue v = .ok ()) (h : Unquotable v) :
    encode v = .error .quoting := by
  obtain ⟨hsingle, hdouble, hlast⟩ := h
  rw [encode, hcheck, except_ok_bind, List.contains_iff_mem.mpr hdouble,
    List.contains_iff_mem.mpr hsingle, hlast]
  simp

/-- An item that is an unquoted value, taken up to the end of the text. -/
structure UnquotedItem (item v : Bytes) : Prop where
  stands : ∃ blanks, Blanks false blanks ∧ item = blanks ++ v
  plain : ∀ c ∈ v, delimiter c = false
  head : ∀ c ∈ v.head?, space c = false ∧ c ≠ singleQuote ∧ c ≠ doubleQuote

/-- The text's last item is the unquoted value `v`: an operator or a comma opens it, and
    nothing is behind it. -/
def LastItem (text v : Bytes) : Prop :=
  ∃ item, UnquotedItem item v ∧
    (equals :: item <:+ text ∨ ∃ gap, Gap gap item ∧ comma :: gap <:+ text)

/-- A value that is not written only where it ends the text. -/
def EndsText (text v rest : Bytes) : Prop := Unquotable v ∧ rest = [] ∧ LastItem text v

theorem encode_quote {v : Bytes} (hcheck : checkValue v = .ok ())
    (h : singleQuote ∉ v ∨ doubleQuote ∉ v) :
    ∃ item, encode v = .ok item := by
  rw [encode, hcheck, except_ok_bind]
  by_cases hdouble : doubleQuote ∈ v
  · have hsingle : singleQuote ∉ v := h.resolve_right (not_not_intro hdouble)
    exact ⟨_, by simp [hdouble, hsingle]; rfl⟩
  · exact ⟨_, by simp [hdouble]; rfl⟩

theorem encode_plain {v : Bytes} (hcheck : checkValue v = .ok ())
    (hdelim : ∀ c ∈ v, delimiter c = false)
    (hhead : ∀ c ∈ v.head?, space c = false ∧ c ≠ singleQuote ∧ c ≠ doubleQuote)
    (hlast : v.getLast?.any space = false) : ∃ item, encode v = .ok item := by
  have hany : v.any delimiter = false := by simpa using hdelim
  have hfirst : v.head?.any (fun c => space c || c == singleQuote || c == doubleQuote) = false := by
    cases hv : v.head? with
    | none => rfl
    | some c =>
      obtain ⟨hspace, hsingle, hdouble⟩ := hhead c hv
      simp [hspace, hsingle, hdouble]
  by_cases hquote : singleQuote ∉ v ∨ doubleQuote ∉ v
  · exact encode_quote hcheck hquote
  · rw [not_or, not_not, not_not] at hquote
    refine ⟨v, ?_⟩
    rw [encode, hcheck, except_ok_bind, hany, hfirst, hlast, List.contains_iff_mem.mpr hquote.1,
      List.contains_iff_mem.mpr hquote.2]
    rfl

/-- Trimmed, a value keeps its head and ends in no blank. -/
theorem trimmed_last (raw : Bytes) : (raw.rdropWhile space).getLast?.any space = false := by
  cases hne : raw.rdropWhile space with
  | nil => rfl
  | cons c rest =>
    have hlast := List.rdropWhile_last_not space raw (by rw [hne]; exact List.cons_ne_nil c rest)
    rw [← hne, List.getLast?_eq_some_getLast (by rw [hne]; exact List.cons_ne_nil c rest)]
    simpa using hlast

/-- **A value read can be written**, unless it has both quotes and ends the text in a blank. -/
theorem item_writable {text v rest : Bytes} (h : Item text v rest)
    (hcheck : checkValue v = .ok ()) :
    (∃ item, encode v = .ok item) ∨ (Unquotable v ∧ rest = [] ∧ UnquotedItem text v) := by
  cases h with
  | @quoted quote before _ after _ hquote _ hv _ _ =>
    refine .inl (encode_quote hcheck ?_)
    rcases hquote with rfl | rfl
    · exact .inl (fun hmem => hv _ hmem rfl)
    · exact .inr (fun hmem => hv _ hmem rfl)
  | @unquoted before raw _ hbefore hraw hhead _ =>
    by_cases hrest : rest = []
    · rw [if_pos hrest] at hcheck ⊢
      by_cases hlast : raw.getLast?.any space = true
      · by_cases hquote : singleQuote ∉ raw ∨ doubleQuote ∉ raw
        · exact .inl (encode_quote hcheck hquote)
        · rw [not_or, not_not, not_not] at hquote
          -- nothing is behind the value, so its blanks are kept
          have hstands : before ++ (raw ++ rest) = before ++ raw := by rw [hrest, List.append_nil]
          exact .inr ⟨⟨hquote.1, hquote.2, hlast⟩, hrest, ⟨before, hbefore, hstands⟩, hraw, hhead⟩
      · exact .inl (encode_plain hcheck hraw hhead (Bool.not_eq_true _ ▸ hlast))
    · rw [if_neg hrest] at hcheck ⊢
      have hsub := List.rdropWhile_prefix space (l := raw)
      refine .inl (encode_plain hcheck (fun c hc => hraw c (hsub.subset hc))
        (fun c hc => hhead c ?_)
        (trimmed_last raw))
      obtain ⟨tail, htail⟩ := hsub
      rw [← htail, List.head?_append, hc]
      rfl

/-- The text's last item ends it. -/
theorem LastItem.suffix {text v : Bytes} (h : LastItem text v) : v <:+ text := by
  obtain ⟨item, hitem, hbehind⟩ := h
  obtain ⟨blanks, -, rfl⟩ := hitem.stands
  have hv : v <:+ blanks ++ v := List.suffix_append blanks v
  rcases hbehind with hequals | ⟨gap, hgap, hcomma⟩
  · exact hv.trans ((List.suffix_cons _ _).trans hequals)
  · exact hv.trans ((gap_suffix hgap).trans ((List.suffix_cons _ _).trans hcomma))

theorem LastItem.of_suffix {text text' v : Bytes} (h : LastItem text v) (htext : text <:+ text') :
    LastItem text' v := by
  obtain ⟨item, hitem, hbehind⟩ := h
  refine ⟨item, hitem, hbehind.imp (fun hequals => hequals.trans htext) (fun hcomma => ?_)⟩
  obtain ⟨gap, hgap, hcomma⟩ := hcomma
  exact ⟨gap, hgap, hcomma.trans htext⟩

theorem suffix_last {a b : Bytes} (h : a <:+ b) (hlast : a.getLast?.any space = true) :
    b.getLast?.any space = true := by
  obtain ⟨front, rfl⟩ := h
  obtain ⟨c, hc, hspace⟩ := (Option.any_eq_true _ _).mp hlast
  rw [List.getLast?_append, hc]
  simpa using hspace

/-- Ending a text is ending every text it is the end of. -/
theorem EndsText.of_suffix {text text' v rest rest' : Bytes} (h : EndsText text v rest)
    (htext : text <:+ text') (hrest : rest' <:+ rest) : EndsText text' v rest' :=
  ⟨h.1, List.suffix_nil.mp (h.2.1 ▸ hrest), h.2.2.of_suffix htext⟩

theorem more_writable {text rest : Bytes} {vs : List Bytes} (h : More text vs rest) :
    ∀ v ∈ vs, checkValue v = .ok () → (∃ item, encode v = .ok item) ∨ EndsText text v rest := by
  induction h with
  | done _ =>
    intro v hv
    cases hv
  | @value text text' mid rest v vs hgap hitem hmore ih =>
    have hmid := (item_suffix hitem).trans (gap_suffix hgap)
    intro x hx hcheck
    rcases List.mem_cons.mp hx with rfl | hx
    · refine (item_writable hitem hcheck).imp id (fun hends => ?_)
      obtain ⟨hbad, hmidnil, hunquoted⟩ := hends
      have hrest : rest = [] := List.suffix_nil.mp (hmidnil ▸ more_suffix hmore)
      exact ⟨hbad, hrest, text', hunquoted, .inr ⟨text, hgap, List.suffix_refl _⟩⟩
    · exact (ih x hx hcheck).imp id (fun hends =>
        hends.of_suffix (hmid.trans (List.suffix_cons _ _)) (List.suffix_refl _))

/-- The values behind an operator, whose last byte is the equals sign. -/
theorem items_writable {text rest : Bytes} {vs : List Bytes} (h : Items text vs rest) :
    ∀ v ∈ vs, checkValue v = .ok () → (∃ item, encode v = .ok item) ∨
      EndsText (equals :: text) v rest := by
  obtain ⟨hitem, hmore⟩ := h
  intro x hx hcheck
  rcases List.mem_cons.mp hx with rfl | hx
  · refine (item_writable hitem hcheck).imp id (fun hends => ?_)
    obtain ⟨hbad, hmidnil, hunquoted⟩ := hends
    have hrest : rest = [] := List.suffix_nil.mp (hmidnil ▸ more_suffix hmore)
    exact ⟨hbad, hrest, text, hunquoted, .inl (List.suffix_refl _)⟩
  · exact (more_writable hmore x hx hcheck).imp id (fun hends =>
      hends.of_suffix ((item_suffix hitem).trans (List.suffix_cons _ _)) (List.suffix_refl _))

theorem operator_suffix (op : Operator) (text : Bytes) : equals :: text <:+ op.text ++ text := by
  cases op with
  | set => exact List.suffix_refl _
  | replace => exact List.suffix_cons _ _
  | append => exact List.suffix_cons _ _

/-- **Every value a text assigns can be written**, or ends the text. -/
theorem body_writable {top : Bool} {text rest : Bytes} {d : Document} (h : Body top text d rest) :
    ∀ v ∈ d.written, checkValue v = .ok () → (∃ item, encode v = .ok item) ∨
      EndsText text v rest := by
  induction h with
  | finish =>
    intro v hv
    cases hv
  | close =>
    intro v hv
    cases hv
  | blank _ _ ih =>
    exact fun v hv hcheck => (ih v hv hcheck).imp id (fun hends =>
      hends.of_suffix (List.suffix_cons _ _) (List.suffix_refl _))
  | semicolon _ ih =>
    exact fun v hv hcheck => (ih v hv hcheck).imp id (fun hends =>
      hends.of_suffix (List.suffix_cons _ _) (List.suffix_refl _))
  | comment _ _ ih =>
    exact fun v hv hcheck => (ih v hv hcheck).imp id (fun hends =>
      hends.of_suffix List.suffix_cons_append (List.suffix_refl _))
  | @bare top word blanks text rest d _ _ _ _ ih =>
    have htext : text <:+ word ++ (blanks ++ text) :=
      List.suffix_append_of_suffix (List.suffix_append _ _)
    exact fun v hv hcheck => (ih v hv hcheck).imp id
      (fun hends => hends.of_suffix htext (List.suffix_refl _))
  | @assign top word blanks text mid rest op values d _ _ hitems hbody ih =>
    have hopens : equals :: text <:+ word ++ (blanks ++ (op.text ++ text)) :=
      List.suffix_append_of_suffix (List.suffix_append_of_suffix (operator_suffix op text))
    have htext := (List.suffix_cons equals text).trans hopens
    intro v hv hcheck
    rcases List.mem_append.mp hv with hv | hv
    · exact (items_writable hitems v hv hcheck).imp id
        (fun hends => hends.of_suffix hopens (body_suffix hbody))
    · exact (ih v hv hcheck).imp id (fun hends =>
        hends.of_suffix ((items_suffix hitems).trans htext) (List.suffix_refl _))
  | @group top word blanks text mid rest body d _ _ hinner hbody ihbody ih =>
    have htext : text <:+ word ++ (blanks ++ (openBrace :: text)) :=
      List.suffix_append_of_suffix (List.suffix_append_of_suffix (List.suffix_cons _ _))
    intro v hv hcheck
    rcases List.mem_append.mp hv with hv | hv
    · exact (ihbody v hv hcheck).imp id (fun hends => hends.of_suffix htext (body_suffix hbody))
    · exact (ih v hv hcheck).imp id (fun hends =>
        hends.of_suffix ((body_suffix hinner).trans htext) (List.suffix_refl _))

/-! Writing back. -/

theorem encodeMore_ok {values : List Bytes} :
    (∃ more, encodeMore values = .ok more) ↔ ∀ v ∈ values, ∃ item, encode v = .ok item := by
  induction values with
  | nil => exact ⟨fun _ => by simp, fun _ => ⟨[], rfl⟩⟩
  | cons v values ih =>
    rw [List.forall_mem_cons, ← ih]
    constructor
    · rintro ⟨_, h⟩
      obtain ⟨item, hitem, h⟩ := except_bind_eq_ok.mp h
      obtain ⟨more, hmore, -⟩ := except_bind_eq_ok.mp h
      exact ⟨⟨item, hitem⟩, ⟨more, hmore⟩⟩
    · rintro ⟨⟨item, hitem⟩, ⟨more, hmore⟩⟩
      refine ⟨comma :: blank :: item ++ more, ?_⟩
      rw [encodeMore, hitem, except_ok_bind, hmore]
      rfl

theorem encodeEntry_ok {entry : Bytes × List Bytes} :
    (∃ line, encodeEntry entry = .ok line) ↔ ∀ v ∈ entry.2, ∃ item, encode v = .ok item := by
  obtain ⟨name, values⟩ := entry
  cases values with
  | nil => exact ⟨fun _ => by simp, fun _ => ⟨_, rfl⟩⟩
  | cons v values =>
    rw [List.forall_mem_cons, ← encodeMore_ok]
    constructor
    · rintro ⟨_, h⟩
      obtain ⟨item, hitem, h⟩ := except_bind_eq_ok.mp h
      obtain ⟨more, hmore, -⟩ := except_bind_eq_ok.mp h
      exact ⟨⟨item, hitem⟩, ⟨more, hmore⟩⟩
    · rintro ⟨⟨item, hitem⟩, ⟨more, hmore⟩⟩
      refine ⟨name ++ [blank, equals, blank] ++ (item ++ more) ++ [semicolon, newline], ?_⟩
      rw [encodeEntry]
      dsimp only
      rw [hitem, except_ok_bind, hmore]
      rfl

theorem encodeEntries_ok {entries : List (Bytes × List Bytes)} :
    (∃ text, encodeEntries entries = .ok text) ↔ ∀ e ∈ entries, ∀ v ∈ e.2, ∃ item, encode v =
      .ok item := by
  induction entries with
  | nil => exact ⟨fun _ => by simp, fun _ => ⟨[], rfl⟩⟩
  | cons entry entries ih =>
    rw [List.forall_mem_cons, ← encodeEntry_ok, ← ih]
    constructor
    · rintro ⟨_, h⟩
      obtain ⟨line, hline, h⟩ := except_bind_eq_ok.mp h
      obtain ⟨text, htext, -⟩ := except_bind_eq_ok.mp h
      exact ⟨⟨line, hline⟩, ⟨text, htext⟩⟩
    · rintro ⟨⟨line, hline⟩, ⟨text, htext⟩⟩
      refine ⟨line ++ text, ?_⟩
      rw [encodeEntries, hline, except_ok_bind, htext]
      rfl

/-- A printable value is written, or has no quoting. -/
theorem encode_error {v : Bytes} {e : Error} (hcheck : checkValue v = .ok ())
    (h : encode v = .error e) :
    e = .quoting := by
  rw [encode, hcheck, except_ok_bind] at h
  split at h
  · cases h
  · split at h
    · cases h
    · split at h
      · cases h
      · cases h
        rfl

theorem bind_error {α β : Type} {x : Except Error α} {f : α → Except Error β} {e : Error}
    (h : (x >>= f) = .error e) : x = .error e ∨ ∃ a, x = .ok a ∧ f a = .error e := by
  cases x with
  | error x =>
    cases h
    exact .inl rfl
  | ok a => exact .inr ⟨a, rfl, h⟩

theorem encodeMore_error {values : List Bytes} {e : Error}
    (hcheck : ∀ v ∈ values, checkValue v = .ok ()) (h : encodeMore values = .error e) :
    e = .quoting := by
  induction values with
  | nil => cases h
  | cons v values ih =>
    obtain ⟨hv, hvalues⟩ := List.forall_mem_cons.mp hcheck
    rcases bind_error h with h | ⟨item, -, h⟩
    · exact encode_error hv h
    · rcases bind_error h with h | ⟨more, -, h⟩
      · exact ih hvalues h
      · cases h

theorem encodeEntry_error {entry : Bytes × List Bytes} {e : Error}
    (hcheck : ∀ v ∈ entry.2, checkValue v = .ok ()) (h : encodeEntry entry = .error e) :
    e = .quoting := by
  obtain ⟨name, values⟩ := entry
  cases values with
  | nil => cases h
  | cons v values =>
    obtain ⟨hv, hvalues⟩ := List.forall_mem_cons.mp hcheck
    rcases bind_error h with h | ⟨item, -, h⟩
    · exact encode_error hv h
    · rcases bind_error h with h | ⟨more, -, h⟩
      · exact encodeMore_error hvalues h
      · cases h

theorem encodeEntries_error {entries : List (Bytes × List Bytes)} {e : Error}
    (hcheck : ∀ x ∈ entries, ∀ v ∈ x.2, checkValue v = .ok ())
    (h : encodeEntries entries = .error e) :
    e = .quoting := by
  induction entries with
  | nil => cases h
  | cons entry entries ih =>
    obtain ⟨hentry, hentries⟩ := List.forall_mem_cons.mp hcheck
    rcases bind_error h with h | ⟨line, -, h⟩
    · exact encodeEntry_error hentry h
    · rcases bind_error h with h | ⟨text, -, h⟩
      · exact ih hentries h
      · cases h

/-- An entry with values is retained. -/
theorem retained_mem {values : Values} {e : Bytes × List Bytes} {v : Bytes} (h : e ∈ values.entries)
    (hv : v ∈ e.2) :
    e ∈ (retained values).entries := by
  refine List.mem_filter.mpr ⟨h, ?_⟩
  cases hvalues : e.2 with
  | nil => rw [hvalues] at hv; cases hv
  | cons w rest => rfl

/-- **Within the limits, writing is a matter of quoting.** -/
theorem tryFrom_cases {values : Values} (hvalid : ∀ e ∈ values.entries, keyValid e.1 = true)
    (hbudget : countOf values.entries + (nodesOf values.entries).card ≤ maxNodes)
    (hcheck : Holds (fun v => checkValue v = .ok ()) values) :
    ((∃ c, tryFrom values = .ok c) ∧ Holds (fun v => ∃ item, encode v = .ok item) values) ∨
    (tryFrom values = .error .quoting ∧ ¬ Holds (fun v => ∃ item, encode v = .ok item) values) := by
  cases hencode : encodeEntries (retained values).entries with
  | ok text =>
    have hcanonical : canonicalize values = .ok (retained values, text) :=
      canonicalize_eq_ok.mpr ⟨hvalid, hbudget, rfl, hencode⟩
    refine .inl ⟨⟨⟨retained values, text, canonicalize_idem hcanonical⟩,
      tryFrom_eq_ok.mpr hcanonical⟩, ?_⟩
    exact fun e he v hv => encodeEntries_ok.mp ⟨text, hencode⟩ e (retained_mem he hv) v hv
  | error e =>
    have hquoting := encodeEntries_error (fun x hx => hcheck x (retained_subset hx)) hencode
    have hcanonical : canonicalize values = .error .quoting := by
      rw [canonicalize, scan_eq_ok.mpr ⟨hvalid, rfl⟩, except_ok_bind]
      simp only [Finset.empty_union, Nat.zero_add]
      rw [if_neg (Nat.not_lt.mpr hbudget)]
      show (encodeEntries (retained values).entries >>= _) = _
      rw [hencode, hquoting]
      rfl
    refine .inr ⟨?_, fun hholds => ?_⟩
    · rw [tryFrom]
      split
      · rename_i h
        rw [hcanonical] at h
        cases h
      · rename_i h
        rw [hcanonical] at h
        cases h
        rfl
    · obtain ⟨text, htext⟩ := encodeEntries_ok.mpr (fun x hx => hholds x (retained_subset hx))
      rw [htext] at hencode
      cases hencode

/-- **What is parsed can be written back**, unless a value has both quotes and ends in a
    blank: the writer then refuses it. Such a value is the text's last item, an unquoted one,
    so the text ends in the blank. -/
theorem parse_tryFrom : ∀ text m, Parser.parse text = .ok m →
    fromStr text = tryFrom m ∧
    ((∃ c, tryFrom m = .ok c) ↔ Holds (fun v => ¬ Unquotable v) m) ∧
    (¬ Holds (fun v => ¬ Unquotable v) m →
      tryFrom m = .error .quoting ∧ text.getLast?.any space = true) ∧
    Holds (fun v => Unquotable v → LastItem text v) m := by
  intro text m hparse
  obtain ⟨d, hd⟩ := parse_renders hparse
  obtain ⟨t, ht, rfl, -⟩ := (Parser.parse_reads hd m).mp hparse
  have hconsistent := eval_consistent consistent_empty ht
  have hempty : ∀ P, Holds P Tally.empty.values := fun P e he => by cases he
  have hcheck := eval_holds (hempty (fun v => checkValue v = .ok ())) (fun v _ hv => hv) ht
  have hwritable := eval_holds (hempty _) (body_writable hd.2) ht
  -- with every value printable, unquotable is unwritable
  have hunquotable : Holds (fun v => (∃ item, encode v = .ok item) ↔ ¬ Unquotable v) t.values := by
    intro e he v hv
    refine ⟨fun hok hbad => ?_, fun hgood => ?_⟩
    · obtain ⟨item, hitem⟩ := hok
      rw [encode_unquotable (hcheck e he v hv) hbad] at hitem
      cases hitem
    · exact (hwritable e he v hv).resolve_right (fun hends => hgood hends.1)
  have hiff : Holds (fun v => ∃ item, encode v = .ok item) t.values ↔
      Holds (fun v => ¬ Unquotable v) t.values :=
    ⟨fun h e he v hv => (hunquotable e he v hv).mp (h e he v hv),
      fun h e he v hv => (hunquotable e he v hv).mpr (h e he v hv)⟩
  have hlast : Holds (fun v => Unquotable v → LastItem text v) t.values := by
    intro e he v hv hbad
    exact ((hwritable e he v hv).resolve_left (fun hok => (hunquotable e he v hv).mp hok hbad)).2.2
  have hbudget : countOf t.values.entries + (nodesOf t.values.entries).card ≤ maxNodes := by
    have hcard := Finset.card_le_card hconsistent.nodes
    have hcount := hconsistent.count
    have hle := hconsistent.budget
    omega
  refine ⟨by rw [fromStr, hparse, except_ok_bind], ?_⟩
  rcases tryFrom_cases hconsistent.valid hbudget hcheck with ⟨hok, hholds⟩ | ⟨herror, hnot⟩
  · exact ⟨iff_of_true hok (hiff.mp hholds), fun hbad => absurd (hiff.mp hholds) hbad, hlast⟩
  · have hrefused : ¬ ∃ c, tryFrom t.values = .ok c := by
      intro hok
      obtain ⟨c, hc⟩ := hok
      rw [herror] at hc
      cases hc
    refine ⟨iff_of_false hrefused (fun h => hnot (hiff.mpr h)), fun _ => ⟨herror, ?_⟩, hlast⟩
    by_contra hblank
    refine hnot (fun e he v hv => (hwritable e he v hv).resolve_right (fun hends => hblank ?_))
    exact suffix_last hends.2.2.suffix hends.1.2.2

/-- `k = x'" `, whose value keeps its last blank. -/
def sampleUnquotable : Bytes := [107, 32, 61, 32, 120, 39, 34, 32]

/-- The value is refused, and it is the text's last item. -/
theorem parse_tryFrom_sample : fromStr sampleUnquotable = .error .quoting ∧
    sampleUnquotable.getLast?.any space = true ∧ LastItem sampleUnquotable [120, 39, 34, 32] := by
  have hparse : Parser.parse sampleUnquotable = .ok (OrdMap.empty.insert [107]
    [[120, 39, 34, 32]]) := rfl
  obtain ⟨hfrom, -, hrefused, hlast⟩ := parse_tryFrom sampleUnquotable _ hparse
  have hbad : Unquotable [120, 39, 34, 32] := by
    refine ⟨?_, ?_, ?_⟩ <;> decide
  have hentry : ([107], [[120, 39, 34, 32]]) ∈
      (OrdMap.empty.insert [107] [[120, 39, 34, 32]] : Values).entries := List.mem_singleton.mpr rfl
  have hheld := hrefused (fun h => h _ hentry _ (List.mem_singleton.mpr rfl) hbad)
  exact ⟨hfrom.trans hheld.1, hheld.2, hlast _ hentry _ (List.mem_singleton.mpr rfl) hbad⟩

theorem tryFrom_refuses :
    ¬ ∀ text m, Parser.parse text = .ok m → ∃ c, tryFrom m = .ok c := by
  intro h
  obtain ⟨c, hc⟩ := h sampleUnquotable _ rfl
  cases hc

end Conglobate.BootConfig
