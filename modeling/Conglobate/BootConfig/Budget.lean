import Conglobate.BootConfig.Reencode

/- The node budget of the bounded parser (`boot_config/parser.rs`).

   Linux counts a node for every key, every ancestor of a key and every value it
   allocates, and the parser keeps the same account. `Reaches` follows a run through
   the rounds of `scope`, the groups it is in counted by `depth`; what a round keeps
   (`Consistent`) holds of every state reached, so the account bounds what is left in
   the map at the end (`parse_budget`). A group's key has a component more than its
   scope's, which is what bounds the recursion. -/
namespace Conglobate.BootConfig

open Ascii

namespace Parser

/-- The node account: distinct keys and their ancestors, and the values allocated. -/
def account (s : Parser) : Nat := s.keys.card + s.allocatedValues

/-- The components of a scope's key. -/
def components (scopeKey : Bytes) : Nat :=
  if scopeKey = [] then 0 else (scopeKey.splitOn dot).length

/-- The states at the head of a round of `scope`, in the group of `scopeKey`, `depth` groups deep. -/
inductive Reaches (text : Bytes) : Nat → Bytes → Parser → Prop
  | start : Reaches text 0 [] (start text)
  | again {depth : Nat} {scopeKey : Bytes} {s t : Parser} : Reaches text depth scopeKey s →
      round scopeKey (s.spaces true) = .ok (.again t) → Reaches text depth scopeKey t
  | enter {depth : Nat} {scopeKey key : Bytes} {s t : Parser} : Reaches text depth scopeKey s →
      round scopeKey (s.spaces true) = .ok (.group key t) → Reaches text (depth + 1) key t
  | leave {depth fuel : Nat} {scopeKey key : Bytes} {s t u : Parser} :
      Reaches text depth scopeKey s →
      round scopeKey (s.spaces true) = .ok (.group key t) → scope fuel key t = .ok u →
        Reaches text depth scopeKey u

/-! Values, which cost nothing until they are stored. -/

theorem value_tally {s t : Parser} {item : Bytes} (h : s.value = .ok (item, t)) :
    t.tally = s.tally := by
  have hquoted : ∀ {quote : UInt8} {s t : Parser} {item : Bytes}, quoted quote s = .ok (item, t) →
      t.tally = s.tally := by
    intro quote s t item h
    rw [quoted] at h
    split at h
    · cases h
    · split at h
      · cases h
      · obtain ⟨_, _, h⟩ := except_bind_eq_ok.mp h
        cases h
        rfl
  have hunquoted : ∀ {s t : Parser} {item : Bytes}, unquoted s = .ok (item, t) →
      t.tally = s.tally := by
    intro s t item h
    rw [unquoted] at h
    split at h
    all_goals
      obtain ⟨_, _, h⟩ := except_bind_eq_ok.mp h
      cases h
      rfl
  rw [value] at h
  split at h
  · split at h
    · exact (hquoted h).trans rfl
    · exact (hunquoted h).trans rfl
  · exact (hunquoted h).trans rfl

theorem skipComments_tally (fuel : Nat) (s : Parser) : (skipComments fuel s).tally = s.tally := by
  induction fuel generalizing s with
  | zero => rfl
  | succ fuel ih =>
    rw [skipComments]
    split
    · exact ih _
    · rfl

theorem arrayMore_tally {fuel : Nat} {values found : List Bytes} {s t : Parser}
    (h : arrayMore fuel values s = .ok (found, t)) (hne : values ≠ []) :
    t.tally = s.tally ∧ found ≠ [] := by
  induction fuel generalizing values s with
  | zero => cases h
  | succ fuel ih =>
    rw [arrayMore] at h
    split at h
    · obtain ⟨⟨item, u⟩, hitem, h⟩ := except_bind_eq_ok.mp h
      dsimp only at h
      split at h
      · cases h
      · obtain ⟨htally, hfound⟩ := ih h (by simp)
        refine ⟨?_, hfound⟩
        rw [htally, value_tally hitem]
        exact skipComments_tally _ _
    · cases h
      exact ⟨rfl, hne⟩

/-- **An array has a value**, and costs nothing yet. -/
theorem array_tally {s t : Parser} {values : List Bytes} (h : s.array = .ok (values, t)) :
    t.tally = s.tally ∧ values ≠ [] := by
  obtain ⟨⟨item, u⟩, hitem, h⟩ := except_bind_eq_ok.mp h
  obtain ⟨htally, hvalues⟩ := arrayMore_tally h (List.cons_ne_nil item [])
  exact ⟨htally.trans (value_tally hitem), hvalues⟩

/-! Components. -/

/-- A key in a scope has a component more than the scope's. -/
theorem components_fullKey {scopeKey word : Bytes} (hword : word ≠ []) :
    components scopeKey + 1 ≤ components (fullKey scopeKey word) := by
  have hpos : 1 ≤ (word.splitOn dot).length :=
    List.length_pos_iff.mpr (List.splitOn_ne_nil dot word)
  by_cases hscope : scopeKey = []
  · rw [components, if_pos hscope, fullKey, if_pos hscope, components, if_neg hword]
    omega
  · have hsplit : (scopeKey ++ [dot] ++ word).splitOn dot = scopeKey.splitOn dot ++
        word.splitOn dot := by
      rw [List.append_assoc]
      exact List.splitOn_append_cons_self scopeKey word
    rw [components, if_neg hscope, fullKey, if_neg hscope, components, if_neg (by simp), hsplit,
      List.length_append]
    omega

theorem components_le {key : Bytes} (h : keyValid key = true) : components key ≤ 16 := by
  rw [components]
  split
  · omega
  · simp only [keyValid, Bool.and_eq_true, decide_eq_true_iff] at h
    exact h.1.2

/-! What a round keeps. -/

/-- A key read is valid, counted and within the budget. -/
theorem key_consistent {scopeKey found : Bytes} {s t : Parser} (h : key scopeKey s = .ok (found, t))
    (hs : s.tally.Consistent) :
    t.tally.Consistent ∧ keyValid found = true ∧ keyNodes found ⊆ t.keys ∧
      ∃ word, word ≠ [] ∧ found = fullKey scopeKey word := by
  rw [key] at h
  split at h
  · cases h
  · rename_i hword
    obtain ⟨_, hvalid, h⟩ := except_bind_eq_ok.mp h
    obtain ⟨_, hnodes, h⟩ := except_bind_eq_ok.mp h
    cases h
    rw [checkNodes] at hnodes
    split at hnodes
    · cases hnodes
    · rename_i hbudget
      refine ⟨⟨hs.valid, ?_, hs.count, Nat.le_of_not_lt hbudget⟩, checkKey_eq_ok.mp hvalid,
        Finset.subset_union_right, _, hword, rfl⟩
      exact hs.nodes.trans Finset.subset_union_left

theorem enter_consistent {found : Bytes} {s : Parser} (hs : s.tally.Consistent)
    (hvalid : keyValid found = true) (hnodes : keyNodes found ⊆ s.keys) :
    (s.enter found).tally.Consistent := by
  unfold enter tally
  dsimp only
  split
  · exact hs
  · refine ⟨valid_insert hs.valid hvalid [], ?_, ?_, hs.budget⟩
    · exact (nodesOf_insert s.values found []).trans (Finset.union_subset hs.nodes hnodes)
    · have hcount := countOf_insert s.values found []
      have hle := hs.count
      rw [List.length_nil] at hcount
      show countOf (s.values.insert found []).entries ≤ s.allocatedValues
      have hle' : countOf s.values.entries ≤ s.allocatedValues := hle
      omega

theorem checkNodes_eq_ok {s : Parser} : s.checkNodes = .ok () ↔ s.account ≤ maxNodes := by
  rw [checkNodes]
  split
  · rename_i hover
    exact iff_of_false (fun h => by cases h) (Nat.not_le.mpr hover)
  · rename_i hwithin
    exact iff_of_true rfl (Nat.le_of_not_lt hwithin)

/-- What is stored under a counted key costs what it adds, or more. -/
theorem insert_consistent {found : Bytes} {stored : List Bytes} {s t : Parser}
    (hs : s.tally.Consistent) (hvalid : keyValid found = true) (hnodes : keyNodes found ⊆ s.keys)
    (hvalues : t.values = s.values.insert found stored) (hkeys : t.keys = s.keys)
    (hcost : s.allocatedValues + stored.length ≤ t.allocatedValues +
    ((s.values.get? found).getD []).length) (hbudget : t.account ≤ maxNodes) :
    t.tally.Consistent := by
  have hcount := countOf_insert s.values found stored
  have hle : countOf s.values.entries ≤ s.allocatedValues := hs.count
  refine ⟨?_, ?_, ?_, hbudget⟩
  · show ∀ e ∈ t.values.entries, keyValid e.1 = true
    rw [hvalues]
    exact valid_insert hs.valid hvalid stored
  · show nodesOf t.values.entries ⊆ t.keys
    rw [hvalues, hkeys]
    exact (nodesOf_insert s.values found stored).trans (Finset.union_subset hs.nodes hnodes)
  · show countOf t.values.entries ≤ t.allocatedValues
    rw [hvalues]
    omega

theorem store_consistent {op : UInt8} {found : Bytes} {values : List Bytes} {s t : Parser}
    (h : store op found values s = .ok t) (hs : s.tally.Consistent) (hvalid : keyValid found = true)
    (hnodes : keyNodes found ⊆ s.keys) : t.tally.Consistent := by
  rw [store] at h
  split at h
  · cases h
  · obtain ⟨_, hchecked, h⟩ := except_bind_eq_ok.mp h
    rw [Except.ok.injEq] at h
    rw [h] at hchecked
    have hbudget := checkNodes_eq_ok.mp hchecked
    split at h
    · subst h
      refine insert_consistent hs hvalid hnodes rfl rfl ?_ hbudget
      rw [List.length_append]
      dsimp only
      omega
    · -- a replacement reuses one node of what it replaces, which is there
      subst h
      refine insert_consistent hs hvalid hnodes rfl rfl ?_ hbudget
      dsimp only
      split
      · omega
      · rename_i hcurrent
        have hpos := List.length_pos_iff.mpr hcurrent
        omega

theorem assign_consistent {op : UInt8} {found : Bytes} {s t : Parser}
    (h : assign op found s = .ok t) (hs : s.tally.Consistent) (hvalid : keyValid found = true)
    (hnodes : keyNodes found ⊆ s.keys) : t.tally.Consistent := by
  rw [assign] at h
  split at h
  · cases h
  · obtain ⟨⟨values, u⟩, harray, h⟩ := except_bind_eq_ok.mp h
    have htally : u.tally = s.tally := by
      rw [(array_tally harray).1]
      split
      · rfl
      · rfl
    have hkeys : u.keys = s.keys := congrArg Tally.keys htally
    exact store_consistent h (by rw [htally]; exact hs) hvalid (by rw [hkeys]; exact hnodes)

/-- The state a round goes on from. -/
def Round.state : Round → Parser
  | .closed s => s
  | .again s => s
  | .group _ s => s

theorem operator_consistent {found : Bytes} {s : Parser} {r : Round} (h : operator found s = .ok r)
    (hs : s.tally.Consistent) (hvalid : keyValid found = true) (hnodes : keyNodes found ⊆ s.keys) :
    r.state.tally.Consistent ∧ ∀ key t, r = .group key t → key = found := by
  have hentered : (s.enter found).tally.Consistent := enter_consistent hs hvalid hnodes
  have hkeys : (s.enter found).keys = s.keys := rfl
  rw [operator] at h
  split at h
  · cases h
  · split at h
    · cases h
      refine ⟨hentered, fun key t heq => ?_⟩
      cases heq
      rfl
    · split at h
      · obtain ⟨u, hassign, h⟩ := except_bind_eq_ok.mp h
        cases h
        exact ⟨assign_consistent hassign hentered hvalid hnodes, fun key t heq => by cases heq⟩
      · split at h
        · cases h
          exact ⟨hentered, fun key t heq => by cases heq⟩
        · split at h
          · cases h
            exact ⟨hentered, fun key t heq => by cases heq⟩
          · split at h
            · cases h
              exact ⟨hentered, fun key t heq => by cases heq⟩
            · cases h

/-- **What one round keeps.** A group's key has a component more than its scope's, and is valid. -/
theorem round_consistent {scopeKey : Bytes} {s : Parser} {r : Round} (h : round scopeKey s = .ok r)
    (hs : s.tally.Consistent) :
    r.state.tally.Consistent ∧ ∀ key t, r = .group key t → keyValid key = true ∧
      components scopeKey + 1 ≤ components key := by
  rw [round] at h
  split at h
  · split at h
    · cases h
      exact ⟨hs, fun key t heq => by cases heq⟩
    · cases h
  · split at h
    · cases h
      exact ⟨hs, fun key t heq => by cases heq⟩
    · split at h
      · cases h
        exact ⟨hs, fun key t heq => by cases heq⟩
      · split at h
        · cases h
          exact ⟨hs, fun key t heq => by cases heq⟩
        · obtain ⟨⟨found, u⟩, hkey, h⟩ := except_bind_eq_ok.mp h
          obtain ⟨hu, hvalid, hnodes, word, hword, hfound⟩ := key_consistent hkey hs
          obtain ⟨hr, hgroup⟩ := operator_consistent h hu hvalid hnodes
          refine ⟨hr, fun key t heq => ?_⟩
          rw [hgroup key t heq]
          refine ⟨hvalid, ?_⟩
          rw [hfound]
          exact components_fullKey hword

/-! What a run keeps. -/

theorem scope_consistent {fuel : Nat} {scopeKey : Bytes} {s t : Parser}
    (h : scope fuel scopeKey s = .ok t) (hs : s.tally.Consistent) : t.tally.Consistent := by
  induction fuel generalizing scopeKey s t with
  | zero => cases h
  | succ fuel ih =>
    rw [scope] at h
    obtain ⟨r, hround, h⟩ := except_bind_eq_ok.mp h
    have hr := (round_consistent hround hs).1
    cases r with
    | closed u =>
      cases h
      exact hr
    | again u => exact ih h hr
    | group key u =>
      obtain ⟨inner, hinner, h⟩ := except_bind_eq_ok.mp h
      exact ih h (ih hinner hr)

theorem start_consistent (text : Bytes) : (start text).tally.Consistent := consistent_empty

/-- **Every state reached** is within the budget, and no deeper than its scope has components. -/
theorem reaches_consistent {text scopeKey : Bytes} {depth : Nat} {s : Parser}
    (h : Reaches text depth scopeKey s) :
    s.tally.Consistent ∧ depth ≤ components scopeKey ∧ components scopeKey ≤ 16 := by
  induction h with
  | start => exact ⟨start_consistent text, Nat.le_refl 0, Nat.zero_le _⟩
  | again _ hround ih => exact ⟨(round_consistent hround ih.1).1, ih.2⟩
  | enter _ hround ih =>
    obtain ⟨ht, hgroup⟩ := round_consistent hround ih.1
    obtain ⟨hvalid, hdeeper⟩ := hgroup _ _ rfl
    exact ⟨ht, Nat.le_trans (Nat.succ_le_succ ih.2.1) hdeeper, components_le hvalid⟩
  | leave _ hround hinner ih =>
    exact ⟨scope_consistent hinner (round_consistent hround ih.1).1, ih.2⟩

end Parser

/-- Values parsed are printable. -/
theorem parse_checked {text : Bytes} {values : Values} (h : Parser.parse text = .ok values) :
    Holds (fun v => checkValue v = .ok ()) values := by
  obtain ⟨d, hd⟩ := parse_renders h
  obtain ⟨t, ht, rfl, -⟩ := (Parser.parse_reads hd values).mp h
  have hempty : Holds (fun v => checkValue v = .ok ()) Tally.empty.values := fun e he => by cases he
  exact eval_holds hempty (fun v _ hv => hv) ht

/-- **The parser's budget is sound.** A parser never runs out of fuel, groups nest no
    deeper than a key has components, and every state is within the limit. An array has
    a value for the node it reuses. What is left at the end is paid for, so the map's own
    check of its nodes refuses none that is parsed. -/
theorem parse_budget (text : Bytes) :
    Parser.parse text ≠ .error .outOfFuel ∧
    (∀ depth scopeKey s, Parser.Reaches text depth scopeKey s → depth ≤ 16 ∧ s.account ≤ maxNodes) ∧
    (∀ s values t, Parser.array s = .ok (values, t) →
      ∀ current : List Bytes, (if current = [] then 0 else 1) ≤ values.length) ∧
    ∀ values, Parser.parse text = .ok values →
      ∃ s, Parser.scope (text.length + 1) [] (Parser.start text) = .ok s ∧ values = s.values ∧
        s.account ≤ maxNodes ∧
        (nodesOf values.entries).card + countOf values.entries ≤ s.account ∧
          tryFrom values ≠ .error .nodeLimit := by
  refine ⟨Parser.scope_fuel text, ?_, ?_, ?_⟩
  · intro depth scopeKey s hreaches
    obtain ⟨hs, hdepth, hcomponents⟩ := Parser.reaches_consistent hreaches
    exact ⟨Nat.le_trans hdepth hcomponents, hs.budget⟩
  · intro s values t harray current
    have hpos := List.length_pos_iff.mpr (Parser.array_tally harray).2
    split
    · exact Nat.zero_le _
    · exact hpos
  · intro values hparse
    have hchecked := parse_checked hparse
    rw [Parser.parse] at hparse
    split at hparse
    · cases hparse
    · obtain ⟨s, hscope, hparse⟩ := except_bind_eq_ok.mp hparse
      split at hparse
      · cases hparse
      · cases hparse
        have hs := Parser.scope_consistent hscope (Parser.start_consistent text)
        have hpaid : (nodesOf s.values.entries).card + countOf s.values.entries ≤ s.account :=
          Nat.add_le_add (Finset.card_le_card hs.nodes) hs.count
        have hbudget : s.account ≤ maxNodes := hs.budget
        refine ⟨s, hscope, rfl, hbudget, hpaid, fun hrefused => ?_⟩
        -- within the limit, only quoting is left to fail
        have hnodes : countOf s.values.entries + (nodesOf s.values.entries).card ≤ maxNodes := by
          omega
        have hcases := @tryFrom_cases s.values hs.valid hnodes hchecked
        rw [hrefused] at hcases
        obtain hok | herror := hcases
        · obtain ⟨c, hc⟩ := hok.1
          cases hc
        · cases herror.1

end Conglobate.BootConfig
