import Conglobate.Lib.File
import Mathlib.Data.List.Forall2
import Mathlib.Data.List.Lex
import Mathlib.Order.Basic

/- Ordered maps: a finite map from a linear order, kept as its entries in key
   order. The order is a field, so two maps with the same entries are equal and
   a walk over the entries is a walk in key order. Inserting above every key
   appends (`insert_above`), which is how a map is rebuilt from its own walk. -/
namespace Conglobate

instance instLinearOrderUInt8 : LinearOrder UInt8 where
  le_refl a := UInt8.le_refl a
  le_trans _ _ _ := UInt8.le_trans
  le_antisymm _ _ := UInt8.le_antisymm
  le_total := UInt8.le_total
  lt_iff_le_not_ge a b := by
    simp only [UInt8.lt_iff_toNat_lt, UInt8.le_iff_toNat_le]
    omega
  toDecidableLE := inferInstance
  toDecidableEq := inferInstance
  toDecidableLT := inferInstance

/-- A map whose entries are in increasing key order. -/
structure OrdMap (κ : Type) (ν : Type) [LinearOrder κ] where
  entries : List (κ × ν)
  sorted : entries.Pairwise (fun a b => a.1 < b.1)

namespace OrdMap

variable {κ ν : Type} [LinearOrder κ]

@[ext] theorem ext {m n : OrdMap κ ν} (h : m.entries = n.entries) : m = n := by
  cases m
  cases n
  congr

instance [DecidableEq ν] : DecidableEq (OrdMap κ ν) :=
  fun m n => decidable_of_iff (m.entries = n.entries) ⟨OrdMap.ext, fun h => h ▸ rfl⟩

def empty : OrdMap κ ν := ⟨[], List.Pairwise.nil⟩

def keys (m : OrdMap κ ν) : List κ := m.entries.map Prod.fst

def get? (m : OrdMap κ ν) (k : κ) : Option ν := (m.entries.find? (fun e => e.1 = k)).map Prod.snd

def contains (m : OrdMap κ ν) (k : κ) : Bool := (m.get? k).isSome

/-- `retain`. -/
def filter (m : OrdMap κ ν) (p : κ × ν → Bool) : OrdMap κ ν :=
  ⟨m.entries.filter p, m.sorted.filter p⟩

/-- The entries with `k` bound to `v`. -/
def insertEntries (k : κ) (v : ν) : List (κ × ν) → List (κ × ν)
  | [] => [(k, v)]
  | e :: rest =>
    if k < e.1 then (k, v) :: e :: rest
    else if k = e.1 then (k, v) :: rest
    else e :: insertEntries k v rest

theorem mem_insertEntries {k : κ} {v : ν} {l : List (κ × ν)} {x : κ × ν}
    (h : x ∈ insertEntries k v l) :
    x = (k, v) ∨ x ∈ l := by
  induction l with
  | nil => exact .inl (List.mem_singleton.mp h)
  | cons e rest ih =>
    rw [insertEntries] at h
    split at h
    · exact List.mem_cons.mp h
    · split at h
      · rcases List.mem_cons.mp h with h | h
        · exact .inl h
        · exact .inr (List.mem_cons_of_mem _ h)
      · rcases List.mem_cons.mp h with h | h
        · exact .inr (h ▸ List.mem_cons_self)
        · exact (ih h).imp id (List.mem_cons_of_mem _)

theorem insertEntries_sorted {k : κ} {v : ν} {l : List (κ × ν)}
    (h : l.Pairwise (fun a b => a.1 < b.1)) :
    (insertEntries k v l).Pairwise (fun a b => a.1 < b.1) := by
  induction l with
  | nil => exact List.pairwise_singleton _ _
  | cons e rest ih =>
    rw [List.pairwise_cons] at h
    rw [insertEntries]
    split
    · rename_i hlt
      refine List.pairwise_cons.mpr ⟨?_, List.pairwise_cons.mpr h⟩
      intro x hx
      rcases List.mem_cons.mp hx with rfl | hx
      · exact hlt
      · exact lt_trans hlt (h.1 x hx)
    · split
      · rename_i heq
        refine List.pairwise_cons.mpr ⟨?_, h.2⟩
        intro x hx
        rw [heq]
        exact h.1 x hx
      · rename_i hlt hne
        refine List.pairwise_cons.mpr ⟨?_, ih h.2⟩
        intro x hx
        rcases mem_insertEntries hx with rfl | hx
        · exact lt_of_le_of_ne (not_lt.mp hlt) (Ne.symm hne)
        · exact h.1 x hx

def insert (m : OrdMap κ ν) (k : κ) (v : ν) : OrdMap κ ν :=
  ⟨insertEntries k v m.entries, insertEntries_sorted m.sorted⟩

/-- Below every later entry, `k` is bound after the smaller ones. -/
theorem insertEntries_append {k : κ} {v : ν} {l r : List (κ × ν)} (h : ∀ e ∈ l, e.1 < k) :
    insertEntries k v (l ++ r) = l ++ insertEntries k v r := by
  induction l with
  | nil => rfl
  | cons e rest ih =>
    have he := h e List.mem_cons_self
    rw [List.cons_append, insertEntries, if_neg (not_lt.mpr (le_of_lt he)), if_neg (ne_of_gt he),
      ih (fun x hx => h x (List.mem_cons_of_mem _ hx)), List.cons_append]

/-- **Inserting above every key appends.** -/
theorem insert_above {m : OrdMap κ ν} {k : κ} {v : ν} (h : ∀ e ∈ m.entries, e.1 < k) :
    (m.insert k v).entries = m.entries ++ [(k, v)] := by
  have := insertEntries_append (v := v) (r := []) h
  rwa [List.append_nil] at this

theorem get?_eq_some {m : OrdMap κ ν} {k : κ} {v : ν} : m.get? k = some v ↔ (k, v) ∈ m.entries := by
  obtain ⟨l, hs⟩ := m
  simp only [get?]
  induction l with
  | nil => simp
  | cons e rest ih =>
    rw [List.pairwise_cons] at hs
    rw [List.find?_cons]
    by_cases he : e.1 = k
    · simp only [he, decide_true, Option.map_some, Option.some.injEq, List.mem_cons]
      constructor
      · rintro rfl
        exact .inl (by rw [← he])
      · rintro (h | h)
        · rw [← h]
        · exact absurd (hs.1 _ h) (by rw [he]; exact lt_irrefl _)
    · simp only [he, decide_false, List.mem_cons]
      rw [ih hs.2]
      constructor
      · exact .inr
      · rintro (h | h)
        · exact absurd (congrArg Prod.fst h).symm he
        · exact h

theorem get?_eq_none {m : OrdMap κ ν} {k : κ} : m.get? k = none ↔ ∀ e ∈ m.entries, e.1 ≠ k := by
  simp [get?, List.find?_eq_none]

theorem mem_keys {m : OrdMap κ ν} {k : κ} : k ∈ m.keys ↔ (m.get? k).isSome := by
  rw [Option.isSome_iff_exists, keys, List.mem_map]
  constructor
  · rintro ⟨⟨_, v⟩, he, rfl⟩
    exact ⟨v, get?_eq_some.mpr he⟩
  · rintro ⟨v, hv⟩
    exact ⟨(k, v), get?_eq_some.mp hv, rfl⟩

theorem mem_insertEntries_self (k : κ) (v : ν) (l : List (κ × ν)) :
    (k, v) ∈ insertEntries k v l := by
  induction l with
  | nil => simp [insertEntries]
  | cons e rest ih =>
    rw [insertEntries]
    split
    · simp
    · split
      · simp
      · exact List.mem_cons_of_mem _ ih

theorem mem_insertEntries_of_ne {k : κ} {v : ν} {l : List (κ × ν)} {x : κ × ν} (hx : x ∈ l)
    (hne : x.1 ≠ k) :
    x ∈ insertEntries k v l := by
  induction l with
  | nil => cases hx
  | cons e rest ih =>
    rw [insertEntries]
    split
    · exact List.mem_cons_of_mem _ hx
    · split
      · rename_i heq
        rcases List.mem_cons.mp hx with rfl | hx
        · exact absurd heq.symm hne
        · exact List.mem_cons_of_mem _ hx
      · rcases List.mem_cons.mp hx with rfl | hx
        · exact List.mem_cons_self
        · exact List.mem_cons_of_mem _ (ih hx)

/-- **Looking up after an insertion.** -/
theorem get?_insert (m : OrdMap κ ν) (k : κ) (v : ν) (j : κ) :
    (m.insert k v).get? j = if j = k then some v else m.get? j := by
  by_cases hj : j = k
  · rw [if_pos hj, hj, get?_eq_some]
    exact mem_insertEntries_self k v m.entries
  · rw [if_neg hj]
    cases hm : m.get? j with
    | some w => exact get?_eq_some.mpr (mem_insertEntries_of_ne (get?_eq_some.mp hm) hj)
    | none =>
      rw [get?_eq_none] at hm ⊢
      intro e he
      rcases mem_insertEntries he with rfl | he
      · exact Ne.symm hj
      · exact hm e he

theorem mem_keys_insert {m : OrdMap κ ν} {k j : κ} {v : ν} :
    j ∈ (m.insert k v).keys ↔ j = k ∨ j ∈ m.keys := by
  rw [mem_keys, mem_keys, get?_insert]
  by_cases hj : j = k <;> simp [hj]

@[simp] theorem keys_empty : (empty : OrdMap κ ν).keys = [] := rfl

theorem nodup_keys (m : OrdMap κ ν) : m.keys.Nodup := by
  rw [keys, List.nodup_iff_pairwise_ne, List.pairwise_map]
  exact m.sorted.imp ne_of_lt

/-- **Looking up in a map filtered by its keys.** -/
theorem get?_filter (m : OrdMap κ ν) (p : κ → Bool) (k : κ) :
    (m.filter (fun e => p e.1)).get? k = if p k then m.get? k else none := by
  split
  · rename_i hp
    cases hm : m.get? k with
    | some v => exact get?_eq_some.mpr (List.mem_filter.mpr ⟨get?_eq_some.mp hm, hp⟩)
    | none =>
      rw [get?_eq_none] at hm ⊢
      exact fun e he => hm e (List.mem_filter.mp he).1
  · rename_i hp
    rw [get?_eq_none]
    rintro e he rfl
    exact hp (List.mem_filter.mp he).2

/-- `remove`. -/
def erase (m : OrdMap κ ν) (k : κ) : OrdMap κ ν := m.filter (fun e => decide (e.1 ≠ k))

/-- **Looking up after a removal.** -/
theorem get?_erase (m : OrdMap κ ν) (k j : κ) :
    (m.erase k).get? j = if j = k then none else m.get? j := by
  rw [erase, get?_filter m (fun x => decide (x ≠ k))]
  by_cases hj : j = k <;> simp [hj]

/-- `extend`: the other's entries, in place of its own. -/
def extend (m n : OrdMap κ ν) : OrdMap κ ν := n.entries.foldl (fun m e => m.insert e.1 e.2) m

theorem get?_foldl_insert (l : List (κ × ν)) (hsorted : l.Pairwise (fun a b => a.1 < b.1))
    (m : OrdMap κ ν) (k : κ) :
    (l.foldl (fun m e => m.insert e.1 e.2) m).get? k =
      ((l.find? (fun e => e.1 = k)).map Prod.snd).or (m.get? k) := by
  induction l generalizing m with
  | nil => rfl
  | cons e rest ih =>
    obtain ⟨hfirst, hrest⟩ := List.pairwise_cons.mp hsorted
    rw [List.foldl_cons, ih hrest, get?_insert]
    by_cases hk : k = e.1
    · have hnone : rest.find? (fun e => decide (e.1 = k)) = none := by
        rw [List.find?_eq_none]
        intro x hx heq
        have hlt := hfirst x hx
        rw [of_decide_eq_true heq, hk] at hlt
        exact lt_irrefl _ hlt
      rw [hnone, if_pos hk, List.find?_cons_of_pos (by simpa using hk.symm)]
      rfl
    · rw [if_neg hk, List.find?_cons_of_neg (by simpa using fun heq => hk heq.symm)]

/-- **Looking up after an extension.** -/
theorem get?_extend (m n : OrdMap κ ν) (k : κ) : (m.extend n).get? k = (n.get? k).or (m.get? k) :=
  get?_foldl_insert n.entries n.sorted m k

theorem mem_keys_extend {m n : OrdMap κ ν} {k : κ} :
    k ∈ (m.extend n).keys ↔ k ∈ n.keys ∨ k ∈ m.keys := by
  rw [mem_keys, mem_keys, mem_keys, get?_extend]
  cases n.get? k <;> simp

/-- A removal takes one entry. -/
theorem length_erase {m : OrdMap κ ν} {k : κ} (h : k ∈ m.keys) :
    (m.erase k).entries.length + 1 = m.entries.length := by
  have hkeys : (m.erase k).keys = m.keys.erase k := by
    rw [m.nodup_keys.erase_eq_filter, keys, erase, filter, keys, List.filter_map]
    congr 1
    apply List.filter_congr
    intro e _
    by_cases he : e.1 = k <;> simp [he]
  have hlength := List.length_erase_of_mem h
  rw [← hkeys, keys, keys, List.length_map, List.length_map] at hlength
  have hpos : 0 < m.entries.length := by
    rw [← List.length_map (f := Prod.fst)]
    exact List.length_pos_of_mem h
  omega

theorem contains_insert {m : OrdMap κ ν} {k : κ} {v : ν} {j : κ} :
    (m.insert k v).contains j = (decide (j = k) || m.contains j) := by
  rw [contains, get?_insert]
  by_cases hj : j = k <;> simp [hj, contains]

/-! Maps compared by lookup. -/

/-- **Two maps with the same lookups are equal.** -/
theorem ext_get? {m n : OrdMap κ ν} (h : ∀ k, m.get? k = n.get? k) : m = n := by
  have hmem : ∀ e, e ∈ m.entries ↔ e ∈ n.entries := by
    intro e
    rw [← get?_eq_some, ← get?_eq_some, h]
  have hnodup : ∀ o : OrdMap κ ν, o.entries.Nodup :=
    fun o => List.Nodup.of_map Prod.fst (nodup_keys o)
  have hperm := (List.perm_ext_iff_of_nodup (hnodup m) (hnodup n)).mpr hmem
  apply OrdMap.ext
  apply hperm.eq_of_pairwise _ m.sorted n.sorted
  intro a b _ _ hab hba
  exact absurd (lt_trans hab hba) (lt_irrefl _)

@[simp] theorem get?_empty (k : κ) : (empty : OrdMap κ ν).get? k = none := rfl

theorem contains_eq_false {m : OrdMap κ ν} {k : κ} : m.contains k = false ↔ m.get? k = none := by
  rw [contains, Option.isSome_eq_false_iff, Option.isNone_iff_eq_none]

theorem contains_eq_true {m : OrdMap κ ν} {k : κ} : m.contains k = true ↔ k ∈ m.keys := by
  rw [mem_keys, contains]

/-- **A sum over the values**, the one replaced counted back. -/
theorem sum_insertEntries {k : κ} {v : ν} {l : List (κ × ν)} (f : ν → Nat)
    (hs : l.Pairwise (fun a b => a.1 < b.1)) :
    ((insertEntries k v l).map (fun e => f e.2)).sum +
      ((l.find? (fun e => e.1 = k)).map (fun e => f e.2)).getD 0 =
      (l.map (fun e => f e.2)).sum + f v := by
  induction l with
  | nil => simp [insertEntries]
  | cons e rest ih =>
    obtain ⟨hhead, hs⟩ := List.pairwise_cons.mp hs
    have ih := ih hs
    rw [insertEntries]
    split
    · rename_i hlt
      have hnone : (e :: rest).find? (fun e => e.1 = k) = none := by
        rw [List.find?_eq_none]
        intro x hx
        have hk : k < x.1 := by
          rcases List.mem_cons.mp hx with rfl | hx
          · exact hlt
          · exact lt_trans hlt (hhead x hx)
        simpa using ne_of_gt hk
      rw [hnone]
      simp only [List.map_cons, List.sum_cons, Option.map_none, Option.getD_none]
      omega
    · split
      · rename_i heq
        rw [List.find?_cons_of_pos (by simpa using heq.symm)]
        simp only [List.map_cons, List.sum_cons, Option.map_some, Option.getD_some]
        omega
      · rename_i hne
        rw [List.find?_cons_of_neg (by simpa using Ne.symm hne)]
        simp only [List.map_cons, List.sum_cons]
        omega

theorem sum_insert (m : OrdMap κ ν) (k : κ) (v : ν) (f : ν → Nat) :
    ((m.insert k v).entries.map (fun e => f e.2)).sum + ((m.get? k).map f).getD 0 =
      (m.entries.map (fun e => f e.2)).sum + f v := by
  rw [get?, Option.map_map]
  exact sum_insertEntries f m.sorted

/-! Maps with other values. -/

def mapValues {μ : Type} (f : ν → μ) (m : OrdMap κ ν) : OrdMap κ μ :=
  ⟨m.entries.map (fun e => (e.1, f e.2)), List.pairwise_map.mpr m.sorted⟩

theorem get?_mapValues {μ : Type} (f : ν → μ) (m : OrdMap κ ν) (k : κ) :
    (m.mapValues f).get? k = (m.get? k).map f := by
  rw [get?, get?, mapValues, List.find?_map, Option.map_map, Option.map_map]
  rfl

/-! Maps rebuilt from a walk. -/

section MapM
variable {ε μ : Type}

/-- One entry converted and bound. -/
def mapEntry (f : ν → Except ε μ) (n : OrdMap κ μ) (e : κ × ν) : Except ε (OrdMap κ μ) := do
  let w ← f e.2
  .ok (n.insert e.1 w)

/-- The map with every value converted, in key order up to the first failure. -/
def mapM (f : ν → Except ε μ) (m : OrdMap κ ν) :
    Except ε (OrdMap κ μ) := m.entries.foldlM (mapEntry f) empty

theorem foldlM_mapEntry_ok {f : ν → Except ε μ} {l : List (κ × ν)} {n r : OrdMap κ μ}
    (hs : l.Pairwise (fun a b => a.1 < b.1)) (habove : ∀ e ∈ n.entries, ∀ x ∈ l, e.1 < x.1)
    (h : l.foldlM (mapEntry f) n = .ok r) :
    ∃ new, r.entries = n.entries ++ new ∧ List.Forall₂ (fun a b => a.1 = b.1 ∧
      f a.2 = .ok b.2) l new := by
  induction l generalizing n with
  | nil =>
    cases h
    exact ⟨[], by simp, .nil⟩
  | cons e rest ih =>
    rw [List.pairwise_cons] at hs
    rw [List.foldlM_cons] at h
    obtain ⟨n', hstep, h⟩ := except_bind_eq_ok.mp h
    obtain ⟨w, hw, hstep⟩ := except_bind_eq_ok.mp hstep
    cases hstep
    have hentries : (n.insert e.1 w).entries = n.entries ++ [(e.1, w)] :=
      insert_above (fun x hx => habove x hx e List.mem_cons_self)
    obtain ⟨new, hnew, hall⟩ := ih hs.2 (by
      intro x hx y hy
      rw [hentries] at hx
      rcases List.mem_append.mp hx with hx | hx
      · exact habove x hx y (List.mem_cons_of_mem _ hy)
      · rw [List.mem_singleton.mp hx]
        exact hs.1 y hy) h
    refine ⟨(e.1, w) :: new, ?_, .cons ⟨rfl, hw⟩ hall⟩
    rw [hnew, hentries, List.append_assoc]
    rfl

/-- The converted map has the same keys, with converted values. -/
theorem mapM_ok {f : ν → Except ε μ} {m : OrdMap κ ν} {r : OrdMap κ μ} (h : m.mapM f = .ok r) :
    List.Forall₂ (fun a b => a.1 = b.1 ∧ f a.2 = .ok b.2) m.entries r.entries := by
  obtain ⟨new, hnew, hall⟩ := foldlM_mapEntry_ok m.sorted (by simp [empty]) h
  simp only [empty, List.nil_append] at hnew
  rwa [hnew]

/-- **Looking up in a converted map** is converting what was there. -/
theorem mapM_get? {f : ν → Except ε μ} {m : OrdMap κ ν} {r : OrdMap κ μ} (h : m.mapM f = .ok r)
    (k : κ) :
    match m.get? k with
    | some v => ∃ w, f v = .ok w ∧ r.get? k = some w
    | none => r.get? k = none := by
  have hall := mapM_ok h
  have hlen := hall.length_eq
  cases hm : m.get? k with
  | some v =>
    obtain ⟨i, hi, he⟩ := List.getElem_of_mem (get?_eq_some.mp hm)
    obtain ⟨hkey, hval⟩ := hall.get hi (by omega)
    rw [List.get_eq_getElem, he] at hkey hval
    refine ⟨_, hval, get?_eq_some.mpr ?_⟩
    change k = _ at hkey
    rw [hkey]
    exact List.getElem_mem _
  | none =>
    rw [get?_eq_none] at hm ⊢
    intro e he
    obtain ⟨i, hi, rfl⟩ := List.getElem_of_mem he
    obtain ⟨hkey, -⟩ := hall.get (by omega) hi
    rw [List.get_eq_getElem, List.get_eq_getElem] at hkey
    rw [← hkey]
    exact hm _ (List.getElem_mem _)

theorem foldlM_mapEntry_eq_ok {f : ν → Except ε μ} {l : List (κ × ν)} {n : OrdMap κ μ} :
    (∃ r, l.foldlM (mapEntry f) n = .ok r) ↔ ∀ e ∈ l, ∃ w, f e.2 = .ok w := by
  induction l generalizing n with
  | nil => exact ⟨fun _ => by simp, fun _ => ⟨n, rfl⟩⟩
  | cons e rest ih =>
    rw [List.foldlM_cons, List.forall_mem_cons, mapEntry]
    cases f e.2 with
    | error x =>
      constructor
      · rintro ⟨r, hr⟩
        cases hr
      · rintro ⟨⟨w, hw⟩, -⟩
        cases hw
    | ok w =>
      rw [except_ok_bind, except_ok_bind, ih]
      simp

theorem mapM_eq_ok {f : ν → Except ε μ} {m : OrdMap κ ν} :
    (∃ r, m.mapM f = .ok r) ↔ ∀ e ∈ m.entries, ∃ w, f e.2 = .ok w := foldlM_mapEntry_eq_ok

/-- **Values converted back** are the ones there were. -/
theorem mapM_mapValues {f : μ → Except ε ν} {g : ν → μ} (h : ∀ v, f (g v) = .ok v)
    (m : OrdMap κ ν) :
    (m.mapValues g).mapM f = .ok m := by
  have hall : ∀ e ∈ (m.mapValues g).entries, ∃ w, f e.2 = .ok w := by
    intro e he
    obtain ⟨x, -, rfl⟩ := List.mem_map.mp he
    exact ⟨x.2, h x.2⟩
  obtain ⟨r, hr⟩ := mapM_eq_ok.mpr hall
  have hentries := mapM_ok hr
  rw [mapValues, List.forall₂_map_left_iff] at hentries
  have hsame : m.entries = r.entries := by
    rw [← List.forall₂_eq_eq_eq]
    refine hentries.imp fun a b hab => ?_
    obtain ⟨hkey, hvalue⟩ := hab
    rw [h, Except.ok.injEq] at hvalue
    exact Prod.ext hkey hvalue
  rw [hr, OrdMap.ext hsame]

/-- A failed conversion failed on some value. -/
theorem foldlM_mapEntry_error {f : ν → Except ε μ} {l : List (κ × ν)} {n : OrdMap κ μ} {x : ε}
    (h : l.foldlM (mapEntry f) n = .error x) : ∃ e ∈ l, f e.2 = .error x := by
  induction l generalizing n with
  | nil => cases h
  | cons e rest ih =>
    rw [List.foldlM_cons, mapEntry] at h
    cases hw : f e.2 with
    | error y =>
      rw [hw] at h
      cases h
      exact ⟨e, List.mem_cons_self, hw⟩
    | ok w =>
      rw [hw, except_ok_bind, except_ok_bind] at h
      obtain ⟨e', he', hx⟩ := ih h
      exact ⟨e', List.mem_cons_of_mem _ he', hx⟩

theorem mapM_error {f : ν → Except ε μ} {m : OrdMap κ ν} {x : ε} (h : m.mapM f = .error x) :
    ∃ e ∈ m.entries, f e.2 = .error x := foldlM_mapEntry_error h

end MapM

end OrdMap

end Conglobate
