import Conglobate.Pipeline.BootConfig

/- Overlays of a boot configuration (`pipeline/boot_config.rs`).

   An overlay is a map, and its entries are applied to a flat map one after the
   other, so each key has at most one of them and the order does not matter
   (`foldl_applyEntry`). The tree of the text only shows in the normalization at the
   end: a bare key goes when another key is below it (`retained_get?`). -/
namespace Conglobate.Pipeline

/-- The value list an entry gives its key. -/
def items : Plan.Value → List Bytes
  | .string value => [value]
  | .list values => values

namespace BootConfig

theorem applyEntry_get? (values : Values) (entry : Plan.Key × Option Plan.Value) (k : Bytes) :
    (applyEntry values entry).get? k = if k = entry.1.name then entry.2.map items
      else values.get? k := by
  obtain ⟨key, value⟩ := entry
  cases value with
  | none =>
    show (values.erase key.name).get? k = _
    rw [OrdMap.get?_erase]
    split
    all_goals simp [*]
  | some value =>
    have hinsert : applyEntry values (key, some value) = values.insert key.name (items value) := by
      cases value
      all_goals rfl
    rw [hinsert, OrdMap.get?_insert]
    split
    all_goals simp [*]

/-- **An overlay, key by key.** -/
theorem foldl_applyEntry {entries : List (Plan.Key × Option Plan.Value)}
    (h : (entries.map Prod.fst).Nodup) (values : Values) (k : Bytes) :
    (entries.foldl applyEntry values).get? k =
      (entries.find? (fun e => e.1.name = k)).elim (values.get? k) (fun e => e.2.map items) := by
  induction entries generalizing values with
  | nil => rfl
  | cons entry entries ih =>
    rw [List.map_cons, List.nodup_cons] at h
    rw [List.foldl_cons, ih h.2, applyEntry_get?]
    by_cases hk : entry.1.name = k
    · -- no later entry is about this key
      have hlater : entries.find? (fun e => e.1.name = k) = none := by
        rw [List.find?_eq_none]
        intro e he heq
        apply h.1
        have hname : e.1.name = entry.1.name := (of_decide_eq_true heq).trans hk.symm
        exact List.mem_map.mpr ⟨e, he, Plan.Key.name_injective hname⟩
      rw [hlater, List.find?_cons_of_pos (by simp [hk]), if_pos hk.symm]
      rfl
    · rw [List.find?_cons_of_neg (by simp [hk]), if_neg (Ne.symm hk)]

/-- What normalizing keeps of a key: all but a bare key with another below it. -/
theorem retained_get? (values : Values) (k : Bytes) :
    (Conglobate.BootConfig.retained values).get? k =
      if values.get? k = some [] ∧ k ∈ Conglobate.BootConfig.parentsOf values.entries then
        none
      else
        values.get? k := by
  have hkept : ∀ found, (Conglobate.BootConfig.retained values).get? k = some found ↔
      values.get? k = some found ∧ (found ≠ [] ∨ k ∉ Conglobate.BootConfig.parentsOf values.entries) := by
    intro found
    rw [OrdMap.get?_eq_some, OrdMap.get?_eq_some, Conglobate.BootConfig.retained]
    refine List.mem_filter.trans (and_congr_right fun _ => ?_)
    rw [Bool.or_eq_true, Bool.not_eq_true', List.isEmpty_eq_false_iff, decide_eq_true_iff]
  apply Option.ext
  intro found
  rw [hkept]
  split
  · rename_i hbare
    rw [hbare.1]
    refine iff_of_false (fun hfound => ?_) (fun hnone => by cases hnone)
    cases hfound.1
    exact hfound.2.elim (fun hne => hne rfl) (fun hout => hout hbare.2)
  · rename_i hbare
    refine and_iff_left_of_imp (fun hfound => ?_)
    rw [hfound] at hbare
    by_cases hempty : found = []
    · rw [hempty] at hbare
      exact .inr (fun hparent => hbare ⟨rfl, hparent⟩)
    · exact .inl hempty

/-- **Overlay semantics.** What the overlaid configuration decodes to is what is made of
    `applied`: the base's values without the keys given nothing, with the lists given to
    the other keys, and with every key the overlay does not name as it was. Of these
    only bare keys with another below them are left out, and where nothing is left the
    text and the bytes are empty. -/
theorem overlay_semantics {z : Zstd} (hz : z.Lawful) {base : Option BootConfig} {v : Native}
    {entries : OrdMap Plan.Key (Option Plan.Value)} {c : BootConfig}
    (hv : decodeBase z base = .ok v) (h : overlay z base entries.entries = .ok c) :
    ∃ applied w, decode z c.bytes = .ok w ∧ Conglobate.BootConfig.tryFrom applied = .ok w ∧
      (∀ key, entries.get? key = some none → applied.get? key.name = none) ∧
      (∀ key value, entries.get? key = some (some value) →
        applied.get? key.name = some (items value)) ∧
      (∀ k, (∀ key, entries.contains key = true → key.name ≠ k) →
        applied.get? k = v.values.get? k) ∧
      (∀ k, w.values.get? k =
        if applied.get? k = some [] ∧ k ∈ Conglobate.BootConfig.parentsOf applied.entries then
          none
        else
          applied.get? k) ∧
      (w.values.entries = [] → w.text = []) ∧ (c.bytes = [] ↔ w.values.entries = []) := by
  obtain ⟨-, w, hdecoded, htry, hempty⟩ := overlay_spec hz hv h
  have happlied := fun k => foldl_applyEntry entries.nodup_keys v.values k
  have hentry : ∀ key value, entries.get? key = some value →
      (entries.entries.foldl applyEntry v.values).get? key.name = value.map items := by
    intro key value hget
    have hkey : (fun e : Plan.Key × Option Plan.Value => decide (e.1.name = key.name)) =
        fun e => decide (e.1 = key) := by
      funext e
      exact decide_eq_decide.mpr Plan.Key.name_injective.eq_iff
    obtain ⟨e, he, rfl⟩ := Option.map_eq_some_iff.mp hget
    rw [happlied, hkey, he]
    rfl
  have hcanonical := Conglobate.BootConfig.canonicalize_eq_ok.mp
    (Conglobate.BootConfig.tryFrom_eq_ok.mp htry)
  refine ⟨_, w, hdecoded, htry, fun key hget => hentry key none hget, fun key value hget =>
    hentry key _ hget, ?_, ?_, ?_, hempty⟩
  · intro k hother
    have hnone : entries.entries.find? (fun e => e.1.name = k) = none := by
      rw [List.find?_eq_none]
      intro e he heq
      refine hother e.1 ?_ (of_decide_eq_true heq)
      exact OrdMap.contains_eq_true.mpr (List.mem_map.mpr ⟨e, he, rfl⟩)
    rw [happlied, hnone]
    rfl
  · intro k
    rw [hcanonical.2.2.1]
    exact retained_get? _ k
  · intro hnothing
    rw [eq_default (List.isEmpty_iff.mpr hnothing)]
    rfl

/-- `a=1` overlaid with nothing at `a` and a list at `a.b`. -/
def sampleOverlay : OrdMap Plan.Key (Option Plan.Value) :=
  (OrdMap.empty.insert ⟨[97], by decide⟩ none).insert ⟨[97, 46, 98], by decide⟩
    (some (.list [[50], [51]]))

theorem overlay_semantics_sample : ∃ z base v c, z.Lawful ∧ decodeBase z (some base) = .ok v ∧
    overlay z (some base) sampleOverlay.entries = .ok c ∧
    ∃ applied w, decode z c.bytes = .ok w ∧ Conglobate.BootConfig.tryFrom applied = .ok w ∧
      (∀ key, sampleOverlay.get? key = some none → applied.get? key.name = none) ∧
      (∀ key value, sampleOverlay.get? key = some (some value) →
        applied.get? key.name = some (items value)) ∧
      (∀ k, (∀ key, sampleOverlay.contains key = true → key.name ≠ k) →
        applied.get? k = v.values.get? k) ∧
      (∀ k, w.values.get? k =
        if applied.get? k = some [] ∧ k ∈ Conglobate.BootConfig.parentsOf applied.entries then
          none
        else
          applied.get? k) ∧
      (w.values.entries = [] → w.text = []) ∧ (c.bytes = [] ↔ w.values.entries = []) := by
  -- a frame is a byte in front of the text
  let z : Zstd := ⟨fun bytes => .ok (bytes.tail, []), fun text => 0 :: text⟩
  have hz : z.Lawful := ⟨fun _ => rfl, fun _ h => by cases h⟩
  have hbase : ∃ text, Conglobate.BootConfig.canonicalize (OrdMap.empty.insert [97] [[49]]) =
      .ok (OrdMap.empty.insert [97] [[49]], text) := ⟨_, rfl⟩
  obtain ⟨text, htext⟩ := hbase
  let v : Native := ⟨_, text, htext⟩
  have hv : decodeBase z (some ⟨encode z v, none⟩) = .ok v := decode_encode hz v
  have hoverlaid : ∃ w, Conglobate.BootConfig.tryFrom
      (sampleOverlay.entries.foldl applyEntry v.values) = .ok w := by
    have hcanonical : ∃ out, Conglobate.BootConfig.canonicalize
      (sampleOverlay.entries.foldl applyEntry v.values) = .ok out := ⟨_, rfl⟩
    obtain ⟨⟨kept, text'⟩, hout⟩ := hcanonical
    exact ⟨⟨kept, text', Conglobate.BootConfig.canonicalize_idem hout⟩,
      Conglobate.BootConfig.tryFrom_eq_ok.mpr hout⟩
  obtain ⟨w, hw⟩ := hoverlaid
  have h : overlay z (some ⟨encode z v, none⟩) sampleOverlay.entries = .ok ⟨encode z w, none⟩ := by
    rw [overlay, hv, except_ok_bind, hw]
    rfl
  exact ⟨z, _, v, _, hz, hv, h, overlay_semantics hz hv h⟩

end BootConfig

end Conglobate.Pipeline
