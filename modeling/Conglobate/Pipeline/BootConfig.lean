import Conglobate.BootConfig.RoundTrip
import Conglobate.Input.CheckedImage

/- Boot configurations in the pipeline (`pipeline/boot_config.rs`).

   A configuration is compressed text and the root it was last bound to. The
   compressor is a parameter; `Zstd.Lawful` is what the pipeline relies on. What is
   encoded decodes (`decode_encode`), so each operation is known by what it does to
   the values: an overlay sets and removes keys, and binding replaces the value of an
   existing `corium.root` (`rebind`) and touches nothing else (`bind_spec`).

   Correspondence (Rust ↔ Lean):
     `boot_config::BootConfig as Native`      ↔ `Native`
     `StreamingDecoder`, `into_inner`         ↔ `Zstd.decode`: the data and the bytes left over
     `compress_to_vec`                        ↔ `Zstd.compress`
     `read_to_string`'s check                 ↔ `Bytes.isUtf8`
     one entry of `overlay`'s loop            ↔ `applyEntry`
     the values after `bind`                  ↔ `rebind` -/
namespace Conglobate.Pipeline

abbrev Native := Conglobate.BootConfig

abbrev Values := Conglobate.BootConfig.Values

/-- The zstd decoder and encoder. -/
structure Zstd where
  decode : Bytes → Except IoError (Bytes × Bytes)
  compress : Bytes → Bytes

/-- What is compressed is one whole frame, and decompresses. -/
structure Zstd.Lawful (z : Zstd) : Prop where
  decode_compress : ∀ text, z.decode (z.compress text) = .ok (text, [])
  compress_ne_nil : ∀ text, z.compress text ≠ []

inductive ConfigError where
  | zstd (error : IoError)
  /-- "stream did not contain valid UTF-8" -/
  | utf8
  /-- "trailing compressed bootconfig bytes" -/
  | trailing
  | native (error : Conglobate.BootConfig.Error)
  deriving DecidableEq, Repr

structure BootConfig where
  bytes : Bytes
  root : Option Hash
  deriving DecidableEq, Repr

/-- "corium.root" -/
def rootKey : Bytes := Text.utf8 ['c', 'o', 'r', 'i', 'u', 'm', '.', 'r', 'o', 'o', 't']

/-- `hex::encode(root)`. -/
def rootValue (root : Hash) : Bytes := Text.utf8 (Hex.encode root.toList)

/-- The values with an existing `corium.root` set to a root. -/
def rebind (root : Hash) (values : Values) : Values :=
  if values.contains rootKey then values.insert rootKey [rootValue root] else values

namespace BootConfig

def decode (z : Zstd) (bytes : Bytes) : Except ConfigError Native :=
  if bytes = [] then .ok Conglobate.BootConfig.default
  else do
    let frame ← (z.decode bytes).mapError ConfigError.zstd
    if !frame.1.isUtf8 then .error .utf8
    else if frame.2 ≠ [] then .error .trailing
    else (Conglobate.BootConfig.fromStr frame.1).mapError ConfigError.native

def encode (z : Zstd) (config : Native) : Bytes :=
  if config.values.entries.isEmpty then [] else z.compress config.text

def inherited (z : Zstd) (bytes : Bytes) (root : Option Hash) : Except ConfigError BootConfig := do
  let parsed ← decode z bytes
  .ok ⟨if parsed.values.entries.isEmpty then [] else bytes, root⟩

/-- One key of an overlay: removed, or given a value list. -/
def applyEntry (values : Values) (entry : Plan.Key × Option Plan.Value) : Values :=
  match entry.2 with
  | none => values.erase entry.1.name
  | some (.string value) => values.insert entry.1.name [value]
  | some (.list value) => values.insert entry.1.name value

/-- The values of an optional base. -/
def decodeBase (z : Zstd) : Option BootConfig → Except ConfigError Native
  | some base => decode z base.bytes
  | none => .ok Conglobate.BootConfig.default

def overlay (z : Zstd) (base : Option BootConfig) (entries : List (Plan.Key × Option Plan.Value)) :
    Except ConfigError BootConfig := do
  let parsed ← decodeBase z base
  let config ← (Conglobate.BootConfig.tryFrom (entries.foldl applyEntry parsed.values)).mapError
    ConfigError.native
  .ok ⟨encode z config, base.bind BootConfig.root⟩

def bind (z : Zstd) (c : BootConfig) (root : Hash) : Except ConfigError BootConfig := do
  let config ← decode z c.bytes
  if config.values.contains rootKey then do
    let bound ← (Conglobate.BootConfig.tryFrom (config.values.insert rootKey
      [rootValue root])).mapError ConfigError.native
    .ok ⟨encode z bound, some root⟩
  else .ok { c with root := some root }

/-! What the operations do to the values. -/

/-- A configuration without values is the default one. -/
theorem eq_default {c : Native} (h : c.values.entries.isEmpty = true) :
    c = Conglobate.BootConfig.default :=
  Conglobate.BootConfig.ext (OrdMap.ext (List.isEmpty_iff.mp h))

/-- **What is encoded decodes.** -/
theorem decode_encode {z : Zstd} (hz : z.Lawful) (c : Native) : decode z (encode z c) = .ok c := by
  unfold encode
  split
  · rename_i hempty
    rw [decode, if_pos rfl, eq_default hempty]
  · have hutf8 : c.text.isUtf8 = true := Bytes.isUtf8_ascii c.text_ascii
    have hparse := Conglobate.BootConfig.fromStr_canonical c
    rw [decode, if_neg (hz.compress_ne_nil _), hz.decode_compress]
    show (if (!c.text.isUtf8) = true then Except.error ConfigError.utf8
      else if [] ≠ [] then Except.error ConfigError.trailing
      else (Conglobate.BootConfig.fromStr c.text).mapError ConfigError.native) = Except.ok c
    rw [hutf8, hparse]
    rfl

/-- Only what has values is encoded as bytes. -/
theorem encode_eq_nil {z : Zstd} (hz : z.Lawful) (c : Native) :
    encode z c = [] ↔ c.values.entries = [] := by
  unfold encode
  split
  · rename_i hempty
    exact ⟨fun _ => List.isEmpty_iff.mp hempty, fun _ => rfl⟩
  · rename_i hempty
    exact ⟨fun h => absurd h (hz.compress_ne_nil _), fun h => absurd
      (List.isEmpty_iff.mpr h) hempty⟩

/-- Replacing a value by a nonempty one drops no key. -/
theorem retained_insert {values : Values} {k : Bytes} {item : Bytes} {items : List Bytes}
    (hkept : Conglobate.BootConfig.retained values = values) (hk : values.contains k = true) :
    Conglobate.BootConfig.retained (values.insert k (item :: items)) =
      values.insert k (item :: items) := by
  have hparents : ∀ a, a ∈ Conglobate.BootConfig.parentsOf
      (values.insert k (item :: items)).entries →
      a ∈ Conglobate.BootConfig.parentsOf values.entries := by
    intro a ha
    obtain ⟨e, he, hmem⟩ := Conglobate.BootConfig.mem_parentsOf.mp ha
    rcases OrdMap.mem_insertEntries he with rfl | he
    · obtain ⟨v, hv⟩ := Option.isSome_iff_exists.mp hk
      exact Conglobate.BootConfig.mem_parentsOf.mpr ⟨(k, v), OrdMap.get?_eq_some.mp hv, hmem⟩
    · exact Conglobate.BootConfig.mem_parentsOf.mpr ⟨e, he, hmem⟩
  apply OrdMap.ext
  show List.filter _ (values.insert k (item :: items)).entries = _
  rw [List.filter_eq_self]
  intro e he
  rcases OrdMap.mem_insertEntries he with rfl | he
  · rfl
  · -- An entry kept from before was kept then, and has no new descendants.
    have hbefore : e ∈ (Conglobate.BootConfig.retained values).entries := by rwa [hkept]
    have hkeep := (List.mem_filter.mp hbefore).2
    simp only [Bool.or_eq_true, decide_eq_true_eq] at hkeep ⊢
    exact hkeep.imp id (fun hout hin => hout (hparents e.1 hin))

/-- **Binding** rebinds the values and records the root. Without a `corium.root` the
    bytes are untouched. -/
theorem bind_spec {z : Zstd} (hz : z.Lawful) {c d : BootConfig} {root : Hash} {v : Native}
    (hv : decode z c.bytes = .ok v) (h : bind z c root = .ok d) :
    d.root = some root ∧ (∃ w, decode z d.bytes = .ok w ∧ w.values = rebind root v.values) ∧
      (v.values.contains rootKey = false → d.bytes = c.bytes) := by
  rw [bind, hv, except_ok_bind] at h
  unfold rebind
  split at h
  · rename_i hroot
    obtain ⟨w, hw, h⟩ := except_bind_eq_ok.mp h
    cases h
    obtain ⟨-, -, hkept, -⟩ :=
      Conglobate.BootConfig.canonicalize_eq_ok.mp (Conglobate.BootConfig.tryFrom_eq_ok.mp
        (except_mapError_eq_ok.mp hw))
    have hretained := (Conglobate.BootConfig.canonicalize_eq_ok.mp v.canonical).2.2.1
    refine ⟨rfl, ⟨w, decode_encode hz w, ?_⟩, ?_⟩
    · rw [hkept, if_pos hroot, retained_insert hretained.symm hroot]
    · intro hnone
      rw [hroot] at hnone
      cases hnone
  · rename_i hroot
    cases h
    exact ⟨rfl, ⟨v, hv, by rw [if_neg hroot]⟩, fun _ => rfl⟩

/-- **An overlay** is its entries applied to the base's values, in canonical form; it
    keeps the base's root. -/
theorem overlay_spec {z : Zstd} (hz : z.Lawful) {base : Option BootConfig} {v : Native}
    {entries : List (Plan.Key × Option Plan.Value)} {c : BootConfig}
    (hv : decodeBase z base = .ok v) (h : overlay z base entries = .ok c) :
    c.root = base.bind BootConfig.root ∧ ∃ w, decode z c.bytes = .ok w ∧
      Conglobate.BootConfig.tryFrom (entries.foldl applyEntry v.values) = .ok w ∧
      (c.bytes = [] ↔ w.values.entries = []) := by
  rw [overlay, hv, except_ok_bind] at h
  obtain ⟨w, hw, h⟩ := except_bind_eq_ok.mp h
  cases h
  exact ⟨rfl, w, decode_encode hz w, except_mapError_eq_ok.mp hw, encode_eq_nil hz w⟩

/-- **Binding neither adds nor removes a key.** -/
theorem contains_rebind (root : Hash) (values : Values) (k : Bytes) :
    (rebind root values).contains k = values.contains k := by
  unfold rebind
  split
  · rename_i hroot
    rw [OrdMap.contains_insert]
    by_cases hk : k = rootKey
    · simp [hk, hroot]
    · simp [hk]
  · rfl

end BootConfig

end Conglobate.Pipeline
