import Conglobate.Artifact.Config

/- The canonical form of requirements (`artifact/config.rs`).

   A struct written as the fields it has reads back as that struct
   (`closedFields_present`, `lookup_present`), so every part of a configuration does,
   and the configuration as the one with canonical requirements
   (`Config.ofJson_toJson`).

   Canonical form drops what says nothing about processors. Two more values say
   nothing: a memory band without limits and an ingress without ports. They are kept
   and written, so requirements that mean the same (`contract`) are written the same
   exactly if they agree on these (`encode_eq_iff`). -/
namespace Conglobate.Artifact

/-! Structs. -/

theorem present_sublist (slots : List (Text × Option Json)) :
    ((present slots).map Prod.fst).Sublist (slots.map Prod.fst) := by
  induction slots with
  | nil => exact .slnil
  | cons slot rest ih =>
    obtain ⟨name, value⟩ := slot
    cases value with
    | none => exact .cons name ih
    | some j => exact .cons_cons name ih

/-- **A field is found** as it was written, or not at all. -/
theorem lookup_present {slots : List (Text × Option Json)} (hnodup : (slots.map Prod.fst).Nodup)
    {name : Text} {value : Option Json} (hmem : (name, value) ∈ slots) :
    (present slots).lookup name = value := by
  induction slots with
  | nil => cases hmem
  | cons slot rest ih =>
    obtain ⟨first, v⟩ := slot
    obtain ⟨hfirst, hnodup⟩ := List.nodup_cons.mp hnodup
    obtain heq | hlater := List.mem_cons.mp hmem
    · obtain ⟨rfl, rfl⟩ := Prod.mk.inj heq
      cases value with
      | some j =>
        show ((name, j) :: present rest).lookup name = some j
        rw [List.lookup_cons_self]
      | none =>
        show (present rest).lookup name = none
        rw [List.lookup_eq_none_iff]
        intro e he
        have hname : e.1 ∈ rest.map Prod.fst :=
          (present_sublist rest).subset (List.mem_map_of_mem he)
        have hne : name ≠ e.1 := fun heq => hfirst (heq ▸ hname)
        simpa using hne
    · have hname : name ∈ rest.map Prod.fst := List.mem_map_of_mem hlater
      have hne : name ≠ first := fun heq => hfirst (heq ▸ hname)
      have hrest := ih hnodup hlater
      cases v with
      | none => exact hrest
      | some j =>
        show ((first, j) :: present rest).lookup name = value
        rw [List.lookup_cons, beq_eq_false_iff_ne.mpr hne]
        exact hrest

/-- **A struct's fields are accepted** by a reader that knows them. -/
theorem closedFields_present {slots : List (Text × Option Json)}
    (hnodup : (slots.map Prod.fst).Nodup) (least : Nat) :
    closedFields (slots.map Prod.fst) least (.object (present slots)) = .ok (present slots) := by
  have hknown : (present slots).find? (fun e => !(slots.map Prod.fst).contains e.1) = none := by
    rw [List.find?_eq_none]
    intro e he
    have hname := (present_sublist slots).subset (List.mem_map_of_mem he)
    rw [List.contains_iff_mem.mpr hname]
    exact Bool.false_ne_true
  rw [closedFields, hknown]
  exact if_pos ((present_sublist slots).nodup hnodup)

section
variable {α : Type} {slots : List (Text × Option Json)} {name : Text} {write : α → Json}
    {read : Json → Except JsonError α}

theorem optionField_present (hnodup : (slots.map Prod.fst).Nodup) {x : Option α}
    (hmem : (name, x.map write) ∈ slots) (hnull : ∀ a, write a ≠ .null)
    (hread : ∀ a, read (write a) = .ok a) : optionField read (present slots) name = .ok x := by
  rw [optionField, lookup_present hnodup hmem]
  cases x with
  | none => rfl
  | some a =>
    have hsome : some <$> read (write a) = .ok (some a) := by
      rw [hread]
      rfl
    split
    · rename_i hnone
      cases hnone
    · rename_i hj
      exact absurd (Option.some.inj hj) (hnull a)
    · rename_i hj
      rw [← Option.some.inj hj]
      exact hsome

theorem defaultField_present (hnodup : (slots.map Prod.fst).Nodup) {absent : α} {j : Option Json}
    {a : α} (hmem : (name, j) ∈ slots) (hread : ∀ j', j = some j' → read j' = .ok a)
    (habsent : j = none → absent = a) :
    defaultField absent read (present slots) name = .ok a := by
  rw [defaultField, lookup_present hnodup hmem]
  cases j with
  | none => rw [habsent rfl]
  | some j => exact hread j rfl

end

/-! Bands. -/

theorem Amount.ofJson_toJson {u : Measure} (n : Amount u) : ofJson n.toJson = .ok n := by
  rw [toJson, ofJson, dif_pos n.property]

theorem Recommendation.ofJson_toJson {u : Measure} (r : Recommendation (Amount u)) :
    ofJson r.toJson = .ok r := by
  cases r with
  | value n =>
    have hread : Amount.ofJson n.toJson = .ok n := Amount.ofJson_toJson n
    rw [toJson]
    unfold ofJson
    rw [hread]
  | max => rfl

theorem Recommendation.toJson_ne_null {u : Measure} (r : Recommendation (Amount u)) :
    r.toJson ≠ .null := by
  cases r <;> exact Json.noConfusion

namespace Band
variable {u : Measure}

@[ext] theorem ext {b c : Band u} (h : b.required = c.required)
    (h' : b.recommended = c.recommended) : b = c := by
  cases b
  cases c
  congr

theorem in_order (b : Band u) : inOrder b.required b.recommended = true := by
  unfold inOrder
  split
  · rename_i least preferred hrequired hrecommended
    exact decide_eq_true (b.ordered least preferred hrequired hrecommended)
  · rfl

theorem new_eq (b : Band u) : new b.required b.recommended = some b := by
  rw [new, dif_pos b.in_order]

/-- The tiers read back, whatever fields stand beside them. -/
theorem ofFields_present {slots : List (Text × Option Json)} (hnodup : (slots.map Prod.fst).Nodup)
    (b : Band u) (hslots : b.slots ⊆ slots) : ofFields (present slots) = .ok b := by
  have hrequired : optionField Amount.ofJson (present slots) Field.required = .ok b.required :=
    optionField_present hnodup (hslots (by simp [Band.slots]))
      (fun _ => Json.noConfusion) Amount.ofJson_toJson
  have hrecommended : optionField Recommendation.ofJson (present slots) Field.recommended =
      .ok b.recommended :=
    optionField_present hnodup (hslots (by simp [Band.slots])) Recommendation.toJson_ne_null
      Recommendation.ofJson_toJson
  rw [ofFields, hrequired, except_ok_bind, hrecommended, except_ok_bind, new_eq]

theorem ofJson_toJson (b : Band u) : ofJson b.toJson = .ok b := by
  have hnodup : (b.slots.map Prod.fst).Nodup := by
    show [Field.required, Field.recommended].Nodup
    decide
  have hclosed : closedFields [Field.required, Field.recommended] 0 b.toJson =
      .ok (present b.slots) :=
    closedFields_present hnodup 0
  rw [ofJson, hclosed, except_ok_bind, ofFields_present hnodup b (List.Subset.refl _)]

end Band

theorem Slot.ofJson_toJson (s : Slot) : ofJson s.toJson = .ok s := by
  cases s <;> rfl

theorem Storage.ofJson_toJson (s : Storage) : ofJson s.toJson = .ok s := by
  have hnodup : (s.slots.map Prod.fst).Nodup := by
    show [Field.required, Field.recommended, Field.slot].Nodup
    decide
  have hclosed : closedFields [Field.required, Field.recommended, Field.slot] 3 s.toJson =
      .ok (present s.slots) :=
    closedFields_present hnodup 3
  have hslot : optionField Slot.ofJson (present s.slots) Field.slot = .ok s.slot :=
    optionField_present hnodup (by simp [slots]) (fun _ => Json.noConfusion) Slot.ofJson_toJson
  rw [ofJson, hclosed, except_ok_bind, Band.ofFields_present hnodup s.capacity
    (List.subset_append_left _ _), except_ok_bind,
    hslot]
  rfl

/-! Ports and interfaces. -/

theorem PortSpec.portOfJson_portJson (p : UInt16) : portOfJson (portJson p) = .ok p := by
  have hport : (portJson p).asUnsigned 16 = .ok p.toNat := if_pos p.toNat_lt
  rw [portOfJson, hport, except_ok_bind, UInt16.ofNat_toNat]

theorem PortSpec.ofJson_toJson (p : PortSpec) : ofJson p.toJson = .ok p := by
  cases p with
  | port p =>
    show PortSpec.port <$> portOfJson (portJson p) = _
    rw [portOfJson_portJson]
    rfl
  | range low high =>
    show (portOfJson (portJson low) >>= fun low => portOfJson (portJson high) >>= fun high => _) = _
    rw [portOfJson_portJson, except_ok_bind, portOfJson_portJson, except_ok_bind]
  | all => rfl

theorem Ingress.mapM_ports (ports : List PortSpec) :
    (ports.map PortSpec.toJson).mapM PortSpec.ofJson = .ok ports := by
  induction ports with
  | nil => rfl
  | cons p rest ih =>
    rw [List.map_cons, List.mapM_cons, PortSpec.ofJson_toJson, except_ok_bind, ih]
    rfl

/-- A port list reads back: an absent one is empty. -/
theorem Ingress.ports_present {slots : List (Text × Option Json)}
    (hnodup : (slots.map Prod.fst).Nodup) {name : Text} {ports : List PortSpec}
    (hmem : (name, portsJson ports) ∈ slots) :
    defaultField [] portsOfJson (present slots) name = .ok ports := by
  apply defaultField_present hnodup hmem
  · intro j hj
    rw [portsJson] at hj
    split at hj
    · cases hj
    · cases hj
      exact mapM_ports ports
  · intro hj
    rw [portsJson] at hj
    split at hj
    · rename_i hnil
      exact hnil.symm
    · cases hj

theorem Ingress.ofJson_toJson (i : Ingress) : ofJson i.toJson = .ok i := by
  have hnodup : (i.slots.map Prod.fst).Nodup := by
    show [Field.required, Field.recommended].Nodup
    decide
  have hclosed : closedFields [Field.required, Field.recommended] 0 i.toJson =
      .ok (present i.slots) :=
    closedFields_present hnodup 0
  have hrequired : defaultField [] portsOfJson (present i.slots) Field.required = .ok i.required :=
    ports_present hnodup (by simp [slots])
  have hrecommended : defaultField [] portsOfJson (present i.slots) Field.recommended =
      .ok i.recommended :=
    ports_present hnodup (by simp [slots])
  rw [ofJson, hclosed, except_ok_bind, hrequired, except_ok_bind, hrecommended]
  rfl

theorem Interface.ofJson_toJson (i : Interface) : ofJson i.toJson = .ok i := by
  have hnodup : (i.slots.map Prod.fst).Nodup := by
    show [Field.description, Field.ingress, Field.slot].Nodup
    decide
  have hclosed : closedFields [Field.description, Field.ingress, Field.slot] 0 i.toJson =
      .ok (present i.slots) :=
    closedFields_present hnodup 0
  have hdescription : optionField Json.asString (present i.slots) Field.description =
      .ok i.description :=
    @optionField_present _ _ _ Json.string _ hnodup _ (by simp [slots]) (fun _ => Json.noConfusion)
      (fun _ => rfl)
  have hingress : optionField Ingress.ofJson (present i.slots) Field.ingress = .ok i.ingress :=
    optionField_present hnodup (by simp [slots]) (fun _ => Json.noConfusion) Ingress.ofJson_toJson
  have hslot : optionField Slot.ofJson (present i.slots) Field.slot = .ok i.slot :=
    optionField_present hnodup (by simp [slots]) (fun _ => Json.noConfusion) Slot.ofJson_toJson
  rw [ofJson, hclosed, except_ok_bind, hdescription, except_ok_bind, hingress,
    except_ok_bind, hslot]
  rfl

/-! Requirements. -/

namespace Requirements

theorem interfaces_present {slots : List (Text × Option Json)} (hnodup : (slots.map Prod.fst).Nodup)
    {name : Text} {m : OrdMap Text Interface} (hmem : (name, interfacesJson m) ∈ slots) :
    defaultField OrdMap.empty interfacesOfJson (present slots) name = .ok m := by
  apply defaultField_present hnodup hmem
  · intro j hj
    rw [interfacesJson] at hj
    split at hj
    · cases hj
    · cases hj
      rw [interfacesOfJson, Json.asObject_ofMap, except_ok_bind,
        OrdMap.mapM_mapValues Interface.ofJson_toJson]
  · intro hj
    rw [interfacesJson] at hj
    split at hj
    · rename_i hnil
      exact OrdMap.ext hnil.symm
    · cases hj

/-- **Requirements read back.** -/
theorem ofJson_toJson (r : Requirements) : ofJson r.toJson = .ok r := by
  have hnodup : (r.slots.map Prod.fst).Nodup := by
    show [Field.slot, Field.cpus, Field.memory, Field.storage, Field.interfaces].Nodup
    decide
  have hclosed : closedFields [Field.slot, Field.cpus, Field.memory, Field.storage,
    Field.interfaces] 0 r.toJson =
    .ok (present r.slots) := closedFields_present hnodup 0
  have hslot : defaultField Slot.mmio Slot.ofJson (present r.slots) Field.slot = .ok r.slot :=
    defaultField_present hnodup (j := some r.slot.toJson) List.mem_cons_self
      (fun j hj => Option.some.inj hj ▸ Slot.ofJson_toJson r.slot) (fun h => by cases h)
  have hcpus : optionField Band.ofJson (present r.slots) Field.cpus = .ok r.cpus :=
    optionField_present hnodup (by simp [slots]) (fun _ => Json.noConfusion) Band.ofJson_toJson
  have hmemory : optionField Band.ofJson (present r.slots) Field.memory = .ok r.memory :=
    optionField_present hnodup (by simp [slots]) (fun _ => Json.noConfusion) Band.ofJson_toJson
  have hstorage : optionField Storage.ofJson (present r.slots) Field.storage = .ok r.storage :=
    optionField_present hnodup (by simp [slots]) (fun _ => Json.noConfusion) Storage.ofJson_toJson
  have hinterfaces : defaultField OrdMap.empty interfacesOfJson (present r.slots) Field.interfaces =
      .ok r.interfaces :=
    interfaces_present hnodup (by simp [slots])
  rw [ofJson, hclosed, except_ok_bind, hslot, except_ok_bind, hcpus, except_ok_bind, hmemory,
    except_ok_bind, hstorage, except_ok_bind, hinterfaces]
  rfl

end Requirements

/-- **A configuration reads back** with its requirements canonical. -/
theorem Config.ofJson_toJson (c : Config) : ofJson c.toJson =
    .ok ⟨c.version, c.requirements.canonicalize⟩ := by
  have hnodup : (c.slots.map Prod.fst).Nodup := by
    show [Field.version, Field.requirements].Nodup
    decide
  have hclosed : closedFields [Field.version, Field.requirements] 1 c.toJson =
      .ok (present c.slots) :=
    closedFields_present hnodup 1
  have hversion : requiredField (Json.asUnsigned 32) (present c.slots) Field.version =
      .ok c.version.toNat := by
    rw [requiredField, @lookup_present _ hnodup _ (some
      (.natural c.version.toNat)) List.mem_cons_self]
    exact if_pos c.version.toNat_lt
  have hrequirements : defaultField Requirements.empty Requirements.ofJson
      (present c.slots) Field.requirements =
      .ok c.requirements.canonicalize :=
    defaultField_present hnodup (j := some c.requirements.canonicalize.toJson) (by simp [slots])
      (fun j hj => Option.some.inj hj ▸ Requirements.ofJson_toJson _) (fun h => by cases h)
  rw [ofJson, hclosed, except_ok_bind, hversion, except_ok_bind, hrequirements, except_ok_bind,
    UInt32.ofNat_toNat]

/-! What is written has one text. -/

theorem plain_present {slots : List (Text × Option Json)}
    (h : ∀ slot ∈ slots, ∀ j, slot.2 = some j → j.Plain) :
    (Json.object (present slots)).Plain := by
  show Json.PlainFields (present slots)
  induction slots with
  | nil => exact trivial
  | cons slot rest ih =>
    obtain ⟨name, value⟩ := slot
    have hrest := ih fun slot hslot => h slot (List.mem_cons_of_mem _ hslot)
    cases value with
    | none => exact hrest
    | some j => exact ⟨h _ List.mem_cons_self j rfl, hrest⟩

theorem plain_array {α : Type} {write : α → Json} (h : ∀ a, (write a).Plain) (l : List α) :
    (Json.array (l.map write)).Plain := by
  show Json.PlainItems (l.map write)
  induction l with
  | nil => exact trivial
  | cons a rest ih => exact ⟨h a, ih⟩

theorem plain_ofMap {α : Type} {write : α → Json} (h : ∀ a, (write a).Plain) (m : OrdMap Text α) :
    (Json.ofMap (m.mapValues write)).Plain := by
  show Json.PlainFields (m.entries.map fun e => (e.1, write e.2))
  induction m.entries with
  | nil => exact trivial
  | cons e rest ih => exact ⟨h e.2, ih⟩

theorem plain_map {α : Type} {write : α → Json} (h : ∀ a, (write a).Plain) {x : Option α} (j : Json)
    (hj : x.map write = some j) :
    j.Plain := by
  obtain ⟨a, -, rfl⟩ := Option.map_eq_some_iff.mp hj
  exact h a

theorem Amount.plain {u : Measure} (n : Amount u) : n.toJson.Plain := trivial

theorem Slot.plain (s : Slot) : s.toJson.Plain := trivial

theorem Recommendation.plain {u : Measure} (r : Recommendation (Amount u)) : r.toJson.Plain := by
  cases r <;> exact trivial

theorem Band.plain_slots {u : Measure} (b : Band u) :
    ∀ slot ∈ b.slots, ∀ j, slot.2 = some j → j.Plain := by
  intro slot hslot
  simp only [Band.slots, List.mem_cons, List.not_mem_nil, or_false] at hslot
  obtain rfl | rfl := hslot
  · exact plain_map Amount.plain
  · exact plain_map Recommendation.plain

theorem Band.plain {u : Measure} (b : Band u) : b.toJson.Plain := plain_present b.plain_slots

theorem Storage.plain (s : Storage) : s.toJson.Plain := by
  apply plain_present
  intro slot hslot
  obtain hslot | hslot := List.mem_append.mp hslot
  · exact s.capacity.plain_slots slot hslot
  · rw [List.mem_singleton.mp hslot]
    exact plain_map Slot.plain

theorem PortSpec.plain (p : PortSpec) : p.toJson.Plain := by
  cases p with
  | range low high => exact ⟨trivial, trivial, trivial⟩
  | _ => exact trivial

theorem Ingress.plain_ports {ports : List PortSpec} (j : Json) (hj : portsJson ports = some j) :
    j.Plain := by
  rw [portsJson] at hj
  split at hj
  · cases hj
  · rw [← Option.some.inj hj]
    exact plain_array PortSpec.plain ports

theorem Ingress.plain (i : Ingress) : i.toJson.Plain := by
  apply plain_present
  intro slot hslot
  simp only [slots, List.mem_cons, List.not_mem_nil, or_false] at hslot
  obtain rfl | rfl := hslot <;> exact plain_ports

theorem Interface.plain (i : Interface) : i.toJson.Plain := by
  apply plain_present
  intro slot hslot
  simp only [slots, List.mem_cons, List.not_mem_nil, or_false] at hslot
  obtain rfl | rfl | rfl := hslot
  · have hstring : ∀ t, (Json.string t).Plain := fun _ => trivial
    exact plain_map hstring
  · exact plain_map Ingress.plain
  · exact plain_map Slot.plain

theorem Requirements.plain (r : Requirements) : r.toJson.Plain := by
  apply plain_present
  intro slot hslot
  simp only [slots, List.mem_cons, List.not_mem_nil, or_false] at hslot
  obtain rfl | rfl | rfl | rfl | rfl := hslot
  · intro j hj
    rw [← Option.some.inj hj]
    exact trivial
  · exact plain_map Band.plain
  · exact plain_map Band.plain
  · exact plain_map Storage.plain
  · intro j hj
    rw [interfacesJson] at hj
    split at hj
    · cases hj
    · rw [← Option.some.inj hj]
      exact plain_ofMap Interface.plain r.interfaces

theorem Config.plain (c : Config) : c.toJson.Plain := by
  apply plain_present
  intro slot hslot
  simp only [slots, List.mem_cons, List.not_mem_nil, or_false] at hslot
  obtain rfl | rfl := hslot
  · intro j hj
    rw [← Option.some.inj hj]
    exact trivial
  · intro j hj
    rw [← Option.some.inj hj]
    exact Requirements.plain _

/-- **Written the same** are the configurations whose canonical forms are the same. -/
theorem Config.encode_inj {version : UInt32} {r r' : Requirements} :
    encode ⟨version, r⟩ = encode ⟨version, r'⟩ ↔ r.canonicalize = r'.canonicalize := by
  constructor
  · intro h
    have hjson : toJson ⟨version, r⟩ = toJson ⟨version, r'⟩ :=
      Json.toVec_injective (plain _) (plain _) h
    have hread := ofJson_toJson ⟨version, r⟩
    rw [hjson, ofJson_toJson] at hread
    exact (congrArg Config.requirements (Except.ok.inj hread)).symm
  · intro h
    rw [encode, encode, toJson, toJson, slots, slots, h]

/-! Canonical form. -/

namespace Band

theorem isEmpty_iff {u : Measure} (b : Band u) :
    b.isEmpty = true ↔ b.required = none ∧ b.recommended = none := by
  rw [isEmpty, Bool.and_eq_true, Option.isNone_iff_eq_none, Option.isNone_iff_eq_none]

/-- There is one band without limits. -/
theorem eq_of_isEmpty {u : Measure} {b c : Band u} (hb : b.isEmpty = true) (hc : c.isEmpty = true) :
    b = c := by
  obtain ⟨hrequired, hrecommended⟩ := b.isEmpty_iff.mp hb
  obtain ⟨hrequired', hrecommended'⟩ := c.isEmpty_iff.mp hc
  exact Band.ext (hrequired.trans hrequired'.symm) (hrecommended.trans hrecommended'.symm)

theorem dropFloor_dropFloor {u : Measure} (b : Band u) : b.dropFloor.dropFloor = b.dropFloor := by
  apply Band.ext
  · show (b.required.filter _).filter _ = b.required.filter _
    rw [Option.filter_filter]
    simp
  · show (b.recommended.filter _).filter _ = b.recommended.filter _
    rw [Option.filter_filter]
    simp

end Band

theorem Ingress.eq_of_isEmpty {i k : Ingress} (hi : i.isEmpty = true) (hk : k.isEmpty = true) :
    i = k := by
  cases i
  cases k
  simp only [isEmpty, Bool.and_eq_true, List.isEmpty_iff] at hi hk
  rw [hi.1, hi.2, hk.1, hk.2]

/-- A filtered option is the option but for what is left out. -/
theorem eq_of_filter_eq {α : Type} {p : α → Bool} (hp : ∀ a b, p a = false → p b = false → a = b)
    {x y : Option α} (h : x.filter p = y.filter p) :
    x = y ↔ ((∃ a, x = some a ∧ p a = false) ↔ ∃ a, y = some a ∧ p a = false) := by
  constructor
  · intro heq
    rw [heq]
  · intro hiff
    cases x with
    | none =>
      cases y with
      | none => rfl
      | some b =>
        cases hb : p b with
        | false =>
          obtain ⟨a, ha, -⟩ := hiff.mpr ⟨b, rfl, hb⟩
          cases ha
        | true =>
          rw [Option.filter_some_pos hb] at h
          cases h
    | some a =>
      cases ha : p a with
      | false =>
        obtain ⟨b, rfl, hb⟩ := hiff.mp ⟨a, rfl, ha⟩
        rw [hp a b ha hb]
      | true =>
        rw [Option.filter_some_pos ha] at h
        obtain ⟨hy, -⟩ := Option.filter_eq_some_iff.mp h.symm
        exact hy.symm

namespace Requirements

/-- The processors' band as canonical form keeps it. -/
theorem canonicalize_cpus (r : Requirements) :
    r.canonicalize.cpus = (r.cpus.map Band.dropFloor).filter fun b => !b.isEmpty := by
  rw [canonicalize]
  cases hcpus : r.cpus with
  | none => rw [hcpus]; rfl
  | some b =>
    show (if b.dropFloor.isEmpty = true then none else some b.dropFloor) =
      (some b.dropFloor).filter fun b => !b.isEmpty
    cases hempty : b.dropFloor.isEmpty with
    | true => rw [if_pos rfl, Option.filter_some_neg (by simp [hempty])]
    | false => rw [if_neg Bool.false_ne_true, Option.filter_some_pos (by simp [hempty])]

/-- Nothing but the processors' band is touched. -/
theorem canonicalize_eq (r : Requirements) : r.canonicalize =
    { r with cpus := r.canonicalize.cpus } := by
  rw [canonicalize]
  cases r.cpus <;> rfl

/-- **Canonical form is canonical.** -/
theorem canonicalize_canonicalize (r : Requirements) :
    r.canonicalize.canonicalize = r.canonicalize := by
  have hcpus : r.canonicalize.canonicalize.cpus = r.canonicalize.cpus := by
    rw [canonicalize_cpus, canonicalize_cpus]
    cases r.cpus with
    | none => rfl
    | some b =>
      cases hempty : b.dropFloor.isEmpty with
      | true =>
        rw [Option.map_some, Option.filter_some_neg (by simp [hempty])]
        rfl
      | false =>
        have hkept : (some b.dropFloor).filter (fun b => !b.isEmpty) = some b.dropFloor :=
          Option.filter_some_pos (by simp [hempty])
        rw [Option.map_some, hkept, Option.map_some, Band.dropFloor_dropFloor, hkept]
  rw [canonicalize_eq r.canonicalize, hcpus]

/-- No band recommends less than it requires. -/
def Ordered (r : Requirements) : Prop :=
  (∀ b, r.cpus = some b → Band.inOrder b.required b.recommended = true) ∧
    (∀ b, r.memory = some b → Band.inOrder b.required b.recommended = true) ∧
    ∀ s, r.storage = some s → Band.inOrder s.capacity.required s.capacity.recommended = true

theorem ordered (r : Requirements) : r.Ordered :=
  ⟨fun b _ => b.in_order, fun b _ => b.in_order, fun s _ => s.capacity.in_order⟩

/-- What requirements mean: amounts, ports and transports, without what says nothing. -/
def contract (r : Requirements) : Requirements where
  slot := r.slot
  cpus := (r.cpus.map Band.dropFloor).filter fun b => !b.isEmpty
  memory := r.memory.filter fun b => !b.isEmpty
  storage := r.storage
  interfaces := r.interfaces.mapValues fun i => { i with ingress := i.ingress.filter fun g => !g.isEmpty }

/-- A memory band without limits. -/
def BlankMemory (r : Requirements) : Prop := ∃ b, r.memory = some b ∧ b.isEmpty = true

/-- An ingress without ports. -/
def BlankIngress (r : Requirements) (label : Text) : Prop :=
  ∃ i g, r.interfaces.get? label = some i ∧ i.ingress = some g ∧ g.isEmpty = true

theorem memory_eq_iff {r r' : Requirements} (h : r.contract = r'.contract) :
    r.memory = r'.memory ↔ (r.BlankMemory ↔ r'.BlankMemory) := by
  have hmemory : r.memory.filter (fun b => !b.isEmpty) = r'.memory.filter fun b => !b.isEmpty :=
    congrArg Requirements.memory h
  rw [eq_of_filter_eq _ hmemory]
  · simp only [BlankMemory, Bool.not_eq_false']
  · intro b c hb hc
    exact Band.eq_of_isEmpty (by simpa using hb) (by simpa using hc)

theorem interfaces_eq_iff {r r' : Requirements} (h : r.contract = r'.contract) :
    r.interfaces = r'.interfaces ↔ ∀ label, r.BlankIngress label ↔ r'.BlankIngress label := by
  constructor
  · intro heq label
    rw [BlankIngress, BlankIngress, heq]
  · intro hblank
    apply OrdMap.ext_get?
    intro label
    have hlabel := congrArg (fun c => c.interfaces.get? label) h
    simp only [contract, OrdMap.get?_mapValues] at hlabel
    have hblank := hblank label
    rw [BlankIngress, BlankIngress] at hblank
    cases hi : r.interfaces.get? label with
    | none =>
      rw [hi] at hlabel
      exact (Option.map_eq_none_iff.mp hlabel.symm).symm
    | some i =>
      rw [hi, Option.map_some] at hlabel
      obtain ⟨k, hk, heq⟩ := Option.map_eq_some_iff.mp hlabel.symm
      rw [hi, hk] at hblank
      have hingress : i.ingress.filter (fun g => !g.isEmpty) = k.ingress.filter fun g =>
          !g.isEmpty :=
        (congrArg Interface.ingress heq).symm
      have hsame : i.ingress = k.ingress := by
        rw [eq_of_filter_eq _ hingress]
        · simpa using hblank
        · intro g g' hg hg'
          exact Ingress.eq_of_isEmpty (by simpa using hg) (by simpa using hg')
      have hdescription : i.description = k.description := (congrArg Interface.description heq).symm
      have hslot : i.slot = k.slot := (congrArg Interface.slot heq).symm
      rw [hk, Option.some.injEq]
      cases i
      cases k
      simp_all

/-- **One meaning, one canonical form**, but for blank memory bands and ingresses. -/
theorem canonicalize_eq_iff {r r' : Requirements} (h : r.contract = r'.contract) :
    r.canonicalize = r'.canonicalize ↔
      (r.BlankMemory ↔ r'.BlankMemory) ∧ ∀ label, r.BlankIngress label ↔ r'.BlankIngress label := by
  rw [← memory_eq_iff h, ← interfaces_eq_iff h]
  have hcpus : r.canonicalize.cpus = r'.canonicalize.cpus := by
    rw [canonicalize_cpus, canonicalize_cpus]
    exact congrArg Requirements.cpus h
  constructor
  · intro heq
    rw [canonicalize_eq r, canonicalize_eq r'] at heq
    have hmemory := congrArg Requirements.memory heq
    have hinterfaces := congrArg Requirements.interfaces heq
    exact ⟨hmemory, hinterfaces⟩
  · intro hsame
    have hslot := congrArg Requirements.slot h
    have hstorage := congrArg Requirements.storage h
    rw [contract, contract] at hslot hstorage
    rw [canonicalize_eq r, canonicalize_eq r', hcpus, hsame.1, hsame.2]
    congr

end Requirements

/-- **The canonical form of requirements.** What is decoded from a written configuration
    is its canonical form, which decodes to itself, is written with the same bytes and has
    its bands in order; requirements that mean the same are written with the same bytes
    exactly if they agree on blank memory bands and blank ingresses. -/
theorem canonical_form (read : Bytes → Except JsonError Json) (c : Config)
    (hread : read c.encode = .ok c.toJson) :
    Config.decode read c.encode = .ok ⟨c.version, c.requirements.canonicalize⟩ ∧
      (c.requirements.canonicalize = c.requirements → Config.decode read c.encode = .ok c) ∧
      (∀ decoded, Config.decode read c.encode = .ok decoded → decoded.encode = c.encode) ∧
      c.requirements.canonicalize.canonicalize = c.requirements.canonicalize ∧
      c.requirements.canonicalize.Ordered ∧
      ∀ r, r.contract = c.requirements.contract →
        (Config.encode ⟨c.version, r⟩ = c.encode ↔
          (r.BlankMemory ↔ c.requirements.BlankMemory) ∧
            ∀ label, r.BlankIngress label ↔ c.requirements.BlankIngress label) := by
  have hdecode : Config.decode read c.encode = .ok ⟨c.version, c.requirements.canonicalize⟩ := by
    rw [Config.decode, hread, except_ok_bind, Config.ofJson_toJson]
  refine ⟨hdecode, ?_, ?_, c.requirements.canonicalize_canonicalize,
    c.requirements.canonicalize.ordered, ?_⟩
  · intro hcanonical
    rw [hdecode, hcanonical]
  · intro decoded hdecoded
    rw [hdecode, Except.ok.injEq] at hdecoded
    rw [← hdecoded]
    exact Config.encode_inj.mpr c.requirements.canonicalize_canonicalize
  · intro r hcontract
    exact Config.encode_inj.trans (Requirements.canonicalize_eq_iff hcontract)

/-- One required processor, and memory within any limits. -/
def unlimited : Config where
  version := 1
  requirements :=
    { slot := .mmio
      cpus := some ⟨some ⟨1, by decide⟩, none, fun _ _ _ h => by cases h⟩
      memory := some ⟨none, none, fun _ _ h => by cases h⟩
      storage := none
      interfaces := OrdMap.empty }

theorem unlimited_canonical :
    Config.decode (fun bytes => if bytes = unlimited.encode then .ok unlimited.toJson
      else .error .invalidValue)
      unlimited.encode = .ok ⟨1, unlimited.requirements.canonicalize⟩ :=
  (canonical_form _ unlimited (if_pos rfl)).1

/-- Memory within any limits is written, and so told apart from memory not mentioned. -/
theorem unlimited_written :
    unlimited.requirements.contract = Requirements.empty.contract ∧ unlimited.encode ≠
      Config.encode ⟨1, Requirements.empty⟩ := by
  decide

end Conglobate.Artifact
