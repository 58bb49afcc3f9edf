import Conglobate.Filesystem.Children
import Conglobate.Lib.JsonText
import Conglobate.Lib.Split

/- The mount table as the kernel writes it, and that it is read as what was written.

   A record is a line of fields between blanks, of which the first six are looked at;
   blanks, tabs, newlines and backslashes of a path are escaped. Records with
   identifiers of their own are read as the map they are (`readEntries_tableText`). -/
namespace Conglobate.Filesystem

structure Record where
  id : Nat
  parent : Nat
  device : Bytes
  source : Bytes
  /-- The names of the mount's path. -/
  names : List Bytes
  /-- Options and what follows them. -/
  rest : Bytes

/-- A name there can be in a path. -/
structure FileName (name : Bytes) : Prop where
  nonempty : name ≠ []
  not_dot : name ≠ dotName
  no_separator : separator ∉ name
  no_nul : 0 ∉ name

structure Record.WellFormed (r : Record) : Prop where
  positive : r.id ≠ 0
  id_bound : r.id < 2 ^ 64
  parent_bound : r.parent < 2 ^ 64
  device : Ascii.blank ∉ r.device ∧ Ascii.newline ∉ r.device
  source : Ascii.blank ∉ r.source ∧ Ascii.newline ∉ r.source
  names : ∀ name ∈ r.names, FileName name
  rest : Ascii.newline ∉ r.rest

/-- An absolute path. -/
def pathText (names : List Bytes) : Bytes := separator :: [separator].intercalate names

/-- A byte of a path as the kernel writes it. -/
def mangle (b : UInt8) : Bytes :=
  if b = 32 then [92, 48, 52, 48]
  else if b = 9 then [92, 48, 49, 49]
  else if b = 10 then [92, 48, 49, 50]
  else if b = 92 then [92, 49, 51, 52]
  else [b]

def numberText (n : Nat) : Bytes := (Decimal.write n).map fun c => UInt8.ofNat c.toNat

def Record.line (r : Record) : Bytes :=
  numberText r.id ++ Ascii.blank :: (numberText r.parent ++ Ascii.blank ::
    (r.device ++ Ascii.blank ::
    (r.source ++ Ascii.blank :: ((pathText r.names).flatMap mangle ++ Ascii.blank :: r.rest))))

def tableText (records : List Record) : Bytes := records.flatMap fun r => r.line ++ [Ascii.newline]

/-! Fields. -/

theorem digit_byte {c : Char} (h : c.isDigit = true) :
    Char.ofNat (UInt8.ofNat c.toNat).toNat = c := by
  have hbound : c.toNat < 256 := by
    have hle : c.toNat ≤ 57 := by
      simp only [Char.isDigit, Bool.and_eq_true, decide_eq_true_eq] at h
      exact UInt32.le_iff_toNat_le.mp h.2
    omega
  rw [UInt8.toNat_ofNat', Nat.mod_eq_of_lt hbound, Char.ofNat_toNat]

theorem numberText_read (n : Nat) : (numberText n).map (fun b => Char.ofNat b.toNat) =
    Decimal.write n := by
  have hdigits := Json.write_digits n
  rw [numberText, List.map_map]
  generalize Decimal.write n = t at hdigits ⊢
  induction t with
  | nil => rfl
  | cons c rest ih =>
    obtain ⟨hc, hrest⟩ := List.forall_mem_cons.mp hdigits
    rw [List.map_cons, ih hrest]
    exact congrArg (· :: rest) (digit_byte hc)

theorem parseId_numberText {n : Nat} (h : n < 2 ^ 64) : parseId (numberText n) = .ok n := by
  have hplus : (Decimal.write n).head? ≠ some '+' := by
    intro hhead
    have hdigit := Json.write_digits n '+' (List.mem_of_head? hhead)
    exact absurd hdigit (by decide)
  rw [parseId, numberText_read, Decimal.parseUnsigned, if_neg hplus, Decimal.parseDigits_write,
    Option.filter_some_pos (by simpa using h)]

/-- A digit's byte is none the format gives a meaning. -/
theorem numberText_plain {n : Nat} {b : UInt8} (h : b ∈ numberText n) :
    b ≠ Ascii.blank ∧ b ≠ Ascii.newline := by
  obtain ⟨c, hc, rfl⟩ := List.mem_map.mp h
  have hdigit := Json.write_digits n c hc
  constructor
  · intro heq
    rw [← digit_byte hdigit, heq] at hdigit
    exact absurd hdigit (by decide)
  · intro heq
    rw [← digit_byte hdigit, heq] at hdigit
    exact absurd hdigit (by decide)

theorem numberText_ne_nil (n : Nat) : numberText n ≠ [] := by
  rw [numberText, ne_eq, List.map_eq_nil_iff]
  exact Json.write_ne_nil n

theorem mangle_plain {b c : UInt8} (h : c ∈ mangle b) : c ≠ Ascii.blank ∧ c ≠ Ascii.newline := by
  have hescape : ∀ x y z : UInt8, c ∈ [92, x, y, z] → x ∈ [48, 49] → y ∈ [49, 51, 52] →
      z ∈ [48, 49, 50, 52] → c ≠ Ascii.blank ∧ c ≠ Ascii.newline := by
    intro x y z hc hx hy hz
    have hdigits : c ∈ [92, 48, 49, 50, 51, 52] := by
      simp only [List.mem_cons, List.not_mem_nil, or_false] at hc hx hy hz ⊢
      grind
    simp only [List.mem_cons, List.not_mem_nil, or_false] at hdigits
    obtain rfl | rfl | rfl | rfl | rfl | rfl := hdigits <;> exact ⟨by decide, by decide⟩
  unfold mangle at h
  split at h
  · exact hescape _ _ _ h (by simp) (by simp) (by simp)
  split at h
  · exact hescape _ _ _ h (by simp) (by simp) (by simp)
  split at h
  · exact hescape _ _ _ h (by simp) (by simp) (by simp)
  split at h
  · exact hescape _ _ _ h (by simp) (by simp) (by simp)
  · rename_i hblank _ hnewline _
    rw [List.mem_singleton.mp h]
    exact ⟨hblank, hnewline⟩

/-- **A mangled path is read back.** -/
theorem unescape_mangle {bs : Bytes} (h : 0 ∉ bs) : unescape (bs.flatMap mangle) = .ok bs := by
  induction bs with
  | nil => rfl
  | cons b rest ih =>
    rw [List.mem_cons, not_or] at h
    have hescape : ∀ x y z : UInt8, escaped [92, x, y, z] = some b →
        unescape ([92, x, y, z] ++ rest.flatMap mangle) = .ok (b :: rest) := by
      intro x y z hb
      have hbackslash : (92 : UInt8) = backslash := rfl
      simp only [List.cons_append, List.nil_append, unescape, if_pos hbackslash, hb, ih h.2]
      rfl
    rw [List.flatMap_cons, mangle]
    split
    · rename_i hb
      exact hescape _ _ _ (by rw [hb]; rfl)
    split
    · rename_i hb
      exact hescape _ _ _ (by rw [hb]; rfl)
    split
    · rename_i hb
      exact hescape _ _ _ (by rw [hb]; rfl)
    split
    · rename_i hb
      exact hescape _ _ _ (by rw [hb]; rfl)
    · rename_i hplain
      have hnext : ∀ t, unescape (b :: t) = (b :: ·) <$> unescape t := by
        intro t
        rw [unescape.eq_def]
        exact (if_neg hplain).trans (if_neg (Ne.symm h.1))
      rw [List.singleton_append, hnext, ih h.2]
      rfl

/-- A backslash stands where an escape begins, and no escape does: it is cut off, or none there is. -/
inductive BadEscape : Bytes → Prop where
  | truncated {field : Bytes} : field.head? = some backslash → field.length < 4 → BadEscape field
  | unknown {field : Bytes} : field.head? = some backslash → escaped (field.take 4) = none →
      BadEscape field
  | literal {b : UInt8} {rest : Bytes} : b ≠ backslash → BadEscape rest → BadEscape (b :: rest)
  | escape {code rest : Bytes} {b : UInt8} : escaped code = some b → BadEscape rest →
      BadEscape (code ++ rest)

/-- An escape is a backslash and three digits. -/
theorem escaped_code {code : Bytes} {b : UInt8} (h : escaped code = some b) :
    ∃ x y z, code = [backslash, x, y, z] := by
  rw [escaped] at h
  split at h
  · exact ⟨_, _, _, by assumption⟩
  split at h
  · exact ⟨_, _, _, by assumption⟩
  split at h
  · exact ⟨_, _, _, by assumption⟩
  split at h
  · exact ⟨_, _, _, by assumption⟩
  · cases h

theorem unescape_escape {x y z : UInt8} (rest : Bytes) :
    unescape (backslash :: x :: y :: z :: rest) =
      match escaped [backslash, x, y, z] with
      | none => .error .invalidEscape
      | some byte => (byte :: ·) <$> unescape rest := by
  rw [unescape.eq_def]
  exact if_pos rfl

theorem unescape_literal {b : UInt8} (h : b ≠ backslash) (rest : Bytes) :
    unescape (b :: rest) = if b = 0 then .error .nul else (b :: ·) <$> unescape rest := by
  rw [unescape.eq_def]
  exact if_neg h

/-- **A field with a bad escape is rejected.** -/
theorem unescape_bad {field : Bytes} (h : BadEscape field) : ∃ e, unescape field = .error e := by
  induction h with
  | @truncated field hhead hlength =>
    obtain ⟨rest, rfl⟩ := List.head?_eq_some_iff.mp hhead
    rcases rest with _ | ⟨x, _ | ⟨y, _ | ⟨z, rest⟩⟩⟩
    · exact ⟨.truncatedEscape, by rw [unescape.eq_def]; rfl⟩
    · exact ⟨.truncatedEscape, by rw [unescape.eq_def]; rfl⟩
    · exact ⟨.truncatedEscape, by rw [unescape.eq_def]; rfl⟩
    · simp only [List.length_cons] at hlength
      omega
  | @unknown field hhead hnone =>
    obtain ⟨rest, rfl⟩ := List.head?_eq_some_iff.mp hhead
    rcases rest with _ | ⟨x, _ | ⟨y, _ | ⟨z, rest⟩⟩⟩
    · exact ⟨.truncatedEscape, by rw [unescape.eq_def]; rfl⟩
    · exact ⟨.truncatedEscape, by rw [unescape.eq_def]; rfl⟩
    · exact ⟨.truncatedEscape, by rw [unescape.eq_def]; rfl⟩
    · refine ⟨.invalidEscape, ?_⟩
      rw [unescape_escape, show escaped [backslash, x, y, z] = none from hnone]
  | literal hb _ ih =>
    obtain ⟨e, he⟩ := ih
    rw [unescape_literal hb, he]
    split
    · exact ⟨_, rfl⟩
    · exact ⟨e, rfl⟩
  | @escape code rest b hcode _ ih =>
    obtain ⟨e, he⟩ := ih
    obtain ⟨x, y, z, rfl⟩ := escaped_code hcode
    refine ⟨e, ?_⟩
    show unescape (backslash :: x :: y :: z :: rest) = _
    rw [unescape_escape, hcode, he]
    rfl

/-- **Decoding inverts the kernel's escaping**, and takes no other escapes. -/
theorem unescape_inverse :
    (∀ path : Bytes, 0 ∉ path → unescape (path.flatMap mangle) = .ok path) ∧
      ∀ field, BadEscape field → ∃ e, unescape field = .error e :=
  ⟨fun _ h => unescape_mangle h, fun _ h => unescape_bad h⟩

/-- "/a " is escaped and read back; "/" with half an escape is rejected. -/
theorem spaced_path_inverse : unescape ([47, 97, 32].flatMap mangle) = .ok [47, 97, 32] ∧
    ∃ e, unescape [47, 92, 48] = .error e :=
  ⟨unescape_inverse.1 _ (by decide), unescape_inverse.2 _
    (.literal (by decide) (.truncated rfl (by decide)))⟩

/-! Paths. -/

theorem pathText_no_nul {names : List Bytes} (h : ∀ name ∈ names, FileName name) :
    0 ∉ pathText names := by
  rw [pathText, List.mem_cons, not_or]
  refine ⟨by decide, ?_⟩
  induction names with
  | nil => exact List.not_mem_nil
  | cons name rest ih =>
    obtain ⟨hname, hrest⟩ := List.forall_mem_cons.mp h
    cases rest with
    | nil => simpa [List.intercalate] using hname.no_nul
    | cons next rest =>
      have hjoin : [separator].intercalate (name :: next :: rest) = name ++
          separator :: [separator].intercalate (next :: rest) := by
        simp [List.intercalate]
      rw [hjoin, List.mem_append, List.mem_cons, not_or, not_or]
      exact ⟨hname.no_nul, by decide, ih hrest⟩

/-- **A path's names are read back.** -/
theorem pathNames_pathText {names : List Bytes} (h : ∀ name ∈ names, FileName name) :
    pathNames (pathText names) = names := by
  have hkeep : names.filter (fun part => part ≠ [] && part ≠ dotName) = names := by
    rw [List.filter_eq_self]
    intro name hname
    simp [(h name hname).nonempty, (h name hname).not_dot]
  have hcons : (pathText names).splitOn separator =
      [] :: ([separator].intercalate names).splitOn separator :=
    List.splitOn_append_cons_self_of_not_mem List.not_mem_nil ([separator].intercalate names)
  rw [pathNames, hcons]
  by_cases hnil : names = []
  · rw [hnil]
    rfl
  · rw [List.splitOn_intercalate separator (fun name hname => (h name hname).no_separator) hnil]
    show names.filter _ = names
    exact hkeep

/-! Records. -/

theorem Record.WellFormed.fields {r : Record} (h : r.WellFormed) :
    ∃ last, (r.line.splitOn Ascii.blank).take 6 =
      [numberText r.id, numberText r.parent, r.device, r.source,
        (pathText r.names).flatMap mangle, last] := by
  obtain ⟨last, more, hrest⟩ := List.exists_cons_of_ne_nil (List.splitOn_ne_nil Ascii.blank r.rest)
  have hnumber : ∀ n, Ascii.blank ∉ numberText n := fun n hmem => (numberText_plain hmem).1 rfl
  have hpath : Ascii.blank ∉ (pathText r.names).flatMap mangle := by
    intro hmem
    obtain ⟨b, -, hb⟩ := List.mem_flatMap.mp hmem
    exact (mangle_plain hb).1 rfl
  refine ⟨last, ?_⟩
  rw [Record.line, List.splitOn_append_cons_self_of_not_mem (hnumber _),
    List.splitOn_append_cons_self_of_not_mem (hnumber _),
    List.splitOn_append_cons_self_of_not_mem h.device.1,
      List.splitOn_append_cons_self_of_not_mem h.source.1,
    List.splitOn_append_cons_self_of_not_mem hpath, hrest]
  rfl

theorem Record.WellFormed.line_plain {r : Record} (h : r.WellFormed) : Ascii.newline ∉ r.line := by
  have hnumber : ∀ n, Ascii.newline ∉ numberText n := fun n hmem => (numberText_plain hmem).2 rfl
  have hpath : Ascii.newline ∉ (pathText r.names).flatMap mangle := by
    intro hmem
    obtain ⟨b, -, hb⟩ := List.mem_flatMap.mp hmem
    exact (mangle_plain hb).2 rfl
  have hblank : Ascii.newline ≠ Ascii.blank := by decide
  simp only [Record.line, List.mem_append, List.mem_cons, not_or]
  exact ⟨hnumber _, hblank, hnumber _, hblank, h.device.2, hblank, h.source.2, hblank, hpath,
    hblank, h.rest⟩

/-- **A record is added** under its identifier. -/
theorem addRecord_line {r : Record} (h : r.WellFormed) {table : MountTable}
    (hnew : table.contains r.id = false) :
    addRecord table r.line = .ok (table.insert r.id (r.parent, pathText r.names)) := by
  obtain ⟨last, hfields⟩ := h.fields
  have hread : addRecord table r.line = (do
      let id ← parseId (numberText r.id)
      let parent ← parseId (numberText r.parent)
      let path ← unescape ((pathText r.names).flatMap mangle)
      if id = 0 ∨ isAbsolute path = false ∨ table.contains id = true then .error .invalidIdentity
      else .ok (table.insert id (parent, path))) := by
    unfold addRecord
    rw [hfields]
  have hvalid : ¬ (r.id = 0 ∨ isAbsolute (pathText r.names) = false ∨
      table.contains r.id = true) := by
    rw [hnew]
    simp [h.positive, isAbsolute, pathText]
  rw [hread, parseId_numberText h.id_bound, except_ok_bind, parseId_numberText h.parent_bound,
    except_ok_bind, unescape_mangle (pathText_no_nul h.names), except_ok_bind, if_neg hvalid]

theorem tableText_lines {records : List Record} (h : ∀ r ∈ records, r.WellFormed) :
    ((tableText records).splitOn Ascii.newline).filter (fun line => line ≠ []) =
      records.map Record.line := by
  induction records with
  | nil => rfl
  | cons r rest ih =>
    obtain ⟨hr, hrest⟩ := List.forall_mem_cons.mp h
    have hsplit : (tableText (r :: rest)).splitOn Ascii.newline =
        r.line :: (tableText rest).splitOn Ascii.newline := by
      rw [tableText, List.flatMap_cons, List.append_assoc]
      exact List.splitOn_append_cons_self_of_not_mem hr.line_plain _
    have hne : r.line ≠ [] := by
      rw [Record.line]
      exact List.append_ne_nil_of_left_ne_nil (numberText_ne_nil r.id) _
    rw [hsplit, List.filter_cons_of_pos (by simpa using hne), ih hrest, List.map_cons]

/-- **A written table is read as its records.** -/
theorem readEntries_tableText {records : List Record} (h : ∀ r ∈ records, r.WellFormed)
    (hids : (records.map Record.id).Nodup) :
    ∃ table, readEntries (tableText records) = .ok table ∧
      ∀ id entry, table.get? id = some entry ↔ ∃ r ∈ records, r.id = id ∧
        (r.parent, pathText r.names) = entry := by
  -- record by record, the table has those already read
  have hall : ∀ (l : List Record) (table : MountTable), (∀ r ∈ l, r.WellFormed) →
      (l.map Record.id).Nodup →
      (∀ r ∈ l, table.contains r.id = false) → ∃ read, (l.map Record.line).foldlM addRecord table =
        .ok read ∧ ∀ id entry, read.get? id = some entry ↔
          table.get? id = some entry ∨ ∃ r ∈ l, r.id = id ∧
              (r.parent, pathText r.names) = entry := by
    intro l
    induction l with
    | nil => exact fun table _ _ _ => ⟨table, rfl, by simp⟩
    | cons r rest ih =>
      intro table hwell hnodup hnew
      obtain ⟨hr, hrest⟩ := List.forall_mem_cons.mp hwell
      obtain ⟨hfirst, hlater⟩ := List.forall_mem_cons.mp hnew
      rw [List.map_cons, List.nodup_cons] at hnodup
      have hother : ∀ x ∈ rest, x.id ≠ r.id :=
        fun x hx heq => hnodup.1 (heq ▸ List.mem_map_of_mem hx)
      have hnext : ∀ x ∈ rest, (table.insert r.id (r.parent, pathText r.names)).contains x.id =
          false := by
        intro x hx
        rw [OrdMap.contains_insert, hlater x hx, Bool.or_false, decide_eq_false (hother x hx)]
      obtain ⟨read, hread, hget⟩ := ih _ hrest hnodup.2 hnext
      refine ⟨read, ?_, fun id entry => ?_⟩
      · rw [List.map_cons, List.foldlM_cons, addRecord_line hr hfirst, except_ok_bind, hread]
      · have hnone : table.get? r.id = none := OrdMap.contains_eq_false.mp hfirst
        rw [hget, OrdMap.get?_insert]
        by_cases hid : id = r.id
        · rw [if_pos hid, Option.some.injEq, hid, hnone]
          simp only [List.mem_cons, exists_eq_or_imp, true_and, reduceCtorEq, false_or]
        · rw [if_neg hid]
          simp only [List.mem_cons, exists_eq_or_imp, Ne.symm hid, false_and, false_or]
  obtain ⟨read, hread, hget⟩ := hall records OrdMap.empty h hids (fun r _ => rfl)
  refine ⟨read, ?_, fun id entry => ?_⟩
  · rw [readEntries, tableText_lines h, hread]
  · rw [hget, OrdMap.get?_empty, or_iff_right (by simp)]

/-- No mount is numbered zero. -/
theorem readEntries_positive {bytes : Bytes} {table : MountTable}
    (h : readEntries bytes = .ok table) : table.contains 0 = false := by
  have hstep : ∀ (lines : List Bytes) (table read : MountTable), table.contains 0 = false →
      lines.foldlM addRecord table = .ok read → read.contains 0 = false := by
    intro lines
    induction lines with
    | nil =>
      intro table read htable h
      cases h
      exact htable
    | cons line rest ih =>
      intro table read htable h
      rw [List.foldlM_cons] at h
      obtain ⟨next, hnext, h⟩ := except_bind_eq_ok.mp h
      refine ih next read ?_ h
      unfold addRecord at hnext
      split at hnext
      · obtain ⟨id, -, hnext⟩ := except_bind_eq_ok.mp hnext
        obtain ⟨parent, -, hnext⟩ := except_bind_eq_ok.mp hnext
        obtain ⟨path, -, hnext⟩ := except_bind_eq_ok.mp hnext
        split at hnext
        · cases hnext
        · rename_i hvalid
          cases hnext
          rw [not_or] at hvalid
          rw [OrdMap.contains_insert, htable, Bool.or_false, decide_eq_false (Ne.symm hvalid.1)]
      · cases hnext
  exact hstep _ _ _ rfl h

end Conglobate.Filesystem
