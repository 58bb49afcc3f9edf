import Conglobate.Filesystem.MountRecords
import Conglobate.Lib.Flow
import Mathlib.Logic.Relation

/- What a capture of child mounts finds (`filesystem/children.rs`).

   The closure loop ends for every table (`closure_total`) with the mounts below the
   root (`mem_closure`). A capture pins each of them where it is seen (`pin_pinned`).

   A table describes the mounts if each mount below the root is in it, with its parent
   and at its path below the parent's (`Described`). Then a pinned mount is seen at its
   own root with nothing on it (`pinned_root`), so a capture has no mount before the one
   it is on (`not_under_later`), and none that cannot be reached (`obstructed_unpinned`);
   where every mount can be reached, each is pinned (`child_reached`). -/
namespace Conglobate.Filesystem

open Vfs

/-! Below the root. -/

/-- One mount is recorded as another's parent. -/
def Under (table : MountTable) (parent id : Nat) :
    Prop := ∃ path, table.get? id = some (parent, path)

/-- A transitive child of the root. -/
def Child (table : MountTable) (root id : Nat) :
    Prop := id ≠ root ∧ Relation.TransGen (Under table) root id

theorem contains_select {selected : IdSet} {e : Nat × Nat × Bytes} {j : Nat} :
    (select selected e).contains j = true ↔ selected.contains j = true ∨ j = e.1 ∧
      selected.contains e.2.1 = true := by
  rw [select]
  split
  · rename_i hparent
    rw [OrdMap.contains_insert, Bool.or_eq_true, decide_eq_true_eq, or_comm, and_iff_left hparent]
  · rename_i hparent
    exact (or_iff_left fun h => hparent h.2).symm

theorem foldl_select_mono {l : List (Nat × Nat × Bytes)} {s : IdSet} {j : Nat}
    (h : s.contains j = true) :
    (l.foldl select s).contains j = true := by
  induction l generalizing s with
  | nil => exact h
  | cons e rest ih => exact ih (contains_select.mpr (.inl h))

/-- What a parent in the set brings in. -/
theorem foldl_select_closed {l : List (Nat × Nat × Bytes)} {s : IdSet} {e : Nat × Nat × Bytes}
    (he : e ∈ l) (h : s.contains e.2.1 = true) : (l.foldl select s).contains e.1 = true := by
  induction l generalizing s with
  | nil => cases he
  | cons x rest ih =>
    obtain rfl | he := List.mem_cons.mp he
    · have hself : (select s e).contains e.1 = true := contains_select.mpr (.inr ⟨rfl, h⟩)
      exact foldl_select_mono (l := rest) hself
    · exact ih he (contains_select.mpr (.inl h))

/-- Whatever parents hand down holds of the set. -/
theorem foldl_select_sound {P : Nat → Prop} {l : List (Nat × Nat × Bytes)}
    (hdown : ∀ e ∈ l, P e.2.1 → P e.1) {s : IdSet} (hs : ∀ j, s.contains j = true → P j) :
    ∀ j, (l.foldl select s).contains j = true → P j := by
  induction l generalizing s with
  | nil => exact hs
  | cons e rest ih =>
    obtain ⟨he, hrest⟩ := List.forall_mem_cons.mp hdown
    apply ih hrest
    intro j hj
    obtain hj | ⟨rfl, hparent⟩ := contains_select.mp hj
    · exact hs j hj
    · exact he (hs _ hparent)

section
variable {table : MountTable} {s t : IdSet} {fuel : Nat}

theorem closure_sound {P : Nat → Prop} (hdown : ∀ e ∈ table.entries, P e.2.1 → P e.1)
    (hs : ∀ j, s.contains j = true → P j) (h : closure table fuel s = some t) :
    ∀ j, t.contains j = true → P j := by
  induction fuel generalizing s with
  | zero => cases h
  | succ fuel ih =>
    have hround := foldl_select_sound hdown hs
    rw [closure] at h
    split at h
    · cases h
      exact hround
    · exact ih hround h

theorem closure_mono (h : closure table fuel s = some t) {j : Nat} (hj : s.contains j = true) :
    t.contains j = true := by
  induction fuel generalizing s with
  | zero => cases h
  | succ fuel ih =>
    have hround : (closureRound table s).contains j = true := foldl_select_mono hj
    rw [closure] at h
    split at h
    · cases h
      exact hround
    · exact ih h hround

theorem keys_round (table : MountTable) (s : IdSet) :
    s.keys.Subperm (closureRound table s).keys := by
  apply s.nodup_keys.subperm
  intro j hj
  rw [← OrdMap.contains_eq_true] at hj ⊢
  exact foldl_select_mono hj

/-- **The set is closed**: a round that adds none has nothing left to add. -/
theorem closure_closed (h : closure table fuel s = some t) :
    ∀ e ∈ table.entries, t.contains e.2.1 = true → t.contains e.1 = true := by
  induction fuel generalizing s with
  | zero => cases h
  | succ fuel ih =>
    rw [closure] at h
    split at h
    · rename_i hlength
      cases h
      intro e he hparent
      have hperm := (keys_round table s).perm_of_length_le (le_of_eq hlength.symm)
      rw [OrdMap.contains_eq_true, ← hperm.mem_iff, ← OrdMap.contains_eq_true] at hparent
      exact foldl_select_closed he hparent
    · exact ih h

/-- **The closure loop ends**: each round but the last adds a mount of the table. -/
theorem closure_total {root : Nat} (hs : ∀ j, s.contains j = true → j = root ∨ j ∈ table.keys)
    (hfuel : table.keys.length + 1 < s.keys.length + fuel) :
    ∃ t, ∀ more, closure table (fuel + more) s = some t := by
  have hbound : ∀ r : IdSet, (∀ j, r.contains j = true → j = root ∨ j ∈ table.keys) →
      r.keys.length ≤ table.keys.length + 1 := by
    intro r hr
    have hsub : r.keys ⊆ root :: table.keys := by
      intro j hj
      rw [← OrdMap.contains_eq_true] at hj
      exact List.mem_cons.mpr (hr j hj)
    exact (r.nodup_keys.subperm hsub).length_le
  induction fuel generalizing s with
  | zero =>
    have := hbound s hs
    omega
  | succ fuel ih =>
    have hround : ∀ j, (closureRound table s).contains j = true → j = root ∨ j ∈ table.keys :=
      foldl_select_sound (fun e he _ => .inr (List.mem_map_of_mem he)) hs
    by_cases hlength : s.keys.length = (closureRound table s).keys.length
    · refine ⟨closureRound table s, fun more => ?_⟩
      rw [Nat.add_right_comm]
      exact if_pos hlength
    · have hgrown := (keys_round table s).length_le
      obtain ⟨t, ht⟩ := ih hround (by omega)
      refine ⟨t, fun more => ?_⟩
      rw [Nat.add_right_comm]
      exact (if_neg hlength).trans (ht more)

theorem closure_root (table : MountTable) (root : Nat) : ∃ t, ∀ fuel, table.entries.length < fuel →
    closure table fuel (OrdMap.empty.insert root ()) = some t := by
  have hstart : ∀ j, ((OrdMap.empty : IdSet).insert root ()).contains j = true → j = root ∨
      j ∈ table.keys := by
    intro j hj
    rw [OrdMap.contains_insert, Bool.or_eq_true, decide_eq_true_eq] at hj
    exact .inl (hj.resolve_right (by simp [OrdMap.contains]))
  have hlength : table.keys.length = table.entries.length := List.length_map _
  obtain ⟨t, ht⟩ := closure_total (s := OrdMap.empty.insert root ()) hstart
    (by omega : table.keys.length + 1 < 1 + (table.entries.length + 1))
  refine ⟨t, fun fuel hfuel => ?_⟩
  have hmore := ht (fuel - (table.entries.length + 1))
  rwa [Nat.add_sub_cancel' hfuel] at hmore

/-- **The closure is the mounts below the root**, and the root. -/
theorem mem_closure {root : Nat} (h : closure table fuel (OrdMap.empty.insert root ()) = some t)
    {id : Nat} :
    t.contains id = true ↔ Relation.ReflTransGen (Under table) root id := by
  constructor
  · apply closure_sound (P := Relation.ReflTransGen (Under table) root) _ _ h
    · intro e he hparent
      exact hparent.tail ⟨e.2.2, OrdMap.get?_eq_some.mpr he⟩
    · intro j hj
      rw [OrdMap.contains_insert, Bool.or_eq_true, decide_eq_true_eq] at hj
      obtain rfl | hj := hj
      · exact .refl
      · cases hj
  · intro hid
    induction hid with
    | refl =>
      apply closure_mono h
      rw [OrdMap.contains_insert, decide_eq_true rfl, Bool.true_or]
    | tail _ hstep ih =>
      obtain ⟨path, hpath⟩ := hstep
      exact closure_closed h _ (OrdMap.get?_eq_some.mp hpath) ih

theorem mem_children {root : Nat} (h : closure table fuel (OrdMap.empty.insert root ()) = some t)
    {id : Nat} :
    id ∈ (t.erase root).keys ↔ Child table root id := by
  rw [← OrdMap.contains_eq_true, OrdMap.contains, OrdMap.get?_erase, Child]
  by_cases hroot : id = root
  · rw [if_pos hroot]
    exact iff_of_false Bool.false_ne_true (fun h => h.1 hroot)
  · rw [if_neg hroot, and_iff_right hroot, ← OrdMap.contains, mem_closure h,
      Relation.reflTransGen_iff_eq_or_transGen, or_iff_right hroot]

end

/-! What is captured. -/

/-- A mount is seen at the names, from the directory and with the name of the point. -/
def Pinned (mounts : Mounts Bytes) (root : Nat) (names : List Bytes) (id : Nat) (point : Point) :
    Prop :=
  ∃ front place, names = front ++ [point.name] ∧ mounts.At ⟨root, []⟩ front point.parent ∧
    mounts.kind point.parent = some .directory ∧ mounts.At ⟨root, []⟩ names place ∧ place.mount = id

theorem relative_eq_ok {table : MountTable} {rootPath : Bytes} {id : Nat}
    {found : Nat × List Bytes} :
    relative table rootPath id = .ok found ↔
      found.1 = id ∧ found.2 ≠ [] ∧ ∃ parent path, table.get? id = some (parent, path) ∧
        pathNames path = pathNames rootPath ++ found.2 := by
  rw [relative]
  cases hget : table.get? id with
  | none =>
    refine iff_of_false (fun h => by cases h) ?_
    intro h
    obtain ⟨-, -, parent, path, h, -⟩ := h
    cases h
  | some entry =>
    obtain ⟨parent, path⟩ := entry
    show (if (pathNames rootPath).isPrefixOf (pathNames path) = true then _ else _) = _ ↔ _
    constructor
    · intro h
      split at h
      · rename_i hprefix
        obtain ⟨names, hnames⟩ := List.isPrefixOf_iff_prefix.mp hprefix
        have hdrop : (pathNames path).drop (pathNames rootPath).length = names := by
          rw [← hnames, List.drop_left]
        rw [hdrop] at h
        by_cases hnil : names = []
        · rw [if_pos hnil] at h
          cases h
        · rw [if_neg hnil, Except.ok.injEq] at h
          subst h
          exact ⟨rfl, hnil, parent, path, rfl, hnames.symm⟩
      · cases h
    · intro h
      obtain ⟨hid, hnil, parent', path', hsame, hnames⟩ := h
      cases hsame
      have hdrop : (pathNames path).drop (pathNames rootPath).length = found.2 := by
        rw [hnames, List.drop_left]
      rw [if_pos (List.isPrefixOf_iff_prefix.mpr ⟨_, hnames.symm⟩), hdrop, if_neg hnil, ← hid]

theorem openBeneath_eq_ok {mounts : Mounts Bytes} {root : Nat} {names : List Bytes}
    {place : Place Bytes} :
    openBeneath mounts root names = .ok place ↔
      mounts.At ⟨root, []⟩ names place ∧ mounts.kind place = some .directory := by
  rw [openBeneath, Mounts.At]
  cases hwalk : mounts.walk ⟨root, []⟩ names with
  | none => simp
  | some trail =>
    cases trail with
    | nil => simp
    | cons here back =>
      show (if _ then _ else _) = _ ↔ _
      split
      · rename_i hdir
        constructor
        · intro h
          cases h
          exact ⟨⟨back, rfl⟩, hdir⟩
        · intro h
          obtain ⟨⟨behind, h⟩, -⟩ := h
          rw [(List.cons.inj (Option.some.inj h)).1]
      · rename_i hdir
        refine iff_of_false (fun h => by cases h) ?_
        intro h
        obtain ⟨⟨behind, h⟩, hkind⟩ := h
        rw [(List.cons.inj (Option.some.inj h)).1] at hdir
        exact hdir hkind

theorem identity_eq_ok {mounts : Mounts Bytes} {parent : Place Bytes} {name : Bytes} {id : Nat} :
    identity mounts parent name = .ok id ↔
      (mounts.kind ⟨parent.mount, parent.path ++ [name]⟩).isSome = true ∧
        (mounts.top ⟨parent.mount, parent.path ++ [name]⟩).mount = id ∧ id ≠ 0 := by
  show (if _ then _ else if _ then _ else _) = _ ↔ _
  split
  · rename_i hnone
    rw [Option.isNone_iff_eq_none] at hnone
    simp [hnone]
  · rename_i hsome
    have hsome : (mounts.kind ⟨parent.mount, parent.path ++ [name]⟩).isSome = true := by
      rwa [Option.isNone_iff_eq_none, ← ne_eq, ← Option.isSome_iff_ne_none] at hsome
    rw [and_iff_right hsome]
    split
    · rename_i hzero
      refine iff_of_false (fun h => by cases h) ?_
      intro h
      exact h.2 (h.1.symm.trans hzero)
    · rename_i hzero
      rw [Except.ok.injEq]
      exact ⟨fun h => ⟨h, h ▸ hzero⟩, fun h => h.1⟩

/-- **What it takes to be pinned.** -/
theorem pin_eq_ok {mounts : Mounts Bytes} {root : Nat} {found : Nat × List Bytes} {point : Point} :
    pin mounts root found = .ok point ↔
      found.2 = found.2.dropLast ++ [point.name] ∧ point.name ≠ dotdotName ∧
        mounts.At ⟨root, []⟩ found.2.dropLast point.parent ∧ mounts.kind point.parent =
          some .directory ∧
        (mounts.kind ⟨point.parent.mount, point.parent.path ++ [point.name]⟩).isSome = true ∧
        (mounts.top ⟨point.parent.mount, point.parent.path ++ [point.name]⟩).mount = found.1 ∧
          found.1 ≠ 0 := by
  have hlast : ∀ name, found.2.getLast? = some name ↔ found.2 = found.2.dropLast ++ [name] := by
    intro name
    rw [List.getLast?_eq_some_iff]
    constructor
    · intro h
      obtain ⟨front, h⟩ := h
      rw [h, List.dropLast_concat]
    · exact fun h => ⟨_, h⟩
  constructor
  · intro h
    obtain ⟨parent, hopen, h⟩ := except_bind_eq_ok.mp h
    obtain ⟨hat, hdir⟩ := openBeneath_eq_ok.mp hopen
    split at h
    · cases h
    · rename_i name hname
      split at h
      · cases h
      · rename_i hproper
        obtain ⟨id, hid, h⟩ := except_bind_eq_ok.mp h
        obtain ⟨hkind, htop, hzero⟩ := identity_eq_ok.mp hid
        split at h
        · cases h
        · rename_i hsame
          cases h
          rw [ne_eq, not_not] at hsame
          rw [hsame] at htop hzero
          exact ⟨(hlast name).mp hname, hproper, hat, hdir, hkind, htop, hzero⟩
  · intro h
    obtain ⟨hname, hproper, hat, hdir, hkind, htop, hzero⟩ := h
    obtain ⟨parent, name⟩ := point
    rw [pin, openBeneath_eq_ok.mpr ⟨hat, hdir⟩, except_ok_bind, (hlast name).mpr hname]
    show (if name = dotdotName then _ else _) = _
    rw [if_neg hproper, identity_eq_ok.mpr ⟨hkind, htop, hzero⟩, except_ok_bind,
      if_neg (not_not.mpr rfl)]

theorem pin_pinned {mounts : Mounts Bytes} (hdots : mounts.dotdot = dotdotName) {root : Nat}
    {found : Nat × List Bytes} {point : Point} (h : pin mounts root found = .ok point) :
    Pinned mounts root found.2 found.1 point := by
  obtain ⟨hname, hproper, hat, hdir, hkind, htop, -⟩ := pin_eq_ok.mp h
  rw [← hdots] at hproper
  refine ⟨found.2.dropLast, _, hname, hat, hdir, ?_, htop⟩
  rw [hname, Mounts.At.snoc hproper]
  exact ⟨point.parent, hat, hdir, hkind, rfl⟩

/-- **What a capture comes to.** -/
theorem capture_eq_ok {host : Host} {points : List Point} :
    capture host = .ok points ↔
      host.root ≠ 0 ∧ host.procfs = true ∧ host.mountinfo.length ≤ captureLimit ∧
        ∃ table grand rootPath, readEntries host.mountinfo = .ok table ∧ table.get? host.root =
          some (grand, rootPath) ∧
          ∃ selected, closure table (table.entries.length + 1) (OrdMap.empty.insert host.root ()) =
            some selected ∧
            ∃ paths, (selected.erase host.root).keys.mapM (relative table rootPath) = .ok paths ∧
              (paths.insertionSort NoLonger).mapM (pin host.mounts host.root) = .ok points := by
  constructor
  · intro h
    rw [capture] at h
    split at h
    · cases h
    rename_i hroot
    split at h
    · cases h
    rename_i hprocfs
    split at h
    · cases h
    rename_i hlimit
    obtain ⟨table, htable, h⟩ := except_bind_eq_ok.mp h
    split at h
    · cases h
    · rename_i grand rootPath hget
      split at h
      · cases h
      · rename_i selected hselected
        obtain ⟨paths, hpaths, h⟩ := except_bind_eq_ok.mp h
        exact ⟨hroot, by simpa using hprocfs, Nat.not_lt.mp hlimit, table, grand, rootPath, htable,
          hget, selected, hselected,
          paths, hpaths, h⟩
  · intro h
    obtain ⟨hroot, hprocfs, hlimit, table, grand, rootPath, htable, hget, selected, hselected,
      paths, hpaths, hpoints⟩ := h
    rw [capture, if_neg hroot, if_neg (by simp [hprocfs]), if_neg (Nat.not_lt.mpr hlimit), htable,
      except_ok_bind, hget]
    simp only [hselected]
    rw [hpaths, except_ok_bind, hpoints]

/-! A table that describes the mounts. -/

/-- The mounts below the root are in the table, with the paths they have. -/
structure Described (host : Host) (table : MountTable) : Prop where
  shown : ∀ id parent path grand above, Child table host.root id →
    table.get? id = some (parent, path) → table.get? parent = some (grand, above) →
    ∃ m ∈ host.mounts.attached, m.id = id ∧ m.on.mount = parent ∧
      pathNames path = pathNames above ++ m.on.path
  complete : ∀ m ∈ host.mounts.attached, m.on.mount = host.root ∨ Child table host.root m.on.mount →
    ∃ path, table.get? m.id = some (m.on.mount, path)

/-- A mount below the root that cannot be reached by its path. -/
inductive Obstructed (host : Host) (table : MountTable) : Prop where
  | covers (m : Mount Bytes) : m ∈ host.mounts.attached → Child table host.root m.id →
      m.on = ⟨host.root, []⟩ → Obstructed host table
  | stacked (m below : Mount Bytes) : m ∈ host.mounts.attached → below ∈ host.mounts.attached →
      Child table host.root m.id →
      Child table host.root below.id → m.on = ⟨below.id, []⟩ → Obstructed host table
  | hidden (m above : Mount Bytes) : m ∈ host.mounts.attached → above ∈ host.mounts.attached →
      Child table host.root m.id →
      above.on.mount = m.on.mount → above.on.path <+: m.on.path → above.on.path ≠ m.on.path →
        Obstructed host table

section
variable {host : Host} {table : MountTable} {grand : Nat} {rootPath : Bytes}

/-- A child is on the root, or on another child. -/
theorem Child.parent {root id : Nat} (h : Child table root id) :
    ∃ parent path, table.get? id = some (parent, path) ∧
      (parent = root ∨ Child table root parent) := by
  obtain ⟨-, hid⟩ := h
  obtain ⟨parent, hparent, path, hget⟩ := Relation.TransGen.tail'_iff.mp hid
  refine ⟨parent, path, hget, ?_⟩
  by_cases hroot : parent = root
  · exact .inl hroot
  · rw [Relation.reflTransGen_iff_eq_or_transGen] at hparent
    exact .inr ⟨hroot, hparent.resolve_left hroot⟩

theorem Child.step {root parent id : Nat} (hparent : parent = root ∨ Child table root parent)
    (hid : id ≠ root) (h : Under table parent id) : Child table root id := by
  refine ⟨hid, ?_⟩
  obtain rfl | hparent := hparent
  · exact .single h
  · exact hparent.2.tail h

variable (hdescribed : Described host table) (hroot : table.get? host.root = some (grand, rootPath))
include hdescribed hroot

/-- **The mounts shown below the root are its children**, at the paths of the table. -/
theorem shown_child {id : Nat} {names : List Bytes} (h : host.mounts.Shown host.root id names) :
    id = host.root ∧ names = [] ∨
      Child table host.root id ∧ ∃ parent path, table.get? id = some (parent, path) ∧
        pathNames path = pathNames rootPath ++ names := by
  induction h with
  | root => exact .inl ⟨rfl, rfl⟩
  | @on m names hm hshown ih =>
    have hne := hshown.not_root hm
    have hparent : m.on.mount = host.root ∨ Child table host.root m.on.mount :=
      ih.imp And.left And.left
    obtain ⟨path, hpath⟩ := hdescribed.complete m hm hparent
    have hchild : Child table host.root m.id := Child.step hparent hne ⟨path, hpath⟩
    have habove : ∃ grand above, table.get? m.on.mount = some (grand, above) ∧
        pathNames above = pathNames rootPath ++ names := by
      obtain ⟨hself, hnil⟩ | ⟨-, hentry⟩ := ih
      · exact ⟨grand, rootPath, by rw [hself, hroot], by rw [hnil, List.append_nil]⟩
      · exact hentry
    obtain ⟨grand', above, hget, hnames⟩ := habove
    obtain ⟨x, hx, hid, -, hxpath⟩ := hdescribed.shown _ _ _ _ _ hchild hpath hget
    obtain rfl := Mounts.eq_of_id hx hm hid
    exact .inr ⟨hchild, _, path, hpath, by rw [hxpath, hnames, List.append_assoc]⟩

/-- **The children are shown**, each at its path below the root's. -/
theorem child_shown {id parent : Nat} {path : Bytes} (h : Child table host.root id)
    (hget : table.get? id = some (parent, path)) :
    ∃ names, host.mounts.Shown host.root id names ∧
      pathNames path = pathNames rootPath ++ names := by
  have hall : ∀ x, Relation.ReflTransGen (Under table) host.root x →
      ∃ names, host.mounts.Shown host.root x names ∧
        ∀ parent path, table.get? x = some (parent, path) →
            pathNames path = pathNames rootPath ++ names := by
    intro x hx
    induction hx with
    | refl =>
      refine ⟨[], .root, fun parent path hpath => ?_⟩
      rw [hroot, Option.some.injEq, Prod.mk.injEq] at hpath
      rw [hpath.2, List.append_nil]
    | @tail y z hy hyz ih =>
      by_cases hself : z = host.root
      · refine ⟨[], hself ▸ .root, fun parent path hpath => ?_⟩
        rw [hself, hroot, Option.some.injEq, Prod.mk.injEq] at hpath
        rw [hpath.2, List.append_nil]
      · obtain ⟨names, hshown, hnames⟩ := ih
        have hparent : y = host.root ∨ Child table host.root y := by
          by_cases hy' : y = host.root
          · exact .inl hy'
          · rw [Relation.reflTransGen_iff_eq_or_transGen] at hy
            exact .inr ⟨hy', hy.resolve_left hy'⟩
        have habove : ∃ grand above, table.get? y = some (grand, above) := by
          obtain rfl | hchild := hparent
          · exact ⟨grand, rootPath, hroot⟩
          · obtain ⟨grand, above, hget, -⟩ := hchild.parent
            exact ⟨grand, above, hget⟩
        obtain ⟨grand', above, habove⟩ := habove
        obtain ⟨zpath, hz⟩ := hyz
        obtain ⟨m, hm, rfl, rfl, hmpath⟩ :=
          hdescribed.shown _ _ _ _ _ (Child.step hparent hself ⟨zpath, hz⟩) hz habove
        refine ⟨names ++ m.on.path, .on hm hshown, fun parent path hpath => ?_⟩
        rw [hz, Option.some.injEq, Prod.mk.injEq] at hpath
        rw [← hpath.2, hmpath, hnames _ _ habove, List.append_assoc]
  obtain ⟨names, hshown, hnames⟩ := hall id h.2.to_reflTransGen
  exact ⟨names, hshown, hnames parent path hget⟩

omit hdescribed in
theorem listed {parent : Nat} (h : parent = host.root ∨ Child table host.root parent) :
    ∃ grand above, table.get? parent = some (grand, above) := by
  obtain rfl | h := h
  · exact ⟨grand, rootPath, hroot⟩
  · obtain ⟨grand, above, hget, -⟩ := h.parent
    exact ⟨grand, above, hget⟩

/-- A child is one of the mounts. -/
theorem child_attached {id : Nat} (h : Child table host.root id) :
    ∃ m ∈ host.mounts.attached, m.id = id ∧ (m.on.mount = host.root ∨
      Child table host.root m.on.mount) := by
  obtain ⟨parent, path, hget, hparent⟩ := h.parent
  obtain ⟨grand', above, hgrand⟩ := listed hroot hparent
  obtain ⟨m, hm, hid, hon, -⟩ := hdescribed.shown _ _ _ _ _ h hget hgrand
  exact ⟨m, hm, hid, by rwa [hon]⟩

/-- A mount on the root or on a child is a child. -/
theorem attached_child {m : Mount Bytes} (hm : m ∈ host.mounts.attached)
    (h : m.on.mount = host.root ∨ Child table host.root m.on.mount) :
    Child table host.root m.id := by
  have hshown : ∃ names, host.mounts.Shown host.root m.on.mount names := by
    obtain hself | h := h
    · exact ⟨[], hself ▸ .root⟩
    · obtain ⟨parent, path, hget, -⟩ := h.parent
      obtain ⟨names, hshown, -⟩ := child_shown hdescribed hroot h hget
      exact ⟨names, hshown⟩
  obtain ⟨names, hshown⟩ := hshown
  exact Child.step h (hshown.not_root hm) (hdescribed.complete m hm h)

/-- **A pinned child is seen at its root**, and nothing is on it. -/
theorem pinned_root {id parent : Nat} {path : Bytes} {names : List Bytes} {point : Point}
    (h : Child table host.root id) (hget : table.get? id = some (parent, path))
    (hnames : pathNames path = pathNames rootPath ++ names)
    (hpinned : Pinned host.mounts host.root names id point) :
    host.mounts.dotdot ∉ names ∧ host.mounts.At ⟨host.root, []⟩ names ⟨id, []⟩ ∧
      ∀ m ∈ host.mounts.attached, m.on ≠ ⟨id, []⟩ := by
  obtain ⟨names', hshown, hnames'⟩ := child_shown hdescribed hroot h hget
  obtain rfl : names = names' := List.append_cancel_left (hnames.symm.trans hnames')
  have hproper := hshown.proper
  obtain ⟨-, place, -, -, -, hat, rfl⟩ := hpinned
  obtain ⟨above, habove, hpath⟩ := hat.shown hproper
  obtain ⟨hself, -⟩ | ⟨-, parent', path', hget', hpath'⟩ := shown_child hdescribed hroot habove
  · exact absurd hself h.1
  · rw [hget, Option.some.injEq, Prod.mk.injEq] at hget'
    rw [← hget'.2, hnames'] at hpath'
    obtain rfl := List.append_cancel_left hpath'
    have hnil : place.path = [] :=
      List.append_cancel_left (hpath.symm.trans (List.append_nil _).symm)
    obtain ⟨mount, q⟩ := place
    obtain rfl : q = [] := hnil
    refine ⟨hproper, hat, hat.uncovered_of_ne hproper ?_⟩
    exact fun heq => h.1 (congrArg Place.mount heq)

/-- **Nothing that was captured is mounted on a later one**, if paths do not get shorter. -/
theorem not_under_later {a b : Nat} {namesA namesB : List Bytes} {parentA parentB : Nat}
    {pathA pathB : Bytes} {point : Point} (ha : Child table host.root a)
    (hb : Child table host.root b) (hgetA : table.get? a = some (parentA, pathA))
    (hgetB : table.get? b = some (parentB, pathB))
    (hnamesA : pathNames pathA = pathNames rootPath ++ namesA)
    (hnamesB : pathNames pathB = pathNames rootPath ++ namesB)
    (hlength : namesA.length ≤ namesB.length)
    (hpinned : Pinned host.mounts host.root namesB b point) : ¬ Under table b a := by
  intro hunder
  obtain ⟨path, hpath⟩ := hunder
  rw [hgetA, Option.some.injEq, Prod.mk.injEq] at hpath
  obtain ⟨rfl, rfl⟩ := hpath
  obtain ⟨m, hm, -, hon, hmpath⟩ := hdescribed.shown _ _ _ _ _ ha hgetA hgetB
  have hshorter : namesA = namesB ++ m.on.path := by
    rw [hmpath, hnamesB, List.append_assoc] at hnamesA
    exact (List.append_cancel_left hnamesA).symm
  -- a path no longer than the parent's is the parent's own: the child is on its root
  have hnil : m.on.path = [] := by
    rw [hshorter, List.length_append] at hlength
    exact List.length_eq_zero_iff.mp (by omega)
  obtain ⟨-, -, hfree⟩ := pinned_root hdescribed hroot hb hgetB hnamesB hpinned
  apply hfree m hm
  rw [← hon, ← hnil]

/-- **A child that cannot be reached** is not pinned, or has no path below the root's. -/
theorem obstructed_unpinned (h : Obstructed host table) :
    ∃ id, Child table host.root id ∧ ∀ parent path names point, table.get? id =
      some (parent, path) →
      pathNames path = pathNames rootPath ++ names → names ≠ [] →
        ¬ Pinned host.mounts host.root names id point := by
  have hunpinned : ∀ m below : Mount Bytes, m ∈ host.mounts.attached →
      Child table host.root below.id → m.on = ⟨below.id, []⟩ →
      ∀ parent path names point, table.get? below.id = some (parent, path) →
        pathNames path = pathNames rootPath ++ names →
        names ≠ [] → ¬ Pinned host.mounts host.root names below.id point := by
    intro m below hm hchild hon parent path names point hget hnames _ hpinned
    exact (pinned_root hdescribed hroot hchild hget hnames hpinned).2.2 m hm hon
  have hcovers : ∀ m : Mount Bytes, m ∈ host.mounts.attached → Child table host.root m.id →
      m.on = ⟨host.root, []⟩ →
      ∀ parent path names point, table.get? m.id = some (parent, path) →
        pathNames path = pathNames rootPath ++ names →
        names ≠ [] → ¬ Pinned host.mounts host.root names m.id point := by
    intro m hm hchild hon parent path names point hget hnames hne _
    have hunder : table.get? m.id = some (host.root, path) := by
      obtain ⟨path', hpath'⟩ := hdescribed.complete m hm (.inl (congrArg Place.mount hon))
      rw [hget, Option.some.injEq, Prod.mk.injEq] at hpath'
      rw [hget, hpath'.1, hon]
    obtain ⟨x, hx, hid, -, hpath⟩ := hdescribed.shown _ _ _ _ _ hchild hunder hroot
    obtain rfl := Mounts.eq_of_id hx hm hid
    rw [hnames, hon] at hpath
    exact hne (List.append_cancel_left hpath)
  cases h with
  | covers m hm hchild hon => exact ⟨m.id, hchild, hcovers m hm hchild hon⟩
  | stacked m below hm hbelow _ hchild hon =>
    exact ⟨below.id, hchild, hunpinned m below hm hchild hon⟩
  | hidden m above hm habove hchild hmount hprefix hne =>
    have hon : m.on.mount = host.root ∨ Child table host.root m.on.mount := by
      obtain ⟨x, hx, hid, hxon⟩ := child_attached hdescribed hroot hchild
      rwa [← Mounts.eq_of_id hx hm hid]
    by_cases hnil : above.on.path = []
    · -- the mount above is on the root of the mount the hidden one is on
      have habovechild : Child table host.root above.id :=
        attached_child hdescribed hroot habove (by rwa [hmount])
      have habovepath : above.on = ⟨m.on.mount, []⟩ := by
        rw [← hmount, ← hnil]
      obtain hself | hon := hon
      · exact ⟨above.id, habovechild, hcovers above habove habovechild (by rw [habovepath, hself])⟩
      · refine ⟨m.on.mount, hon, ?_⟩
        exact hunpinned above ⟨m.on.mount, m.on⟩ habove hon habovepath
    · refine ⟨m.id, hchild, ?_⟩
      intro parent' path' names point hget' hnames _ hpinned
      obtain ⟨hproper, hat, -⟩ := pinned_root hdescribed hroot hchild hget' hnames hpinned
      obtain ⟨rest, hrest⟩ := hprefix
      obtain rfl | ⟨rest, name, rfl⟩ := List.eq_nil_or_concat rest
      · exact absurd ((List.append_nil _).symm.trans hrest) hne
      · rw [List.concat_eq_append, ← List.append_assoc] at hrest
        -- the walk to the hidden mount came by the place the other mount is on
        obtain ⟨front, rfl, hfront⟩ := hat.into hproper hm hrest.symm hchild.1
        have hfrontproper : host.mounts.dotdot ∉ front :=
          fun hmem => hproper (List.mem_append_left _ hmem)
        obtain ⟨front', rfl, hfront'⟩ := hfront.above hfrontproper
        have hproper' : host.mounts.dotdot ∉ front' :=
          fun hmem => hfrontproper (List.mem_append_left _ hmem)
        have hplace : (⟨m.on.mount, above.on.path⟩ : Place Bytes) ≠ ⟨host.root, []⟩ :=
          fun heq => hnil (congrArg Place.path heq)
        apply hfront'.uncovered_of_ne hproper' hplace above habove
        rw [← hmount]

/-- **A child is reached by its path** where nothing is in the way. -/
theorem child_reached (hfree : ¬ Obstructed host table) {id : Nat} {names : List Bytes}
    (h : host.mounts.Shown host.root id names) :
    host.mounts.At ⟨host.root, []⟩ names ⟨id, []⟩ := by
  induction h with
  | root => exact Mounts.At.nil.mpr rfl
  | @on m names hm hshown ih =>
    have hparent : m.on.mount = host.root ∨ Child table host.root m.on.mount :=
      (shown_child hdescribed hroot hshown).imp And.left And.left
    have hchild : Child table host.root m.id := attached_child hdescribed hroot hm hparent
    apply ih.onto hm
    · intro hnil
      apply hfree
      have hon : m.on = ⟨m.on.mount, []⟩ := by rw [← hnil]
      obtain hself | hparent := hparent
      · exact .covers m hm hchild (by rw [hon, hself])
      · obtain ⟨below, hbelow, hid, -⟩ := child_attached hdescribed hroot hparent
        exact .stacked m below hm hbelow hchild (hid ▸ hparent) (by rw [hon, hid])
    · intro x hx hmount hprefix hne
      exact absurd (.hidden m x hm hx hchild hmount hprefix hne) hfree
    · intro x hx hon
      apply hfree
      have hxchild : Child table host.root x.id :=
        attached_child hdescribed hroot hx (.inr (by rw [hon]; exact hchild))
      exact .stacked x m hx hm hxchild hchild hon

end

/-! Captures. -/

/-- The children of the root, each once, and each pinned where it is seen. -/
structure Complete (host : Host) (table : MountTable) (rootPath : Bytes) (ids : List Nat)
    (points : List Point) : Prop where
  nodup : ids.Nodup
  exact : ∀ id, id ∈ ids ↔ Child table host.root id
  pinned : List.Forall₂ (fun id point => ∃ parent path names, table.get? id = some (parent, path) ∧
    pathNames path = pathNames rootPath ++ names ∧ names ≠ [] ∧
      Pinned host.mounts host.root names id point) ids points

theorem detach_suffix (unmount : List Point → Bool) (points : List Point) :
    (detach unmount points).1 <:+ points ∧ ((detach unmount points).2 = true →
      (detach unmount points).1 = []) := by
  induction points with
  | nil => exact ⟨List.suffix_refl _, fun _ => rfl⟩
  | cons last rest ih =>
    rw [detach]
    split
    · exact ⟨ih.1.trans (List.suffix_cons last rest), ih.2⟩
    · exact ⟨List.suffix_refl _, fun h => by cases h⟩

/-- **Closing leaves a prefix**, and nothing if no point had to be left. -/
theorem close_prefix (unmount : List Point → Bool) (points : List Point) :
    (close unmount points).1 <+: points ∧ ((close unmount points).2 = true →
      (close unmount points).1 = []) := by
  obtain ⟨hsuffix, hdone⟩ := detach_suffix (fun reversed => unmount reversed.reverse) points.reverse
  constructor
  · rw [← List.reverse_suffix]
    show (detach _ points.reverse).1.reverse.reverse <:+ _
    rwa [List.reverse_reverse]
  · intro h
    show (detach _ points.reverse).1.reverse = []
    rw [hdone h]
    rfl

/-- **A capture is complete**, and in the order of path lengths. -/
theorem capture_complete {host : Host} {points : List Point} (h : capture host = .ok points) :
    ∃ table grand rootPath ids, readEntries host.mountinfo = .ok table ∧ table.get? host.root =
      some (grand, rootPath) ∧ Complete host table rootPath ids points ∧
      ids.Pairwise (fun a b => ∀ parentA pathA namesA parentB pathB namesB, table.get? a =
        some (parentA, pathA) →
        table.get? b = some (parentB, pathB) → pathNames pathA = pathNames rootPath ++ namesA →
        pathNames pathB = pathNames rootPath ++ namesB → namesA.length ≤ namesB.length) := by
  obtain ⟨-, -, -, table, grand, rootPath, htable, hroot, selected, hselected, paths, hpaths,
    hpoints⟩ := capture_eq_ok.mp h
  have hrelative := except_mapM_eq_ok.mp hpaths
  have hpins := except_mapM_eq_ok.mp hpoints
  have hperm : (paths.insertionSort NoLonger).Perm paths := List.perm_insertionSort NoLonger paths
  have hids : paths.map Prod.fst = (selected.erase host.root).keys := by
    rw [← List.forall₂_eq_eq_eq, List.forall₂_map_left_iff]
    apply hrelative.flip.imp
    intro found id hfound
    exact (relative_eq_ok.mp hfound).1
  have hpath : ∀ found ∈ paths, found.2 ≠ [] ∧ ∃ parent path, table.get? found.1 =
      some (parent, path) ∧ pathNames path = pathNames rootPath ++ found.2 := by
    intro found hfound
    obtain ⟨i, hi, rfl⟩ := List.getElem_of_mem hfound
    have hentry := hrelative.get (by rw [hrelative.length_eq]; exact hi) hi
    obtain ⟨hid, hne, hentry⟩ := relative_eq_ok.mp hentry
    rw [List.get_eq_getElem] at hid hne hentry
    rw [hid]
    exact ⟨hne, hentry⟩
  refine ⟨table, grand, rootPath, (paths.insertionSort NoLonger).map Prod.fst, htable,
    hroot, ?_, ?_⟩
  · refine ⟨?_, ?_, ?_⟩
    · rw [(hperm.map Prod.fst).nodup_iff, hids]
      exact OrdMap.nodup_keys _
    · intro id
      rw [(hperm.map Prod.fst).mem_iff, hids]
      exact mem_children hselected
    · rw [List.forall₂_map_left_iff]
      rw [List.forall₂_iff_get] at hpins ⊢
      refine ⟨hpins.1, fun i hi hj => ?_⟩
      have hmem : (paths.insertionSort NoLonger).get ⟨i, hi⟩ ∈ paths :=
        hperm.subset (List.get_mem _ _)
      obtain ⟨hne, parent, path, hget, hnames⟩ := hpath _ hmem
      exact ⟨parent, path, _, hget, hnames, hne, pin_pinned host.dots (hpins.2 i hi hj)⟩
  · rw [List.pairwise_map]
    have htotal : Std.Total NoLonger := ⟨fun a b => Nat.le_total a.2.length b.2.length⟩
    have htrans : IsTrans _ NoLonger := ⟨fun a b c => Nat.le_trans⟩
    apply (List.pairwise_insertionSort NoLonger paths).imp_of_mem
    intro a b ha hb hle parentA pathA namesA parentB pathB namesB hgetA hgetB hnamesA hnamesB
    obtain ⟨-, _, _, hgetA', hnamesA'⟩ := hpath a (hperm.subset ha)
    obtain ⟨-, _, _, hgetB', hnamesB'⟩ := hpath b (hperm.subset hb)
    rw [hgetA', Option.some.injEq, Prod.mk.injEq] at hgetA
    rw [hgetB', Option.some.injEq, Prod.mk.injEq] at hgetB
    rw [hgetA.2, hnamesA] at hnamesA'
    rw [hgetB.2, hnamesB] at hnamesB'
    rw [List.append_cancel_left hnamesA', List.append_cancel_left hnamesB']
    exact hle

/-- **A capture's order**: no mount comes before the one it is on. -/
theorem Complete.ordered {host : Host} {table : MountTable} {grand : Nat} {rootPath : Bytes}
    {ids : List Nat} {points : List Point} (h : Complete host table rootPath ids points)
    (hdescribed : Described host table) (hroot : table.get? host.root = some (grand, rootPath))
    (hlengths : ids.Pairwise (fun a b => ∀ parentA pathA namesA parentB pathB namesB, table.get? a =
    some (parentA, pathA) →
        table.get? b = some (parentB, pathB) → pathNames pathA = pathNames rootPath ++ namesA →
        pathNames pathB = pathNames rootPath ++ namesB → namesA.length ≤ namesB.length)) :
    ids.Pairwise (fun earlier later => ¬ Under table later earlier) := by
  have hfound : ∀ id ∈ ids, ∃ parent path names point, table.get? id = some (parent, path) ∧
      pathNames path = pathNames rootPath ++ names ∧
          Pinned host.mounts host.root names id point := by
    intro id hid
    obtain ⟨i, hi, rfl⟩ := List.getElem_of_mem hid
    obtain ⟨parent, path, names, hget, hnames, -, hpinned⟩ :=
      h.pinned.get hi (by rw [← h.pinned.length_eq]; exact hi)
    exact ⟨parent, path, names, _, hget, hnames, hpinned⟩
  apply hlengths.imp_of_mem
  intro a b ha hb hle
  obtain ⟨parentA, pathA, namesA, pointA, hgetA, hnamesA, -⟩ := hfound a ha
  obtain ⟨parentB, pathB, namesB, pointB, hgetB, hnamesB, hpinnedB⟩ := hfound b hb
  have hlength := hle _ _ _ _ _ _ hgetA hgetB hnamesA hnamesB
  exact not_under_later hdescribed hroot ((h.exact a).mp ha)
    ((h.exact b).mp hb) hgetA hgetB hnamesA hnamesB hlength hpinnedB

/-- **Where every child can be reached, all are captured.** -/
theorem capture_total {host : Host} {table : MountTable} {grand : Nat} {rootPath : Bytes}
    (hzero : host.root ≠ 0) (hprocfs : host.procfs = true)
    (hlimit : host.mountinfo.length ≤ captureLimit)
    (htable : readEntries host.mountinfo = .ok table)
    (hroot : table.get? host.root = some (grand, rootPath)) (hdescribed : Described host table)
    (hfree : ¬ Obstructed host table) :
    ∃ points, capture host = .ok points := by
  obtain ⟨selected, hselected⟩ := closure_root table host.root
  have hselected := hselected (table.entries.length + 1) (Nat.lt_succ_self _)
  have hreached : ∀ id ∈ (selected.erase host.root).keys, ∃ found, relative table rootPath id =
      .ok found ∧
      Child table host.root found.1 ∧ host.mounts.dotdot ∉ found.2 ∧
          host.mounts.At ⟨host.root, []⟩ found.2 ⟨found.1, []⟩ := by
    intro id hid
    have hchild := (mem_children hselected).mp hid
    obtain ⟨parent, path, hget, -⟩ := hchild.parent
    obtain ⟨names, hshown, hnames⟩ := child_shown hdescribed hroot hchild hget
    have hat := child_reached hdescribed hroot hfree hshown
    have hne : names ≠ [] := by
      intro hnil
      rw [hnil, Mounts.At.nil, Place.mk.injEq] at hat
      exact hchild.1 hat.1
    exact ⟨(id, names), relative_eq_ok.mpr ⟨rfl, hne, parent, path, hget, hnames⟩, hchild,
      hshown.proper, hat⟩
  obtain ⟨paths, hpaths, hall⟩ := except_mapM_total hreached
  have hpinned : ∀ found ∈ paths.insertionSort NoLonger, ∃ point, pin host.mounts host.root found =
      .ok point ∧ True := by
    intro found hfound
    obtain ⟨hchild, hproper, hat⟩ :=
      hall found ((List.perm_insertionSort NoLonger paths).subset hfound)
    obtain ⟨id, names⟩ := found
    obtain rfl | ⟨front, name, rfl⟩ := List.eq_nil_or_concat names
    · exact absurd (congrArg Place.mount (Mounts.At.nil.mp hat)) hchild.1
    · rw [List.concat_eq_append] at hproper hat ⊢
      have hname : name ≠ host.mounts.dotdot := fun heq => hproper (by simp [heq])
      obtain ⟨here, hhere, hdir, hkind, htop⟩ := (Mounts.At.snoc hname).mp hat
      have hpositive : id ≠ 0 := by
        intro heq
        obtain ⟨parent, path, hget, -⟩ := hchild.parent
        have hnone := OrdMap.contains_eq_false.mp (readEntries_positive htable)
        rw [← heq, hget] at hnone
        cases hnone
      refine ⟨⟨here, name⟩, ?_, trivial⟩
      rw [pin_eq_ok, List.dropLast_concat]
      exact ⟨rfl, host.dots ▸ hname, hhere, hdir, hkind, by rw [htop], hpositive⟩
  obtain ⟨points, hpoints, -⟩ := except_mapM_total hpinned
  exact ⟨points, capture_eq_ok.mpr
    ⟨hzero, hprocfs, hlimit, table, grand, rootPath, htable, hroot, selected, hselected, paths,
      hpaths, hpoints⟩⟩

/-- **Captured child mounts are complete and ordered.** The closure loop ends for every
    table. A capture has the transitive children of the root, each once, pinned where it is
    seen; with a table that describes the mounts, none comes before the mount it is on, so
    closing, which leaves a prefix, leaves no child of a mount it detached. A child that
    is stacked on, covers the root or is hidden is rejected; a table of records that
    describes the mounts, without such a child and within the limit, is captured. -/
theorem capture_exact (host : Host) :
    (∀ (table : MountTable) (root : Nat), ∃ s, ∀ fuel, table.entries.length < fuel →
      closure table fuel (OrdMap.empty.insert root ()) = some s) ∧
    (∀ points, capture host = .ok points → ∃ table grand rootPath ids,
      readEntries host.mountinfo = .ok table ∧
      table.get? host.root = some (grand, rootPath) ∧ Complete host table rootPath ids points ∧
      (Described host table → ids.Pairwise (fun earlier later => ¬ Under table later earlier)) ∧
      ∀ unmount, ∃ kept gone, ids = kept ++ gone ∧ (close unmount points).1 =
        points.take kept.length ∧ ((close unmount points).2 = true → kept = []) ∧
        (Described host table → ∀ parent ∈ gone, ∀ child ∈ ids, Under table parent child →
          child ∈ gone)) ∧
    (∀ table, readEntries host.mountinfo = .ok table → Described host table →
      Obstructed host table → ∀ points, capture host ≠ .ok points) ∧
    ∀ records : List Record, (∀ r ∈ records, r.WellFormed) → (records.map Record.id).Nodup →
      host.mountinfo = tableText records →
      host.mountinfo.length ≤ captureLimit → host.procfs = true →
        host.root ∈ records.map Record.id →
      ∃ table, readEntries host.mountinfo = .ok table ∧
        (∀ id entry, table.get? id = some entry ↔ ∃ r ∈ records, r.id = id ∧
          (r.parent, pathText r.names) = entry) ∧
        (∀ r ∈ records, pathNames (pathText r.names) = r.names) ∧
        (Described host table → ¬ Obstructed host table → ∃ points, capture host = .ok points) := by
  refine ⟨?_, ?_, ?_, ?_⟩
  · intro table root
    exact closure_root table root
  · intro points h
    obtain ⟨table, grand, rootPath, ids, htable, hroot, hcomplete, hlengths⟩ := capture_complete h
    have hordered : Described host table → ids.Pairwise (fun earlier later =>
        ¬ Under table later earlier) :=
      fun hdescribed => hcomplete.ordered hdescribed hroot hlengths
    refine ⟨table, grand, rootPath, ids, htable, hroot, hcomplete, hordered, fun unmount => ?_⟩
    obtain ⟨hleft, hdone⟩ := close_prefix unmount points
    have hlength : (close unmount points).1.length ≤ ids.length := by
      rw [hcomplete.pinned.length_eq]
      exact hleft.length_le
    refine ⟨ids.take (close unmount points).1.length, ids.drop (close unmount points).1.length,
      (List.take_append_drop _ ids).symm, ?_, ?_, ?_⟩
    · rw [List.length_take_of_le hlength]
      exact List.prefix_iff_eq_take.mp hleft
    · intro h
      rw [hdone h]
      rfl
    · intro hdescribed parent hparent child hchild hunder
      rw [← List.take_append_drop (close unmount points).1.length ids, List.mem_append] at hchild
      obtain hchild | hchild := hchild
      · have hpair := hordered hdescribed
        rw [← List.take_append_drop (close unmount points).1.length ids,
          List.pairwise_append] at hpair
        exact absurd hunder (hpair.2.2 child hchild parent hparent)
      · exact hchild
  · intro table htable hdescribed hobstructed points h
    obtain ⟨table', grand, rootPath, ids, htable', hroot, hcomplete, -⟩ := capture_complete h
    obtain rfl : table = table' := Except.ok.inj (htable.symm.trans htable')
    obtain ⟨id, hchild, hnot⟩ := obstructed_unpinned hdescribed hroot hobstructed
    obtain ⟨i, hi, rfl⟩ := List.getElem_of_mem ((hcomplete.exact id).mpr hchild)
    obtain ⟨parent, path, names, hget, hnames, hne, hpinned⟩ :=
      hcomplete.pinned.get hi (by rw [← hcomplete.pinned.length_eq]; exact hi)
    exact hnot parent path names _ hget hnames hne hpinned
  · intro records hwell hids hbytes hlimit hprocfs hlisted
    obtain ⟨table, htable, hget⟩ := readEntries_tableText hwell hids
    rw [← hbytes] at htable
    refine ⟨table, htable, hget, fun r hr => pathNames_pathText (hwell r hr).names, ?_⟩
    intro hdescribed hfree
    obtain ⟨r, hr, hid⟩ := List.mem_map.mp hlisted
    have hroot : table.get? host.root = some (r.parent, pathText r.names) :=
      (hget _ _).mpr ⟨r, hr, hid, rfl⟩
    have hzero : host.root ≠ 0 := hid ▸ (hwell r hr).positive
    exact capture_total hzero hprocfs hlimit htable hroot hdescribed hfree

/-- A mount at "/a", and one at "/a/b" of it that the table has first. -/
def nestedRecords : List Record :=
  [⟨3, 5, [], [], [[97], [98]], []⟩, ⟨1, 1, [], [], [], []⟩, ⟨5, 1, [], [], [[97]], []⟩]

def nestedHost : Host where
  mounts :=
    { attached := [⟨5, ⟨1, [[97]]⟩⟩, ⟨3, ⟨5, [[98]]⟩⟩]
      dotdot := dotdotName
      kind := fun place =>
        if place = ⟨1, []⟩ ∨ place = ⟨1, [[97]]⟩ ∨ place = ⟨5, []⟩ ∨ place = ⟨5, [[98]]⟩ ∨
          place = ⟨3, []⟩ then some .directory
        else none
      ordered := by decide
      apart := by decide
      single := by decide
      inner := by
        have hnil : ∀ (name : Bytes) (path : List Bytes), path <+: [name] → path ≠ [name] →
            path = [] :=
          fun name path hpath hne => List.prefix_nil.mp
            (List.prefix_concat_iff.mp hpath |>.resolve_left hne)
        intro m hm q hq hne
        rw [List.mem_cons, List.mem_singleton] at hm
        obtain rfl | rfl := hm
        · rw [hnil _ q hq hne]
          decide
        · rw [hnil _ q hq hne]
          decide
      placed := by decide
      proper := by decide }
  dots := rfl
  root := 1
  procfs := true
  mountinfo := tableText nestedRecords

theorem nestedRecords_wellFormed : ∀ r ∈ nestedRecords, r.WellFormed := by
  have ha : FileName [97] := ⟨by decide, by decide, by decide, by decide⟩
  have hb : FileName [98] := ⟨by decide, by decide, by decide, by decide⟩
  intro r hr
  simp only [nestedRecords, List.mem_cons, List.not_mem_nil, or_false] at hr
  obtain rfl | rfl | rfl := hr
  · exact ⟨by decide, by decide, by decide, by decide, by decide, by simpa using ⟨ha, hb⟩, by decide⟩
  · exact ⟨by decide, by decide, by decide, by decide, by decide, by simp, by decide⟩
  · exact ⟨by decide, by decide, by decide, by decide, by decide, by simpa using ha, by decide⟩

theorem nestedHost_free (table : MountTable) : ¬ Obstructed nestedHost table := by
  intro hobstructed
  cases hobstructed with
  | covers m hm _ hon =>
    have hall : ∀ m ∈ nestedHost.mounts.attached, m.on ≠ ⟨1, []⟩ := by decide
    exact hall m hm hon
  | stacked m below hm hbelow _ _ hon =>
    have hall : ∀ m ∈ nestedHost.mounts.attached, ∀ below ∈ nestedHost.mounts.attached, m.on ≠
      ⟨below.id, []⟩ := by decide
    exact hall m hm below hbelow hon
  | hidden m above hm habove _ hmount _ hne =>
    have hall : ∀ m ∈ nestedHost.mounts.attached, ∀ above ∈ nestedHost.mounts.attached,
        above.on.mount = m.on.mount → above.on.path = m.on.path := by
      decide
    exact hne (hall m hm above habove hmount)

theorem nested_captured : ∃ points, capture nestedHost = .ok points := by
  obtain ⟨table, -, hget, -, hcaptured⟩ :=
    (capture_exact nestedHost).2.2.2 nestedRecords nestedRecords_wellFormed (by decide) rfl
      (by decide) rfl (by decide)
  have hroot : table.get? 1 = some (1, pathText []) :=
    (hget _ _).mpr ⟨_, List.mem_of_getElem? (i := 1) rfl, rfl, rfl⟩
  have hfive : table.get? 5 = some (1, pathText [[97]]) :=
    (hget _ _).mpr ⟨_, List.mem_of_getElem? (i := 2) rfl, rfl, rfl⟩
  have hthree : table.get? 3 = some (5, pathText [[97], [98]]) :=
    (hget _ _).mpr ⟨_, List.mem_of_getElem? (i := 0) rfl, rfl, rfl⟩
  refine hcaptured ⟨?_, ?_⟩ (nestedHost_free table)
  · intro id parent path grand above hid hpath habove
    obtain ⟨r, hr, hrid, hentry⟩ := (hget _ _).mp hpath
    simp only [nestedRecords, List.mem_cons, List.not_mem_nil, or_false] at hr
    obtain rfl | rfl | rfl := hr
    · cases hentry
      rw [hfive, Option.some.injEq, Prod.mk.injEq] at habove
      rw [← habove.2]
      exact ⟨⟨3, ⟨5, [[98]]⟩⟩, by decide, hrid, rfl, by decide⟩
    · exact absurd hrid.symm hid.1
    · cases hentry
      rw [hroot, Option.some.injEq, Prod.mk.injEq] at habove
      rw [← habove.2]
      exact ⟨⟨5, ⟨1, [[97]]⟩⟩, by decide, hrid, rfl, by decide⟩
  · intro m hm _
    have hm : m ∈ [⟨5, ⟨1, [[97]]⟩⟩, ⟨3, ⟨5, [[98]]⟩⟩] := hm
    rw [List.mem_cons, List.mem_singleton] at hm
    obtain rfl | rfl := hm
    · exact ⟨_, hfive⟩
    · exact ⟨_, hthree⟩

end Conglobate.Filesystem
