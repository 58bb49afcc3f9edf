import Conglobate.Isolation.User
import Conglobate.Lib.Flow
import Conglobate.Lib.LittleEndian
import Mathlib.Logic.Relation

/- Image ownership validation (`storage/ownership.rs`).

   An image is a finite tree of inodes on one file system. The walk keeps the directories
   it is in, each with the entries it has not read, and never follows a symlink. What the
   system may do to it is by the number of calls made so far: refuse one, or let the
   clock run out.

   Correspondence (Rust ↔ Lean):
     `Metadata`, the two ACL attributes  ↔ `Inode`
     `check_deadline`, a system call     ↔ `checkDeadline`, `call`
     `ImageOwnership::owner`, `acl`      ↔ `owner`, `acl`
     `ImageOwnership::inode`             ↔ `inode`
     `ImageOwnership::validate`, its loop ↔ `validate`, `drain`

   What is proved:
     1. `acl_eq_ok` — the byte-level reader accepts exactly the well-formed lists;
     2. `drain_eq_ok` — the loop reaches every inode below what is pending, and no other;
     3. `ownership_exact` — what `validate` accepts, and what accepted ids map to. -/
namespace Conglobate.Storage

open Isolation

/-- An extended attribute, no longer than Linux lets one be. -/
structure Acl where
  bytes : Bytes
  fits : bytes.length ≤ 65536

structure Inode where
  uid : Nat
  gid : Nat
  access : Option Acl
  default : Option Acl

/-- An object of the image. A directory has its entries in the order they are read. -/
inductive Node where
  | directory (inode : Inode) (entries : List (Bytes × Node))
  | symlink (inode : Inode)
  /-- Regular files and devices, pipes and sockets. -/
  | other (inode : Inode)

namespace Node

def inode : Node → Inode
  | directory inode _ => inode
  | symlink inode => inode
  | other inode => inode

def isSymlink : Node → Bool
  | symlink _ => true
  | _ => false

def entries : Node → List (Bytes × Node)
  | directory _ entries => entries
  | _ => []

end Node

structure ImageOwnership where
  uid : IdRange
  gid : IdRange
  deadline : Nat

/-- The system, by how many calls it has answered. -/
structure System where
  clock : Nat → Nat
  refuse : Nat → Option IoError

namespace ImageOwnership

variable (o : ImageOwnership)

/-- A system call that may be refused, and the count after it. -/
def call (s : System) (n : Nat) : Except IoError Nat :=
  match s.refuse n with
  | some e => .error e
  | none => .ok (n + 1)

def checkDeadline (s : System) (n : Nat) : Except IoError Nat :=
  if s.clock n ≥ o.deadline then .error ⟨.timedOut, "image ownership validation"⟩ else .ok (n + 1)

def owner (id : Nat) (group : Bool) : Except IoError Unit :=
  if ((if group then o.gid else o.uid).containsImageId id) = false then
    .error (.invalidData ("unmapped image " ++ (if group then "GID"
      else "UID") ++ " " ++ toString id))
  else .ok ()

/-- One entry of an ACL: its tag, permissions and id, little-endian. -/
def aclEntry (entry : Bytes) : Except IoError Unit :=
  if Bytes.ofLe ((entry.drop 2).take 2) > 7 then
    .error (.invalidData "invalid POSIX ACL permissions")
  else if Bytes.ofLe (entry.take 2) = 2 then o.owner (Bytes.ofLe ((entry.drop 4).take 4)) false
  else if Bytes.ofLe (entry.take 2) = 8 then o.owner (Bytes.ofLe ((entry.drop 4).take 4)) true
  else if Bytes.ofLe (entry.take 2) ∈ [1, 4, 16, 32] ∧
      Bytes.ofLe ((entry.drop 4).take 4) = 2 ^ 32 - 1 then .ok ()
  else .error (.invalidData "invalid POSIX ACL tag or ID")

/-- `as_chunks::<8>().0`. -/
def aclEntries (bytes : Bytes) : List Bytes :=
  (List.range (bytes.length / 8)).map fun i => (bytes.drop (i * 8)).take 8

def acl (bytes : Bytes) : Except IoError Unit :=
  if bytes.length < 4 ∨ bytes.take 4 ≠ Bytes.le 4 2 ∨ (bytes.length - 4) % 8 ≠ 0 then
    .error (.invalidData "invalid POSIX ACL encoding")
  else (aclEntries (bytes.drop 4)).forM o.aclEntry

/-- One ACL attribute, if the inode has it. -/
def getxattr (s : System) (n : Nat) (value : Option Acl) : Except IoError Nat := do
  let n ← call s n
  match value with
  | none => .ok n
  | some value => do
    o.acl value.bytes
    .ok n

def inode (s : System) (n : Nat) (node : Node) : Except IoError Nat := do
  let n ← o.checkDeadline s n
  let n ← call s n
  o.owner node.inode.uid false
  o.owner node.inode.gid true
  if node.isSymlink then o.checkDeadline s n
  else do
    let n ← o.getxattr s n node.inode.access
    let n ← o.getxattr s n node.inode.default
    o.checkDeadline s n

/-- The loop, with the entries left of each directory it is in, the innermost first. -/
def drain (s : System) (n : Nat) : List (List (Bytes × Node)) → Except IoError Nat
  | [] => o.checkDeadline s n
  | [] :: pending => do
    let n ← o.checkDeadline s n
    drain s n pending
  | ((_, node) :: rest) :: pending => do
    let n ← o.checkDeadline s n
    -- the entry, the object it names, and what that is
    let n ← call s n
    let n ← call s n
    let n ← o.inode s n node
    let n ← call s n
    match node with
    | .directory _ entries => do
      let n ← call s n
      drain s n (entries :: rest :: pending)
    | _ => drain s n (rest :: pending)
termination_by pending => sizeOf pending
decreasing_by
  all_goals simp_wf
  all_goals omega

def validate (s : System) (root : Inode) (entries : List (Bytes × Node)) : Except IoError Unit := do
  let n ← o.inode s 0 (.directory root entries)
  let n ← call s n
  let _ ← o.drain s n [entries]
  .ok ()

/-! What an ACL may say. -/

structure AclEntry where
  tag : Nat
  permissions : Nat
  id : Nat

namespace AclEntry

def encode (e : AclEntry) : Bytes :=
  Bytes.le 2 e.tag ++ (Bytes.le 2 e.permissions ++ Bytes.le 4 e.id)

def decode (entry : Bytes) : AclEntry where
  tag := Bytes.ofLe (entry.take 2)
  permissions := Bytes.ofLe ((entry.drop 2).take 2)
  id := Bytes.ofLe ((entry.drop 4).take 4)

@[simp] theorem encode_length (e : AclEntry) : e.encode.length = 8 := by simp [encode]

/-- Users and groups (2 and 8) are named, and mapped; the owner, its group, the mask and the
    others (1, 4, 16 and 32) carry the all-ones id. -/
structure Valid (o : ImageOwnership) (e : AclEntry) : Prop where
  permissions : e.permissions ≤ 7
  tagged : e.tag = 2 ∧ o.uid.containsImageId e.id = true ∨ e.tag = 8 ∧
    o.gid.containsImageId e.id = true ∨ e.tag ∈ [1, 4, 16, 32] ∧ e.id = 2 ^ 32 - 1

end AclEntry

/-- Version 2, and whole valid entries. -/
def WellFormed (bytes : Bytes) : Prop :=
  ∃ entries : List AclEntry, bytes = Bytes.le 4 2 ++ (entries.map AclEntry.encode).flatten ∧
    ∀ e ∈ entries, e.Valid o

variable {o}

theorem id_lt {r : IdRange} {id : Nat} (h : r.containsImageId id = true) : id < 2 ^ 32 := by
  have hin : id < r.count := of_decide_eq_true h
  have hfits := r.fits
  omega

theorem AclEntry.decode_encode {e : AclEntry} (h : e.Valid o) : AclEntry.decode e.encode = e := by
  have htag : e.tag < 256 ^ 2 := by
    rcases h.tagged with ⟨htag, -⟩ | ⟨htag, -⟩ | ⟨htag, -⟩
    · omega
    · omega
    · simp only [List.mem_cons, List.not_mem_nil, or_false] at htag
      omega
  have hpermissions : e.permissions < 256 ^ 2 := by
    have := h.permissions
    omega
  have hid : e.id < 256 ^ 4 := by
    rcases h.tagged with ⟨-, hid⟩ | ⟨-, hid⟩ | ⟨-, hid⟩
    · exact id_lt hid
    · exact id_lt hid
    · omega
  have ht : e.encode.take 2 = Bytes.le 2 e.tag := List.take_left' (Bytes.le_length _ _)
  have hp : (e.encode.drop 2).take 2 = Bytes.le 2 e.permissions := by
    rw [encode, List.drop_left' (Bytes.le_length _ _), List.take_left' (Bytes.le_length _ _)]
  have hi : (e.encode.drop 4).take 4 = Bytes.le 4 e.id := by
    rw [encode, ← List.append_assoc, List.drop_left' (by simp), List.take_of_length_le (by simp)]
  rw [decode, ht, hp, hi, Bytes.ofLe_le htag, Bytes.ofLe_le hpermissions, Bytes.ofLe_le hid]

theorem AclEntry.encode_decode {entry : Bytes} (h : entry.length = 8) :
    (AclEntry.decode entry).encode = entry := by
  have hle : ∀ {bs : Bytes} {n : Nat}, bs.length = n → Bytes.le n (Bytes.ofLe bs) = bs := by
    rintro bs n rfl
    exact Bytes.le_ofLe bs
  rw [encode, decode, hle (by rw [List.length_take, h]; rfl),
    hle (by rw [List.length_take, List.length_drop, h]; rfl),
    hle (by rw [List.length_take, List.length_drop, h]; rfl)]
  have hrest : (entry.drop 4).take 4 = (entry.drop 2).drop 2 := by
    rw [List.drop_drop]
    exact List.take_of_length_le (by rw [List.length_drop, h])
  rw [hrest, List.take_append_drop, List.take_append_drop]

theorem owner_eq_ok {id : Nat} {group : Bool} :
    o.owner id group = .ok () ↔ (if group then o.gid else o.uid).containsImageId id = true := by
  rw [owner]
  cases (if group then o.gid else o.uid).containsImageId id with
  | false => exact iff_of_false (fun h => by cases h) Bool.false_ne_true
  | true => exact iff_of_true rfl rfl

/-- **One entry**, byte by byte. -/
theorem aclEntry_eq_ok {entry : Bytes} : o.aclEntry entry = .ok () ↔
    (AclEntry.decode entry).Valid o := by
  have hvalid : (AclEntry.decode entry).Valid o ↔ (AclEntry.decode entry).permissions ≤ 7 ∧ _ :=
    ⟨fun h => ⟨h.permissions, h.tagged⟩, fun h => ⟨h.1, h.2⟩⟩
  rw [hvalid, aclEntry]
  dsimp only [AclEntry.decode]
  generalize Bytes.ofLe ((entry.drop 2).take 2) = permissions
  generalize Bytes.ofLe (entry.take 2) = tag
  generalize Bytes.ofLe ((entry.drop 4).take 4) = id
  split
  · rename_i h
    exact iff_of_false (fun h => by cases h) (fun hle => by omega)
  rename_i hle
  rw [and_iff_right (by omega : permissions ≤ 7)]
  split
  · rename_i htag
    rw [owner_eq_ok, htag]
    simp
  split
  · rename_i htag
    rw [owner_eq_ok, htag]
    simp
  rename_i h2 h8
  rw [eq_false h2, eq_false h8, false_and, false_and, false_or, false_or]
  split
  · rename_i h
    exact iff_of_true rfl h
  · rename_i h
    exact iff_of_false (fun h => by cases h) h

theorem aclEntries_flatten {blocks : List Bytes} (h : ∀ b ∈ blocks, b.length = 8) :
    aclEntries blocks.flatten = blocks := by
  have hlength : blocks.flatten.length / 8 = blocks.length := by
    rw [Bytes.flatten_length h, Nat.mul_div_cancel _ (by decide)]
  rw [aclEntries, hlength]
  apply List.ext_getElem (by simp)
  intro i h1 h2
  rw [List.getElem_map, List.getElem_range]
  exact (Bytes.readAt_eq_some.mp (Bytes.readAt_flatten h h2)).2.symm

theorem aclEntries_width {bytes entry : Bytes} (h : entry ∈ aclEntries bytes) :
    entry.length = 8 := by
  obtain ⟨i, hi, rfl⟩ := List.mem_map.mp h
  have hlt := List.mem_range.mp hi
  rw [List.length_take, List.length_drop]
  omega

/-- **The reader accepts exactly the well-formed lists.** -/
theorem acl_eq_ok {bytes : Bytes} : o.acl bytes = .ok () ↔ o.WellFormed bytes := by
  constructor
  · intro h
    rw [acl] at h
    split at h
    · cases h
    rename_i hhead
    rw [not_or, not_or, not_lt, not_not, not_not] at hhead
    obtain ⟨hlong, hversion, hwhole⟩ := hhead
    refine ⟨(aclEntries (bytes.drop 4)).map AclEntry.decode, ?_, ?_⟩
    · have hsame : ((aclEntries (bytes.drop 4)).map AclEntry.decode).map AclEntry.encode =
          aclEntries (bytes.drop 4) := by
        have hself : ∀ entry ∈ aclEntries (bytes.drop 4),
            (AclEntry.encode ∘ AclEntry.decode) entry = id entry :=
          fun entry hentry => AclEntry.encode_decode (aclEntries_width hentry)
        rw [List.map_map, List.map_congr_left hself, List.map_id]
      rw [hsame, aclEntries, Bytes.blocks_flatten, ← hversion]
      have hall : (bytes.drop 4).length / 8 * 8 = (bytes.drop 4).length := by
        rw [List.length_drop]
        omega
      rw [hall, List.take_length, List.take_append_drop]
    · intro e he
      obtain ⟨entry, hentry, rfl⟩ := List.mem_map.mp he
      exact aclEntry_eq_ok.mp (except_forM_eq_ok.mp h entry hentry)
  · rintro ⟨entries, rfl, hvalid⟩
    have hwidth : ∀ b ∈ entries.map AclEntry.encode, b.length = 8 := by
      intro b hb
      obtain ⟨e, -, rfl⟩ := List.mem_map.mp hb
      exact e.encode_length
    have hlength := Bytes.flatten_length hwidth
    rw [acl, if_neg, List.drop_left' (Bytes.le_length _ _), aclEntries_flatten hwidth,
      except_forM_eq_ok]
    · intro entry hentry
      obtain ⟨e, he, rfl⟩ := List.mem_map.mp hentry
      rw [aclEntry_eq_ok, AclEntry.decode_encode (hvalid e he)]
      exact hvalid e he
    · rw [List.take_left' (Bytes.le_length _ _), List.length_append, Bytes.le_length, hlength]
      rintro (h | h | h)
      · omega
      · exact h rfl
      · omega

/-! One inode, and the loop. -/

/-- Both owners mapped, and every ACL of what is no symlink well formed. -/
structure Owned (o : ImageOwnership) (node : Node) : Prop where
  uid : o.uid.containsImageId node.inode.uid = true
  gid : o.gid.containsImageId node.inode.gid = true
  acls : node.isSymlink = false →
    (∀ value, node.inode.access = some value → o.WellFormed value.bytes) ∧
      ∀ value, node.inode.default = some value → o.WellFormed value.bytes

/-- A computation accepts just when a condition holds. -/
def Accepts {α : Type} (x : Except IoError α) (p : Prop) : Prop := (∃ a, x = .ok a) ↔ p

theorem Accepts.ok {α : Type} (a : α) : Accepts (.ok a) True := iff_of_true ⟨a, rfl⟩ trivial

theorem Accepts.imp {α : Type} {x : Except IoError α} {p q : Prop} (h : Accepts x p) (hpq : p ↔ q) :
    Accepts x q :=
  h.trans hpq

theorem Accepts.bind {α β : Type} {x : Except IoError α} {f : α → Except IoError β} {p q : Prop}
    (hx : Accepts x p) (hf : ∀ a, Accepts (f a) q) : Accepts (x >>= f) (p ∧ q) := by
  constructor
  · rintro ⟨b, hb⟩
    obtain ⟨a, ha, hb⟩ := except_bind_eq_ok.mp hb
    exact ⟨hx.mp ⟨a, ha⟩, (hf a).mp ⟨b, hb⟩⟩
  · rintro ⟨hp, hq⟩
    obtain ⟨a, ha⟩ := hx.mpr hp
    obtain ⟨b, hb⟩ := (hf a).mpr hq
    exact ⟨b, except_bind_eq_ok.mpr ⟨a, ha, hb⟩⟩

/-- A step that always goes through. -/
theorem Accepts.skip {α β : Type} {x : Except IoError α} {f : α → Except IoError β} {q : Prop}
    (hx : Accepts x True) (hf : ∀ a, Accepts (f a) q) :
    Accepts (x >>= f) q := (hx.bind hf).imp (iff_of_eq (true_and q))

/-- The reads succeed, and the deadline is not reached. -/
structure Serves (o : ImageOwnership) (s : System) : Prop where
  reads : ∀ n, s.refuse n = none
  time : ∀ n, s.clock n < o.deadline

section
variable {s : System} {n : Nat} {node : Node} (h : Serves o s)
include h

theorem accepts_call : Accepts (call s n) True := by
  rw [call, h.reads]
  exact Accepts.ok _

theorem accepts_checkDeadline : Accepts (o.checkDeadline s n) True := by
  rw [checkDeadline, if_neg (Nat.not_le.mpr (h.time n))]
  exact Accepts.ok _

omit h in
theorem accepts_unit {x : Except IoError Unit} {p : Prop} (hx : x = .ok () ↔ p) : Accepts x p := by
  rw [Accepts, ← hx]
  exact ⟨fun hsome => hsome.choose_spec, fun hok => ⟨(), hok⟩⟩

theorem accepts_getxattr (value : Option Acl) :
    Accepts (o.getxattr s n value) (∀ acl, value = some acl → o.WellFormed acl.bytes) := by
  rw [getxattr]
  apply Accepts.skip (accepts_call h)
  intro n
  cases value with
  | none => exact (Accepts.ok n).imp (iff_of_true trivial (fun acl heq => by cases heq))
  | some value =>
    apply ((accepts_unit acl_eq_ok).bind (fun _ => Accepts.ok n)).imp
    rw [and_true]
    exact ⟨fun hacl acl heq => Option.some.inj heq ▸ hacl, fun hall => hall value rfl⟩

theorem accepts_inode : Accepts (o.inode s n node) (Owned o node) := by
  rw [inode]
  apply Accepts.skip (accepts_checkDeadline h)
  intro n
  apply Accepts.skip (accepts_call h)
  intro n
  have howned : Owned o node ↔ o.uid.containsImageId node.inode.uid = true ∧
      o.gid.containsImageId node.inode.gid = true ∧ (node.isSymlink = false →
        (∀ value, node.inode.access = some value → o.WellFormed value.bytes) ∧
          ∀ value, node.inode.default = some value → o.WellFormed value.bytes) :=
    ⟨fun hall => ⟨hall.uid, hall.gid, hall.acls⟩, fun hall => ⟨hall.1, hall.2.1, hall.2.2⟩⟩
  rw [howned]
  refine (accepts_unit owner_eq_ok).bind (fun _ => (accepts_unit owner_eq_ok).bind (fun _ => ?_))
  cases hlink : node.isSymlink with
  | true =>
    exact (accepts_checkDeadline h).imp (iff_of_true trivial (fun hfalse => by cases hfalse))
  | false =>
    refine ((accepts_getxattr h _).bind (fun n => (accepts_getxattr h _).bind
      (fun n => accepts_checkDeadline h))).imp ?_
    rw [and_true]
    exact ⟨fun hall _ => hall, fun hall => hall rfl⟩

end

/-- One object has the other among its entries. -/
def Child (parent child : Node) : Prop := ∃ name, (name, child) ∈ parent.entries

/-- What is reached by directory entries, from an object on. -/
abbrev Reached : Node → Node → Prop := Relation.ReflTransGen Child

/-- Everything at and below the entries of a directory. -/
def AllOwned (o : ImageOwnership) (entries : List (Bytes × Node)) : Prop :=
  ∀ e ∈ entries, ∀ node, Reached e.2 node → Owned o node

theorem reached_owned {node : Node} :
    (∀ x, Reached node x → Owned o x) ↔ Owned o node ∧ AllOwned o node.entries := by
  constructor
  · intro h
    refine ⟨h node .refl, ?_⟩
    intro e he x hx
    exact h x (.head ⟨e.1, he⟩ hx)
  · rintro ⟨hself, hbelow⟩ x hx
    rcases Relation.ReflTransGen.cases_head hx with rfl | ⟨child, ⟨name, hchild⟩, hx⟩
    · exact hself
    · exact hbelow _ hchild x hx

theorem allOwned_cons {name : Bytes} {node : Node} {rest : List (Bytes × Node)} :
    AllOwned o ((name, node) :: rest) ↔ Owned o node ∧ AllOwned o node.entries ∧
      AllOwned o rest := by
  rw [AllOwned, List.forall_mem_cons, reached_owned, and_assoc]
  exact Iff.rfl

/-- **The loop accepts just when all that is pending does**, and all below it. The induction
    is on what is pending, which an entry read makes smaller even as its own are added. -/
theorem accepts_drain {s : System} (h : Serves o s) (n : Nat)
    (pending : List (List (Bytes × Node))) :
    Accepts (o.drain s n pending) (∀ entries ∈ pending, AllOwned o entries) := by
  induction hsize : sizeOf pending using Nat.strong_induction_on generalizing n pending with
  | _ size ih =>
    subst hsize
    cases pending with
    | nil =>
      rw [drain]
      exact (accepts_checkDeadline h).imp (iff_of_true trivial (List.forall_mem_nil _))
    | cons directory pending =>
      rw [List.forall_mem_cons]
      cases directory with
      | nil =>
        have hnext : ∀ n, Accepts (o.drain s n pending)
            (∀ entries ∈ pending, AllOwned o entries) := by
          intro n
          exact ih _ (by simp_wf) n pending rfl
        rw [drain]
        apply ((accepts_checkDeadline h).skip hnext).imp
        exact (and_iff_right (List.forall_mem_nil _)).symm
      | cons entry rest =>
        obtain ⟨name, node⟩ := entry
        rw [drain, allOwned_cons]
        refine ((accepts_checkDeadline h).skip fun n => (accepts_call h).skip fun n =>
            (accepts_call h).skip fun n =>
          (accepts_inode h).bind fun n => (accepts_call h).skip fun n => ?_).imp (and_assoc).symm
        cases node with
        | directory inode entries =>
          have hnext : ∀ n, Accepts (o.drain s n (entries :: rest :: pending))
              (∀ directory ∈ entries :: rest :: pending, AllOwned o directory) := by
            intro n
            exact ih _ (by simp_wf; omega) n (entries :: rest :: pending) rfl
          apply ((accepts_call h).skip hnext).imp
          rw [List.forall_mem_cons, List.forall_mem_cons, and_assoc]
          exact Iff.rfl
        | symlink inode =>
          apply (ih _ (by simp_wf) n (rest :: pending) rfl).imp
          rw [List.forall_mem_cons, and_assoc]
          exact (and_iff_right (List.forall_mem_nil _)).symm
        | other inode =>
          apply (ih _ (by simp_wf) n (rest :: pending) rfl).imp
          rw [List.forall_mem_cons, and_assoc]
          exact (and_iff_right (List.forall_mem_nil _)).symm

/-- **Image ownership validation is exact.** On an image whose reads succeed in time it accepts
    just when every inode reached from the root by directory entries is owned within the
    ranges and carries only well-formed, mapped ACLs; and every range that can be made maps
    its image ids one to one to parent ids that are neither root's nor invalid. -/
theorem ownership_exact (o : ImageOwnership) (s : System) (root : Inode)
    (entries : List (Bytes × Node)) (h : Serves o s) :
    (o.validate s root entries = .ok () ↔ ∀ node, Reached (.directory root entries) node →
      Owned o node) ∧
    (∀ first count r, IdRange.new first count = .ok r → r.first = first ∧ r.count = count) ∧
    ∀ r : IdRange, (∀ id, r.containsImageId id = true →
        r.parentId id < 2 ^ 32 ∧ r.parentId id ≠ 0 ∧ r.parentId id ≠ 2 ^ 32 - 1) ∧
      ∀ id id', r.parentId id = r.parentId id' → id = id' := by
  refine ⟨?_, ?_, IdRange.maps⟩
  · have hall : Accepts (o.validate s root entries)
        (∀ node, Reached (.directory root entries) node → Owned o node) := by
      rw [validate, reached_owned]
      refine (accepts_inode h).bind fun n => (accepts_call h).skip fun n => ?_
      refine ((accepts_drain h n [entries]).bind fun n => Accepts.ok ()).imp ?_
      rw [and_true, List.forall_mem_singleton]
      exact Iff.rfl
    rw [Accepts] at hall
    rw [← hall]
    exact ⟨fun hok => ⟨(), hok⟩, fun hsome => hsome.choose_spec⟩
  · intro first count r hr
    rw [IdRange.new] at hr
    split at hr
    · cases hr
      exact ⟨rfl, rfl⟩
    · cases hr

/-! A small image, to run the result on. -/

def sampleOwnership : ImageOwnership where
  uid := ⟨100000, 65536, by decide, by decide, by decide⟩
  gid := ⟨100000, 65536, by decide, by decide, by decide⟩
  deadline := 1

/-- No time passes, and nothing is refused. -/
def steadySystem : System := ⟨fun _ => 0, fun _ => none⟩

/-- A file whose ACL names a user, and a symlink beside it. -/
def sampleEntries : List (Bytes × Node) :=
  [([97], .other ⟨0, 0, some ⟨[2, 0, 0, 0, 2, 0, 7, 0, 232, 3, 0, 0], by decide⟩, none⟩),
    ([98], .symlink ⟨1000, 1000, none, none⟩)]

theorem ownership_exact_sample :
    (sampleOwnership.validate steadySystem ⟨0, 0, none, none⟩ sampleEntries = .ok () ↔
      ∀ node, Reached (.directory ⟨0, 0, none, none⟩ sampleEntries) node →
        Owned sampleOwnership node) ∧
    (∀ first count r, IdRange.new first count = .ok r → r.first = first ∧ r.count = count) ∧
    ∀ r : IdRange, (∀ id, r.containsImageId id = true →
        r.parentId id < 2 ^ 32 ∧ r.parentId id ≠ 0 ∧ r.parentId id ≠ 2 ^ 32 - 1) ∧
      ∀ id id', r.parentId id = r.parentId id' → id = id' :=
  ownership_exact sampleOwnership steadySystem ⟨0, 0, none, none⟩ sampleEntries
    ⟨fun _ => rfl, fun _ => Nat.zero_lt_one⟩

end ImageOwnership

end Conglobate.Storage
