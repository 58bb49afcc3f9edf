import Conglobate.Lib.File
import Conglobate.Lib.Split
import Conglobate.Lib.Text

/- Mapped identities (`isolation/user.rs`).

   A range maps the image ids from zero on to as many parent ids. What `new` refuses no
   value of `IdRange` can be, so every range maps as it should (`IdRange.maps`).

   Correspondence (Rust ↔ Lean):
     `IdRange`, `IdRange::new`             ↔ `IdRange`, `IdRange.new`
     `IdRange::contains_image_id`          ↔ `IdRange.containsImageId`
     `IdRange::line`                       ↔ `IdRange.line`
     `FromStr for IdRange`                 ↔ `IdRange.fromStr` -/
namespace Conglobate.Isolation

/-- Neither end of the 32-bit parent ids is mapped. -/
structure IdRange where
  first : Nat
  count : Nat
  first_ne : first ≠ 0
  count_ne : count ≠ 0
  fits : first + count < 2 ^ 32

namespace IdRange

def invalid : IoError := ⟨.other, "ID map must be PARENT_START:COUNT in decimal"⟩

/-- `checked_add` of two `u32` is that their sum is one. -/
def new (first count : Nat) : Except IoError IdRange :=
  if h : first ≠ 0 ∧ count ≠ 0 ∧ first + count < 2 ^ 32 then .ok ⟨first, count, h.1, h.2.1, h.2.2⟩
  else .error ⟨.other, "invalid mapped ID range"⟩

def containsImageId (r : IdRange) (id : Nat) : Bool := id < r.count

/-- What `uid_map` and `gid_map` are given: image ids from 0, parent ids from `first`. -/
def line (r : IdRange) : Text :=
  ['0', ' '] ++ Decimal.write r.first ++ [' '] ++ Decimal.write r.count ++ ['\n']

/-- The parent id the kernel gives an image id under that line. -/
def parentId (r : IdRange) (id : Nat) : Nat := r.first + id

def fromStr (value : Text) : Except IoError IdRange :=
  match splitOnce ':' value with
  | none => .error invalid
  | some (first, count) =>
    if [first, count].any (fun part => part.isEmpty || !part.all Char.isDigit) then .error invalid
    else
      match Decimal.parseUnsigned 32 first, Decimal.parseUnsigned 32 count with
      | some first, some count => new first count
      | _, _ => .error invalid

/-- **A range maps its image ids** one to one, to parent ids that are neither root's nor the
    invalid one, and none past the end of the ids. -/
theorem maps (r : IdRange) :
    (∀ id, r.containsImageId id = true →
      r.parentId id < 2 ^ 32 ∧ r.parentId id ≠ 0 ∧ r.parentId id ≠ 2 ^ 32 - 1) ∧
    ∀ id id', r.parentId id = r.parentId id' → id = id' := by
  constructor
  · intro id hid
    have hin : id < r.count := of_decide_eq_true hid
    have hfits := r.fits
    have hfirst := r.first_ne
    rw [parentId]
    omega
  · intro id id' heq
    exact Nat.add_left_cancel heq

end IdRange

end Conglobate.Isolation
