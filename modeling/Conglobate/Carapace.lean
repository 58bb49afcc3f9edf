import Mathlib.Algebra.Order.BigOperators.Group.Finset
import Mathlib.Tactic.Ring

/- What this crate takes from the carapace crate: the size of an empty backing
   device (`carapace::ZERO_SIZE_SECTORS`, `ZERO_SIZE_BYTES`), which bounds every
   store and disk. -/
namespace Conglobate

/-- The logical extent of an empty backing device, whose byte count is a `u64`. -/
structure Carapace where
  zeroSizeSectors : Nat
  fits : zeroSizeSectors * 512 < 2 ^ 64

def Carapace.zeroSizeBytes (c : Carapace) : Nat := c.zeroSizeSectors * 512

end Conglobate
