import TinyInfer.Core.TensorLayout

/-!
# Machine arithmetic

The result of an operation on `std::size_t` or on a non-negative `int` is its
mathematical value, or `none` where the machine would wrap or the behaviour would be
undefined. A formula written with these has a value exactly when all its intermediate
results fit.
-/

namespace TinyInfer.Machine

/-- `std::numeric_limits<std::int32_t>::max()` -/
def int32Max : Nat := 2 ^ 31 - 1

/-- A result of type `std::size_t`. -/
def size (n : Nat) : Option Nat := if n ≤ sizeMax then some n else none

/-- A result of type `int`. -/
def int (n : Nat) : Option Nat := if n ≤ int32Max then some n else none

/-- A result of type `std::int64_t`. -/
def int64 (n : Nat) : Option Nat := if n ≤ int64Max then some n else none

/-- A conversion to `int` of a value that has to be non-negative. -/
def cast (n : Int) : Option Nat := if 0 ≤ n then int n.toNat else none

/-- A quotient of `int`, which is undefined where the divisor is zero. -/
def div (n d : Nat) : Option Nat := if d = 0 then none else some (n / d)

def mod (n d : Nat) : Option Nat := if d = 0 then none else some (n % d)

theorem size_of_le {n : Nat} (hfits : n ≤ sizeMax) : size n = some n := if_pos hfits

theorem int_of_le {n : Nat} (hfits : n ≤ int32Max) : int n = some n := if_pos hfits

theorem int64_of_le {n : Nat} (hfits : n ≤ int64Max) : int64 n = some n := if_pos hfits

theorem cast_of_le {n : Int} (hnonneg : 0 ≤ n) (hfits : n ≤ int32Max) : cast n = some n.toNat := by
  unfold cast
  rw [if_pos hnonneg, int_of_le (by omega)]

theorem cast_natCast {n : Nat} (hfits : n ≤ int32Max) : cast n = some n :=
  cast_of_le (Int.natCast_nonneg n) (by exact_mod_cast hfits)

theorem div_of_pos {n d : Nat} (hpos : 0 < d) : div n d = some (n / d) := if_neg (Nat.ne_of_gt hpos)

theorem mod_of_pos {n d : Nat} (hpos : 0 < d) : mod n d = some (n % d) := if_neg (Nat.ne_of_gt hpos)

end TinyInfer.Machine
