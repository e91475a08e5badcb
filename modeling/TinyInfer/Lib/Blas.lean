import Mathlib.Algebra.BigOperators.Ring.Finset

/-!
# Matrix products in column-major order

`gemm` is the matrix product of a BLAS: matrices are stored by columns, at a leading
dimension each, and may be read transposed. Stored by rows, a matrix is its own transpose
(`op_eq_row`), so a product of matrices stored by rows is the product of their transposes
in reverse order (`product_eq_row`).
-/

namespace Lib.Blas

variable {R : Type} [CommSemiring R]

/-- Element `(i, j)` of `op(X)`, for an `X` stored by columns. -/
def op (transposed : Bool) (ld : Nat) (x : Nat → R) (i j : Nat) : R :=
  x (if transposed then j + i * ld else i + j * ld)

/-- Element `(i, j)` of `op(X)`, for an `X` stored by rows. -/
def row (transposed : Bool) (ld : Nat) (x : Nat → R) (i j : Nat) : R :=
  x (if transposed then j * ld + i else i * ld + j)

/-- Element `(i, j)` of `op(A) * op(B)`. -/
def product (transA transB : Bool) (k : Nat) (a : Nat → R) (lda : Nat) (b : Nat → R) (ldb : Nat)
    (i j : Nat) : R :=
  ∑ l ∈ Finset.range k, op transA lda a i l * op transB ldb b l j

/-- `C := alpha * op(A) * op(B) + beta * C`, where `C` is `m` by `n`. -/
def gemm (transA transB : Bool) (m n k : Nat) (alpha : R) (a : Nat → R) (lda : Nat) (b : Nat → R)
    (ldb : Nat) (beta : R) (c : Nat → R) (ldc : Nat) : Nat → R := fun p =>
  if p % ldc < m ∧ p / ldc < n then
    alpha * product transA transB k a lda b ldb (p % ldc) (p / ldc) + beta * c p
  else c p

/-- What a BLAS demands of the leading dimensions. -/
structure LeadingDimensions (transA transB : Bool) (m n k lda ldb ldc : Nat) : Prop where
  a : max 1 (if transA then k else m) ≤ lda
  b : max 1 (if transB then n else k) ≤ ldb
  c : max 1 m ≤ ldc

omit [CommSemiring R] in
/-- What column-major BLAS reads at `(i, j)` is the row-major entry at `(j, i)`. -/
theorem op_eq_row (transposed : Bool) (ld : Nat) (x : Nat → R) (i j : Nat) :
    op transposed ld x i j = row transposed ld x j i := by
  cases transposed
  · exact congrArg x (Nat.add_comm _ _)
  · exact congrArg x (Nat.add_comm _ _)

/-- The column-major product with the operands swapped is the row-major product. -/
theorem product_eq_row (transA transB : Bool) (k : Nat) (a : Nat → R) (lda : Nat) (b : Nat → R)
    (ldb : Nat) (i j : Nat) :
    product transB transA k b ldb a lda j i =
      ∑ l ∈ Finset.range k, row transA lda a i l * row transB ldb b l j := by
  refine Finset.sum_congr rfl fun l _ => ?_
  rw [op_eq_row, op_eq_row, mul_comm]

/-- The element that a product writes at row `i` and column `j` of a matrix stored by rows. -/
theorem gemm_row {transA transB : Bool} {rows columns k : Nat} {a b c : Nat → R}
    {lda ldb ldc i j : Nat} (hi : i < rows) (hj : j < columns) (hld : ldc = columns) :
    gemm transB transA columns rows k 1 b ldb a lda 0 c ldc (i * columns + j) =
      ∑ l ∈ Finset.range k, row transA lda a i l * row transB ldb b l j := by
  have hpos : 0 < columns := Nat.zero_lt_of_lt hj
  have hcolumn : (i * columns + j) % columns = j := by
    rw [Nat.add_comm, Nat.add_mul_mod_self_right, Nat.mod_eq_of_lt hj]
  have hline : (i * columns + j) / columns = i := by
    rw [Nat.add_comm, Nat.add_mul_div_right _ _ hpos, Nat.div_eq_of_lt hj, Nat.zero_add]
  subst hld
  unfold gemm
  rw [hcolumn, hline, if_pos ⟨hj, hi⟩, product_eq_row, one_mul, zero_mul, add_zero]

end Lib.Blas
