import Mathlib.Algebra.GroupWithZero.Nat
import Mathlib.Data.Nat.Basic
import Mathlib.Tactic.Ring

/-!
# Row-major order

An array of extents `dims` is laid out in row-major order: `coordinates dims i` are
the coordinates of the element of rank `i`, `rank dims coords` is the rank of an
element. `dot strides coords` is its offset in a strided layout.

- `rank_coordinates` and `coordinates_rank`: the two are inverse to each other.
- `contiguousStrides`: the strides of the row-major layout itself, under which the
  offset of an element is its rank (`dot_contiguousStrides`).
-/

namespace Lib.RowMajor

/-- The coordinates of the element of rank `i`. -/
def coordinates : List Nat → Nat → List Nat
  | [], _ => []
  | d :: dims, i => i / dims.prod % d :: coordinates dims i

def rank : List Nat → List Nat → Nat
  | _ :: dims, c :: coords => c * dims.prod + rank dims coords
  | _, _ => 0

/-- The offset of an element in a layout with these strides. -/
def dot : List Nat → List Nat → Nat
  | s :: strides, c :: coords => c * s + dot strides coords
  | _, _ => 0

/-- Every coordinate is less than its extent. -/
def Inside : List Nat → List Nat → Prop
  | [], [] => True
  | d :: dims, c :: coords => c < d ∧ Inside dims coords
  | _, _ => False

/-- The strides of the row-major layout. -/
def contiguousStrides : List Nat → List Nat
  | [] => []
  | _ :: dims => dims.prod :: contiguousStrides dims

theorem coordinates_cons (d : Nat) (dims : List Nat) (i : Nat) :
    coordinates (d :: dims) i = i / dims.prod % d :: coordinates dims i := rfl

theorem rank_cons (d c : Nat) (dims coords : List Nat) :
    rank (d :: dims) (c :: coords) = c * dims.prod + rank dims coords := rfl

theorem dot_cons (s c : Nat) (strides coords : List Nat) :
    dot (s :: strides) (c :: coords) = c * s + dot strides coords := rfl

theorem contiguousStrides_cons (d : Nat) (dims : List Nat) :
    contiguousStrides (d :: dims) = dims.prod :: contiguousStrides dims := rfl

@[simp] theorem length_coordinates (dims : List Nat) (i : Nat) :
    (coordinates dims i).length = dims.length := by
  induction dims with
  | nil => rfl
  | cons d dims ih => simp [coordinates_cons, ih]

@[simp] theorem length_contiguousStrides (dims : List Nat) :
    (contiguousStrides dims).length = dims.length := by
  induction dims with
  | nil => rfl
  | cons d dims ih => simp [contiguousStrides_cons, ih]

theorem Inside.length_eq {dims coords : List Nat} (h : Inside dims coords) :
    coords.length = dims.length := by
  induction dims generalizing coords with
  | nil => cases coords with
    | nil => rfl
    | cons => exact h.elim
  | cons d dims ih => cases coords with
    | nil => exact h.elim
    | cons c coords => rw [List.length_cons, List.length_cons, ih h.2]

/-- The coordinates of an index below the size lie inside the shape. -/
theorem inside_coordinates {dims : List Nat} {i : Nat} (h : i < dims.prod) :
    Inside dims (coordinates dims i) := by
  have hpos : ∀ d ∈ dims, 0 < d := List.prod_pos_iff_forall_pos_nat.1 (by omega)
  clear h
  induction dims with
  | nil => trivial
  | cons d dims ih =>
    obtain ⟨hhead, htail⟩ := List.forall_mem_cons.1 hpos
    exact ⟨Nat.mod_lt _ hhead, ih htail⟩

/-- Only the rank modulo the number of elements counts. -/
theorem coordinates_mod (dims : List Nat) (i : Nat) :
    coordinates dims (i % dims.prod) = coordinates dims i := by
  suffices ∀ n, dims.prod ∣ n →
    coordinates dims (i % n) = coordinates dims i from this _ (Nat.dvd_refl _)
  intro n hn
  induction dims with
  | nil => rfl
  | cons d dims ih =>
    have houter : d * dims.prod ∣ n := by simpa using hn
    rw [coordinates_cons, coordinates_cons, ih (Nat.dvd_trans (Nat.dvd_mul_left _ _) houter)]
    congr 1
    rw [← Nat.mod_mul_right_div_self, ← Nat.mod_mul_right_div_self, Nat.mul_comm dims.prod d,
      Nat.mod_mod_of_dvd _ houter]

/-- Coordinates inside the shape have an index below its size. -/
theorem rank_lt {dims coords : List Nat} (h : Inside dims coords) :
    rank dims coords < dims.prod := by
  induction dims generalizing coords with
  | nil => cases coords with
    | nil => exact Nat.one_pos
    | cons => exact h.elim
  | cons d dims ih => cases coords with
    | nil => exact h.elim
    | cons c coords =>
      have hinner := ih h.2
      have hstep : (c + 1) * dims.prod ≤ d * dims.prod := Nat.mul_le_mul_right _ h.1
      rw [rank_cons, List.prod_cons]
      rw [Nat.add_mul, Nat.one_mul] at hstep
      omega

theorem rank_coordinates_mod (dims : List Nat) (i : Nat) :
    rank dims (coordinates dims i) = i % dims.prod := by
  induction dims with
  | nil => simp [rank, Nat.mod_one]
  | cons d dims ih =>
    rw [coordinates_cons, rank_cons, ih, List.prod_cons, Nat.mul_comm d, Nat.mod_mul,
      Nat.mul_comm, Nat.add_comm]

theorem rank_coordinates {dims : List Nat} {i : Nat} (h : i < dims.prod) :
    rank dims (coordinates dims i) = i := by
  rw [rank_coordinates_mod, Nat.mod_eq_of_lt h]

/-- Inside the shape, `coordinates` inverts `rank`. -/
theorem coordinates_rank {dims coords : List Nat} (h : Inside dims coords) :
    coordinates dims (rank dims coords) = coords := by
  induction dims generalizing coords with
  | nil => cases coords with
    | nil => rfl
    | cons => exact h.elim
  | cons d dims ih => cases coords with
    | nil => exact h.elim
    | cons c coords =>
      have hinner := rank_lt h.2
      have hpos : 0 < dims.prod := by omega
      rw [coordinates_cons, rank_cons]
      congr 1
      · rw [Nat.add_comm, Nat.add_mul_div_right _ _ hpos, Nat.div_eq_of_lt hinner, Nat.zero_add,
          Nat.mod_eq_of_lt h.1]
      · rw [← coordinates_mod, Nat.add_comm,
          Nat.add_mul_mod_self_right, Nat.mod_eq_of_lt hinner]
        exact ih h.2

/-- With contiguous strides the offset is the row-major index. -/
theorem dot_contiguousStrides {dims coords : List Nat} (h : coords.length = dims.length) :
    dot (contiguousStrides dims) coords = rank dims coords := by
  induction dims generalizing coords with
  | nil => cases coords with
    | nil => rfl
    | cons => cases h
  | cons d dims ih => cases coords with
    | nil => cases h
    | cons c coords =>
      rw [contiguousStrides_cons, dot_cons, rank_cons, ih (by simpa using h)]

/-! ## Outer and inner dimensions -/

theorem coordinates_append (dims inner : List Nat) (i : Nat) :
    coordinates (dims ++ inner) i = coordinates dims (i / inner.prod) ++ coordinates inner i := by
  induction dims with
  | nil => rfl
  | cons d dims ih =>
    rw [List.cons_append, coordinates_cons, coordinates_cons, ih, List.cons_append,
      List.prod_append, Nat.mul_comm, Nat.div_div_eq_div_mul]

/-- The index in a product shape is the outer index times the inner size plus the inner index. -/
theorem rank_append {dims coords : List Nat} (inner innerCoords : List Nat)
    (h : coords.length = dims.length) :
    rank (dims ++ inner) (coords ++ innerCoords) =
      rank dims coords * inner.prod + rank inner innerCoords := by
  induction dims generalizing coords with
  | nil =>
    obtain rfl := List.length_eq_zero_iff.1 h
    simp [rank]
  | cons d dims ih => cases coords with
    | nil => cases h
    | cons c coords =>
      rw [List.cons_append, List.cons_append, rank_cons, rank_cons, ih (Nat.succ.inj h),
        List.prod_append]
      ring

/-- The offset in a product shape is the sum of the two parts' offsets. -/
theorem dot_append {strides coords : List Nat} (inner innerCoords : List Nat)
    (h : coords.length = strides.length) :
    dot (strides ++ inner) (coords ++ innerCoords) = dot strides coords +
      dot inner innerCoords := by
  induction strides generalizing coords with
  | nil =>
    obtain rfl := List.length_eq_zero_iff.1 h
    simp [dot]
  | cons s strides ih => cases coords with
    | nil => cases h
    | cons c coords =>
      rw [List.cons_append, List.cons_append, dot_cons, dot_cons, ih (Nat.succ.inj h),
        Nat.add_assoc]

/-! ## Dimensions that do not matter -/

/-- A dimension of extent one has no effect on an offset. -/
theorem dot_coordinates_one (s i : Nat) (strides dims : List Nat) :
    dot (s :: strides) (coordinates (1 :: dims) i) = dot strides (coordinates dims i) := by
  rw [coordinates_cons, dot_cons, Nat.mod_one, Nat.zero_mul, Nat.zero_add]

/-- Two dimensions over whose boundary a stride goes on are like one. -/
theorem dot_coordinates_merge (m n s i : Nat) (strides dims : List Nat) :
    dot (s :: strides) (coordinates (m * n :: dims) i) =
      dot (s * n :: s :: strides) (coordinates (m :: n :: dims) i) := by
  have hsplit : i / dims.prod % (m * n) =
      i / dims.prod % n + n * (i / (n * dims.prod) % m) := by
    rw [Nat.mul_comm m n, Nat.mod_mul, Nat.mul_comm n dims.prod, Nat.div_div_eq_div_mul]
  rw [coordinates_cons, coordinates_cons, coordinates_cons, dot_cons, dot_cons, dot_cons,
    List.prod_cons, hsplit]
  ring

/-- Neither has a dimension with stride zero. -/
theorem dot_replicate_zero (n : Nat) (strides coords : List Nat) :
    dot (List.replicate n 0 ++ strides) coords = dot strides (coords.drop n) := by
  induction n generalizing coords with
  | zero => rfl
  | succ n ih => cases coords with
    | nil => cases strides <;> rfl
    | cons c coords =>
      rw [List.replicate_succ, List.cons_append, dot_cons, ih, Nat.mul_zero, Nat.zero_add,
        List.drop_succ_cons]

/-- Dropping leading axes keeps the coordinates inside. -/
theorem Inside.drop {dims coords : List Nat} (h : Inside dims coords) (n : Nat) :
    Inside (dims.drop n) (coords.drop n) := by
  induction n generalizing dims coords with
  | zero => exact h
  | succ n ih => cases dims with
    | nil => cases coords with
      | nil => trivial
      | cons => exact h.elim
    | cons d dims => cases coords with
      | nil => exact h.elim
      | cons c coords => exact ih h.2

/-! ## The span of a layout -/

/-- One more than the largest offset of an element, or 0 without elements. -/
def span (dims strides : List Nat) : Nat :=
  if 0 ∈ dims then 0 else dot strides (dims.map (· - 1)) + 1

/-- No offset inside a shape exceeds that of its last corner. -/
theorem dot_le_last {dims coords : List Nat} (strides : List Nat) (h : Inside dims coords) :
    dot strides coords ≤ dot strides (dims.map (· - 1)) := by
  induction dims generalizing strides coords with
  | nil => cases coords with
    | nil => exact Nat.le_refl _
    | cons => exact h.elim
  | cons d dims ih => cases coords with
    | nil => exact h.elim
    | cons c coords => cases strides with
      | nil => exact Nat.le_refl _
      | cons s strides =>
        have hhead : c * s ≤ (d - 1) * s := Nat.mul_le_mul_right s (by have := h.1; omega)
        have htail := ih strides h.2
        rw [List.map_cons, dot_cons, dot_cons]
        omega

theorem Inside.pos {dims coords : List Nat} (h : Inside dims coords) : 0 ∉ dims := by
  induction dims generalizing coords with
  | nil => exact List.not_mem_nil
  | cons d dims ih => cases coords with
    | nil => exact h.elim
    | cons c coords =>
      rw [List.mem_cons, not_or]
      exact ⟨by have := h.1; omega, ih h.2⟩

/-- The offset of an element is inside the span. -/
theorem dot_lt_span {dims strides coords : List Nat} (h : Inside dims coords) :
    dot strides coords < span dims strides := by
  rw [span, if_neg h.pos]
  exact Nat.lt_succ_of_le (dot_le_last _ h)

/-- The last corner has the last index. -/
theorem rank_last {dims : List Nat} (h : 0 ∉ dims) :
    rank dims (dims.map (· - 1)) + 1 = dims.prod := by
  induction dims with
  | nil => rfl
  | cons d dims ih =>
    rw [List.mem_cons, not_or] at h
    obtain ⟨d, rfl⟩ : ∃ e, d = e + 1 := ⟨d - 1, by omega⟩
    rw [List.map_cons, rank_cons, Nat.add_assoc, ih h.2, List.prod_cons, Nat.add_sub_cancel,
      Nat.add_mul, Nat.one_mul]

/-- The row-major layout has no gaps. -/
theorem span_contiguousStrides (dims : List Nat) :
    span dims (contiguousStrides dims) = dims.prod := by
  unfold span
  split
  · rename_i hzero
    exact (List.prod_eq_zero_iff_exists_zero_nat.2 ⟨0, hzero, rfl⟩).symm
  · rename_i hpos
    rw [dot_contiguousStrides (by simp), rank_last hpos]

end Lib.RowMajor
