import TinyInfer.Core.Exn
import TinyInfer.Lib.RowMajor
import Mathlib.Algebra.Order.BigOperators.Group.List
import Mathlib.Data.List.Infix

/-!
# Tensor layouts (`core/tensor_layout.cpp`, `core/dtype.h`)

A shape is a list of `int64_t`; `dims` reads a validated one as extents. A
`TensorLayout` carries what its two constructors check, so `ofShape` and `ofStrides`
are the only source of their errors. `ofShape_ok_iff` says which shapes have a layout.

Sizes are natural numbers. Every multiplication and addition that the source guards
against the limits of `size_t` is a `checkedMultiply` or a `checkedAdd`.
-/

namespace TinyInfer

/-- `std::numeric_limits<std::size_t>::max()` -/
def sizeMax : Nat := 2 ^ 64 - 1

/-- `std::numeric_limits<std::int64_t>::max()` -/
def int64Max : Nat := 2 ^ 63 - 1

inductive DataType where
  | float32
  | float16
  | int8
  | int32
  deriving DecidableEq, Repr

/-- `size_of` -/
def DataType.size : DataType → Nat
  | .float32 => 4
  | .float16 => 2
  | .int8 => 1
  | .int32 => 4

abbrev Shape := List Int

abbrev Strides := List Int

/-- The extents of a shape without negative dimensions. -/
def Shape.dims (shape : Shape) : List Nat := shape.map Int.toNat

/-- The number of elements of a shape. -/
def Shape.count (shape : Shape) : Nat := (Shape.dims shape).prod

/-- The dimensions are `int64_t`. -/
def Shape.Int64 (shape : Shape) : Prop := ∀ d ∈ shape, d ≤ int64Max

instance (shape : Shape) : Decidable (Shape.Int64 shape) :=
  inferInstanceAs (Decidable (∀ d ∈ shape, d ≤ int64Max))

theorem Shape.count_cons (d : Int) (shape : Shape) :
    Shape.count (d :: shape) = d.toNat * Shape.count shape := rfl

def checkedMultiply (lhs rhs : Nat) (message : String) : Except Exn Nat :=
  if lhs ≠ 0 ∧ rhs > sizeMax / lhs then .error (.overflowError message) else .ok (lhs * rhs)

def checkedAdd (lhs rhs : Nat) (message : String) : Except Exn Nat :=
  if lhs > sizeMax - rhs then .error (.overflowError message) else .ok (lhs + rhs)

/-- `checked_multiply` is the product or an overflow. -/
theorem checkedMultiply_eq (lhs rhs : Nat) (message : String) :
    checkedMultiply lhs rhs message =
      if lhs * rhs ≤ sizeMax then .ok (lhs * rhs) else .error (.overflowError message) := by
  unfold checkedMultiply
  rcases Nat.eq_zero_or_pos lhs with rfl | hpos
  · simp
  · have hexceeds : rhs > sizeMax / lhs ↔ ¬ lhs * rhs ≤ sizeMax := by
      rw [gt_iff_lt, Nat.div_lt_iff_lt_mul hpos, Nat.mul_comm, Nat.not_le]
    by_cases hfits : lhs * rhs ≤ sizeMax
    · rw [if_pos hfits, if_neg (by rw [hexceeds]; exact fun h => h.2 hfits)]
    · rw [if_neg hfits, if_pos ⟨by omega, hexceeds.2 hfits⟩]

namespace TensorLayout

def validateShape (shape : Shape) : Except Exn Unit :=
  require (shape.all (0 ≤ ·)) (.invalidArgument "tensor dimensions must be non-negative")

/-- The loop of `checked_numel` over the dimensions. -/
def multiplyDims : List Int → Nat → Except Exn Nat
  | [], result => .ok result
  | d :: shape, result => do
    multiplyDims shape (← checkedMultiply result d.toNat "tensor element count overflows size_t")

def checkedNumel (shape : Shape) : Except Exn Nat :=
  if 0 ∈ shape then .ok 0 else multiplyDims shape 1

/-- The loop of `make_contiguous_strides` over all dimensions but the outermost: the
strides of these, and the running stride. -/
def contiguousLoop : Shape → Except Exn (Strides × Nat)
  | [] => .ok ([], 1)
  | size :: inner => do
    let (strides, running) ← contiguousLoop inner
    if running > int64Max then .error (.overflowError "contiguous stride overflows int64_t")
    else
      .ok ((running : Int) :: strides,
        ← checkedMultiply running size.toNat "contiguous stride overflows size_t")

def makeContiguousStrides : Shape → Except Exn Strides
  | [] => .ok []
  | _ :: inner => do
    let (strides, running) ← contiguousLoop inner
    if running > int64Max then .error (.overflowError "contiguous stride overflows int64_t")
    else .ok ((running : Int) :: strides)

/-- The loop of `checked_storage_span` over the dimensions and strides. -/
def spanLoop : List (Int × Int) → Nat → Except Exn Nat
  | [], maximum => .ok maximum
  | (d, stride) :: rest, maximum => do
    let contribution ← checkedMultiply
      (d - 1).toNat stride.toNat "tensor storage span overflows size_t"
    spanLoop rest (← checkedAdd maximum contribution "tensor storage span overflows size_t")

def checkedStorageSpan (shape : Shape) (strides : Strides) : Except Exn Nat :=
  if shape = [] then .ok 1
  else if 0 ∈ shape then .ok 0
  else do
    checkedAdd (← spanLoop (shape.zip strides) 0) 1 "tensor storage span overflows size_t"

/-! ## What the checks accept -/

theorem validateShape_ok {shape : Shape} : validateShape shape = .ok () ↔ ∀ d ∈ shape, 0 ≤ d := by
  simp [validateShape, require_ok]

theorem mem_dims_zero {shape : Shape} (hnonneg : ∀ d ∈ shape, 0 ≤ d) :
    0 ∈ Shape.dims shape ↔ (0 : Int) ∈ shape := by
  rw [Shape.dims, List.mem_map]
  constructor
  · rintro ⟨d, hmem, hzero⟩
    obtain rfl : d = 0 := by have := hnonneg d hmem; omega
    exact hmem
  · exact fun hmem => ⟨0, hmem, rfl⟩

theorem count_pos {shape : Shape} (hpos : ∀ d ∈ shape, 0 < d) : 0 < Shape.count shape := by
  refine List.prod_pos_iff_forall_pos_nat.2 fun n hmem => ?_
  obtain ⟨d, hmem', rfl⟩ := List.mem_map.1 hmem
  have := hpos d hmem'
  omega

/-- Over positive dimensions the product overflows exactly when the count does. -/
theorem multiplyDims_eq {shape : Shape} (hpos : ∀ d ∈ shape, 0 < d) {result : Nat}
    (hfits : result ≤ sizeMax) :
    multiplyDims shape result =
      if result * Shape.count shape ≤ sizeMax then .ok (result * Shape.count shape)
      else .error (.overflowError "tensor element count overflows size_t") := by
  induction shape generalizing result with
  | nil => rw [show Shape.count [] = 1 from rfl, Nat.mul_one, if_pos hfits]; rfl
  | cons d shape ih =>
    obtain ⟨hhead, htail⟩ := List.forall_mem_cons.1 hpos
    rw [multiplyDims, checkedMultiply_eq, Shape.count_cons, ← Nat.mul_assoc]
    split
    · rename_i hfits
      exact ih htail hfits
    · rename_i hexceeds
      have hgrows : result * d.toNat ≤ result * d.toNat * Shape.count shape :=
        Nat.le_mul_of_pos_right _ (count_pos htail)
      rw [if_neg (by omega)]
      rfl

/-- The number of elements, unless it overflows. -/
theorem checkedNumel_eq {shape : Shape} (hnonneg : ∀ d ∈ shape, 0 ≤ d) :
    checkedNumel shape =
      if Shape.count shape ≤ sizeMax then .ok (Shape.count shape)
      else .error (.overflowError "tensor element count overflows size_t") := by
  unfold checkedNumel
  split
  · rename_i hzero
    have hempty : Shape.count shape = 0 :=
      List.prod_eq_zero_iff_exists_zero_nat.2 ⟨0, (mem_dims_zero hnonneg).2 hzero, rfl⟩
    rw [hempty, if_pos (Nat.zero_le _)]
  · rename_i hnonzero
    have hpos : ∀ d ∈ shape, 0 < d := fun d hmem =>
      lt_of_le_of_ne (hnonneg d hmem) fun hzero => hnonzero (hzero ▸ hmem)
    rw [multiplyDims_eq hpos (by decide), Nat.one_mul]

/-- Every stride of the contiguous layout fits `int64_t`. -/
def StridesFit : List Nat → Prop
  | [] => True
  | _ :: dims => dims.prod ≤ int64Max ∧ StridesFit dims

instance decidableStridesFit : (dims : List Nat) → Decidable (StridesFit dims)
  | [] => inferInstanceAs (Decidable True)
  | _ :: dims =>
    have := decidableStridesFit dims
    inferInstanceAs (Decidable (dims.prod ≤ int64Max ∧ StridesFit dims))

/-- The strides of the row-major layout of a shape. -/
def contiguousStrides (shape : Shape) : Strides :=
  (Lib.RowMajor.contiguousStrides (Shape.dims shape)).map Int.ofNat

/-- The stride loop returns iff every running product fits, and then with the row-major strides. -/
theorem contiguousLoop_ok {shape : Shape} {strides : Strides} {running : Nat} :
    contiguousLoop shape = .ok (strides, running) ↔
      StridesFit (Shape.dims shape) ∧ Shape.count shape ≤ sizeMax ∧
      strides = contiguousStrides shape ∧ running = Shape.count shape := by
  induction shape generalizing strides running with
  | nil =>
    simp [contiguousLoop, StridesFit, Shape.dims, Shape.count, contiguousStrides,
      Lib.RowMajor.contiguousStrides, sizeMax, eq_comm]
  | cons d shape ih =>
    have hloop : contiguousLoop (d :: shape) = .ok (strides, running) ↔
        ∃ inner r, contiguousLoop shape = .ok (inner, r) ∧ r ≤ int64Max ∧ r * d.toNat ≤ sizeMax ∧
          strides = (r : Int) :: inner ∧ running = r * d.toNat := by
      rw [contiguousLoop, bind_ok, Prod.exists]
      refine exists_congr fun inner => exists_congr fun r => and_congr_right fun _ => ?_
      show (if r > int64Max then _ else _) = _ ↔ _
      by_cases hfits : r ≤ int64Max
      · rw [if_neg (Nat.not_lt.2 hfits), bind_ok, checkedMultiply_eq]
        by_cases hsmall : r * d.toNat ≤ sizeMax
        · rw [if_pos hsmall]
          constructor
          · rintro ⟨_, h, heq⟩
            cases h
            cases heq
            exact ⟨hfits, hsmall, rfl, rfl⟩
          · rintro ⟨-, -, rfl, rfl⟩
            exact ⟨_, rfl, rfl⟩
        · rw [if_neg hsmall]
          constructor
          · rintro ⟨_, h, -⟩
            cases h
          · rintro ⟨-, h, -⟩
            exact absurd h hsmall
      · rw [if_pos (Nat.lt_of_not_le hfits)]
        constructor
        · intro h
          cases h
        · rintro ⟨h, -⟩
          exact absurd h hfits
    rw [hloop]
    have hint64 : int64Max ≤ sizeMax := by decide
    constructor
    · rintro ⟨inner, r, h, hfits, hsmall, rfl, rfl⟩
      obtain ⟨hinnerFit, -, rfl, rfl⟩ := ih.1 h
      exact ⟨⟨hfits, hinnerFit⟩, by rwa [Shape.count_cons, Nat.mul_comm], rfl,
        by rw [Shape.count_cons, Nat.mul_comm]⟩
    · rintro ⟨⟨hfits, hinnerFit⟩, hsmall, rfl, rfl⟩
      refine ⟨_, _, ih.2 ⟨hinnerFit, Nat.le_trans hfits hint64, rfl, rfl⟩, hfits, ?_, rfl, ?_⟩
      · rwa [Nat.mul_comm]
      · rw [Shape.count_cons, Nat.mul_comm]

/-- `make_contiguous_strides` throws exactly where a stride does not fit. -/
theorem makeContiguousStrides_ok {shape : Shape} {strides : Strides} :
    makeContiguousStrides shape = .ok strides ↔
      StridesFit (Shape.dims shape) ∧ strides = contiguousStrides shape := by
  cases shape with
  | nil => simp [makeContiguousStrides, StridesFit, Shape.dims, contiguousStrides,
      Lib.RowMajor.contiguousStrides, eq_comm]
  | cons d inner =>
    rw [makeContiguousStrides, bind_ok, Prod.exists]
    constructor
    · rintro ⟨rest, running, h, heq⟩
      obtain ⟨hfit, -, rfl, rfl⟩ := contiguousLoop_ok.1 h
      dsimp only at heq
      split at heq
      · cases heq
      · rename_i hfits
        cases heq
        exact ⟨⟨Nat.not_lt.1 hfits, hfit⟩, rfl⟩
    · rintro ⟨⟨hfits, hfit⟩, rfl⟩
      refine ⟨_, _, contiguousLoop_ok.2 ⟨hfit, Nat.le_trans hfits (by decide), rfl, rfl⟩, ?_⟩
      exact if_neg (Nat.not_lt.2 hfits)

/-- The extents of valid strides. -/
def strideNats (strides : Strides) : List Nat := strides.map Int.toNat

theorem strideNats_contiguousStrides (shape : Shape) :
    strideNats (contiguousStrides shape) = Lib.RowMajor.contiguousStrides (Shape.dims shape) := by
  simp [strideNats, contiguousStrides, Function.comp_def]

/-- The span loop adds the offset of the last corner, or overflows. -/
theorem spanLoop_eq {shape : Shape} {strides : Strides} (hnonneg : ∀ d ∈ shape, 0 < d)
    {maximum : Nat} (hfits : maximum ≤ sizeMax) :
    spanLoop (shape.zip strides) maximum =
      if maximum + Lib.RowMajor.dot (strideNats strides)
        ((Shape.dims shape).map (· - 1)) ≤ sizeMax then
        .ok (maximum + Lib.RowMajor.dot (strideNats strides) ((Shape.dims shape).map (· - 1)))
      else .error (.overflowError "tensor storage span overflows size_t") := by
  induction shape generalizing strides maximum with
  | nil => cases strides <;> simp [spanLoop, Lib.RowMajor.dot, Shape.dims, strideNats, hfits]
  | cons d shape ih =>
    cases strides with
    | nil => simp [spanLoop, Lib.RowMajor.dot, strideNats, hfits]
    | cons stride strides =>
      obtain ⟨hhead, htail⟩ := List.forall_mem_cons.1 hnonneg
      have hextent : (d - 1).toNat = d.toNat - 1 := by omega
      rw [List.zip_cons_cons, spanLoop, checkedMultiply_eq, hextent]
      rw [show Lib.RowMajor.dot (strideNats (stride :: strides))
          ((Shape.dims (d :: shape)).map (· - 1)) = (d.toNat - 1) * stride.toNat +
            Lib.RowMajor.dot (strideNats strides) ((Shape.dims shape).map (· - 1)) from rfl,
        ← Nat.add_assoc]
      by_cases hsmall : (d.toNat - 1) * stride.toNat ≤ sizeMax
      · rw [if_pos hsmall]
        show (checkedAdd _ _ _ >>= _) = _
        unfold checkedAdd
        by_cases hexceeds : maximum > sizeMax - (d.toNat - 1) * stride.toNat
        · rw [if_pos hexceeds, if_neg (by omega)]
          rfl
        · rw [if_neg hexceeds]
          exact ih htail (by omega)
      · rw [if_neg hsmall, if_neg (by omega)]
        rfl

/-- The largest offset of an element plus one, unless it overflows. -/
theorem checkedStorageSpan_eq {shape : Shape} {strides : Strides} (hnonneg : ∀ d ∈ shape, 0 ≤ d) :
    checkedStorageSpan shape strides =
      if Lib.RowMajor.span (Shape.dims shape) (strideNats strides) ≤ sizeMax then
        .ok (Lib.RowMajor.span (Shape.dims shape) (strideNats strides))
      else .error (.overflowError "tensor storage span overflows size_t") := by
  unfold checkedStorageSpan
  split
  · rename_i hempty
    subst hempty
    cases strides <;> rfl
  · split
    · rename_i hzero
      rw [Lib.RowMajor.span, if_pos ((mem_dims_zero hnonneg).2 hzero), if_pos (Nat.zero_le _)]
    · rename_i hnonzero
      have hpos : ∀ d ∈ shape, 0 < d := fun d hmem =>
        lt_of_le_of_ne (hnonneg d hmem) fun hzero => hnonzero (hzero ▸ hmem)
      rw [Lib.RowMajor.span, if_neg fun h => hnonzero ((mem_dims_zero hnonneg).1 h),
        spanLoop_eq hpos (Nat.zero_le _), Nat.zero_add]
      split
      · show checkedAdd _ _ _ = _
        unfold checkedAdd
        split
        · rename_i hexceeds
          rw [if_neg]
          unfold sizeMax at hexceeds ⊢
          omega
        · rename_i hfits
          rw [if_pos]
          unfold sizeMax at hfits ⊢
          omega
      · rw [if_neg (by omega)]
        rfl

/-- The shapes that have a layout. -/
structure Admits (shape : Shape) : Prop where
  nonneg : ∀ d ∈ shape, 0 ≤ d
  count_le : Shape.count shape ≤ sizeMax
  fits : StridesFit (Shape.dims shape)

instance (shape : Shape) : Decidable (Admits shape) :=
  decidable_of_iff ((∀ d ∈ shape, 0 ≤ d) ∧ Shape.count shape ≤ sizeMax ∧
    StridesFit (Shape.dims shape))
    ⟨fun ⟨hnonneg, hcount_le, hfits⟩ => ⟨hnonneg, hcount_le, hfits⟩,
      fun ⟨hnonneg, hcount_le, hfits⟩ => ⟨hnonneg, hcount_le, hfits⟩⟩

end TensorLayout

/-- A layout that one of the constructors built. -/
structure TensorLayout where
  shape : Shape
  strides : Strides
  admits : TensorLayout.Admits shape
  strides_nonneg : ∀ s ∈ strides, 0 ≤ s
  rank_eq : strides.length = shape.length
  span_le : Lib.RowMajor.span (Shape.dims shape) (TensorLayout.strideNats strides) ≤ sizeMax

namespace TensorLayout

variable (layout : TensorLayout)

def dims : List Nat := Shape.dims layout.shape

def rank : Nat := layout.shape.length

def numel : Nat := Shape.count layout.shape

def storageSpan : Nat := Lib.RowMajor.span layout.dims (strideNats layout.strides)

def isContiguous : Bool := layout.strides == contiguousStrides layout.shape

/-- The layouts of the constructor of a shape. -/
def contiguous (shape : Shape) (hadmits : Admits shape) : TensorLayout where
  shape := shape
  strides := contiguousStrides shape
  admits := hadmits
  strides_nonneg := by
    intro s hmem
    obtain ⟨n, -, rfl⟩ := List.mem_map.1 hmem
    exact Int.natCast_nonneg n
  rank_eq := by simp [contiguousStrides, Shape.dims]
  span_le := by
    rw [strideNats_contiguousStrides, Lib.RowMajor.span_contiguousStrides]
    exact hadmits.count_le

/-- The checks of both constructors on the shape. -/
def checkShape (shape : Shape) : Except Exn Strides := do
  validateShape shape
  let _ ← checkedNumel shape
  makeContiguousStrides shape

/-- A shape is accepted iff it is admissible, with its contiguous strides. -/
theorem checkShape_ok {shape : Shape} {strides : Strides} :
    checkShape shape = .ok strides ↔ Admits shape ∧ strides = contiguousStrides shape := by
  unfold checkShape
  constructor
  · intro h
    obtain ⟨_, hvalid, h⟩ := bind_ok.1 h
    obtain ⟨numel, hcount, h⟩ := bind_ok.1 h
    obtain ⟨hfits, rfl⟩ := makeContiguousStrides_ok.1 h
    have hnonneg := validateShape_ok.1 hvalid
    rw [checkedNumel_eq hnonneg] at hcount
    split at hcount
    · rename_i hcount_le
      exact ⟨⟨hnonneg, hcount_le, hfits⟩, rfl⟩
    · cases hcount
  · rintro ⟨⟨hnonneg, hcount_le, hfits⟩, rfl⟩
    refine bind_ok.2 ⟨(), validateShape_ok.2 hnonneg, bind_ok.2 ⟨Shape.count shape, ?_, ?_⟩⟩
    · rw [checkedNumel_eq hnonneg, if_pos hcount_le]
    · exact makeContiguousStrides_ok.2 ⟨hfits, rfl⟩

/-- `TensorLayout(Shape)` -/
def ofShape (shape : Shape) : Except Exn TensorLayout :=
  match hchecked : checkShape shape with
  | .error e => .error e
  | .ok _ => .ok (contiguous shape (checkShape_ok.1 hchecked).1)

/-- The checks of the constructor of a shape and strides that come before those of
`checkShape`, or between them. -/
def checkStrides (shape : Shape) (strides : Strides) : Except Exn Unit := do
  validateShape shape
  require (shape.length == strides.length)
    (.invalidArgument "shape and strides must have the same rank")
  require (strides.all (0 ≤ ·)) (.invalidArgument "strides must be non-negative")
  let _ ← checkedNumel shape
  let _ ← checkedStorageSpan shape strides
  let _ ← makeContiguousStrides shape
  .ok ()

/-- The shapes and strides that have a layout. -/
structure AdmitsStrides (shape : Shape) (strides : Strides) : Prop extends Admits shape where
  strides_nonneg : ∀ s ∈ strides, 0 ≤ s
  rank_eq : strides.length = shape.length
  span_le : Lib.RowMajor.span (Shape.dims shape) (strideNats strides) ≤ sizeMax

/-- Given strides are accepted iff they are admissible for the shape. -/
theorem checkStrides_ok {shape : Shape} {strides : Strides} :
    checkStrides shape strides = .ok () ↔ AdmitsStrides shape strides := by
  unfold checkStrides
  constructor
  · intro h
    obtain ⟨_, hvalid, h⟩ := bind_ok.1 h
    obtain ⟨_, hrank, h⟩ := bind_ok.1 h
    obtain ⟨_, hpositive, h⟩ := bind_ok.1 h
    obtain ⟨numel, hcount, h⟩ := bind_ok.1 h
    obtain ⟨span, hspanned, h⟩ := bind_ok.1 h
    obtain ⟨contiguous, hbuilt, -⟩ := bind_ok.1 h
    have hnonneg := validateShape_ok.1 hvalid
    rw [checkedNumel_eq hnonneg] at hcount
    rw [checkedStorageSpan_eq hnonneg] at hspanned
    split at hcount
    · rename_i hcount_le
      split at hspanned
      · rename_i hspan_le
        exact ⟨⟨hnonneg, hcount_le, (makeContiguousStrides_ok.1 hbuilt).1⟩,
          by simpa using require_ok.1 hpositive,
          (by simpa using require_ok.1 hrank : shape.length = strides.length).symm, hspan_le⟩
      · cases hspanned
    · cases hcount
  · rintro ⟨⟨hnonneg, hcount_le, hfits⟩, hpositive, hrank, hspan_le⟩
    refine bind_ok.2 ⟨(), validateShape_ok.2 hnonneg,
      bind_ok.2 ⟨(), require_ok.2 (by simpa using hrank.symm),
        bind_ok.2 ⟨(), require_ok.2 (by simpa using hpositive),
          bind_ok.2 ⟨Shape.count shape, ?_, ?_⟩⟩⟩⟩
    · rw [checkedNumel_eq hnonneg, if_pos hcount_le]
    · refine bind_ok.2 ⟨Lib.RowMajor.span (Shape.dims shape) (strideNats strides), ?_, ?_⟩
      · rw [checkedStorageSpan_eq hnonneg, if_pos hspan_le]
      · exact bind_ok.2 ⟨_, makeContiguousStrides_ok.2 ⟨hfits, rfl⟩, rfl⟩

/-- `TensorLayout(Shape, Strides)` -/
def ofStrides (shape : Shape) (strides : Strides) : Except Exn TensorLayout :=
  match hchecked : checkStrides shape strides with
  | .error e => .error e
  | .ok () =>
    have h := checkStrides_ok.1 hchecked
    .ok { shape, strides, admits := h.toAdmits, strides_nonneg := h.strides_nonneg
          rank_eq := h.rank_eq, span_le := h.span_le }

/-- `size_bytes` -/
def sizeBytes (dtype : DataType) : Except Exn Nat :=
  checkedMultiply layout.numel dtype.size "tensor byte size overflows size_t"

theorem sizeBytes_ok {dtype : DataType} {bytes : Nat} :
    layout.sizeBytes dtype = .ok bytes ↔
      layout.numel * dtype.size ≤ sizeMax ∧ bytes = layout.numel * dtype.size := by
  unfold sizeBytes
  rw [checkedMultiply_eq]
  split
  · rename_i hfits
    exact ⟨fun h => (by cases h; exact ⟨hfits, rfl⟩), fun ⟨_, h⟩ => (by rw [h])⟩
  · rename_i hexceeds
    exact ⟨fun h => (by cases h), fun ⟨h, _⟩ => absurd h hexceeds⟩

/-- A layout is built from every admissible shape. -/
theorem ofShape_ok {shape : Shape} {layout : TensorLayout} :
    ofShape shape = .ok layout ↔ ∃ hadmits : Admits shape, layout = contiguous shape hadmits := by
  unfold ofShape
  split
  · rename_i e hfailed
    constructor
    · intro h
      cases h
    · rintro ⟨hadmits, -⟩
      rw [checkShape_ok.2 ⟨hadmits, rfl⟩] at hfailed
      cases hfailed
  · rename_i hchecked
    exact ⟨fun h => (by cases h; exact ⟨_, rfl⟩), fun ⟨_, h⟩ => (by rw [h])⟩

/-- A layout is built from a shape and strides iff they are admissible together. -/
theorem ofStrides_ok {shape : Shape} {strides : Strides} {layout : TensorLayout} :
    ofStrides shape strides = .ok layout ↔
      AdmitsStrides shape strides ∧ layout.shape = shape ∧ layout.strides = strides := by
  unfold ofStrides
  split
  · rename_i e hfailed
    constructor
    · intro h
      cases h
    · rintro ⟨hadmits, -⟩
      rw [checkStrides_ok.2 hadmits] at hfailed
      cases hfailed
  · rename_i hchecked
    constructor
    · intro h
      cases h
      exact ⟨checkStrides_ok.1 hchecked, rfl, rfl⟩
    · rintro ⟨-, rfl, rfl⟩
      rfl

/-- The loop of `offset` over the indices, the extents and the strides. -/
def offsetFrom : List (Int × Int × Int) → Nat → Except Exn Nat
  | [], result => .ok result
  | (index, extent, stride) :: rest, result => do
    require (0 ≤ index ∧ index < extent) (.outOfRange "tensor index is out of range")
    let product ← checkedMultiply index.toNat stride.toNat "tensor offset overflows size_t"
    offsetFrom rest (← checkedAdd result product "tensor offset overflows size_t")

/-- `offset(indices)` -/
def offset (indices : Shape) : Except Exn Nat := do
  require (indices.length == layout.rank)
    (.invalidArgument "number of indices must match tensor rank")
  offsetFrom (indices.zip (layout.shape.zip layout.strides)) 0

/-- The checked offset loop returns the exact offset wherever it fits. -/
theorem offsetFrom_eq {shape : Shape} {strides : Strides} {coords : List Nat} {result : Nat}
    (hinside : Lib.RowMajor.Inside (Shape.dims shape) coords)
    (hfits : result + Lib.RowMajor.dot (strideNats strides) coords ≤ sizeMax) :
    offsetFrom ((coords.map Int.ofNat).zip (shape.zip strides)) result =
      .ok (result + Lib.RowMajor.dot (strideNats strides) coords) := by
  induction shape generalizing strides coords result with
  | nil =>
    cases coords with
    | nil => cases strides <;> rfl
    | cons => exact hinside.elim
  | cons d shape ih =>
    cases coords with
    | nil => exact hinside.elim
    | cons c coords =>
      cases strides with
      | nil => rfl
      | cons stride strides =>
        have hsplit : Lib.RowMajor.dot (strideNats (stride :: strides)) (c :: coords) =
          c * stride.toNat + Lib.RowMajor.dot (strideNats strides) coords := rfl
        have hless : c < d.toNat := hinside.1
        rw [hsplit] at hfits ⊢
        show (require (decide (0 ≤ (c : Int) ∧ (c : Int) < d)) _ >>= _) = _
        refine check_ok.2 ⟨require_ok.2 (decide_eq_true (by omega)),
          bind_ok.2 ⟨c * stride.toNat, ?_, bind_ok.2 ⟨result + c * stride.toNat, ?_, ?_⟩⟩⟩
        · rw [Int.ofNat_eq_natCast, Int.toNat_natCast, checkedMultiply_eq, if_pos (by omega)]
        · exact if_neg (by omega)
        · rw [← Nat.add_assoc]
          exact ih hinside.2 (by omega)

/-- The offset of an element does not overflow. -/
theorem offset_eq {coords : List Nat} (hinside : Lib.RowMajor.Inside layout.dims coords) :
    layout.offset (coords.map Int.ofNat) =
      .ok (Lib.RowMajor.dot (strideNats layout.strides) coords) := by
  have hless : Lib.RowMajor.dot (strideNats layout.strides) coords <
      Lib.RowMajor.span layout.dims (strideNats layout.strides) := Lib.RowMajor.dot_lt_span hinside
  have hlength : coords.length = layout.shape.length := by
    rw [hinside.length_eq, dims, Shape.dims, List.length_map]
  refine check_ok.2 ⟨require_ok.2 (by simpa [rank] using hlength), ?_⟩
  rw [offsetFrom_eq hinside (by have := layout.span_le; unfold dims at hless; omega), Nat.zero_add]

/-- The loop of `storage_offset`, innermost dimension first. -/
def storageOffsetFrom : List (Int × Int) → Nat → Nat → Except Exn Nat
  | [], _, result => .ok result
  | (size, stride) :: outer, index, result => do
    let product ← checkedMultiply
      (index % size.toNat) stride.toNat "storage offset overflows size_t"
    storageOffsetFrom outer (index / size.toNat)
      (← checkedAdd result product "storage offset overflows size_t")

/-- `storage_offset(logical_index)` -/
def storageOffset (index : Nat) : Except Exn Nat := do
  require (index < layout.numel) (.outOfRange "logical tensor index is out of range")
  storageOffsetFrom (layout.shape.zip layout.strides).reverse index 0

/-- The same for the loop that goes by the logical index. -/
theorem storageOffsetFrom_eq (dims : List (Int × Int)) (index : Nat) {result : Nat}
    (hfits : result + Lib.RowMajor.dot (dims.map (·.2.toNat))
      (Lib.RowMajor.coordinates (dims.map (·.1.toNat)) index) ≤ sizeMax) :
    storageOffsetFrom dims.reverse index result =
      .ok (result + Lib.RowMajor.dot (dims.map (·.2.toNat))
        (Lib.RowMajor.coordinates (dims.map (·.1.toNat)) index)) := by
  induction dims using List.reverseRecOn generalizing index result with
  | nil => rfl
  | append_singleton dims d ih =>
    have hsplit : Lib.RowMajor.dot ((dims ++ [d]).map (·.2.toNat))
        (Lib.RowMajor.coordinates ((dims ++ [d]).map (·.1.toNat)) index) =
          Lib.RowMajor.dot (dims.map (·.2.toNat))
            (Lib.RowMajor.coordinates (dims.map (·.1.toNat)) (index / d.1.toNat)) +
          index % d.1.toNat * d.2.toNat := by
      rw [List.map_append, List.map_append, Lib.RowMajor.coordinates_append,
        Lib.RowMajor.dot_append _ _ (by simp)]
      simp [Lib.RowMajor.coordinates, Lib.RowMajor.dot]
    rw [hsplit] at hfits ⊢
    rw [List.reverse_append, List.reverse_singleton, List.singleton_append, storageOffsetFrom,
      checkedMultiply_eq, if_pos (by omega)]
    refine bind_ok.2 ⟨_, rfl, bind_ok.2 ⟨result + index % d.1.toNat * d.2.toNat, ?_, ?_⟩⟩
    · exact if_neg (by omega)
    · rw [ih _ (by omega), Nat.add_assoc, Nat.add_comm (index % d.1.toNat * d.2.toNat)]

/-- The offset of the element of a rank does not overflow, and stays inside the span. -/
theorem storageOffset_eq {index : Nat} (hinside : index < layout.numel) :
    layout.storageOffset index =
        .ok (Lib.RowMajor.dot (strideNats layout.strides)
          (Lib.RowMajor.coordinates layout.dims index)) ∧
      Lib.RowMajor.dot (strideNats layout.strides) (Lib.RowMajor.coordinates layout.dims index) <
        layout.storageSpan := by
  have hless :
    Lib.RowMajor.dot (strideNats layout.strides) (Lib.RowMajor.coordinates layout.dims index) <
      layout.storageSpan :=
    Lib.RowMajor.dot_lt_span (Lib.RowMajor.inside_coordinates
      (show index < layout.dims.prod from hinside))
  have hdims : (layout.shape.zip layout.strides).map (·.1.toNat) = layout.dims := by
    rw [show (fun d : Int × Int => d.1.toNat) = Int.toNat ∘ Prod.fst from rfl, ← List.map_map,
      List.map_fst_zip (Nat.le_of_eq layout.rank_eq.symm)]
    rfl
  have hstrides : (layout.shape.zip layout.strides).map (·.2.toNat) =
    strideNats layout.strides := by
    rw [show (fun d : Int × Int => d.2.toNat) = Int.toNat ∘ Prod.snd from rfl, ← List.map_map,
      List.map_snd_zip (Nat.le_of_eq layout.rank_eq)]
    rfl
  refine ⟨check_ok.2 ⟨require_ok.2 (by simpa using hinside), ?_⟩, hless⟩
  have hspan_le : layout.storageSpan ≤ sizeMax := layout.span_le
  rw [storageOffsetFrom_eq, hdims, hstrides, Nat.zero_add]
  rw [hdims, hstrides, Nat.zero_add]
  exact Nat.le_of_lt (Nat.lt_of_lt_of_le hless hspan_le)

end TensorLayout

end TinyInfer
