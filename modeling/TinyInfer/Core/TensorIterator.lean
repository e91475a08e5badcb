import TinyInfer.Core.TensorLayout

/-!
# Iteration over broadcast operands (`core/tensor_iterator.cpp`)

A `TensorIterator` visits the elements of several layouts in the row-major order of
their broadcast shape. `coalesceDimensions` removes dimensions of extent one and
merges neighbours over which every operand advances linearly; an `IterDim` is one
remaining dimension with the stride of each operand.
-/

namespace TinyInfer

/-- A dimension of `iteration_shape_`, and its stride in each of `iteration_strides_`. -/
structure IterDim where
  extent : Nat
  strides : List Nat
  deriving DecidableEq, Repr

structure TensorIterator where
  shape : Shape
  numel : Nat
  operandStrides : List Strides
  /-- Outermost dimension first. -/
  iteration : List IterDim
  contiguousOperands : List Bool
  deriving DecidableEq, Repr

namespace TensorIterator

def broadcastError : Exn := .invalidArgument "TensorIterator operands cannot be broadcast together"

/-- One extent of the result, and of an operand. -/
def broadcastExtent (result operand : Int) : Except Exn Int :=
  if result = 1 then .ok operand
  else if operand ≠ 1 ∧ operand ≠ result then .error broadcastError
  else .ok result

/-- The loop over the dimensions of an operand, aligned with the innermost of the result. -/
def broadcastTail : Shape → Shape → Except Exn Shape
  | result :: results, operand :: operands => do
    let extent ← broadcastExtent result operand
    let rest ← broadcastTail results operands
    .ok (extent :: rest)
  | results, _ => .ok results

def broadcastInto (result operand : Shape) : Except Exn Shape := do
  let leading := result.length - operand.length
  let tail ← broadcastTail (result.drop leading) operand
  .ok (result.take leading ++ tail)

def broadcastShape (operands : List TensorLayout) : Except Exn Shape :=
  let rank := (operands.map TensorLayout.rank).foldl max 0
  (operands.map TensorLayout.shape).foldlM broadcastInto (List.replicate rank 1)

/-- The stride of an operand along a dimension of the result. -/
def broadcastStride (operand stride output : Int) : Except Exn Int :=
  if operand = output then .ok stride else if operand ≠ 1 then .error broadcastError else .ok 0

/-- The strides of an operand along the dimensions of the result that it has. -/
def broadcastStridesTail : List (Int × Int) → Shape → Except Exn Strides
  | (operand, stride) :: dims, output :: outputs => do
    let head ← broadcastStride operand stride output
    let rest ← broadcastStridesTail dims outputs
    .ok (head :: rest)
  | _, _ => .ok []

def broadcastStrides (operand : TensorLayout) (output : Shape) : Except Exn Strides := do
  let leading := output.length - operand.rank
  let tail ← broadcastStridesTail (operand.shape.zip operand.strides) (output.drop leading)
  .ok (List.replicate leading 0 ++ tail)

/-- Every operand advances linearly over the boundary of two dimensions, and their
merged extent is an `int64_t`. -/
def mergeable (outer inner : IterDim) : Bool :=
  (outer.strides.zip inner.strides).all (fun (outerStride, innerStride) =>
    !(decide (innerStride ≠ 0 ∧ inner.extent > sizeMax / innerStride)) &&
      outerStride == innerStride * inner.extent % 2 ^ 64) &&
  !(decide (inner.extent ≠ 0 ∧ outer.extent > int64Max / inner.extent))

/-- Merge the innermost two neighbours that can be merged. -/
def mergeInnermost : List IterDim → Option (List IterDim)
  | [] => none
  | outer :: rest =>
    match mergeInnermost rest with
    | some merged => some (outer :: merged)
    | none =>
      match rest with
      | inner :: dims =>
        if mergeable outer inner then
          some (⟨outer.extent * inner.extent % 2 ^ 64, inner.strides⟩ :: dims)
        else none
      | [] => none

/-- The second loop of `coalesce_dimensions`: it starts over at the innermost
dimension after every merge, so it ends after one merge for each dimension. -/
def mergeDimensions : Nat → List IterDim → List IterDim
  | 0, dims => dims
  | fuel + 1, dims =>
    match mergeInnermost dims with
    | none => dims
    | some merged => mergeDimensions fuel merged

def coalesceDimensions (operandCount : Nat) (dims : List IterDim) : List IterDim :=
  let kept := dims.filter (·.extent ≠ 1)
  if kept.isEmpty then [⟨1, List.replicate operandCount 0⟩]
  else mergeDimensions kept.length kept

/-- The loop of `detect_contiguous_operands` over the dimensions: whether the strides
are as expected, and the next stride to expect. -/
def contiguousFrom : List (Int × Int) → Bool × Nat
  | [] => (true, 1)
  | (extent, stride) :: inner =>
    let (contiguous, expected) := contiguousFrom inner
    if !contiguous || extent.toNat ≤ 1 then (contiguous, expected)
    else (stride.toNat == expected, expected * extent.toNat % 2 ^ 64)

/-- The dimensions before coalescing. -/
def iterDims (shape : Shape) (operandStrides : List Strides) : List IterDim :=
  (List.range shape.length).map fun d =>
    ⟨(shape.getD d 0).toNat, operandStrides.map fun strides => (strides.getD d 0).toNat⟩

def ofOperands (operands : List TensorLayout) : Except Exn TensorIterator := do
  require (!operands.isEmpty) (.invalidArgument "TensorIterator requires at least one operand")
  let shape ← broadcastShape operands
  let numel := (← TensorLayout.ofShape shape).numel
  let operandStrides ← operands.mapM (broadcastStrides · shape)
  .ok {
    shape, numel, operandStrides
    iteration := coalesceDimensions operands.length (iterDims shape operandStrides)
    contiguousOperands := operandStrides.map fun strides =>
      numel == 0 || (contiguousFrom (shape.zip strides)).1 }

variable (it : TensorIterator)

def operandCount : Nat := it.operandStrides.length

def operandIsContiguous (operand : Nat) : Except Exn Bool :=
  match it.contiguousOperands[operand]? with
  | none => .error (.outOfRange "TensorIterator operand is out of range")
  | some contiguous => .ok contiguous

def hasContiguousFastPath : Bool := it.contiguousOperands.all id

/-- The loop of `operand_offset`: the offset, and what is left of the logical index. -/
def offsetLoop : List (Nat × Nat) → Nat → Nat × Nat
  | [], index => (0, index)
  | (extent, stride) :: inner, index =>
    let (offset, index) := offsetLoop inner index
    ((offset + index % extent * stride) % 2 ^ 64, index / extent)

def operandOffset (operand index : Nat) : Except Exn Nat := do
  require (operand < it.operandCount) (.outOfRange "TensorIterator operand is out of range")
  require (index < it.numel) (.outOfRange "TensorIterator logical index is out of range")
  .ok (offsetLoop (it.iteration.map fun d => (d.extent, d.strides.getD operand 0)) index).1

end TensorIterator

end TinyInfer
