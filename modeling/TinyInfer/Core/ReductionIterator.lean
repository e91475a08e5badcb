import TinyInfer.Core.TensorLayout
import TinyInfer.Lib.Axes
import Mathlib.Data.List.Sort

/-!
# Iteration over groups of elements (`core/reduction_iterator.cpp`)

A `ReductionIterator` visits the elements of a layout in groups: an element of the output, and
those of the input that agree with it on every axis that is not reduced.
-/

namespace TinyInfer

structure ReductionIterator where
  inputLayout : TensorLayout
  logicalStrides : Strides
  axes : List Nat
  reduced : List Bool
  outputShape : Shape
  outputNumel : Nat
  reductionNumel : Nat
  keepdim : Bool
  contiguousReduction : Bool

namespace ReductionIterator

/-- One round of the loop over the given axes: `reduced_` and `axes_` so far. -/
def addAxis (rank : Nat) : List Bool × List Nat → Int → Except Exn (List Bool × List Nat)
  | (reduced, axes), axis => do
    let axis := if axis < 0 then axis + rank else axis
    require (0 ≤ axis ∧ axis < rank) (.outOfRange "reduction axis is out of range")
    require (!reduced.getD axis.toNat false) (.invalidArgument "reduction axes must be unique")
    .ok (reduced.set axis.toNat true, axes ++ [axis.toNat])

/-- The loop over the dimensions that fills `output_shape_`. -/
def outputShapeOf (keepdim : Bool) : List Bool → Shape → Shape
  | reduced :: rest, extent :: shape =>
    if reduced then if keepdim then 1 :: outputShapeOf keepdim rest shape else outputShapeOf
      keepdim rest shape
    else extent :: outputShapeOf keepdim rest shape
  | _, _ => []

/-- Whether the sorted axes are the innermost ones. -/
def trailing (rank : Nat) (axes : List Nat) : Bool :=
  axes.zipIdx.all fun (axis, index) => axis == rank - axes.length + index

def ofLayout (layout : TensorLayout) (axes : List Int) (keepdim : Bool) :
    Except Exn ReductionIterator := do
  require (!axes.isEmpty) (.invalidArgument "reduction requires at least one axis")
  let (reduced, axes) ← axes.foldlM (addAxis layout.rank) (List.replicate layout.rank false, [])
  let axes := axes.insertionSort (· ≤ ·)
  let outputShape := outputShapeOf keepdim reduced layout.shape
  let outputNumel := (← TensorLayout.ofShape outputShape).numel
  let reductionNumel := (← TensorLayout.ofShape (axes.map (layout.shape.getD · 0))).numel
  let logicalStrides := (← TensorLayout.ofShape layout.shape).strides
  .ok {
    inputLayout := layout, logicalStrides, axes, reduced, outputShape, outputNumel,
      reductionNumel, keepdim
    contiguousReduction := layout.isContiguous && trailing layout.rank axes }

variable (it : ReductionIterator)

/-- The loop over the dimensions, innermost first, with `output_dimension` and what is left of
`output_index`. -/
def outputOffset (strides : Strides) : Nat → Nat → Nat → Nat → Nat
  | 0, _, _, result => result
  | dimension + 1, outputDimension, outputIndex, result =>
    if it.reduced.getD dimension false then
      outputOffset strides dimension outputDimension outputIndex result
    else
      let outputDimension := if it.keepdim then outputDimension else outputDimension - 1
      let mapped := if it.keepdim then dimension else outputDimension
      let extent := (it.outputShape.getD mapped 0).toNat
      outputOffset strides dimension outputDimension (outputIndex / extent)
        ((result + outputIndex % extent * (strides.getD dimension 0).toNat) % 2 ^ 64)

/-- The loop over the reduced axes, the last first. -/
def reductionOffset (strides : Strides) : List Nat → Nat → Nat → Nat
  | [], _, result => result
  | axis :: axes, reductionIndex, result =>
    let extent := (it.inputLayout.shape.getD axis 0).toNat
    reductionOffset strides axes (reductionIndex / extent)
      ((result + reductionIndex % extent * (strides.getD axis 0).toNat) % 2 ^ 64)

def offsetWithStrides (strides : Strides) (outputIndex reductionIndex : Nat) : Except Exn Nat := do
  require (outputIndex < it.outputNumel) (.outOfRange "reduction output index is out of range")
  require (reductionIndex < it.reductionNumel) (.outOfRange "reduction index is out of range")
  .ok (it.reductionOffset strides it.axes.reverse reductionIndex
    (it.outputOffset strides it.inputLayout.rank it.outputShape.length outputIndex 0))

def inputOffset (outputIndex reductionIndex : Nat) : Except Exn Nat :=
  it.offsetWithStrides it.inputLayout.strides outputIndex reductionIndex

def inputLogicalIndex (outputIndex reductionIndex : Nat) : Except Exn Nat :=
  it.offsetWithStrides it.logicalStrides outputIndex reductionIndex

end ReductionIterator

end TinyInfer
