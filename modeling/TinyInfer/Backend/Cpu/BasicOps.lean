import TinyInfer.Core.Tensor
import TinyInfer.Core.ReductionIterator

/-!
# Reductions and normalizations (`ops/basic_ops.cpp`)

`reduceSum`, `reduceMax`, `softmaxOut` and `layerNormImpl` visit the groups of a
`ReductionIterator`. Where the groups are blocks they compute the offsets themselves (`visit`,
`visitLogical`). The operations on the scalars are not interpreted.
-/

namespace TinyInfer.Ops

/-- The operations of `float` that the kernels apply. -/
class Scalar (F : Type) extends Zero F, One F, Add F, Sub F, Mul F, Div F, LT F where
  /-- `static_cast<float>` of a size -/
  ofNat : Nat → F
  exp : F → F
  sqrt : F → F
  isFinite : F → Bool
  decidableLT : DecidableLT F

variable {F : Type} [Scalar F]

instance Scalar.instDecidableLT : DecidableLT F := Scalar.decidableLT

/-- `std::max` -/
def maximum (a b : F) : F := if a < b then b else a

def requireF32 (tensor : Tensor F) (operation : String) : Except Exn Unit :=
  require (tensor.dtype == .float32)
    (.invalidArgument (operation ++ " currently supports only float32 tensors"))

/-- `Tensor(shape)`: a contiguous tensor of zeros. -/
def zeros (shape : Shape) : Except Exn (Tensor F) :=
  match TensorLayout.ofShape shape with
  | .error e => .error e
  | .ok layout =>
    if hbytes_le : layout.numel * DataType.float32.size ≤ sizeMax then
      .ok { layout, dtype := .float32, data := fun _ => 0, bytes_le := hbytes_le }
    else .error (.overflowError "tensor byte size overflows size_t")

section Visit

variable (it : ReductionIterator)

/-- The offset of an element of a group. -/
def visit (group index : Nat) : Except Exn Nat :=
  if it.contiguousReduction then .ok (group * it.reductionNumel + index) else
    it.inputOffset group index

/-- Its place in a contiguous output. -/
def visitLogical (group index : Nat) : Except Exn Nat :=
  if it.contiguousReduction then .ok (group * it.reductionNumel + index) else
    it.inputLogicalIndex group index

end Visit

/-- A fold over the elements of a group from the one at `first` on. -/
def foldGroup (it : ReductionIterator) (data : Nat → F) (group first : Nat)
    (op : F → F → F) (init : F) :
    Except Exn F :=
  (List.range' first (it.reductionNumel - first)).foldlM
    (fun result index => do .ok (op result (data (← visit it group index)))) init

def reduceSum (input : Tensor F) (axes : List Int) (keepdim : Bool) : Except Exn (Tensor F) := do
  requireF32 input "reduce_sum"
  let it ← ReductionIterator.ofLayout input.layout axes keepdim
  let output ← zeros it.outputShape
  let inputData ← input.floats
  let outputData ← output.floats
  .ok (output.setData (← (List.range it.outputNumel).foldlM (fun out group => do
    .ok (Function.update out group (← foldGroup it inputData group 0 (· + ·) 0))) outputData))

/-- The maximum of a group. -/
def groupMaximum (it : ReductionIterator) (data : Nat → F) (group : Nat) : Except Exn F := do
  foldGroup it data group 1 maximum (data (← visit it group 0))

def reduceMax (input : Tensor F) (axes : List Int) (keepdim : Bool) : Except Exn (Tensor F) := do
  requireF32 input "reduce_max"
  let it ← ReductionIterator.ofLayout input.layout axes keepdim
  require (it.reductionNumel ≠ 0) (.invalidArgument "reduce_max cannot reduce an empty dimension")
  let output ← zeros it.outputShape
  let inputData ← input.floats
  let outputData ← output.floats
  .ok (output.setData (← (List.range it.outputNumel).foldlM (fun out group => do
    .ok (Function.update out group (← groupMaximum it inputData group))) outputData))

/-- The check of `softmax` and `layer_norm` on their output. -/
def requireLike (output input : Tensor F) (what : String) : Except Exn Unit :=
  require (output.shape == input.shape && output.dtype == .float32 && output.isContiguous)
    (.invalidArgument what)

/-- The loop of `softmax_out` that stores the exponentials of a group, and adds them. -/
def storeExp (it : ReductionIterator) (data : Nat → F) (out : Nat → F) (group : Nat) (maximum : F) :
    Except Exn ((Nat → F) × F) :=
  (List.range it.reductionNumel).foldlM (fun s index => do
    let inputOffset ← visit it group index
    let outputIndex ← visitLogical it group index
    let out := Function.update s.1 outputIndex (Scalar.exp (data inputOffset - maximum))
    .ok (out, s.2 + out outputIndex)) (out, 0)

/-- The rounds of `softmax_out` for one group. -/
def softmaxGroup (it : ReductionIterator) (data : Nat → F) (out : Nat → F) (group : Nat) :
    Except Exn (Nat → F) := do
  let maximum ← groupMaximum it data group
  let s ← storeExp it data out group maximum
  (List.range it.reductionNumel).foldlM (fun out index => do
    let outputIndex ← visitLogical it group index
    .ok (Function.update out outputIndex (out outputIndex / s.2))) s.1

def softmaxOut (output input : Tensor F) (axis : Int) : Except Exn (Tensor F) := do
  requireF32 input "softmax"
  let it ← ReductionIterator.ofLayout input.layout [axis] false
  require (it.reductionNumel ≠ 0) (.invalidArgument "softmax cannot normalize an empty dimension")
  requireLike output input "softmax output must be contiguous and match the input"
  let inputData ← input.floats
  let outputData ← output.floats
  .ok (output.setData (← (List.range it.outputNumel).foldlM (softmaxGroup it inputData) outputData))

/-- The mean of a group of values. -/
def groupMean (it : ReductionIterator) (data : Nat → F) (group : Nat) (value : F → F) :
    Except Exn F := do
  let sum ← foldGroup it data group 0 (fun result x => result + value x) 0
  .ok (sum / Scalar.ofNat it.reductionNumel)

/-- One step of the affine transform, by the element of a parameter at `index`. -/
def applyParameter (op : F → F → F) (parameter : Option (Tensor F)) (index : Nat) (value : F) :
    Except Exn F :=
  match parameter with
  | none => .ok value
  | some parameter => do .ok (op value (parameter.data (← parameter.layout.storageOffset index)))

def affine (weight bias : Option (Tensor F)) (index : Nat) (value : F) : Except Exn F := do
  let value ← applyParameter (· * ·) weight index value
  applyParameter (· + ·) bias index value

/-- The rounds of `layer_norm_impl` for one group. -/
def layerNormGroup (it : ReductionIterator) (data : Nat → F)
    (weight bias : Option (Tensor F)) (epsilon : F) (out : Nat → F) (group : Nat) :
    Except Exn (Nat → F) := do
  let mean ← groupMean it data group id
  let variance ← groupMean it data group fun x => (x - mean) * (x - mean)
  let inverseStddev := 1 / Scalar.sqrt (variance + epsilon)
  (List.range it.reductionNumel).foldlM (fun out index => do
    let inputOffset ← visit it group index
    let outputIndex ← visitLogical it group index
    .ok (Function.update out outputIndex
      (← affine weight bias index ((data inputOffset - mean) * inverseStddev)))) out

/-- The checks of `layer_norm_impl` on a parameter. -/
def checkParameter (width : Int) (parameter : Tensor F) : Except Exn Unit := do
  requireF32 parameter "layer_norm"
  require (parameter.shape == [width])
    (.invalidArgument "layer_norm weight and bias must match the final dimension")

def layerNormImpl (output input : Tensor F) (weight bias : Option (Tensor F)) (epsilon : F) :
    Except Exn (Tensor F) := do
  requireF32 input "layer_norm"
  require (decide (0 < input.shape.getLastD 0))
    (.invalidArgument "layer_norm expects a non-empty final dimension")
  require (Scalar.isFinite epsilon && !decide (epsilon < 0))
    (.invalidArgument "layer_norm epsilon must be finite and non-negative")
  weight.toList.forM (checkParameter (input.shape.getLastD 0))
  bias.toList.forM (checkParameter (input.shape.getLastD 0))
  requireLike output input "layer_norm output must be contiguous and match the input"
  let it ← ReductionIterator.ofLayout input.layout [-1] false
  let inputData ← input.floats
  let outputData ← output.floats
  .ok (output.setData
    (← (List.range it.outputNumel).foldlM
      (layerNormGroup it inputData weight bias epsilon) outputData))

end TinyInfer.Ops
