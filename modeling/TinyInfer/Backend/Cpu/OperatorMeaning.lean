import TinyInfer.Core.TensorValue
import TinyInfer.Backend.Cpu.KernelRunner
import TinyInfer.Backend.Cpu.Reductions

/-!
# What an operator means

The value of a node as a function of the values it reads, element by element and without
strides, blocks or vectors. Sums and products are taken from left to right, as the kernels
take them.

Main definitions:
- `productOf`, `gemmOf`, `softmaxOf`, `layerNormAt`: the elements of the larger operators.
- `element`: an element of the output of an operator.
- `eval`: the output of an operator, where shape inference accepts its inputs.
-/

namespace TinyInfer.Ops

variable {F : Type} [KernelScalar F]

/-- An element of a matrix product. -/
def productOf (lhs rhs : TensorValue F) (transA transB : Bool) (row column : Nat) : F :=
  (List.range (if transA then lhs.rows else lhs.columns)).foldl
    (fun sum k => sum + lhs.entry transA row k * rhs.entry transB k column) 0

/-- The affine transform of an element by those of the parameters. -/
def affineAt (weight bias : Option (TensorValue F)) (r : Nat) (value : F) : F :=
  let value := weight.elim value fun weight => value * weight.get r
  bias.elim value fun bias => value + bias.get r

/-- An element of a normalized group. -/
def layerNormAt (group : List F) (weight bias : Option (TensorValue F)) (epsilon : F) (r : Nat)
    (x : F) : F :=
  let mean := meanOf group id
  let variance := meanOf group fun x => (x - mean) * (x - mean)
  affineAt weight bias r ((x - mean) * (1 / Scalar.sqrt (variance + epsilon)))

/-- `approximate` is `none` or `tanh`. -/
def geluOf (approximate : String) (x : F) : F :=
  if approximate = "none" then geluErf x else geluTanh x

variable [DecidableEq F]

/-- The epilogue of an element of a product. -/
def epilogueOf (alpha beta : F) (bias : Option F) (relu : Bool) (product : F) : F :=
  let value :=
    match bias with
    | some bias => alpha * product + beta * bias
    | none => if alpha ≠ 1 ∨ relu then alpha * product else product
  if relu then maxZero value else value

/-- An element of a `Gemm`. -/
def gemmOf (attributes : NodeAttributes) (lhs rhs : TensorValue F) (bias : Option (TensorValue F))
    (relu : Bool) (shape : Shape) (index : Nat) : F :=
  let columns := (shape.getD 1 0).toNat
  epilogueOf (KernelScalar.ofBits (floatAttribute attributes "alpha" .one))
    (KernelScalar.ofBits (floatAttribute attributes "beta" .one))
    (bias.map fun bias => bias.broadcast shape index) relu
    (productOf lhs rhs (integerAttribute attributes "transA" 0 != 0)
      (integerAttribute attributes "transB" 0 != 0) (index / columns) (index % columns))

/-- The axis of a `Softmax`. -/
def softmaxAxis (attributes : NodeAttributes) (rank : Nat) : Nat :=
  (ReductionIterator.normalize rank (integerAttribute attributes "axis" (-1))).toNat

/-- An element of the output of an operator. -/
def element (op : OpType) (attributes : NodeAttributes) (operands : List (TensorValue F))
    (shape : Shape) (index : Nat) : F :=
  match op, operands with
  | .add, [lhs, rhs] => lhs.broadcast shape index + rhs.broadcast shape index
  | .subtract, [lhs, rhs] => lhs.broadcast shape index - rhs.broadcast shape index
  | .multiply, [lhs, rhs] => lhs.broadcast shape index * rhs.broadcast shape index
  | .matMul, [lhs, rhs] =>
    let columns := (shape.getD 1 0).toNat
    productOf lhs rhs false false (index / columns) (index % columns)
  | .gemm, lhs :: rhs :: bias => gemmOf attributes lhs rhs bias.head? false shape index
  | .fusedGemmActivation, lhs :: rhs :: bias =>
    gemmOf attributes lhs rhs bias.head? true shape index
  | .reLU, [x] => maximum 0 (x.get index)
  | .tanh, [x] => KernelScalar.tanh (x.get index)
  | .gelu, [x] => geluOf (stringAttribute attributes "approximate" "tanh") (x.get index)
  | .softmax, [x] => softmaxOf (x.group (softmaxAxis attributes shape.length) index) (x.get index)
  | .layerNorm, x :: parameters =>
    layerNormAt (x.group (shape.length - 1) index) parameters.head? parameters[1]?
      (KernelScalar.ofBits (floatAttribute attributes "epsilon" .defaultEpsilon))
      (index % (shape.getLastD 0).toNat) (x.get index)
  | _, _ => 0

/-- The output of an operator. -/
def eval (op : OpType) (attributes : NodeAttributes) (operands : List (TensorValue F)) :
    Option (TensorValue F) :=
  match inferOutputSpecs op (operands.map (·.spec)) attributes with
  | .ok [spec] => some (.tabulate spec (element op attributes operands spec.shape))
  | _ => none

/-- An operator whose output spec is inferred has a value there. -/
theorem eval_some {op : OpType} {attributes : NodeAttributes} {operands : List (TensorValue F)}
    {spec : TensorSpec} (hinferred : inferOutputSpecs op
      (operands.map (·.spec)) attributes = .ok [spec]) :
    eval op attributes operands = some
      (.tabulate spec (element op attributes operands spec.shape)) := by
  unfold eval
  rw [hinferred]

end TinyInfer.Ops
