import TinyInfer.Core.Tensor
import TinyInfer.Lib.Pointwise

/-!
# The epilogue of a Gemm (`backend/cpu/gemm_epilogue.cpp`, `ops/gemm.cpp`)

`relu(alpha * value + beta * bias)` for each element of a matrix. The operations on the
scalars `α` are not interpreted. `Cpu.applyGemmEpilogue` reads the bias at its own row and
column strides, `Ops.applyGemmEpilogue` reads it through a `TensorIterator`.

Addresses are natural numbers, since those of the elements of a layout fit `size_t`.
-/

namespace TinyInfer

open Lib.Pointwise

variable {α : Type} [Zero α] [One α] [Add α] [Mul α] [LT α] [DecidableLT α] [DecidableEq α]

/-- `std::max(0.0F, value)` -/
def maxZero (value : α) : α := if 0 < value then value else 0

namespace Ops

/-- The loops of `ops::detail::apply_gemm_epilogue` over the elements, with the offset of the
bias of each. An offset that throws ends the loop. -/
def applyBias (output bias : Nat → α) (alpha beta : α) (applyRelu : Bool)
    (offset : Nat → Except Exn Nat) :
    List Nat → Except Exn (Nat → α)
  | [] => .ok output
  | index :: rest => do
    let value := alpha * output index + beta * bias (← offset index)
    let value := if applyRelu then maxZero value else value
    applyBias (Function.update output index value) bias alpha beta applyRelu offset rest

/-- `ops::detail::apply_gemm_epilogue` -/
def applyGemmEpilogue (output : Tensor α) (bias : Option (Tensor α)) (alpha beta : α)
    (applyRelu : Bool) :
    Except Exn (Tensor α) := do
  let outputData ← output.floats
  match bias with
  | some bias =>
    let iterator ← TensorIterator.ofOperands [output.layout, bias.layout]
    require (iterator.shape == output.shape)
      (.invalidArgument "Gemm bias must broadcast to the output shape")
    let biasData ← bias.floats
    .ok (output.setData (← applyBias outputData biasData alpha beta applyRelu
      (iterator.operandOffset 1)
      (List.range iterator.numel)))
  | none =>
    if alpha ≠ 1 ∨ applyRelu then
      .ok (output.setData (forRange 0 output.numel (fun index data =>
        let value := alpha * data index
        let value := if applyRelu then maxZero value else value
        Function.update data index value) outputData))
    else .ok output

end Ops

namespace Cpu

inductive GemmBiasLayout where
  | none
  | scalar
  | row
  | column
  | full
  deriving DecidableEq, Repr

/-- `bias` stands for both `bias_` and `data_`. -/
structure GemmEpilogue (α : Type) where
  layout : GemmBiasLayout
  rows : Nat
  columns : Nat
  biasRank : Nat
  biasRows : Int
  biasColumns : Int
  rowStride : Nat
  columnStride : Nat
  bias : Option (Tensor α)
  alpha : α
  beta : α
  relu : Bool

namespace GemmEpilogue

/-- The layout of a bias that broadcasts. -/
def layoutOf (biasRows biasColumns : Int) : GemmBiasLayout :=
  if biasRows = 1 ∧ biasColumns = 1 then .scalar
  else if biasRows = 1 then .row
  else if biasColumns = 1 then .column
  else .full

/-- The constructor. -/
def make (output : Shape) (bias : Option Shape) (alpha beta : α) (relu : Bool) :
    Except Exn (GemmEpilogue α) := do
  require (output.length == 2 && (0 ≤ output.getD 0 0 && 0 ≤ output.getD 1 0))
    (.invalidArgument "Gemm epilogue requires a rank-2 output")
  let rows := (output.getD 0 0).toNat
  let columns := (output.getD 1 0).toNat
  match bias with
  | none =>
    .ok { layout := .none, rows, columns, biasRank := 0, biasRows := 1, biasColumns := 1,
          rowStride := 0, columnStride := 0, bias := none, alpha, beta, relu }
  | some bias =>
    require (bias.length ≤ 2) (.invalidArgument "Gemm bias rank exceeds output rank")
    let biasRows := if bias.length = 2 then bias.getD 0 0 else 1
    let biasColumns := if bias.length > 0 then bias.getLastD 0 else 1
    require (!((biasRows != 1 && biasRows != output.getD 0 0) ||
        (biasColumns != 1 && biasColumns != output.getD 1 0)))
      (.invalidArgument "Gemm bias does not broadcast to output")
    .ok { layout := layoutOf biasRows biasColumns, rows, columns, biasRank := bias.length,
          biasRows, biasColumns, rowStride := 0, columnStride := 0, bias := none
          alpha, beta, relu }

variable (epilogue : GemmEpilogue α)

def bind (bias : Option (Tensor α)) : Except Exn (GemmEpilogue α) :=
  if epilogue.layout = .none then do
    require bias.isNone (.invalidArgument "unexpected Gemm bias")
    .ok epilogue
  else
    match bias with
    | none => .error (.invalidArgument "Gemm bias metadata differs from descriptor")
    | some bias => do
      require (bias.dtype == .float32 && bias.rank == epilogue.biasRank &&
          (epilogue.biasRank != 2 || bias.shape.getD 0 0 == epilogue.biasRows) &&
          (epilogue.biasRank == 0 || bias.shape.getLastD 0 == epilogue.biasColumns))
        (.invalidArgument "Gemm bias metadata differs from descriptor")
      .ok { epilogue with
        bias := some bias
        rowStride := if epilogue.biasRank = 2 ∧ epilogue.biasRows ≠ 1 then bias.stride 0 else 0
        columnStride := if epilogue.biasRank > 0 ∧ epilogue.biasColumns ≠ 1 then
          (bias.strides.getLastD 0).toNat else 0 }

def validate (output : Tensor α) : Except Exn Unit := do
  require (output.dtype == .float32 && output.rank == 2 && output.isContiguous &&
      output.extent 0 == epilogue.rows && output.extent 1 == epilogue.columns)
    (.invalidArgument "Gemm epilogue output differs from descriptor")
  require (epilogue.layout == .none || epilogue.bias.isSome || output.numel == 0)
    (.logicError "Gemm epilogue bias is not bound")

def isIdentity : Bool := epilogue.layout == .none && epilogue.alpha == 1 && !epilogue.relu

def supportsSpecialization : Bool :=
  epilogue.layout == .none || (epilogue.alpha == 1 && epilogue.beta == 1)

def supportsFusion : Bool :=
  !epilogue.isIdentity && epilogue.columnStride ≤ 1 && epilogue.supportsSpecialization

/-- `data_`, which is only read once it is bound. -/
def biasData : Nat → α :=
  match epilogue.bias with
  | some bias => bias.data
  | none => fun _ => 0

def finish (value : α) (row column : Nat) : α :=
  let value :=
    if epilogue.layout ≠ .none then
      epilogue.alpha * value +
        epilogue.beta * epilogue.biasData
          (row * epilogue.rowStride + column * epilogue.columnStride)
    else if epilogue.alpha ≠ 1 ∨ epilogue.relu then epilogue.alpha * value
    else value
  if epilogue.relu then maxZero value else value

end GemmEpilogue

/-- `cpu::apply_gemm_epilogue` -/
def applyGemmEpilogue (output : Tensor α) (epilogue : GemmEpilogue α) : Except Exn (Tensor α) := do
  epilogue.validate output
  if epilogue.layout = .none ∨ epilogue.supportsSpecialization = false then
    Ops.applyGemmEpilogue output epilogue.bias epilogue.alpha epilogue.beta epilogue.relu
  else
    let columns := output.extent 1
    .ok (output.setData (forRange 0 (output.extent 0) (fun row =>
      forRange 0 columns fun column data =>
        Function.update data (row * columns + column)
          (epilogue.finish (data (row * columns + column)) row column)) output.data))

end Cpu

end TinyInfer
