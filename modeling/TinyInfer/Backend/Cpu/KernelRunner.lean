import TinyInfer.Backend.Cpu.BasicOps
import TinyInfer.Backend.Cpu.MatMulKernel

/-!
# The kernels of the operators (`ops/kernel_runner.h`, `ops/basic_ops.cpp`, `ops/gemm.cpp`)

The kernels that write into an output, and the table that the CPU backend keeps of them
(`backend/cpu/operator_registry.cpp`). The operations on the scalars are not interpreted.

Main definitions: `runUnaryKernelInto`, `runBinaryKernelInto`, `runGemm`, `kernel`.
-/

namespace TinyInfer

namespace FloatBits

/-- `0.5F` -/
def half : FloatBits := 0x3f000000#32

/-- `0.7071067811865475F` -/
def inverseSqrtTwo : FloatBits := 0x3f3504f3#32

/-- `0.7978845608028654F` -/
def sqrtTwoOverPi : FloatBits := 0x3f4c422a#32

/-- `0.044715F` -/
def cubicCoefficient : FloatBits := 0x3d372713#32

/-- `1e-5F` -/
def defaultEpsilon : FloatBits := 0x3727c5ac#32

end FloatBits

/-! ## Tensors -/

namespace TensorLayout

/-- `std::swap` of two entries. -/
def swapped (xs : List Int) (i j : Nat) : List Int := (xs.set i (xs.getD j 0)).set j (xs.getD i 0)

def transposed (layout : TensorLayout) (dimension0 dimension1 : Nat) : Except Exn TensorLayout := do
  require (dimension0 < layout.rank && dimension1 < layout.rank)
    (.outOfRange "transpose dimension is out of range")
  ofStrides (swapped layout.shape dimension0 dimension1)
    (swapped layout.strides dimension0 dimension1)

/-- Swapping two axes permutes the list. -/
theorem swapped_perm {xs : List Int} {i j : Nat} (hi : i < xs.length) (hj : j < xs.length) :
    (swapped xs i j).Perm xs := by
  unfold swapped
  rw [List.getD_eq_getElem?_getD, List.getD_eq_getElem?_getD, List.getElem?_eq_getElem hi,
    List.getElem?_eq_getElem hj]
  exact List.set_set_perm hi hj

/-- A transposed layout has as many elements. -/
theorem numel_transposed {layout transposed : TensorLayout} {i j : Nat}
    (h : layout.transposed i j = .ok transposed) : transposed.numel = layout.numel := by
  obtain ⟨hinside, h⟩ := check_ok.1 h
  have hinside := require_ok.1 hinside
  rw [Bool.and_eq_true, decide_eq_true_eq, decide_eq_true_eq] at hinside
  obtain ⟨-, hshape, -⟩ := ofStrides_ok.1 h
  rw [numel, numel, hshape]
  exact ((swapped_perm hinside.1 hinside.2).map Int.toNat).prod_eq

end TensorLayout

namespace Ops

/-- The operations of `float` that the kernels of all operators apply. -/
class KernelScalar (F : Type) extends Scalar F where
  tanh : F → F
  erf : F → F
  /-- The `float` of a literal or of an attribute -/
  ofBits : FloatBits → F

variable {F : Type} [KernelScalar F]

/-- A loop that stores one element after the other. -/
def storeEach (n : Nat) (value : Nat → Except Exn F) (data : Nat → F) : Except Exn (Nat → F) :=
  (List.range n).foldlM (fun data index => do .ok (Function.update data index (← value index))) data

/-- `Tensor(shape, dtype)` -/
def ofSpec (spec : TensorSpec) : Except Exn (Tensor F) :=
  match TensorLayout.ofShape spec.shape with
  | .error e => .error e
  | .ok layout =>
    if hbytes_le : layout.numel * spec.dtype.size ≤ sizeMax then
      .ok { layout, dtype := spec.dtype, data := fun _ => 0, bytes_le := hbytes_le }
    else .error (.overflowError "tensor byte size overflows size_t")

/-- `Tensor(other)`: the elements, in row-major order. -/
def copy (other : Tensor F) : Except Exn (Tensor F) := do
  let fresh ← ofSpec other.spec
  .ok (fresh.setData (← storeEach fresh.numel
    (fun index => do .ok (other.data (← other.layout.storageOffset index))) fresh.data))

/-- `transpose(dimension0, dimension1)` -/
def transpose (t : Tensor F) (dimension0 dimension1 : Nat) : Except Exn (Tensor F) :=
  match hdone : t.layout.transposed dimension0 dimension1 with
  | .error e => .error e
  | .ok layout =>
    .ok { t with layout, bytes_le := TensorLayout.numel_transposed hdone ▸ t.bytes_le }

/-! ## Elementwise kernels -/

def requireKernelDtype (tensor : Tensor F) : Except Exn Unit :=
  require (tensor.dtype == .float32)
    (.invalidArgument "kernel storage type does not match tensor dtype")

def runUnaryKernelInto (output input : Tensor F) (operation : F → F) : Except Exn (Tensor F) := do
  requireKernelDtype input
  requireKernelDtype output
  let it ← TensorIterator.ofOperands [input.layout]
  require (output.shape == it.shape && output.isContiguous)
    (.invalidArgument "unary kernel output must be contiguous and match its input shape")
  let inputData ← input.floats
  let outputData ← output.floats
  if it.hasContiguousFastPath then
    .ok (output.setData (← storeEach it.numel
      (fun index => .ok (operation (inputData index))) outputData))
  else
    .ok (output.setData (← storeEach it.numel
      (fun index => do .ok (operation (inputData (← it.operandOffset 0 index)))) outputData))

def runBinaryKernelInto (output lhs rhs : Tensor F) (operation : F → F → F) :
    Except Exn (Tensor F) := do
  requireKernelDtype lhs
  requireKernelDtype rhs
  requireKernelDtype output
  let it ← TensorIterator.ofOperands [lhs.layout, rhs.layout]
  require (output.shape == it.shape && output.isContiguous)
    (.invalidArgument "binary kernel output must be contiguous and match broadcast shape")
  let lhsData ← lhs.floats
  let rhsData ← rhs.floats
  let outputData ← output.floats
  if it.hasContiguousFastPath then
    .ok (output.setData (← storeEach it.numel
      (fun index => .ok (operation (lhsData index) (rhsData index))) outputData))
  else
    .ok (output.setData (← storeEach it.numel
      (fun index => do
        .ok (operation (lhsData (← it.operandOffset 0 index))
          (rhsData (← it.operandOffset 1 index))))
      outputData))

def addOut (output lhs rhs : Tensor F) : Except Exn (Tensor F) :=
  runBinaryKernelInto output lhs rhs (· + ·)

def subOut (output lhs rhs : Tensor F) : Except Exn (Tensor F) :=
  runBinaryKernelInto output lhs rhs (· - ·)

def mulOut (output lhs rhs : Tensor F) : Except Exn (Tensor F) :=
  runBinaryKernelInto output lhs rhs (· * ·)

def reluOut (output input : Tensor F) : Except Exn (Tensor F) :=
  runUnaryKernelInto output input (maximum 0)

def tanhOut (output input : Tensor F) : Except Exn (Tensor F) :=
  runUnaryKernelInto output input KernelScalar.tanh

def geluErf (value : F) : F :=
  KernelScalar.ofBits .half * value *
    (1 + KernelScalar.erf (value * KernelScalar.ofBits .inverseSqrtTwo))

def geluTanh (value : F) : F :=
  let cubic := value * value * value
  KernelScalar.ofBits .half * value *
    (1 + KernelScalar.tanh (KernelScalar.ofBits .sqrtTwoOverPi *
      (value + KernelScalar.ofBits .cubicCoefficient * cubic)))

def geluOut (output input : Tensor F) (approximate : String) : Except Exn (Tensor F) :=
  if approximate = "none" then runUnaryKernelInto output input geluErf
  else if approximate ≠ "tanh" then
    .error (.invalidArgument "gelu approximate must be 'none' or 'tanh'")
  else runUnaryKernelInto output input geluTanh

/-! ## Matrices -/

variable [DecidableEq F] (simd : Cpu.Simd)

/-- `ops::matmul_out` -/
def matmulOut (output lhs rhs : Tensor F) : Except Exn (Tensor F) := do
  require (lhs.dtype == .float32 && rhs.dtype == .float32)
    (.invalidArgument "matmul currently supports only float32 tensors")
  require (lhs.rank == 2 && rhs.rank == 2) (.invalidArgument "matmul expects two rank-2 tensors")
  require (lhs.shape.getD 1 0 == rhs.shape.getD 0 0)
    (.invalidArgument "matmul inner dimensions must match")
  let packed ← Cpu.PackedMatMulRhs.pack rhs false
  Cpu.matmulPackedSimd simd lhs packed output {}

def validateTranspose (value : Int) (name : String) : Except Exn Unit :=
  require (value == 0 || value == 1) (.invalidArgument ("Gemm " ++ name ++ " must be 0 or 1"))

/-- An operand of `run_gemm`, or a transposed copy. -/
def gemmOperand (trans : Int) (operand : Tensor F) : Except Exn (Tensor F) :=
  if trans ≠ 0 then do transpose (← copy operand) 0 1 else .ok operand

def runGemm (output lhs rhs : Tensor F) (bias : Option (Tensor F)) (alpha beta : F)
    (transA transB : Int) (applyRelu : Bool) : Except Exn (Tensor F) := do
  validateTranspose transA "transA"
  validateTranspose transB "transB"
  let lhsOperand ← gemmOperand transA lhs
  let rhsOperand ← gemmOperand transB rhs
  let product ← matmulOut simd output lhsOperand rhsOperand
  applyGemmEpilogue product bias alpha beta applyRelu

def gemmOut (output lhs rhs : Tensor F) (bias : Option (Tensor F)) (alpha beta : F)
    (transA transB : Int) : Except Exn (Tensor F) :=
  runGemm simd output lhs rhs bias alpha beta transA transB false

def gemmReluOut (output lhs rhs : Tensor F) (bias : Option (Tensor F)) (alpha beta : F)
    (transA transB : Int) : Except Exn (Tensor F) :=
  runGemm simd output lhs rhs bias alpha beta transA transB true

/-! ## The table of the kernels -/

section Registry

variable (attributes : NodeAttributes) (output : Tensor F) (input : Nat → Except Exn (Tensor F))
  (inputCount : Nat)

def executeGemm (applyRelu : Bool) : Except Exn (Tensor F) := do
  let transA := integerAttribute attributes "transA" 0
  let transB := integerAttribute attributes "transB" 0
  let alpha := KernelScalar.ofBits (floatAttribute attributes "alpha" .one)
  let beta := KernelScalar.ofBits (floatAttribute attributes "beta" .one)
  let bias ← if inputCount = 3 then do .ok (some (← input 2)) else .ok none
  if applyRelu then gemmReluOut simd output (← input 0) (← input 1) bias alpha beta transA transB
  else gemmOut simd output (← input 0) (← input 1) bias alpha beta transA transB

def executeLayerNorm : Except Exn (Tensor F) := do
  let epsilon := KernelScalar.ofBits (floatAttribute attributes "epsilon" .defaultEpsilon)
  if inputCount = 1 then layerNormImpl output (← input 0) none none epsilon
  else if inputCount = 2 then layerNormImpl output (← input 0) (some (← input 1)) none epsilon
  else layerNormImpl output (← input 0) (some (← input 1)) (some (← input 2)) epsilon

/-- The kernel that `OperatorRegistry` holds for an operator, after `output(node, context)`. -/
def kernel (op : OpType) : Except Exn (Tensor F) :=
  match op with
  | .add => do addOut output (← input 0) (← input 1)
  | .subtract => do subOut output (← input 0) (← input 1)
  | .multiply => do mulOut output (← input 0) (← input 1)
  | .matMul => do matmulOut simd output (← input 0) (← input 1)
  | .gemm => executeGemm simd attributes output input inputCount false
  | .fusedGemmActivation => executeGemm simd attributes output input inputCount true
  | .reLU => do reluOut output (← input 0)
  | .tanh => do tanhOut output (← input 0)
  | .gelu => do geluOut output (← input 0) (stringAttribute attributes "approximate" "tanh")
  | .softmax => do softmaxOut output (← input 0) (integerAttribute attributes "axis" (-1))
  | .layerNorm => executeLayerNorm attributes output input inputCount

end Registry

/-- What the kernel of `FusedGemmActivation` checks before it asks for its output. -/
def checkActivation (op : OpType) (attributes : NodeAttributes) : Except Exn Unit :=
  if op = .fusedGemmActivation then do
    require (attributes.lookup "activation").isSome (.outOfRange "node attribute does not exist")
    require (stringAttribute attributes "activation" "" == "relu")
      (.invalidArgument "FusedGemmActivation currently supports only relu")
  else .ok ()

end Ops

end TinyInfer
