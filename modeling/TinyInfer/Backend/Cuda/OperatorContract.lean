import TinyInfer.Backend.Capability
import TinyInfer.Core.Machine

/-!
# The operators of the CUDA backend (`backend/cuda/operator_contract.cpp`)

`validateOperatorContract` is what the CUDA backend accepts of what the CPU accepts:
contiguous tensors of `float` with at most four dimensions and `int32_t` sizes.
`makeGemmDescriptor` prepares the arguments of a matrix product and of its epilogue.
-/

namespace TinyInfer.Backend.Cuda

/-- `matrix(op)` -/
def isMatrix (op : OpType) : Bool := op == .matMul || op == .gemm || op == .fusedGemmActivation

def initialOperator (op : OpType) : Bool :=
  isMatrix op || op == .add || op == .reLU || op == .tanh || op == .softmax

/-- The checks on one descriptor; they yield why it is refused. -/
def checkDescriptor (value : TensorDescriptor) : Except Exn (Option String) := do
  let layout ← TensorLayout.ofShape value.spec.shape
  if value.spec.dtype ≠ .float32 then .ok (some "initial CUDA contract requires FP32")
  else if layout.rank > 4 then .ok (some "initial CUDA contract supports rank <= 4")
  else if layout.numel > Machine.int32Max then
    .ok (some "CUDA element count exceeds int32 contract")
  else if value.spec.shape.any (· > Machine.int32Max) then
    .ok (some "CUDA dimension exceeds int32 contract")
  else do
    let _ ← layout.sizeBytes value.spec.dtype
    match value.strides with
    | none => .ok none
    | some strides => do
      let layout ← TensorLayout.ofStrides value.spec.shape strides
      if layout.isContiguous then .ok none
      else .ok (some "initial CUDA contract requires contiguous physical layout")

/-- The loops over the descriptors stop at the first that is refused. -/
def checkDescriptors : List TensorDescriptor → Except Exn (Option String)
  | [] => .ok none
  | value :: values => do
    match ← checkDescriptor value with
    | some reason => .ok (some reason)
    | none => checkDescriptors values

/-- The body of the `try` block. A descriptor without strides is left to a check at run
time. -/
def checkContract (query : CapabilityQuery) : Except Exn NodeCapability := do
  let schema ← CpuBackend.queryCapability { query with device := {} }
  if !schema.supported then .ok schema
  else
    match ← checkDescriptors (query.inputs ++ query.outputs) with
    | some reason => .ok (.refused reason)
    | none =>
      .ok {
        supported := true
        requiresRuntimeLayoutCheck := (query.inputs ++ query.outputs).any (·.strides.isNone)
        reason :=
          "portable CUDA contract valid; device, spans and native execution remain unverified" }

def validateOperatorContract (query : CapabilityQuery) : Except Exn NodeCapability :=
  if query.device.kind ≠ .cuda then .ok (.refused "CUDA contract requires a CUDA device identity")
  else if !initialOperator query.node.op then
    .ok (.refused "operator outside initial CUDA contract")
  else
    match checkContract query with
    | .ok capability => .ok capability
    | .error (.invalidArgument what) | .error (.outOfRange what) | .error (.overflowError what) =>
      .ok (.refused what)
    | .error e => .error e

inductive GemmWork where
  | emptyOutput
  | zeroK
  | matrixProduct
  deriving DecidableEq, Repr

structure GemmDescriptor where
  rows : Int := 0
  columns : Int := 0
  reduction : Int := 0
  nativeM : Int := 0
  nativeN : Int := 0
  nativeK : Int := 0
  lda : Int := 0
  ldb : Int := 0
  ldc : Int := 0
  leftInput : Nat := 1
  rightInput : Nat := 0
  transposeLeft : Bool := false
  transposeRight : Bool := false
  /-- `product_alpha` and `product_beta` are never assigned. -/
  productAlpha : FloatBits := FloatBits.one
  productBeta : FloatBits := 0
  epilogueAlpha : FloatBits := FloatBits.one
  epilogueBeta : FloatBits := FloatBits.one
  hasBias : Bool := false
  relu : Bool := false
  biasRows : Int := 1
  biasColumns : Int := 1
  work : GemmWork := .emptyOutput
  deriving DecidableEq, Repr

/-- `static_cast<std::int32_t>` of an `int64_t` -/
def int32 (n : Int) : Int := n.bmod (2 ^ 32)

/-- The extents of a bias, as far as its rank sets them. -/
def biasExtents : Shape → Int × Int
  | [columns] => (1, int32 columns)
  | [rows, columns] => (int32 rows, int32 columns)
  | _ => (1, 1)

/-- `make_gemm_descriptor` once the query is accepted. -/
def gemmDescriptor (op : OpType) (attributes : NodeAttributes) (inputs : List TensorSpec) :
    GemmDescriptor :=
  let ta := decide (integerAttribute attributes "transA" 0 ≠ 0)
  let tb := decide (integerAttribute attributes "transB" 0 ≠ 0)
  let a := (inputs.map TensorSpec.shape).getD 0 []
  let b := (inputs.map TensorSpec.shape).getD 1 []
  let rows := int32 (a.getD (if ta then 1 else 0) 0)
  let reduction := int32 (a.getD (if ta then 0 else 1) 0)
  let columns := int32 (b.getD (if tb then 0 else 1) 0)
  let hasBias := decide (inputs.length = 3)
  let bias := if hasBias then biasExtents ((inputs.map TensorSpec.shape).getD 2 []) else (1, 1)
  { rows, reduction, columns
    nativeM := columns, nativeN := rows, nativeK := reduction
    transposeLeft := tb, transposeRight := ta
    lda := int32 (max 1 (b.getD 1 0))
    ldb := int32 (max 1 (a.getD 1 0))
    ldc := max 1 columns
    epilogueAlpha := floatAttribute attributes "alpha" FloatBits.one
    epilogueBeta := floatAttribute attributes "beta" FloatBits.one
    hasBias
    relu := op == .fusedGemmActivation
    biasRows := bias.1, biasColumns := bias.2
    work :=
      if rows = 0 ∨ columns = 0 then .emptyOutput
      else if reduction = 0 then .zeroK
      else .matrixProduct }

def makeGemmDescriptor (query : CapabilityQuery) : Except Exn GemmDescriptor := do
  let capability ← validateOperatorContract query
  require capability.supported (.invalidArgument capability.reason)
  require (isMatrix query.node.op) (.invalidArgument "Gemm descriptor requires a matrix operator")
  .ok (gemmDescriptor query.node.op query.node.attributes (query.inputs.map (·.spec)))

end TinyInfer.Backend.Cuda
