import TinyInfer.Graph.Graph

/-!
# What a backend says about a node (`backend/capability.cpp`)

`CpuBackend.queryCapability` answers whether the CPU runs a node with these operands.
It runs the schema of the operator, and turns some of the exceptions of the schema into
an answer.
-/

namespace TinyInfer.Backend

inductive DeviceKind where
  | cpu
  | cuda
  | metal
  deriving DecidableEq, Repr

structure DeviceId where
  kind : DeviceKind := .cpu
  ordinal : Nat := 0
  deriving DecidableEq, Repr

structure TensorDescriptor where
  spec : TensorSpec
  strides : Option Strides := none
  deriving DecidableEq, Repr

structure NodeCapability where
  supported : Bool := false
  requiresRuntimeLayoutCheck : Bool := false
  reason : String := ""
  deriving DecidableEq, Repr

structure CapabilityQuery where
  device : DeviceId
  node : Node
  inputs : List TensorDescriptor
  outputs : List TensorDescriptor
  deriving DecidableEq, Repr

/-- `{false, false, reason}` -/
def NodeCapability.refused (reason : String) : NodeCapability := { reason }

namespace CpuBackend

/-- The operators that `OperatorRegistry` has a kernel for. -/
def kernels : List OpType :=
  [.add, .subtract, .multiply, .matMul, .gemm, .fusedGemmActivation, .reLU, .tanh, .gelu, .softmax,
    .layerNorm]

def supports (op : OpType) : Bool := kernels.contains op

/-- The check of the strides of an input, where they are given. -/
def checkInput (descriptor : TensorDescriptor) : Except Exn Unit :=
  match descriptor.strides with
  | none => .ok ()
  | some strides => do
    let layout ← TensorLayout.ofStrides descriptor.spec.shape strides
    let _ ← layout.sizeBytes descriptor.spec.dtype
    .ok ()

/-- The loop over the outputs; it yields why the node is refused. -/
def checkOutputs : List TensorSpec → List TensorDescriptor → Except Exn (Option String)
  | spec :: specs, output :: outputs => do
    if spec ≠ output.spec then .ok (some "output spec differs from inference")
    else
      match output.strides with
      | none => checkOutputs specs outputs
      | some strides => do
        let layout ← TensorLayout.ofStrides spec.shape strides
        if layout.isContiguous then checkOutputs specs outputs
        else .ok (some "planned CPU output must be contiguous")
  | _, _ => .ok none

/-- The body of the `try` block. -/
def checkSchema (query : CapabilityQuery) : Except Exn (Option String) := do
  query.inputs.forM checkInput
  let outputs ← inferOutputSpecs query.node.op (query.inputs.map (·.spec)) query.node.attributes
  if outputs.length ≠ query.outputs.length then .ok (some "output count differs from schema")
  else checkOutputs outputs query.outputs

def queryCapability (query : CapabilityQuery) : Except Exn NodeCapability :=
  if query.device ≠ {} then .ok (.refused "CPU backend requires cpu:0")
  else if !supports query.node.op then .ok (.refused "operator has no CPU kernel")
  else if query.node.inputs.length ≠ query.inputs.length ∨
      query.node.outputs.length ≠ query.outputs.length then
    .ok (.refused "node descriptor arity differs from node operands")
  else
    match checkSchema query with
    | .ok none => .ok { supported := true, reason := "CPU schema and layout supported" }
    | .ok (some reason) => .ok (.refused reason)
    | .error (.invalidArgument what) | .error (.overflowError what) => .ok (.refused what)
    | .error e => .error e

end CpuBackend

end TinyInfer.Backend
