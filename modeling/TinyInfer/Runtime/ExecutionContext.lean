import TinyInfer.Backend.Capability
import TinyInfer.Backend.Cpu.KernelRunner
import TinyInfer.Lib.Simulation
import TinyInfer.Optimizer.GraphRewriter
import TinyInfer.Runtime.MemoryPlan

/-!
# Running a graph (`runtime/execution_context.cpp`, `runtime/executor.cpp`)

An `ExecutionContext` holds a tensor for every value of a graph. With a `MemoryPlan` the
intermediates are views into one buffer. `Executor.run` asks the kernel of every node for its
output, in topological order.

A kernel is modelled as a function of the tensors it reads; `store` writes what it returns
through the view of its output. That leaves out a kernel whose output shares elements with
an operand: a sound plan keeps the two apart (`MemoryPlan.Sound.operands_disjoint`), and
tensors that the caller binds are taken to have storage of their own. The buffer is an array
of `float`, so that the offset of a view is a fourth of its byte offset.

Main definitions: `ExecutionContext`, `ExecutionContext.prepareOutput`, `Executor.run`.
-/

namespace TinyInfer

open Lib (Throwing)

/-- A graph, and where it is. -/
structure GraphObject (F : Type) where
  address : Nat
  tables : Graph F

/-- A `MemoryPlan`, and the graph that it is of (`graph_identity_`). -/
structure GraphPlan where
  identity : Nat
  plan : MemoryPlan

namespace GraphPlan

variable {F : Type}

def ofGraph (platform : Fin 64) (g : GraphObject F) : Except Exn GraphPlan := do
  .ok ⟨g.address, ← MemoryPlan.ofGraph platform g.tables⟩

/-- `matches` -/
def isOf (plan : GraphPlan) (g : GraphObject F) : Bool :=
  plan.identity == g.address && plan.plan.allocations.length == g.tables.values.length &&
    plan.plan.nodeCount == g.tables.nodes.length

end GraphPlan

def MemoryPlan.hasAllocation (plan : MemoryPlan) (value : ValueId) : Except Exn Bool :=
  match plan.allocations[value]? with
  | none => .error (.outOfRange "memory plan ValueId is out of range")
  | some allocation => .ok allocation.isSome

/-- A tensor with a storage of its own, or a view into the buffer from a byte on. -/
structure Stored (F : Type) where
  tensor : Tensor F
  place : Option Nat

/-- The tensor, with its elements. -/
def Stored.read {F : Type} (buffer : Nat → F) (stored : Stored F) : Tensor F :=
  match stored.place with
  | none => stored.tensor
  | some offset => stored.tensor.setData fun i => buffer (offset / 4 + i)

structure ExecutionContext (F : Type) where
  /-- The graph of the context -/
  address : Nat
  graphValueCount : Nat
  values : List (Option (Stored F))
  memoryPlan : Option MemoryPlan := none
  plannedBuffer : Nat → F

namespace ExecutionContext

variable {F : Type}

/-! ## Reading -/

section Reading

variable (c : ExecutionContext F) (g : GraphObject F)

def requireCurrentGraph : Except Exn Unit :=
  require (g.tables.values.length == c.graphValueCount)
    (.logicError "graph structure changed after ExecutionContext construction")

def slot (id : ValueId) : Except Exn (Option (Stored F)) := do
  c.requireCurrentGraph g
  match c.values[id]? with
  | none => .error (.outOfRange "graph value id is out of range")
  | some slot => .ok slot

def hasValue (id : ValueId) : Except Exn Bool := do
  .ok (← c.slot g id).isSome

def value (id : ValueId) : Except Exn (Tensor F) := do
  match ← c.slot g id with
  | none => .error (.logicError "graph value is not materialized")
  | some stored => .ok (stored.read c.plannedBuffer)

def output (id : ValueId) : Except Exn (Tensor F) := do
  c.requireCurrentGraph g
  require (g.tables.outputIds.contains id)
    (.invalidArgument "value is not a registered graph output")
  c.value g id

def allInputsBound : Except Exn Bool := do
  c.requireCurrentGraph g
  .ok (g.tables.inputIds.all fun id => ((c.values[id]?).join).isSome)

def requireAllInputsBound : Except Exn Unit := do
  require (← c.allInputsBound g) (.logicError "not all graph inputs have been bound")

def requireMatchingSpec (id : ValueId) (tensor : Tensor F) : Except Exn Unit := do
  let expected := (← g.tables.value id).spec
  require (tensor.shape == expected.shape && tensor.dtype == expected.dtype)
    (.invalidArgument "tensor does not match graph value spec")

end Reading

/-! ## Writing -/

/-- The context with another tensor for a value. -/
def setSlot (c : ExecutionContext F) (id : ValueId) (slot : Option (Stored F)) :
    ExecutionContext F :=
  { c with values := c.values.set id slot }

def bindInput (g : GraphObject F) (id : ValueId) (tensor : Tensor F) :
    Throwing Exn (ExecutionContext F) Unit := do
  Throwing.check fun c => do
    c.requireCurrentGraph g
    require ((← g.tables.value id).kind == .input)
      (.invalidArgument "only graph inputs can be bound as inputs")
    requireMatchingSpec g id tensor
  Throwing.modify (·.setSlot id (some ⟨tensor, none⟩))

def setValue (g : GraphObject F) (id : ValueId) (tensor : Tensor F) :
    Throwing Exn (ExecutionContext F) Unit := do
  Throwing.check fun c => do
    c.requireCurrentGraph g
    require ((← g.tables.value id).kind == .intermediate)
      (.invalidArgument "only intermediate graph values can be written")
    requireMatchingSpec g id tensor
  Throwing.modify (·.setSlot id (some ⟨tensor, none⟩))

/-- `Storage(planned_buffer_, byte_offset, size)` and `Tensor::from_storage` -/
def viewOf (buffer : Nat → F) (bufferSize : Nat) (spec : TensorSpec)
    (allocation : BufferAllocation) :
    Except Exn (Tensor F) := do
  require (allocation.byteOffset ≤ bufferSize && allocation.sizeBytes ≤ bufferSize -
    allocation.byteOffset)
    (.outOfRange "storage range exceeds buffer capacity")
  match TensorLayout.ofShape spec.shape with
  | .error e => .error e
  | .ok layout =>
    if hbytes_le : layout.numel * spec.dtype.size ≤ sizeMax then do
      require (!(allocation.sizeBytes < layout.numel * spec.dtype.size : Bool))
        (.invalidArgument "Tensor storage is smaller than its layout")
      .ok { layout, dtype := spec.dtype, data := fun i => buffer (allocation.byteOffset / 4 + i),
            bytes_le := hbytes_le }
    else .error (.overflowError "tensor byte size overflows size_t")

variable [Ops.KernelScalar F]

/-- `prepare_output`, and the tensor that it returns. -/
def prepareOutput (g : GraphObject F) (id : ValueId) :
    Throwing Exn (ExecutionContext F) (Tensor F) := do
  let stored ← Throwing.check fun c => do
    c.requireCurrentGraph g
    let value ← g.tables.value id
    require (value.kind == .intermediate)
      (.invalidArgument "only intermediate outputs can be prepared")
    match c.memoryPlan with
    | none => .ok ⟨← Ops.ofSpec value.spec, none⟩
    | some plan => do
      let allocation ← plan.allocation id
      .ok ⟨← viewOf c.plannedBuffer plan.bufferSizeBytes value.spec allocation,
        some allocation.byteOffset⟩
  Throwing.modify (·.setSlot id (some stored))
  pure stored.tensor

omit [Ops.KernelScalar F] in
/-- The tensor of a value, after a kernel has written its elements. -/
def store (id : ValueId) (result : Tensor F) (c : ExecutionContext F) : ExecutionContext F :=
  match (c.values[id]?).join with
  | none => c
  | some ⟨_, none⟩ => c.setSlot id (some ⟨result, none⟩)
  | some ⟨_, some offset⟩ =>
    { c.setSlot id (some ⟨result, some offset⟩) with
      plannedBuffer := fun j =>
        if j < offset / 4 then c.plannedBuffer j else result.data (j - offset / 4) }

def clearIntermediates (g : GraphObject F) : Throwing Exn (ExecutionContext F) Unit := do
  Throwing.check fun c => c.requireCurrentGraph g
  Throwing.modify fun c => g.tables.values.foldl
    (fun c value => if value.kind = .intermediate then c.setSlot value.id none else c) c

def releaseAfterStep (g : GraphObject F) (step : Nat) : Throwing Exn (ExecutionContext F) Unit := do
  let released ← Throwing.check fun c => do
    c.requireCurrentGraph g
    match c.memoryPlan with
    | none => .ok []
    | some plan => do
      require (step < g.tables.nodes.length) (.outOfRange "execution step is out of range")
      plan.valuesReleasedAfterStep step
  Throwing.modify fun c => released.foldl (fun c id => c.setSlot id none) c

/-! ## Construction -/

/-- The loop of a constructor over the values: constants are copied, and intermediates checked. -/
def emplaceConstants (g : Graph F) (checkIntermediate : GraphValue → Except Exn Unit) :
    List GraphValue → List (Option (Stored F)) → Except Exn (List (Option (Stored F)))
  | [], values => .ok values
  | value :: rest, values =>
    match value.kind with
    | .constant => do
      let tensor ← Ops.copy (← g.constant value.id)
      emplaceConstants g checkIntermediate rest (values.set value.id (some ⟨tensor, none⟩))
    | .intermediate => do
      checkIntermediate value
      emplaceConstants g checkIntermediate rest values
    | .input => emplaceConstants g checkIntermediate rest values

/-- `ExecutionContext(graph)` -/
def ofGraph (g : GraphObject F) (buffer : Nat → F) : Except Exn (ExecutionContext F) := do
  g.tables.validate
  let values ← emplaceConstants g.tables (fun _ => .ok ()) g.tables.values
    (List.replicate g.tables.values.length none)
  .ok { address := g.address, graphValueCount := g.tables.values.length, values,
        plannedBuffer := buffer }

/-- The checks of the constructor on the plan of an intermediate. -/
def checkPlanned (plan : MemoryPlan) (value : GraphValue) : Except Exn Unit := do
  require (← plan.hasAllocation value.id)
    (.invalidArgument "memory plan does not cover every intermediate value")
  let expectedBytes ← (← TensorLayout.ofShape value.spec.shape).sizeBytes value.spec.dtype
  require ((← plan.allocation value.id).sizeBytes == expectedBytes)
    (.invalidArgument "memory plan does not match graph value metadata")
  require ((← plan.lifetime value.id).value == value.id)
    (.invalidArgument "memory plan does not match graph value metadata")

/-- `ExecutionContext(graph, memory_plan)`, with a buffer that holds whatever it held before. -/
def ofPlan (g : GraphObject F) (plan : GraphPlan) (buffer : Nat → F) :
    Except Exn (ExecutionContext F) := do
  g.tables.validate
  require (plan.isOf g) (.invalidArgument "memory plan belongs to another graph")
  let values ← emplaceConstants g.tables (checkPlanned plan.plan) g.tables.values
    (List.replicate g.tables.values.length none)
  .ok {
    address := g.address
    graphValueCount := g.tables.values.length
    values
    memoryPlan := some plan.plan
    plannedBuffer := buffer }

end ExecutionContext

/-! ## The executor -/

namespace Executor

open ExecutionContext

variable {F : Type} [Ops.KernelScalar F] [DecidableEq F] (simd : Cpu.Simd) (g : GraphObject F)

/-- `input(node, context, index)` -/
def input (node : Node) (c : ExecutionContext F) (index : Nat) : Except Exn (Tensor F) :=
  match node.inputs[index]? with
  | none => .error (.outOfRange "vector::_M_range_check")
  | some id => c.value g id

/-- What the kernel of a node does before it asks for its output. -/
def beforeOutput (node : Node) (c : ExecutionContext F) : Except Exn Unit := do
  Ops.checkActivation node.op node.attributes
  if (node.op = .gemm ∨ node.op = .fusedGemmActivation) ∧ node.inputs.length = 3 then do
    let _ ← input g node c 2
    .ok ()
  else .ok ()

/-- `OperatorRegistry::execute` -/
def execute (node : Node) : Throwing Exn (ExecutionContext F) Unit := do
  Throwing.check (beforeOutput g node)
  Throwing.check fun _ => require (node.outputs.length == 1)
    (.logicError "CPU kernel expects exactly one output")
  let output ← prepareOutput g (node.outputs.headD 0)
  let result ← Throwing.check fun c =>
    Ops.kernel simd node.attributes output (input g node c) node.inputs.length node.op
  Throwing.modify (store (node.outputs.headD 0) result)

/-- The loop over the steps. -/
def runSteps : List (NodeId × Nat) → Throwing Exn (ExecutionContext F) Unit
  | [] => pure ()
  | (id, step) :: rest => do
    let node ← Throwing.check fun _ => g.tables.node id
    Throwing.check fun _ => require (Backend.CpuBackend.supports node.op)
      (.runtimeError "operator is not supported by the selected backend")
    execute simd g node
    releaseAfterStep g step
    runSteps rest

/-- `Executor::run` with a `CpuBackend` -/
def run : Throwing Exn (ExecutionContext F) Unit := do
  Throwing.check fun c => require (c.address == g.address)
    (.invalidArgument "ExecutionContext belongs to another graph")
  Throwing.check fun c => c.requireAllInputsBound g
  clearIntermediates g
  let order ← Throwing.check fun _ => g.tables.topologicalOrder
  runSteps simd g order.zipIdx

end Executor

end TinyInfer
