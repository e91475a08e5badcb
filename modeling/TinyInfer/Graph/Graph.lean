import TinyInfer.Core.Tensor
import TinyInfer.Lib.Throwing

/-!
# Computation graphs (`graph/graph.cpp`)

The tables of a graph and the functions that add to them. A function that throws is
a `Throwing`: it runs its checks before it touches a table. `topologicalOrder` checks
all tables again and sorts the nodes with Kahn's algorithm, the smallest id first.
-/

namespace TinyInfer

open Lib (Throwing)

inductive ValueKind where
  | input
  | constant
  | intermediate
  deriving DecidableEq, Repr

structure GraphValue where
  id : ValueId
  name : String
  spec : TensorSpec
  kind : ValueKind
  producer : Option NodeId
  deriving DecidableEq, Repr

structure Node where
  id : NodeId
  name : String
  op : OpType
  inputs : List ValueId
  outputs : List ValueId
  attributes : NodeAttributes
  deriving DecidableEq, Repr

structure Graph (α : Type) where
  nodes : List Node := []
  values : List GraphValue := []
  constants : List (Option (Tensor α)) := []
  inputIds : List ValueId := []
  outputIds : List ValueId := []

namespace Graph

variable {α : Type}

/-! ## Construction -/

def requireUniqueName (g : Graph α) (name : String) : Except Exn Unit := do
  require (name != "") (.invalidArgument "graph names must not be empty")
  require (!(g.values.any (·.name == name) || g.nodes.any (·.name == name)))
    (.invalidArgument "graph names must be unique")

/-- A function of the graph that checks first and then changes it. -/
def checked {β : Type} (checks : Graph α → Except Exn β) {γ : Type}
    (change : β → Graph α → γ × Graph α) : Throwing Exn (Graph α) γ := fun g =>
  match checks g with
  | .error e => (.error e, g)
  | .ok b => (.ok (change b g).1, (change b g).2)

/-- The tables with one more input. -/
def pushInput (g : Graph α) (name : String) (spec : TensorSpec) : Graph α :=
  { g with
    values := g.values ++ [⟨g.values.length, name, spec, .input, none⟩]
    constants := g.constants ++ [none]
    inputIds := g.inputIds ++ [g.values.length] }

def addInput (name : String) (spec : TensorSpec) : Throwing Exn (Graph α) ValueId :=
  checked
    (fun g => do
      g.requireUniqueName name
      validateSpec spec)
    fun () g => (g.values.length, g.pushInput name spec)

/-- The tables with one more constant. -/
def pushConstant (g : Graph α) (name : String) (tensor : Tensor α) : Graph α :=
  { g with
    values := g.values ++ [⟨g.values.length, name, tensor.spec, .constant, none⟩]
    constants := g.constants ++ [some tensor] }

def addConstant (name : String) (tensor : Tensor α) : Throwing Exn (Graph α) ValueId :=
  checked
    (fun g => do
      g.requireUniqueName name
      validateSpec tensor.spec)
    fun () g => (g.values.length, g.pushConstant name tensor)

/-- The specs of the inputs of a node. -/
def inputSpecs (g : Graph α) (inputs : List ValueId) (e : Exn) : Except Exn (List TensorSpec) :=
  inputs.mapM fun id =>
    match g.values[id]? with
    | none => .error e
    | some value => .ok value.spec

/-- The name of output `index` of a node. -/
def outputName (name : String) (index : Nat) : String := name ++ ":" ++ toString index

/-- The tables with one more node, and a value for each of its outputs. -/
def pushNode (g : Graph α) (name : String) (op : OpType) (inputs : List ValueId)
    (attributes : NodeAttributes) (specs : List TensorSpec) : Graph α :=
  { g with
    values := g.values ++ specs.mapIdx fun index spec =>
      ⟨g.values.length + index, outputName name index, spec, .intermediate, some g.nodes.length⟩
    constants := g.constants ++ specs.map fun _ => none
    nodes := g.nodes ++ [{
      id := g.nodes.length, name, op, inputs, attributes
      outputs := (List.range specs.length).map (g.values.length + ·) }] }

/-- The checks of `add_node`; they yield the specs of the outputs. -/
def addNodeChecks (g : Graph α) (name : String) (op : OpType) (inputs : List ValueId)
    (attributes : NodeAttributes) : Except Exn (List TensorSpec) := do
  g.requireUniqueName name
  let specs ← g.inputSpecs inputs (.invalidArgument "graph input value does not exist")
  let outputs ← inferOutputSpecs op specs attributes
  outputs.forM validateSpec
  (List.range outputs.length).forM fun index => g.requireUniqueName (outputName name index)
  .ok outputs

def addNode (name : String) (op : OpType) (inputs : List ValueId) (attributes : NodeAttributes) :
    Throwing Exn (Graph α) NodeId :=
  checked (fun g => g.addNodeChecks name op inputs attributes)
    fun outputs g => (g.nodes.length, g.pushNode name op inputs attributes outputs)

def value (g : Graph α) (id : ValueId) : Except Exn GraphValue :=
  match g.values[id]? with
  | none => .error (.outOfRange "graph value id is out of range")
  | some value => .ok value

def markOutput (id : ValueId) : Throwing Exn (Graph α) Unit :=
  checked
    (fun g => do
      let _ ← g.value id
      require (!g.outputIds.contains id) (.invalidArgument "graph output is already registered"))
    fun () g => ((), { g with outputIds := g.outputIds ++ [id] })

/-! ## Validation -/

/-- The ids of the inputs, or of the outputs, exist and differ. -/
def checkRegistered (count : Nat) (outOfRange twice : Exn) : List ValueId → List ValueId →
    Except Exn Unit
  | _, [] => .ok ()
  | seen, id :: ids => do
    require (id < count) outOfRange
    require (!seen.contains id) twice
    checkRegistered count outOfRange twice (id :: seen) ids

/-- The checks on the value at index `id`. -/
def checkValue (g : Graph α) (id : ValueId) (value : GraphValue) : Except Exn Unit := do
  let registered := g.inputIds.contains id
  let constant := (g.constants[id]?).join
  match value.kind with
  | .input =>
    require (registered && value.producer.isNone && constant.isNone)
      (.logicError "graph input value metadata is inconsistent")
  | .constant =>
    require (!registered && value.producer.isNone && constant.isSome)
      (.logicError "graph constant value metadata is inconsistent")
    require (constant.all (·.spec == value.spec))
      (.logicError "graph constant TensorSpec is inconsistent")
  | .intermediate =>
    require (!registered && value.producer.isSome && constant.isNone)
      (.logicError "graph intermediate value metadata is inconsistent")
    require (value.producer.all (· < g.nodes.length))
      (.logicError "graph value producer is out of range")

/-- The loop over the values; it collects their names. -/
def checkValues (g : Graph α) : List (GraphValue × ValueId) → List String → Except Exn (List String)
  | [], names => .ok names
  | (value, id) :: values, names => do
    require (value.id == id) (.logicError "graph value id does not match its table index")
    validateSpec value.spec
    require (!names.contains value.name) (.logicError "graph contains duplicate names")
    checkValue g id value
    checkValues g values (value.name :: names)

/-- The producers of the inputs of a node, in increasing order without repetition. -/
def dependencies (g : Graph α) (node : Node) : List NodeId :=
  ((node.inputs.filterMap fun id => (g.values[id]?).bind (·.producer)).mergeSort).dedup

/-- The loop over the outputs of a node; it collects the values produced so far. -/
def checkOutputs (g : Graph α) (node : Node) : List (ValueId × TensorSpec) → List ValueId →
    Except Exn (List ValueId)
  | [], produced => .ok produced
  | (output, inferred) :: outputs, produced => do
    match g.values[output]? with
    | none => .error (.logicError "graph node output value is out of range")
    | some value =>
      require (!produced.contains output) (.logicError "graph value has multiple producers")
      require (value.kind == .intermediate && value.producer == some node.id &&
        value.spec == inferred)
        (.logicError "graph node output metadata is inconsistent")
      checkOutputs g node outputs (output :: produced)

/-- The loop over the nodes. -/
def checkNodes (g : Graph α) : List (Node × NodeId) → List String → List ValueId →
    Except Exn (List ValueId)
  | [], _, produced => .ok produced
  | (node, id) :: nodes, names, produced => do
    require (node.id == id) (.logicError "graph node id does not match its table index")
    require (!names.contains node.name) (.logicError "graph contains duplicate names")
    require (!node.outputs.isEmpty) (.logicError "graph node must produce at least one value")
    let specs ← g.inputSpecs node.inputs (.logicError "graph node input value is out of range")
    let inferred ← inferOutputSpecs node.op specs node.attributes
    require (inferred.length == node.outputs.length)
      (.logicError "graph node output count violates its schema")
    let produced ← checkOutputs g node (node.outputs.zip inferred) produced
    require ((g.dependencies node).all (· < g.nodes.length))
      (.logicError "graph node dependency is out of range")
    checkNodes g nodes (node.name :: names) produced

/-- `consumers[id]`: the nodes that depend on a node, in increasing order. -/
def consumers (g : Graph α) (id : NodeId) : List NodeId :=
  (g.nodes.filter fun node => (g.dependencies node).contains id).map Node.id

/-- One pop of the queue: the consumers of a node lose a dependency, and those without
any left are ready. -/
def releaseConsumers : List NodeId → List NodeId → (NodeId → Nat) → List NodeId × (NodeId → Nat)
  | [], ready, indegree => (ready, indegree)
  | consumer :: rest, ready, indegree =>
    let left := indegree consumer - 1
    releaseConsumers rest (if left = 0 then consumer :: ready else ready)
      (Function.update indegree consumer left)

/-- The loop over the queue. Every node is ready once, so it ends after as many
rounds as there are nodes. -/
def kahn (g : Graph α) : Nat → List NodeId → (NodeId → Nat) → List NodeId
  | 0, _, _ => []
  | fuel + 1, ready, indegree =>
    match ready.min? with
    | none => []
    | some id =>
      let (ready, indegree) := releaseConsumers (g.consumers id) (ready.erase id) indegree
      id :: kahn g fuel ready indegree

def topologicalOrder (g : Graph α) : Except Exn (List NodeId) := do
  require (g.constants.length == g.values.length)
    (.logicError "graph value and constant tables are inconsistent")
  require (!g.outputIds.isEmpty) (.invalidArgument "graph must register at least one output")
  checkRegistered g.values.length (.logicError "graph input id is out of range")
    (.logicError "graph input is registered more than once") [] g.inputIds
  checkRegistered g.values.length (.logicError "graph output id is out of range")
    (.logicError "graph output is registered more than once") [] g.outputIds
  let names ← g.checkValues g.values.zipIdx []
  let produced ← g.checkNodes g.nodes.zipIdx names []
  require (g.values.zipIdx.all fun p => p.1.kind != .intermediate || produced.contains p.2)
    (.logicError "graph intermediate value has no producer")
  let indegree (id : NodeId) : Nat := (g.nodes[id]?).elim 0 fun node => (g.dependencies node).length
  let order := g.kahn g.nodes.length ((List.range g.nodes.length).filter (indegree · = 0)) indegree
  require (order.length == g.nodes.length) (.invalidArgument "graph contains a cycle")
  .ok order

def validate (g : Graph α) : Except Exn Unit := do
  let _ ← g.topologicalOrder
  .ok ()

end Graph

end TinyInfer
