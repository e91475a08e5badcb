import TinyInfer.Model.Model

/-!
# Rewriting a graph (`graph/graph_analysis.cpp`, `graph/optimizer/graph_rewriter.cpp`)

A `GraphRewriter` builds a new graph out of a model, value by value and node by node,
and keeps for every value of the model the value that stands for it. `kInvalidValueId`
is `none`. A member function that throws ends the pass, and the rewriter with it, so
what it leaves behind is not modelled.

Main definitions: `Graph.useCount`, `GraphRewriter`, `GraphRewriter.replaceNode`,
`GraphRewriter.finish`.
-/

namespace TinyInfer

open Lib (Throwing)

namespace Graph

variable {α : Type} (g : Graph α)

/-! ## Reading a graph -/

def node (id : NodeId) : Except Exn Node :=
  match g.nodes[id]? with
  | none => .error (.outOfRange "graph node id is out of range")
  | some node => .ok node

def constant (id : ValueId) : Except Exn (Tensor α) := do
  let _ ← g.value id
  match (g.constants[id]?).join with
  | none => .error (.invalidArgument "graph value is not a constant")
  | some tensor => .ok tensor

def isConstant (id : ValueId) : Bool := ((g.constants[id]?).join).isSome

/-- `GraphAnalysis::use_count` of a value of the graph. -/
def useCount (id : ValueId) : Nat := (g.nodes.map fun node => node.inputs.count id).sum

/-- `GraphAnalysis::consumers` of a value of the graph. -/
def valueConsumers (id : ValueId) : List NodeId :=
  (g.nodes.filter fun node => node.inputs.contains id).map Node.id

/-- `GraphAnalysis::is_graph_output` of a value of the graph. -/
def isGraphOutput (id : ValueId) : Bool := g.outputIds.contains id

end Graph

namespace Optimizer

variable {α : Type}

structure GraphRewriter (α : Type) where
  graph : BuiltGraph α := {}
  valueMapping : List (Option ValueId)
  finished : Bool := false

namespace GraphRewriter

/-- The value that stands for a value of the source. -/
def mapped (r : GraphRewriter α) (id : ValueId) : Option ValueId := (r.valueMapping[id]?).join

def setMapped (r : GraphRewriter α) (id mapped : ValueId) : GraphRewriter α :=
  { r with valueMapping := r.valueMapping.set id (some mapped) }

/-- A call of a function of the new graph. -/
def onGraph {γ : Type} (f : Throwing Exn (BuiltGraph α) γ) (r : GraphRewriter α) :
    Except Exn (γ × GraphRewriter α) :=
  match f r.graph with
  | (.error e, _) => .error e
  | (.ok c, graph) => .ok (c, { r with graph })

def requireOpen (r : GraphRewriter α) : Except Exn Unit :=
  require (!r.finished) (.logicError "cannot modify a finished graph rewrite")

/-- The loop of the constructor over the inputs of the graph. -/
def addInputs (source : Graph α) : List ValueId → GraphRewriter α → Except Exn (GraphRewriter α)
  | [], r => .ok r
  | input :: inputs, r => do
    let value ← source.value input
    let (mapped, r) ← r.onGraph (BuiltGraph.addInput value.name value.spec)
    addInputs source inputs (r.setMapped input mapped)

/-- The constructor. -/
def start (source : Model α) : Except Exn (GraphRewriter α) :=
  let g := source.graph.tables
  addInputs g g.inputIds { valueMapping := List.replicate g.values.length none }

/-- `copy_value` of a value that is not mapped yet. -/
def copyUnmapped (source : Model α) (id : ValueId) (value : GraphValue) (r : GraphRewriter α) :
    Except Exn (ValueId × GraphRewriter α) :=
  match value.kind with
  | .constant => do
    let tensor ← source.graph.tables.constant id
    let (mapped, r) ← r.onGraph (BuiltGraph.addConstant value.name tensor)
    .ok (mapped, r.setMapped id mapped)
  | .input => .error (.logicError "graph input was not initialized by GraphRewriter")
  | .intermediate =>
    .error (.logicError "cannot copy an intermediate before copying its producer")

def copyValue (source : Model α) (id : ValueId) (r : GraphRewriter α) :
    Except Exn (ValueId × GraphRewriter α) := do
  r.requireOpen
  let value ← source.graph.tables.value id
  match r.mapped id with
  | some mapped => .ok (mapped, r)
  | none => r.copyUnmapped source id value

/-- The loop of `replace_node` over the inputs. -/
def copyValues (source : Model α) : List ValueId → GraphRewriter α →
    Except Exn (List ValueId × GraphRewriter α)
  | [], r => .ok ([], r)
  | id :: ids, r => do
    let (mapped, r) ← r.copyValue source id
    let (rest, r) ← copyValues source ids r
    .ok (mapped :: rest, r)

/-- The loop of `replace_node` over the outputs of the node and of its replacement. -/
def mapOutputs (source : Graph α) : List (ValueId × ValueId) → GraphRewriter α →
    Except Exn (GraphRewriter α)
  | [], r => .ok r
  | (output, mapped) :: outputs, r => do
    let image ← r.graph.tables.value mapped
    let value ← source.value output
    require (image.spec == value.spec) (.logicError "rewritten node output TensorSpec changed")
    mapOutputs source outputs (r.setMapped output mapped)

def replaceNode (source : Model α) (id : NodeId) (op : OpType) (inputs : List ValueId)
    (attributes : NodeAttributes) (r : GraphRewriter α) :
    Except Exn (NodeId × GraphRewriter α) := do
  r.requireOpen
  let node ← source.graph.tables.node id
  require (node.outputs.all fun output => (r.mapped output).isNone)
    (.logicError "source value was rewritten more than once")
  let (inputs, r) ← r.copyValues source inputs
  let (mappedNode, r) ← r.onGraph (BuiltGraph.addNode node.name op inputs attributes)
  let image ← r.graph.tables.node mappedNode
  require (image.outputs.length == node.outputs.length)
    (.logicError "rewritten node output count changed")
  let r ← r.mapOutputs source.graph.tables (node.outputs.zip image.outputs)
  .ok (mappedNode, r)

def copyNode (source : Model α) (id : NodeId) (r : GraphRewriter α) :
    Except Exn (NodeId × GraphRewriter α) := do
  let node ← source.graph.tables.node id
  r.replaceNode source id node.op node.inputs node.attributes

def replaceWithConstant (source : Model α) (id : ValueId) (tensor : Tensor α)
    (r : GraphRewriter α) : Except Exn (ValueId × GraphRewriter α) := do
  r.requireOpen
  let value ← source.graph.tables.value id
  require (r.mapped id).isNone (.logicError "source value was rewritten more than once")
  require (tensor.spec == value.spec)
    (.invalidArgument "replacement constant does not match the source TensorSpec")
  let (mapped, r) ← r.onGraph (BuiltGraph.addConstant value.name tensor)
  .ok (mapped, r.setMapped id mapped)

/-- The loop of the passes that copies the values of a list that are not mapped yet. -/
def copyMissing (source : Model α) : List ValueId → GraphRewriter α → Except Exn (GraphRewriter α)
  | [], r => .ok r
  | id :: ids, r => do
    if (r.mapped id).isNone then
      let (_, r) ← r.copyValue source id
      copyMissing source ids r
    else copyMissing source ids r

/-- The first loop of `finish`. -/
def finishInputs (r : GraphRewriter α) : List (String × ValueId) →
    Except Exn (List (String × ValueId))
  | [] => .ok []
  | input :: inputs => do
    match r.mapped input.2 with
    | none => .error (.logicError "rewritten model input is missing")
    | some mapped =>
      let rest ← finishInputs r inputs
      .ok ((input.1, mapped) :: rest)

/-- The second loop of `finish`. -/
def finishOutputs : List (String × ValueId) → GraphRewriter α →
    Except Exn (List (String × ValueId) × GraphRewriter α)
  | [], r => .ok ([], r)
  | output :: outputs, r => do
    match r.mapped output.2 with
    | none => .error (.logicError "rewritten model output is missing")
    | some mapped =>
      let (_, r) ← r.onGraph (BuiltGraph.markOutput mapped)
      let (rest, r) ← finishOutputs outputs r
      .ok ((output.1, mapped) :: rest, r)

def finish (source : Model α) (r : GraphRewriter α) : Except Exn (Model α) := do
  require (!r.finished) (.logicError "graph rewrite was already finished")
  let inputs ← r.finishInputs source.inputs
  let (outputs, r) ← r.finishOutputs source.outputs
  Model.make r.graph inputs outputs

end GraphRewriter

end Optimizer

end TinyInfer
