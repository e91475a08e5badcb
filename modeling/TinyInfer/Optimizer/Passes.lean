import TinyInfer.Backend.Capability
import TinyInfer.Optimizer.GraphRewriter

/-!
# The optimizer passes (`graph/optimizer/*_pass.cpp`, `graph/optimizer/pass_manager.cpp`)

A pass takes a model and returns another with a mapping of the values and statistics.
The two passes that fuse a pair of nodes differ in the pairs they look for, their
`candidate`; the rest of them is `fuse`. What `ConstantFoldingPass` gets from the
executor is a parameter, `execute`: the output of a graph all of whose values are
constants or computed from these.

Main definitions: `DeadCodeEliminationPass.run`, `ConstantFoldingPass.run`,
`MatMulAddCanonicalizationPass.run`, `GemmActivationFusionPass.run`, `PassManager.run`.
-/

namespace TinyInfer.Optimizer

open Backend (CpuBackend.supports)

variable {α : Type}

structure PassStatistics where
  passName : String
  nodesBefore : Nat := 0
  nodesAfter : Nat := 0
  valuesBefore : Nat := 0
  valuesAfter : Nat := 0
  nodesRewritten : Nat := 0
  changed : Bool := false
  deriving DecidableEq, Repr

structure OptimizationResult (α : Type) where
  model : Model α
  valueMapping : List (Option ValueId)
  passStatistics : List PassStatistics

namespace OptimizationResult

def mappedValue (result : OptimizationResult α) (original : ValueId) :
    Except Exn (Option ValueId) :=
  match result.valueMapping[original]? with
  | none => .error (.outOfRange "optimization source ValueId is out of range")
  | some mapped => .ok mapped

def changed (result : OptimizationResult α) : Bool := result.passStatistics.any (·.changed)

end OptimizationResult

structure GraphPass (α : Type) where
  name : String
  run : Model α → Except Exn (OptimizationResult α)

/-- The statistics of a pass, with the sizes of both graphs. -/
def sizes (name : String) (before after : Graph α) : PassStatistics where
  passName := name
  nodesBefore := before.nodes.length
  nodesAfter := after.nodes.length
  valuesBefore := before.values.length
  valuesAfter := after.values.length

/-- The mapping of a pass that leaves a model as it is. -/
def identityMapping (count : Nat) : List (Option ValueId) := (List.range count).map some

/-- The result of a pass that leaves a model as it is. -/
def untouched (name : String) (model : Model α) : OptimizationResult α where
  model := model
  valueMapping := identityMapping model.graph.tables.values.length
  passStatistics := [sizes name model.graph.tables model.graph.tables]

namespace NoOpPass

def run (model : Model α) : Except Exn (OptimizationResult α) := .ok (untouched "NoOpPass" model)

end NoOpPass

/-! ## Dead code -/

namespace DeadCodeEliminationPass

/-- `live_values` and `live_nodes` -/
structure Live where
  values : ValueId → Bool := fun _ => false
  nodes : NodeId → Bool := fun _ => false

/-- The loop over `pending`, the last value first. A value comes into `pending` as an
output of the graph or as an input of a node that was not live before, so that many
rounds are enough (`rounds`). -/
def markLive (g : Graph α) : Nat → List ValueId → Live → Except Exn Live
  | 0, _, live | _, [], live => .ok live
  | fuel + 1, id :: pending, live =>
    if live.values id then markLive g fuel pending live
    else do
      let live := { live with values := Function.update live.values id true }
      let value ← g.value id
      match value.producer with
      | none => markLive g fuel pending live
      | some producer =>
        if live.nodes producer then markLive g fuel pending live
        else
          let node ← g.node producer
          markLive g fuel (node.inputs.reverse ++ pending)
            { live with nodes := Function.update live.nodes producer true }

def rounds (g : Graph α) : Nat := g.outputIds.length + (g.nodes.map (·.inputs.length)).sum

/-- A round of the loop over the nodes. -/
def step (model : Model α) (live : Live) (r : GraphRewriter α) (id : NodeId) :
    Except Exn (GraphRewriter α) :=
  if live.nodes id then do
    let (_, r) ← r.copyNode model id
    .ok r
  else .ok r

def run (model : Model α) : Except Exn (OptimizationResult α) := do
  let source := model.graph.tables
  let live ← markLive source (rounds source) source.outputIds.reverse {}
  let r ← GraphRewriter.start model
  let order ← source.topologicalOrder
  let r ← order.foldlM (step model live) r
  let r ← r.copyMissing model source.outputIds
  let optimized ← r.finish model
  let statistics := sizes "DeadCodeEliminationPass" source optimized.graph.tables
  .ok {
    model := optimized
    valueMapping := r.valueMapping
    passStatistics := [{ statistics with
      nodesRewritten := source.nodes.length - optimized.graph.tables.nodes.length
      changed := statistics.nodesBefore != statistics.nodesAfter ||
        statistics.valuesBefore != statistics.valuesAfter }] }

end DeadCodeEliminationPass

/-! ## Constants -/

namespace ConstantFoldingPass

/-- A call of a function of a graph that is dropped when the call throws. -/
def call {γ : Type} (f : Lib.Throwing Exn (BuiltGraph α) γ) (g : BuiltGraph α) :
    Except Exn (γ × BuiltGraph α) :=
  match f g with
  | (.error e, _) => .error e
  | (.ok c, g) => .ok (c, g)

/-- The name of a constant in the graph of one node. -/
def inputName (name : String) (index : Nat) : String := name ++ "/constant_input/" ++ toString index

/-- The loop of `evaluate_constant_node` over the inputs, from `index` on. -/
def addConstants (name : String) : Nat → List (Tensor α) → BuiltGraph α →
    Except Exn (List ValueId × BuiltGraph α)
  | _, [], g => .ok ([], g)
  | index, tensor :: tensors, g => do
    let (id, g) ← call (BuiltGraph.addConstant (inputName name index) tensor) g
    let (ids, g) ← addConstants name (index + 1) tensors g
    .ok (id :: ids, g)

def evaluateConstantNode (execute : Graph α → ValueId → Except Exn (Tensor α)) (node : Node)
    (inputs : List (Tensor α)) : Except Exn (Tensor α) := do
  let (ids, g) ← addConstants node.name 0 inputs {}
  let (id, g) ← call (BuiltGraph.addNode node.name node.op ids node.attributes) g
  let added ← g.tables.node id
  let output := added.outputs.headD 0
  let (_, g) ← call (BuiltGraph.markOutput output) g
  execute g.tables output

/-- The state of the loop over the nodes: the rewriter, `known_constants` and
`folded_nodes`. -/
structure Folding (α : Type) where
  rewriter : GraphRewriter α
  known : ValueId → Option (Tensor α)
  folded : Nat := 0

/-- A node with one output that the CPU runs and whose inputs are all known. -/
def foldable (known : ValueId → Option (Tensor α)) (node : Node) : Bool :=
  node.outputs.length == 1 && CpuBackend.supports node.op && node.inputs.all fun id =>
    (known id).isSome

/-- A round of the loop over the nodes. -/
def step (execute : Graph α → ValueId → Except Exn (Tensor α)) (model : Model α) (f : Folding α)
    (id : NodeId) : Except Exn (Folding α) := do
  let node ← model.graph.tables.node id
  if foldable f.known node then
    let tensor ← evaluateConstantNode execute node (node.inputs.filterMap f.known)
    let output := node.outputs.headD 0
    let (_, r) ← f.rewriter.replaceWithConstant model output tensor
    .ok {
      rewriter := r
      known := Function.update f.known output (some tensor)
      folded := f.folded + 1 }
  else
    let (_, r) ← f.rewriter.copyNode model id
    .ok { f with rewriter := r }

def run (execute : Graph α → ValueId → Except Exn (Tensor α)) (model : Model α) :
    Except Exn (OptimizationResult α) := do
  let source := model.graph.tables
  let r ← GraphRewriter.start model
  let known (id : ValueId) : Option (Tensor α) := (source.constants[id]?).join
  let order ← source.topologicalOrder
  let f ← order.foldlM (step execute model) { rewriter := r, known }
  let r ← f.rewriter.copyMissing model source.outputIds
  let optimized ← r.finish model
  .ok {
    model := optimized
    valueMapping := r.valueMapping
    passStatistics := [{ sizes "ConstantFoldingPass" source optimized.graph.tables with
      nodesRewritten := f.folded
      changed := f.folded != 0 }] }

end ConstantFoldingPass

/-! ## Fusing two nodes -/

/-- What a node becomes, and the node that goes with it. -/
structure Candidate where
  removed : NodeId
  op : OpType
  inputs : List ValueId
  attributes : NodeAttributes
  deriving DecidableEq, Repr

/-- The call of `infer_output_specs` in `match`, with its handlers: the operator gives
the value `out` the spec it has. -/
def fits (g : Graph α) (op : OpType) (inputs : List ValueId) (attributes : NodeAttributes)
    (out : ValueId) : Except Exn Bool :=
  match inferOutputSpecs op (inputs.filterMap fun id => (g.values[id]?).map (·.spec))
    attributes with
  | .ok inferred => .ok (inferred.length == 1 && inferred.head? == (g.values[out]?).map (·.spec))
  | .error (.invalidArgument _) | .error (.outOfRange _) | .error (.overflowError _) => .ok false
  | .error e => .error e

/-- `match`, of the pass that looks for `candidate`. -/
def matchNode (candidate : Graph α → Node → Option Candidate) (g : Graph α) (node : Node) :
    Except Exn (Option Candidate) :=
  match candidate g node with
  | none => .ok none
  | some c => do
    let fit ← fits g c.op c.inputs c.attributes (node.outputs.headD 0)
    .ok (if fit then some c else none)

/-- A round of the loop over the nodes; it counts the nodes that were fused. -/
def fuseStep (model : Model α) (candidates : List (Option Candidate))
    (state : GraphRewriter α × Nat) (id : NodeId) : Except Exn (GraphRewriter α × Nat) :=
  let removed := candidates.filterMap fun c => c.map Candidate.removed
  if removed.contains id then .ok state
  else
    match (candidates[id]?).join with
    | some c => do
      let (_, r) ← state.1.replaceNode model id c.op c.inputs c.attributes
      .ok (r, state.2 + 1)
    | none => do
      let (_, r) ← state.1.copyNode model id
      .ok (r, state.2)

def constantIds (g : Graph α) : List ValueId := (g.values.filter (·.kind == .constant)).map (·.id)

/-- The part of a pass after its first loop found a candidate. -/
def fuseCandidates (name : String) (candidates : List (Option Candidate)) (model : Model α) :
    Except Exn (OptimizationResult α) := do
  let source := model.graph.tables
  let r ← GraphRewriter.start model
  let order ← source.topologicalOrder
  let (r, fused) ← order.foldlM (fuseStep model candidates) (r, 0)
  let r ← r.copyMissing model (constantIds source)
  let r ← r.copyMissing model source.outputIds
  let optimized ← r.finish model
  .ok {
    model := optimized
    valueMapping := r.valueMapping
    passStatistics := [{ sizes name source optimized.graph.tables with
      nodesRewritten := fused
      changed := fused != 0 }] }

def fuse (name : String) (candidate : Graph α → Node → Option Candidate) (model : Model α) :
    Except Exn (OptimizationResult α) := do
  let source := model.graph.tables
  source.validate
  let candidates ← source.nodes.mapM (matchNode candidate source)
  if candidates.all Option.isNone then .ok (untouched name model)
  else fuseCandidates name candidates model

/-- The node with this operator that produces a value. -/
def producerOf (g : Graph α) (op : OpType) (id : ValueId) : Option NodeId :=
  ((g.values[id]?).bind (·.producer)).filter fun p => (g.nodes[p]?).any (·.op == op)

/-- Only the node `user` uses the value, once, and it is no output of the graph. -/
def usedOnce (g : Graph α) (id : ValueId) (user : NodeId) : Bool :=
  g.useCount id == 1 && !g.isGraphOutput id && g.valueConsumers id == [user]

namespace MatMulAddCanonicalizationPass

def canonicalAttributes : NodeAttributes :=
  [("alpha", .float .one), ("beta", .float .one), ("transA", .integer 0), ("transB", .integer 0)]

/-- The loop of `match` over the inputs: the only one that a `MatMul` produces. -/
def findProduct (g : Graph α) : List (ValueId × Nat) → Option (Nat × NodeId) → Option (Nat × NodeId)
  | [], found => found
  | (id, index) :: inputs, found =>
    match producerOf g .matMul id, found with
    | none, found => findProduct g inputs found
    | some _, some _ => none
    | some matmul, none => findProduct g inputs (some (index, matmul))

/-- An `Add` of a bias to a `MatMul` that nothing else uses becomes a `Gemm`. -/
def candidate (g : Graph α) (add : Node) : Option Candidate := do
  guard (add.op == .add && add.inputs.length == 2 && add.outputs.length == 1)
  let (index, matmulId) ← findProduct g add.inputs.zipIdx none
  let product ← add.inputs[index]?
  let matmul ← g.nodes[matmulId]?
  guard (matmul.inputs.length == 2 && matmul.outputs == [product] && usedOnce g product add.id)
  let bias ← add.inputs[1 - index]?
  some {
    removed := matmulId
    op := .gemm
    inputs := matmul.inputs ++ [bias]
    attributes := canonicalAttributes }

def run (model : Model α) : Except Exn (OptimizationResult α) :=
  fuse "MatMulAddCanonicalizationPass" candidate model

end MatMulAddCanonicalizationPass

namespace GemmActivationFusionPass

/-- `attributes["activation"] = "relu"` -/
def activate (attributes : NodeAttributes) : NodeAttributes :=
  ("activation", .string "relu") :: attributes.filter (·.1 != "activation")

/-- A `ReLU` of a `Gemm` that nothing else uses becomes a `FusedGemmActivation`. -/
def candidate (g : Graph α) (activation : Node) : Option Candidate := do
  guard (activation.op == .reLU && activation.inputs.length == 1 && activation.outputs.length == 1)
  let output ← activation.inputs.head?
  let producer ← producerOf g .gemm output
  guard (usedOnce g output activation.id)
  let gemm ← g.nodes[producer]?
  guard (gemm.outputs == [output])
  some {
    removed := producer
    op := .fusedGemmActivation
    inputs := gemm.inputs
    attributes := activate gemm.attributes }

def run (model : Model α) : Except Exn (OptimizationResult α) :=
  fuse "GemmActivationFusionPass" candidate model

end GemmActivationFusionPass

/-! ## Pipelines -/

namespace PassManager

/-- The loops of `validate_interface` over the bindings. -/
def checkBindings (mapping : List (Option ValueId)) (e : Exn) :
    List ((String × ValueId) × (String × ValueId)) → Except Exn Unit
  | [] => .ok ()
  | (source, target) :: bindings => do
    require (source.1 == target.1 && (mapping[source.2]?).join == some target.2) e
    checkBindings mapping e bindings

def validateInterface (before after : Model α) (mapping : List (Option ValueId)) (name : String) :
    Except Exn Unit := do
  require (mapping.length == before.graph.tables.values.length)
    (.logicError (name ++ " returned a ValueId mapping with the wrong size"))
  require (mapping.all fun mapped => mapped.all (· < after.graph.tables.values.length))
    (.logicError (name ++ " returned an out-of-range mapped ValueId"))
  require (before.inputs.length == after.inputs.length &&
    before.outputs.length == after.outputs.length)
    (.logicError (name ++ " changed the model interface size"))
  checkBindings mapping (.logicError (name ++ " did not preserve a model input binding"))
    (before.inputs.zip after.inputs)
  checkBindings mapping (.logicError (name ++ " did not preserve a model output binding"))
    (before.outputs.zip after.outputs)

/-- It yields the record that it has checked. -/
def validateStatistics (before : Model α) (result : OptimizationResult α) (name : String) :
    Except Exn PassStatistics :=
  match result.passStatistics with
  | [statistics] => do
    let expected := sizes name before.graph.tables result.model.graph.tables
    require (statistics.passName == expected.passName &&
        statistics.nodesBefore == expected.nodesBefore &&
          statistics.nodesAfter == expected.nodesAfter &&
        statistics.valuesBefore == expected.valuesBefore &&
        statistics.valuesAfter == expected.valuesAfter)
      (.logicError (name ++ " returned inconsistent pass statistics"))
    .ok statistics
  | _ => .error (.logicError (name ++ " must return exactly one statistics record"))

/-- The loop over the passes. -/
def runPasses : List (GraphPass α) → OptimizationResult α → Except Exn (OptimizationResult α)
  | [], result => .ok result
  | pass :: passes, current => do
    let result ← pass.run current.model
    validateInterface current.model result.model result.valueMapping pass.name
    let statistics ← validateStatistics current.model result pass.name
    runPasses passes {
      model := result.model
      valueMapping := current.valueMapping.map fun mapped =>
        mapped.bind fun id => (result.valueMapping[id]?).join
      passStatistics := current.passStatistics ++ [statistics] }

def run (passes : List (GraphPass α)) (model : Model α) : Except Exn (OptimizationResult α) :=
  runPasses passes {
    model := model
    valueMapping := identityMapping model.graph.tables.values.length
    passStatistics := [] }

end PassManager

end TinyInfer.Optimizer
