import TinyInfer.Model.Model

/-!
# The ONNX importer (`model/onnx/onnx_importer.cpp`, `operator_registry.cpp`)

`importModel` builds a graph from a decoded `ModelProto`: the initializers, the inputs,
and then the nodes in passes over the node list, each of which imports the nodes whose
inputs are known by then. `nodeName` makes up the name of a node of the graph.

An error carries an `OnnxImportDiagnostic`; its model path is that of `load`, which is
not modelled.
-/

namespace TinyInfer.Onnx

inductive OnnxImportStage where
  | tensorDecode
  | modelValidation
  | graphImport
  | operatorTranslation
  | shapeInference
  | graphValidation
  deriving DecidableEq, Repr

structure OnnxImportDiagnostic where
  stage : OnnxImportStage
  graphName : String
  nodeIndex : Option Nat := none
  nodeName : String := ""
  opType : String := ""
  domain : String := ""
  valueName : String := ""
  message : String
  deriving DecidableEq, Repr

structure ValueInfo where
  name : String
  spec : TensorSpec

structure Initializer (α : Type) where
  name : String
  value : Tensor α

structure NodeProto where
  name : String := ""
  opType : String
  inputs : List String
  outputs : List String
  attributes : NodeAttributes := []
  domain : String := ""

structure GraphProto (α : Type) where
  name : String := ""
  inputs : List ValueInfo := []
  initializers : List (Initializer α) := []
  nodes : List NodeProto := []
  outputs : List ValueInfo := []

structure ModelProto (α : Type) where
  opsetVersion : Int
  graph : GraphProto α

/-! ## Operators -/

def canonicalDomain (domain : String) : String := if domain = "ai.onnx" then "" else domain

def translateGelu (node : NodeProto) : Except Exn (OpType × NodeAttributes) :=
  match node.attributes.lookup "approximate" with
  | none => .ok (.gelu, insertAttribute ("approximate", .string "none") node.attributes)
  | some (.string value) =>
    if value = "none" ∨ value = "tanh" then .ok (.gelu, node.attributes)
    else .error (.invalidArgument "ONNX Gelu approximate must be 'none' or 'tanh'")
  | some _ => .error (.invalidArgument "ONNX Gelu approximate must be 'none' or 'tanh'")

/-- An attribute that only has one supported value, and is then dropped. -/
def eraseFixed (attributes : NodeAttributes) (name : String) (value : Int) (message : String) :
    Except Exn NodeAttributes :=
  match attributes.lookup name with
  | none => .ok attributes
  | some found =>
    if found = .integer value then .ok (attributes.filter (·.1 != name))
    else .error (.invalidArgument message)

def translateLayerNorm (node : NodeProto) : Except Exn (OpType × NodeAttributes) := do
  require (2 ≤ node.inputs.length && node.inputs.length ≤ 3)
    (.invalidArgument "ONNX LayerNormalization requires X and Scale, with optional Bias")
  let attributes ← eraseFixed node.attributes "axis" (-1)
    "ONNX LayerNormalization currently supports axis=-1 only"
  let attributes ← eraseFixed attributes "stash_type" 1
    "ONNX LayerNormalization currently supports stash_type=1 only"
  .ok (.layerNorm, attributes)

/-- The registrations: the first opset version, and the translator. Each holds for all
later versions. -/
def translator : String → Option (Int × (NodeProto → Except Exn (OpType × NodeAttributes)))
  | "Add" => some (13, fun node => .ok (.add, node.attributes))
  | "Sub" => some (13, fun node => .ok (.subtract, node.attributes))
  | "Mul" => some (13, fun node => .ok (.multiply, node.attributes))
  | "MatMul" => some (13, fun node => .ok (.matMul, node.attributes))
  | "Gemm" => some (13, fun node => .ok (.gemm, node.attributes))
  | "Relu" => some (13, fun node => .ok (.reLU, node.attributes))
  | "Tanh" => some (13, fun node => .ok (.tanh, node.attributes))
  | "Softmax" => some (13, fun node => .ok (.softmax, node.attributes))
  | "LayerNormalization" => some (17, translateLayerNorm)
  | "Gelu" => some (20, translateGelu)
  | _ => none

def unsupportedOperator (node : NodeProto) (opsetVersion : Int) : Exn :=
  .invalidArgument ("unsupported ONNX operator or opset: domain='" ++ canonicalDomain node.domain ++
    "', op='" ++ node.opType ++ "', opset=" ++ toString opsetVersion)

def translate (node : NodeProto) (opsetVersion : Int) : Except Exn (OpType × NodeAttributes) :=
  if canonicalDomain node.domain = "" then
    match translator node.opType with
    | some (firstOpset, translate) =>
      if firstOpset ≤ opsetVersion then translate node
      else .error (unsupportedOperator node opsetVersion)
    | none => .error (unsupportedOperator node opsetVersion)
  else .error (unsupportedOperator node opsetVersion)

/-! ## Names -/

/-- `while (reserved.find(name) != reserved.end()) name.push_back('_');` The loop ends
after at most as many rounds as there are reserved names. -/
def appendUnderscores (reserved : List String) : Nat → String → String
  | 0, name => name
  | fuel + 1, name =>
    if reserved.contains name then appendUnderscores reserved fuel (name.push '_') else name

def nodeName (index : Nat) (reserved : List String) : String :=
  appendUnderscores reserved reserved.length ("__onnx_node_" ++ toString index)

/-! ## The import -/

/-- The locals of `import_model`. -/
structure ImportState (α : Type) where
  graph : BuiltGraph α := {}
  symbols : List (String × ValueId) := []
  initializerNames : List String := []
  reservedNames : List String := []
  modelInputs : List (String × ValueId) := []

variable {α : Type}

def modelDiagnostic (model : ModelProto α) (stage : OnnxImportStage) (message : String)
    (valueName : String := "") : OnnxImportDiagnostic :=
  { stage, graphName := model.graph.name, message, valueName }

def nodeDiagnostic (model : ModelProto α) (node : NodeProto) (index : Nat) (stage : OnnxImportStage)
    (message : String) (valueName : String := "") : OnnxImportDiagnostic :=
  { stage, graphName := model.graph.name, message, valueName
    nodeIndex := some index, nodeName := node.name, opType := node.opType, domain := node.domain }

/-- The spec of a value of the graph. -/
def ImportState.specOf (s : ImportState α) (id : ValueId) : Option TensorSpec :=
  (s.graph.tables.values[id]?).map (·.spec)

def importInitializer (model : ModelProto α) (s : ImportState α) (initializer : Initializer α) :
    Except OnnxImportDiagnostic (ImportState α) :=
  if initializer.name = "" ∨ initializer.name ∈ s.initializerNames then
    .error (modelDiagnostic model .graphImport "ONNX initializer names must be non-empty and unique"
      initializer.name)
  else
    match BuiltGraph.addConstant initializer.name initializer.value s.graph with
    | (.error e, _) => .error (modelDiagnostic model .graphImport e.what initializer.name)
    | (.ok id, graph) => .ok { s with
        graph
        symbols := (initializer.name, id) :: s.symbols
        initializerNames := initializer.name :: s.initializerNames
        reservedNames := initializer.name :: s.reservedNames }

def importInput (model : ModelProto α) (s : ImportState α) (input : ValueInfo) :
    Except OnnxImportDiagnostic (ImportState α) :=
  if input.name ∈ s.initializerNames then
    if (s.symbols.lookup input.name).bind s.specOf = some input.spec then .ok s
    else .error (modelDiagnostic model .graphImport
      "ONNX initializer metadata does not match graph input" input.name)
  else if input.name = "" ∨ (s.symbols.lookup input.name).isSome then
    .error (modelDiagnostic model .graphImport "ONNX graph input names must be non-empty and unique"
      input.name)
  else
    match BuiltGraph.addInput input.name input.spec s.graph with
    | (.error e, _) => .error (modelDiagnostic model .graphImport e.what input.name)
    | (.ok id, graph) => .ok { s with
        graph
        symbols := (input.name, id) :: s.symbols
        reservedNames := input.name :: s.reservedNames
        modelInputs := s.modelInputs ++ [(input.name, id)] }

/-- The ids of the inputs of a node, if all are defined. -/
def ImportState.inputsReady (s : ImportState α) (node : NodeProto) : Option (List ValueId) :=
  node.inputs.mapM fun name => if name = "" then none else s.symbols.lookup name

/-- One round of the loop over the nodes: the new state, if the node was imported. -/
def importNode (model : ModelProto α) (s : ImportState α) (source : NodeProto) (index : Nat) :
    Except OnnxImportDiagnostic (Option (ImportState α)) :=
  if source.domain ≠ "" ∧ source.domain ≠ "ai.onnx" then
    .error (nodeDiagnostic model source index .operatorTranslation
      ("unsupported ONNX operator domain: " ++ source.domain))
  else
    match s.inputsReady source with
    | none => .ok none
    | some inputs =>
      match source.outputs with
      | [output] =>
        if output = "" then
          .error (nodeDiagnostic model source index .graphImport
            "TinyInfer currently imports one non-empty output per ONNX node")
        else if (s.symbols.lookup output).isSome then
          .error (nodeDiagnostic model source index .graphImport
            "ONNX value name is defined more than once" output)
        else
          match translate source model.opsetVersion with
          | .error e => .error (nodeDiagnostic model source index .operatorTranslation e.what)
          | .ok (op, attributes) =>
            match BuiltGraph.addNode (nodeName index s.reservedNames) op inputs
              attributes s.graph with
            | (.error e, _) => .error (nodeDiagnostic model source index .shapeInference e.what)
            | (.ok node, graph) => .ok (some { s with
                graph
                symbols :=
                  (output, (graph.tables.nodes[node]?).elim 0 Graph.outputOf) :: s.symbols })
      | _ => .error (nodeDiagnostic model source index .graphImport
          "TinyInfer currently imports one non-empty output per ONNX node")

/-- The locals of the loop over the nodes. -/
structure NodeLoop (α : Type) where
  state : ImportState α
  imported : Nat → Bool := fun _ => false
  remaining : Nat
  progress : Bool := false

def NodeLoop.visit (model : ModelProto α) (s : NodeLoop α) (node : NodeProto × Nat) :
    Except OnnxImportDiagnostic (NodeLoop α) :=
  if s.imported node.2 then .ok s
  else
    match importNode model s.state node.1 node.2 with
    | .error d => .error d
    | .ok none => .ok s
    | .ok (some state) => .ok {
        state
        imported := Function.update s.imported node.2 true
        remaining := s.remaining - 1
        progress := true }

/-- One pass over the node list. -/
def NodeLoop.pass (model : ModelProto α) (s : NodeLoop α) :
    Except OnnxImportDiagnostic (NodeLoop α) :=
  model.graph.nodes.zipIdx.foldlM (NodeLoop.visit model) { s with progress := false }

/-- What the importer reports after a pass without progress. -/
def NodeLoop.stuck (model : ModelProto α) (s : NodeLoop α) : OnnxImportDiagnostic :=
  match model.graph.nodes.zipIdx.find? (!s.imported ·.2) with
  | none => modelDiagnostic model .graphImport "ONNX graph import made no progress"
  | some (source, index) =>
    match source.inputs.find? fun name => name == "" || (s.state.symbols.lookup name).isNone with
    | some name => nodeDiagnostic model source index .graphImport
        (if name = "" then "optional or empty ONNX inputs are not supported"
          else "ONNX node input is not defined") name
    | none => nodeDiagnostic model source index .graphImport
        "ONNX graph dependencies contain a cycle"

/-- The passes. Every pass but the last imports a node, so there are at most as many as
nodes. -/
def importNodes (model : ModelProto α) : Nat → NodeLoop α →
    Except OnnxImportDiagnostic (ImportState α)
  | 0, s => if s.remaining = 0 then .ok s.state else .error (s.stuck model)
  | fuel + 1, s =>
    if s.remaining = 0 then .ok s.state
    else do
      let s ← s.pass model
      if s.progress then importNodes model fuel s else .error (s.stuck model)

def importOutput (model : ModelProto α) (s : ImportState α × List (String × ValueId))
    (output : ValueInfo) : Except OnnxImportDiagnostic (ImportState α × List (String × ValueId)) :=
  match s.1.symbols.lookup output.name with
  | none => .error (modelDiagnostic model .graphValidation "ONNX graph output is not defined"
      output.name)
  | some id =>
    if s.1.specOf id = some output.spec then
      match BuiltGraph.markOutput id s.1.graph with
      | (.error e, _) => .error (modelDiagnostic model .graphValidation e.what output.name)
      | (.ok (), graph) => .ok ({ s.1 with graph }, s.2 ++ [(output.name, id)])
    else .error (modelDiagnostic model .graphValidation
      "ONNX graph output metadata does not match inferred TensorSpec" output.name)

def importModel (model : ModelProto α) : Except OnnxImportDiagnostic (Model α) := do
  if model.opsetVersion < 13 then
    .error (modelDiagnostic model .modelValidation "TinyInfer ONNX importer requires opset >= 13")
  else
    let s ← model.graph.initializers.foldlM (importInitializer model) {}
    let s ← model.graph.inputs.foldlM (importInput model) s
    let count := model.graph.nodes.length
    let s ← importNodes model count { state := s, remaining := count }
    let (s, outputs) ← model.graph.outputs.foldlM (importOutput model) (s, [])
    match Model.make s.graph s.modelInputs outputs with
    | .error e => .error (modelDiagnostic model .graphValidation e.what)
    | .ok result => .ok result

end TinyInfer.Onnx
