import TinyInfer.Optimizer.Meaning
import TinyInfer.Runtime.PlannedExecution

/-!
# What folding a constant means

The pass builds a graph of the node and of what it knows of its inputs, and runs it. The graph
is one that the calls accept, and the run leaves the value of the node
(`evaluateConstantNode_ok`), so that every action of the pass is right.

Main definitions: `execute`, `OnlyConstants`, `KnownRight`.
-/

namespace TinyInfer.Optimizer.ConstantFoldingPass

open Lib.Throwing
open Ops

variable {F : Type}

/-! ## The names -/

theorem inputName_injective {name : String} {i j : Nat}
    (hsame : inputName name i = inputName name j) :
    i = j := by
  have hdigits : Nat.toDigits 10 i = Nat.toDigits 10 j := by
    have hchars := congrArg String.toList hsame
    simpa [inputName, toString, Nat.repr] using hchars
  have hvalue := congrArg (Nat.ofDigitChars 10 · 0) hdigits
  simpa [Nat.ofDigitChars_toDigits] using hvalue

theorem inputName_ne (name : String) (index : Nat) : inputName name index ≠ name := by
  intro hsame
  have hlength := congrArg String.length hsame
  rw [inputName, String.length_append, String.length_append] at hlength
  have hslashes : "/constant_input/".length = 16 := by decide
  omega

/-- After the name of the node, a constant has a slash and the output a colon. -/
theorem outputName_ne_inputName (name : String) (index : Nat) :
    Graph.outputName name 0 ≠ inputName name index := by
  intro hsame
  have hchars := congrArg String.toList hsame
  rw [Graph.outputName, inputName, String.toList_append, String.toList_append, String.toList_append,
    String.toList_append, List.append_assoc, List.append_assoc] at hchars
  have hrest := List.append_cancel_left hchars
  have hfirst := congrArg List.head? hrest
  simp at hfirst

theorem inputName_ne_empty (name : String) (index : Nat) : inputName name index ≠ "" := by
  intro hsame
  have hlength := congrArg String.length hsame
  rw [inputName, String.length_append, String.length_append] at hlength
  have hslashes : "/constant_input/".length = 16 := by decide
  have hnone : "".length = 0 := rfl
  omega

/-! ## The graph of one node -/

/-- The constants that have been added, in order, and nothing else. -/
structure OnlyConstants (name : String) (tensors : List (Tensor F)) (g : Graph F) : Prop where
  constants : g.constants = tensors.map some
  specs : g.values.map (·.spec) = tensors.map (·.spec)
  names : g.values.map (·.name) = (List.range tensors.length).map (inputName name)
  nodes : g.nodes = []
  inputIds : g.inputIds = []
  outputIds : g.outputIds = []

theorem OnlyConstants.length {name : String} {tensors : List (Tensor F)} {g : Graph F}
    (h : OnlyConstants name tensors g) : g.values.length = tensors.length := by
  have hlengths := congrArg List.length h.specs
  rwa [List.length_map, List.length_map] at hlengths

theorem OnlyConstants.all_names {name : String} {tensors : List (Tensor F)} {g : Graph F}
    (h : OnlyConstants name tensors g) :
    g.names = (List.range tensors.length).map (inputName name) := by
  unfold Graph.names
  rw [h.names, h.nodes, List.map_nil, List.append_nil]

/-- One more constant. -/
theorem OnlyConstants.push {name : String} {tensors : List (Tensor F)} {g : Graph F}
    (h : OnlyConstants name tensors g) (tensor : Tensor F) :
    OnlyConstants name (tensors ++ [tensor])
      (g.pushConstant (inputName name tensors.length) tensor) where
  constants := by
    show g.constants ++ [some tensor] = _
    rw [h.constants, List.map_append]
    rfl
  specs := by
    show (g.values ++ _).map _ = _
    rw [List.map_append, List.map_append, h.specs]
    rfl
  names := by
    show (g.values ++ _).map _ = _
    rw [List.map_append, h.names, List.length_append, List.length_singleton, List.range_succ,
      List.map_append]
    rfl
  nodes := h.nodes
  inputIds := h.inputIds
  outputIds := h.outputIds

/-- The loop over the inputs. -/
theorem addConstants_ok {name : String} {tensors : List (Tensor F)} {g : BuiltGraph F}
    (h : OnlyConstants name tensors g.tables) (rest : List (Tensor F)) :
    ∃ g', addConstants name tensors.length rest g =
      .ok (List.range' tensors.length rest.length, g') ∧
      OnlyConstants name (tensors ++ rest) g'.tables := by
  induction rest generalizing tensors g with
  | nil => exact ⟨g, rfl, by rwa [List.append_nil]⟩
  | cons tensor rest ih =>
    have hfresh : inputName name tensors.length ∉ g.tables.names := by
      rw [h.all_names]
      intro hmem
      obtain ⟨i, hinside, hsame⟩ := List.mem_map.1 hmem
      have hless := List.mem_range.1 hinside
      exact absurd (inputName_injective hsame) (Nat.ne_of_lt hless)
    obtain ⟨g₁, hadded, htables⟩ := g.addConstant_ok tensor (inputName_ne_empty name _) hfresh
    have hnext : OnlyConstants name (tensors ++ [tensor]) g₁.tables := by
      rw [htables]
      exact h.push tensor
    obtain ⟨g₂, hrun, hlast⟩ := ih hnext
    rw [List.length_append, List.length_singleton] at hrun
    have hcalled : call (BuiltGraph.addConstant (inputName name tensors.length) tensor) g =
        .ok (tensors.length, g₁) := by
      unfold call
      rw [hadded, h.length]
    refine ⟨g₂, bind_ok.2 ⟨_, hcalled, bind_ok.2 ⟨_, hrun, ?_⟩⟩, ?_⟩
    · rw [List.length_cons, List.range'_succ]
    · rwa [List.append_assoc] at hlast

/-- The graph of a node whose inputs are constants, with its output. -/
structure NodeGraph (node : Node) (tensors : List (Tensor F)) (spec : TensorSpec) (g : Graph F) :
    Prop where
  constants : g.constants = tensors.map some ++ [none]
  specs : g.values.map (·.spec) = tensors.map (·.spec) ++ [spec]
  added : ∃ added : Node, g.nodes = [added] ∧ added.op = node.op ∧
    added.attributes = node.attributes ∧
    added.inputs = List.range tensors.length ∧ added.outputs = [tensors.length]
  inputIds : g.inputIds = []
  outputIds : g.outputIds = [tensors.length]

/-- The specs of the constants, read by their ids. -/
theorem OnlyConstants.read {name : String} {tensors : List (Tensor F)} {g : Graph F}
    (h : OnlyConstants name tensors g) :
    List.Forall₂ (fun input spec => (g.values[input]?).map (·.spec) = some spec)
      (List.range tensors.length) (tensors.map (·.spec)) := by
  refine List.forall₂_iff_get.2 ⟨by simp, fun i hinside hinside' => ?_⟩
  have hsame : (g.values.map (·.spec))[i]? = (tensors.map (·.spec))[i]? := by rw [h.specs]
  rw [List.getElem?_map] at hsame
  simpa [List.getElem?_eq_getElem hinside'] using hsame

/-- The calls that build the graph return. -/
theorem evaluateConstantNode_eq (execute : Graph F → ValueId → Except Exn (Tensor F)) {node : Node}
    {tensors : List (Tensor F)} {spec : TensorSpec} (hnonempty : node.name ≠ "")
    (hvalid : spec.Valid) (hinferred : inferOutputSpecs node.op
      (tensors.map (·.spec)) node.attributes = .ok [spec]) :
    ∃ g : BuiltGraph F, NodeGraph node tensors spec g.tables ∧
      evaluateConstantNode execute node tensors = execute g.tables tensors.length := by
  -- the graph starts empty and gets one constant for each operand
  have hstart : OnlyConstants node.name [] ({} : BuiltGraph F).tables :=
    ⟨rfl, rfl, rfl, rfl, rfl, rfl⟩
  obtain ⟨g₁, hconstants, honly⟩ := addConstants_ok hstart tensors
  rw [List.nil_append] at honly
  rw [List.length_nil, ← List.range_eq_range'] at hconstants
  -- the node's name and its output's name are those of no constant
  have haccepted :
    g₁.tables.NodeAccepted node.name node.op (List.range tensors.length) node.attributes spec := by
    refine ⟨hnonempty, ?_, ?_, hvalid, _, honly.read, hinferred⟩
    · rw [honly.all_names]
      intro hmem
      obtain ⟨i, -, hsame⟩ := List.mem_map.1 hmem
      exact inputName_ne node.name i hsame
    · rw [honly.all_names]
      intro hmem
      obtain ⟨i, -, hsame⟩ := List.mem_map.1 hmem
      exact outputName_ne_inputName node.name i hsame.symm
  -- adding the node appends it with its one output
  obtain ⟨g₂, htables₂⟩ : ∃ g₂ : BuiltGraph F,
      g₂.tables = g₁.tables.pushNode node.name node.op (List.range tensors.length)
        node.attributes [spec] :=
    ⟨⟨_, g₁.wf.pushNode haccepted⟩, rfl⟩
  have hpushed := BuiltGraph.addNode_ok.2 ⟨spec, haccepted, rfl, htables₂⟩
  rw [Graph.pushNode_eq] at htables₂
  have hinside : tensors.length < g₂.tables.values.length := by
    rw [htables₂]
    show _ < (g₁.tables.values ++ _).length
    rw [List.length_append, honly.length]
    exact Nat.lt_succ_self _
  -- nothing is marked before that output
  have houtputs : g₂.tables.outputIds = [] := by
    rw [htables₂]
    exact honly.outputIds
  obtain ⟨g₃, hmarked, htables₃⟩ :=
    g₂.markOutput_ok hinside (by rw [houtputs]; exact List.not_mem_nil)
  have hnodes : g₂.tables.nodes =
      [g₁.tables.newNode node.name node.op (List.range tensors.length) node.attributes] := by
    rw [htables₂]
    show g₁.tables.nodes ++ _ = _
    rw [honly.nodes]
    rfl
  refine ⟨g₃, ⟨?_, ?_, ?_, ?_, ?_⟩, ?_⟩
  · rw [htables₃, htables₂]
    show g₁.tables.constants ++ _ = _
    rw [honly.constants]
  · rw [htables₃, htables₂]
    show (g₁.tables.values ++ _).map _ = _
    rw [List.map_append, honly.specs]
    rfl
  · refine ⟨g₁.tables.newNode node.name node.op (List.range tensors.length) node.attributes, ?_,
      rfl, rfl, rfl, ?_⟩
    · rw [htables₃]
      exact hnodes
    · show [g₁.tables.values.length] = _
      rw [honly.length]
  · rw [htables₃, htables₂]
    exact honly.inputIds
  · rw [htables₃, houtputs]
    rfl
  · have hadded :
      call (BuiltGraph.addNode node.name node.op (List.range tensors.length) node.attributes) g₁ =
        .ok (0, g₂) := by
      unfold call
      rw [hpushed, honly.nodes]
      rfl
    have hfound : g₂.tables.node 0 =
        .ok (g₁.tables.newNode node.name node.op (List.range tensors.length) node.attributes) := by
      unfold Graph.node
      rw [hnodes]
      rfl
    have hlast : call (BuiltGraph.markOutput tensors.length) g₂ = .ok ((), g₃) := by
      unfold call
      rw [hmarked]
    unfold evaluateConstantNode
    rw [hconstants]
    simp only [bind, Except.bind, hadded, hfound]
    have hhead :
      (g₁.tables.newNode node.name node.op (List.range tensors.length)
        node.attributes).outputs.headD 0 =
        tensors.length := honly.length
    rw [hhead, hlast]

/-! ## Its run -/

variable [KernelScalar F] [DecidableEq F]

/-- What the pass gets from the executor: a context without a plan, whose buffer nothing reads,
a run, and a copy of the output. -/
def execute (simd : Cpu.Simd) (address : Nat) (buffer : Nat → F) (g : Graph F) (output : ValueId) :
    Except Exn (Tensor F) := do
  let graph : GraphObject F := ⟨address, g⟩
  let context ← ExecutionContext.ofGraph graph buffer
  let evaluate : Lib.Throwing Exn (ExecutionContext F) (Tensor F) := do
    Executor.run simd graph
    Lib.Throwing.check fun context => do Ops.copy (← context.output graph output)
  (evaluate context).1

/-- The run leaves the value of the node. -/
theorem execute_ok {simd : Cpu.Simd} (hcommutes : simd.rhsFirst → ∀ x y : F, x * y = y * x)
    (hliterals : Literals F) (address : Nat) (buffer : Nat → F) {node : Node}
    {tensors : List (Tensor F)} {spec : TensorSpec} {g : BuiltGraph F}
    (h : NodeGraph node tensors spec g.tables)
    (hint64 : ∀ s ∈ tensors.map (·.spec) ++ [spec], Shape.Int64 s.shape) :
    ∃ tensor, execute simd address buffer g.tables tensors.length = .ok tensor ∧
      eval node.op node.attributes (tensors.map Tensor.contents) = some tensor.contents := by
  have hwf : g.tables.WellFormed := g.wf
  have hmarked : tensors.length ∈ g.tables.outputIds := by
    rw [h.outputIds]
    exact List.mem_singleton_self _
  -- the run on the small graph reaches a solution
  have houtputs : g.tables.outputIds ≠ [] := List.ne_nil_of_mem hmarked
  obtain ⟨values, hemplaced, -, hready⟩ :=
    ExecutionContext.fresh_ready (g := g.object address) none hwf buffer
  obtain ⟨env, hsolution⟩ := hwf.solvable
  have hok : Executor.Runnable simd (g.object address) none :=
    ⟨hwf, fun id value hfound => hint64 value.spec (by
      rw [← h.specs]
      exact List.mem_map_of_mem (List.mem_of_getElem? hfound)), by simp, hcommutes, hliterals⟩
  obtain ⟨c, hran, hreached⟩ := Executor.run_reached hok houtputs hready hsolution (by
    unfold Executor.Bound
    rw [show (g.object address).tables.inputIds = [] from h.inputIds]
    exact fun id hmem => absurd hmem List.not_mem_nil)
  -- The output of the only node.
  obtain ⟨added, hnodes, hop, hattributes, hinputs, hproduces⟩ := h.added
  have hfound : g.tables.nodes[0]? = some added := by
    rw [hnodes]
    rfl
  obtain ⟨out, value, hdefines⟩ := hwf.defines hfound
  obtain rfl : tensors.length = out := (List.cons.inj (hproduces.symm.trans hdefines.outputs)).1
  obtain ⟨tensor, hheld, -, hcontents⟩ :=
    Executor.Reached.output hwf hok.planned hreached hmarked hdefines.found hdefines.kind
  have hshown := hreached.ready.value_ok hheld
  generalize Stored.read c.plannedBuffer ⟨tensor, placeOf none tensors.length⟩ =
    result at hshown hcontents
  obtain ⟨fresh, hcopied, haccepts, -⟩ := copy_ok result
  refine ⟨fresh.fill result.logicalElement, ?_, ?_⟩
  -- the copy that is returned
  · have houtput : c.output (g.object address) tensors.length = .ok result :=
      check_ok.2 ⟨hreached.ready.current,
        check_ok.2 ⟨require_ok.2 (List.contains_iff_mem.2 hmarked), hshown⟩⟩
    unfold execute
    refine bind_ok.2 ⟨_, check_ok.2 ⟨(Graph.validate_ok hwf).2 houtputs,
      bind_ok.2 ⟨values, hemplaced, rfl⟩⟩, ?_⟩
    have hlast : check (fun c : ExecutionContext F => do
        Ops.copy (← c.output (g.object address) tensors.length)) c =
        (.ok (fresh.fill result.logicalElement), c) :=
      check_returns (bind_ok.2 ⟨_, houtput, hcopied⟩)
    exact (congrArg Prod.fst (bind_returns hran)).trans (congrArg Prod.fst hlast)
  -- the value of the node, on the constants it reads
  · have hholds :=
      hsolution.holds (Graph.equation added) (List.mem_map_of_mem (List.mem_of_getElem? hfound))
    unfold Lib.Equations.Equation.Holds Graph.equation at hholds
    dsimp only at hholds
    have hoperands : (List.range tensors.length).map env = tensors.map Tensor.contents := by
      refine List.ext_getElem (by simp) fun i hinside hinside' => ?_
      have hsmall : i < tensors.length := by simpa using hinside
      rw [List.getElem_map, List.getElem_map, List.getElem_range]
      refine hsolution.constant i tensors[i] ?_
      rw [h.constants, List.getElem?_append_left (by simpa using hsmall), List.getElem?_map,
        List.getElem?_eq_getElem hsmall]
      rfl
    rw [hproduces, hop, hattributes, hinputs, hoperands, List.headD_cons] at hholds
    rw [hholds, Tensor.contents_fill haccepts.contiguous, haccepts.spec, ← hcontents]
    rfl

/-- What the pass makes of a node whose inputs it knows. -/
theorem evaluateConstantNode_ok {simd : Cpu.Simd}
    (hcommutes : simd.rhsFirst → ∀ x y : F, x * y = y * x) (hliterals : Literals F) (address : Nat)
    (buffer : Nat → F) {node : Node} {tensors : List (Tensor F)} {spec : TensorSpec}
    (hnonempty : node.name ≠ "") (hvalid : spec.Valid)
    (hinferred : inferOutputSpecs node.op (tensors.map (·.spec)) node.attributes = .ok [spec])
    (hint64 : ∀ s ∈ tensors.map (·.spec) ++ [spec], Shape.Int64 s.shape) :
    ∃ tensor, evaluateConstantNode (execute simd address buffer) node tensors = .ok tensor ∧
      eval node.op node.attributes (tensors.map Tensor.contents) = some tensor.contents := by
  obtain ⟨g, hgraph, heq⟩ :=
    evaluateConstantNode_eq (execute simd address buffer) hnonempty hvalid hinferred
  rw [heq]
  exact execute_ok hcommutes hliterals address buffer hgraph hint64

/-! ## The loop over the nodes -/

/-- The state of the loop after the first nodes: no node goes, and in every solution what is
known of a value is the value. -/
structure KnownRight (model : Model F) (actions : List (Action F)) (f : Folding F) : Prop where
  opened : Open model.graph.tables model.graph.tables.inputIds actions Anything f.rewriter
  keeps : KeepsAll model.graph.tables actions
  known : ∀ env, model.graph.tables.Solution env → ∀ v tensor, f.known v = some tensor →
    env v = tensor.contents
  right : AllRight model.graph.tables actions

omit [KernelScalar F] [DecidableEq F] in
/-- One more kept node extends the kept ones. -/
theorem KeepsAll.concat {g : Graph F} {actions : List (Action F)} (h : KeepsAll g actions)
    {action : Action F} (hkeeps : action.keeps = true) : KeepsAll g (actions ++ [action]) := by
  intro p node hinside hfound
  rw [List.length_append, List.length_singleton] at hinside
  rcases Nat.lt_succ_iff_lt_or_eq.1 hinside with hold | rfl
  · obtain ⟨before, hthere, hkept⟩ := h p node hold hfound
    exact ⟨before, Graph.getElem?_append_of_some hthere, hkept⟩
  · exact ⟨action, Graph.getElem?_snoc.2 (.inr ⟨rfl, rfl⟩), hkeeps⟩

omit [KernelScalar F] [DecidableEq F] in
/-- What is known of the inputs of a node. -/
theorem contents_known {known : ValueId → Option (Tensor F)} {env : ValueId → TensorValue F}
    (hright : ∀ v tensor, known v = some tensor → env v = tensor.contents) {ids : List ValueId}
    (hall : ∀ id ∈ ids, (known id).isSome = true) :
    (ids.filterMap known).map Tensor.contents = ids.map env := by
  induction ids with
  | nil => rfl
  | cons id ids ih =>
    obtain ⟨hhere, hthere⟩ := List.forall_mem_cons.1 hall
    obtain ⟨tensor, hfound⟩ := Option.isSome_iff_exists.1 hhere
    rw [List.filterMap_cons_some hfound, List.map_cons, List.map_cons, ih hthere,
      hright id tensor hfound]

variable {simd : Cpu.Simd} {model : Model F} {actions : List (Action F)} {f : Folding F}

/-- The graph of a node whose inputs are known is one that can be run, and leaves its value. -/
theorem evaluated (hcommutes : simd.rhsFirst → ∀ x y : F, x * y = y * x) (hliterals : Literals F)
    (address : Nat) (buffer : Nat → F)
    (hint64 : ∀ value ∈ model.graph.tables.values, Shape.Int64 value.spec.shape)
    (h : KnownRight model actions f) {p : NodeId} {node : Node}
    (hfound : model.graph.tables.nodes[p]? = some node)
    (hall : ∀ id ∈ node.inputs, (f.known id).isSome = true) :
    ∃ tensor,
      evaluateConstantNode (execute simd address buffer) node
        (node.inputs.filterMap f.known) = .ok tensor ∧
      ∀ env, model.graph.tables.Solution env → Right env node (.fold tensor) := by
  have hwf := model.graph.wf
  obtain ⟨out, value, hdefines⟩ := hwf.defines hfound
  -- What is known has the specs that some solution has, which are those of the graph.
  obtain ⟨some_env, hsolution⟩ := hwf.solvable
  have hcontents {env : ValueId → TensorValue F} (hsolution : model.graph.tables.Solution env) :=
    contents_known (h.known env hsolution) hall
  have hspecs : (node.inputs.filterMap f.known).map (·.spec) =
    (node.inputs.map some_env).map (·.spec) := by
    rw [← hcontents hsolution, List.map_map]
    rfl
  have hsmall : ∀ s ∈ (node.inputs.filterMap f.known).map (·.spec) ++ [value.spec],
    Shape.Int64 s.shape := by
    intro s hmem
    rw [hspecs] at hmem
    rcases List.mem_append.1 hmem with hoperand | hmem
    · obtain ⟨v, hheld, rfl⟩ := List.mem_map.1 hoperand
      obtain ⟨id, hread, rfl⟩ := List.mem_map.1 hheld
      obtain ⟨input, hthere, -⟩ := hwf.input hfound hread
      rw [hsolution.typed id input hthere]
      exact hint64 input (List.mem_of_getElem? hthere)
    · rw [List.mem_singleton.1 hmem]
      exact hint64 value (List.mem_of_getElem? hdefines.found)
  have hinferred := hsolution.typed.inferred hdefines
  rw [← hspecs] at hinferred
  have hnamed : node.name ∈ model.graph.tables.names :=
    List.mem_append_right _ (List.mem_map_of_mem (List.mem_of_getElem? hfound))
  obtain ⟨tensor, hrun, hcomputes⟩ := evaluateConstantNode_ok hcommutes hliterals address buffer
    (hwf.names_nonempty _ hnamed) (hwf.spec_valid out value hdefines.found) hinferred hsmall
  refine ⟨tensor, hrun, fun env hsolution out' hmem => ?_⟩
  have hcopied := right_copy hsolution hwf hfound out' hmem
  rw [hcontents hsolution, hcopied] at hcomputes
  exact Option.some.inj hcomputes

/-- One round of the loop returns. -/
theorem step_right (hcommutes : simd.rhsFirst → ∀ x y : F, x * y = y * x) (hliterals : Literals F)
    (address : Nat) (buffer : Nat → F)
    (hint64 : ∀ value ∈ model.graph.tables.values, Shape.Int64 value.spec.shape)
    (h : KnownRight model actions f) {node : Node}
    (hfound : model.graph.tables.nodes[actions.length]? = some node) :
    ∃ f' action, step (execute simd address buffer) model f actions.length = .ok f' ∧
      KnownRight model (actions ++ [action]) f' := by
  have hwf := model.graph.wf
  cases hknown : foldable f.known node with
  | false =>
    obtain ⟨r, hrun, hnext⟩ :=
      step_copy (execute simd address buffer) h.opened h.keeps hfound hknown
    exact ⟨_, _, hrun, hnext, h.keeps.concat rfl, h.known,
      h.right.concat hfound fun env hsolution => right_copy hsolution hwf hfound⟩
  | true =>
    have hall : ∀ id ∈ node.inputs, (f.known id).isSome = true :=
      List.all_eq_true.1 (Bool.and_eq_true_iff.1 hknown).2
    obtain ⟨tensor, hevaluates, hright⟩ :=
      evaluated hcommutes hliterals address buffer hint64 h hfound hall
    obtain ⟨out, value, hdefines⟩ := hwf.defines hfound
    have hout_mem : out ∈ node.outputs := by
      rw [hdefines.outputs]
      exact List.mem_singleton_self out
    obtain ⟨env, hsolution⟩ := hwf.solvable
    have hspec : tensor.spec = value.spec := by
      rw [← hsolution.typed out value hdefines.found, hright env hsolution out hout_mem]
      rfl
    obtain ⟨w, r, hreplaced, hnext⟩ :=
      GraphRewriter.replaceWithConstant_ok h.opened hfound hdefines.outputs hdefines.found hspec
    refine ⟨⟨r, Function.update f.known out (some tensor), f.folded + 1⟩, .fold tensor,
      bind_ok.2 ⟨node, ?_, ?_⟩, hnext, h.keeps.concat rfl, fun env hsolution v known heq => ?_,
      h.right.concat hfound hright⟩
    · unfold Graph.node
      rw [hfound]
    · rw [if_pos hknown]
      refine bind_ok.2 ⟨tensor, hevaluates, ?_⟩
      rw [hdefines.outputs, List.headD_cons]
      exact bind_ok.2 ⟨_, hreplaced, rfl⟩
    · by_cases hsame : v = out
      · subst hsame
        have heq : Function.update f.known v (some tensor) v = some known := heq
        rw [Function.update_self] at heq
        cases heq
        exact hright env hsolution v hout_mem
      · have heq : Function.update f.known out (some tensor) v = some known := heq
        rw [Function.update_of_ne hsame] at heq
        exact h.known env hsolution v known heq

/-- The pass returns, and its actions are right. -/
theorem run_right (hcommutes : simd.rhsFirst → ∀ x y : F, x * y = y * x) (hliterals : Literals F)
    (address : Nat) (buffer : Nat → F)
    (hint64 : ∀ value ∈ model.graph.tables.values, Shape.Int64 value.spec.shape) :
    ∃ optimized mapping actions folded,
      run (execute simd address buffer) model = .ok ⟨optimized, mapping,
        [{ sizes "ConstantFoldingPass" model.graph.tables optimized.graph.tables with
          nodesRewritten := folded
          changed := folded != 0 }]⟩ ∧
      Rewritten model optimized actions Anything mapping ∧ AllRight model.graph.tables actions := by
  obtain ⟨r₀, hstarted, hopened₀⟩ := GraphRewriter.start_ok model Anything
  obtain ⟨f, hloop, actions, hcomplete, hinv⟩ :=
    foldlM_range_ok (n := model.graph.tables.nodes.length)
      (f := step (execute simd address buffer) model)
      (a := { rewriter := r₀, known := fun id => (model.graph.tables.constants[id]?).join })
      (P := fun k f => ∃ actions, actions.length = k ∧ KnownRight model actions f)
      ⟨[], rfl, hopened₀, fun _ _ hless _ => absurd hless (Nat.not_lt_zero _),
        fun env hsolution v tensor hknown =>
          hsolution.constant v tensor (Option.join_eq_some_iff.1 hknown),
        fun _ _ _ _ _ _ hacted => (by cases hacted)⟩ (by
        rintro k hless f ⟨actions, rfl, hinv⟩
        obtain ⟨f', action, hround, hnext⟩ :=
          step_right hcommutes hliterals address buffer hint64 hinv (List.getElem?_eq_getElem hless)
        exact ⟨f', hround, _, by rw [List.length_append, List.length_singleton], hnext⟩)
  obtain ⟨r₂, hcopied, hopened₂, hmapped, -⟩ :=
    GraphRewriter.copyMissing_ok hinv.opened (outputs_available hinv.keeps hcomplete)
  obtain ⟨optimized, hfinished, hrewritten⟩ := GraphRewriter.finish_ok hopened₂ hcomplete hmapped
  refine ⟨optimized, r₂.valueMapping, actions, f.folded, ?_, hrewritten, hinv.right⟩
  exact bind_ok.2 ⟨r₀, hstarted, bind_ok.2 ⟨_, model.order_eq, bind_ok.2 ⟨_, hloop,
    bind_ok.2 ⟨r₂, hcopied, bind_ok.2 ⟨optimized, hfinished, rfl⟩⟩⟩⟩⟩

end TinyInfer.Optimizer.ConstantFoldingPass
