import TinyInfer.Backend.Cpu.OperatorMeaning
import TinyInfer.Graph.GraphInvariant
import TinyInfer.Lib.Equations

/-!
# What a graph means

A graph is a system of equations between its values, one for each node. The values of its
inputs determine all others (`exists_solution`, `Solution.unique`), in whatever order the
nodes run and wherever the values are stored.

Main definitions:
- `Graph.equations`: the equations of the nodes.
- `Graph.Solution`: the assignments that satisfy these and have the constants.
-/

namespace TinyInfer

open Lib.Equations

namespace Graph

variable {F : Type}

/-! ## The nodes of a well-formed graph -/

/-- The output of a node, and the inference of its spec. -/
structure Defines (g : Graph F) (id : NodeId) (node : Node) (out : ValueId) (value : GraphValue) :
    Prop where
  outputs : node.outputs = [out]
  found : g.values[out]? = some value
  kind : value.kind = .intermediate
  producer : value.producer = some id
  later : ∀ input ∈ node.inputs, input < out
  inferred : ∀ f : ValueId → TensorSpec,
    (∀ input ∈ node.inputs, ∀ v, g.values[input]? = some v → f input = v.spec) →
    inferOutputSpecs node.op (node.inputs.map f) node.attributes = .ok [value.spec]

theorem WellFormed.defines {g : Graph F} (hwf : g.WellFormed) {id : NodeId} {node : Node}
    (hfound : g.nodes[id]? = some node) : ∃ out value, g.Defines id node out value := by
  obtain ⟨out, value, specs, houtputs, hat, hkind, hproducer, hread, hinferred, hlater⟩ :=
    (hwf.node id node hfound).output
  refine ⟨out, value, houtputs, hat, hkind, hproducer, hlater, fun f htyped => ?_⟩
  suffices specs = node.inputs.map f by rwa [← this]
  generalize node.inputs = inputs at hread htyped
  clear hinferred hlater
  induction hread with
  | nil => rfl
  | cons hhead _ ih =>
    obtain ⟨hfirst, hrest⟩ := List.forall_mem_cons.1 htyped
    obtain ⟨v, hhere, rfl⟩ := Option.map_eq_some_iff.1 hhead
    rw [List.map_cons, hfirst v hhere, ih hrest]

/-- The inputs of a node are values of the graph that are older than the node. -/
theorem WellFormed.input {g : Graph F} (hwf : g.WellFormed) {id : NodeId} {node : Node}
    (hfound : g.nodes[id]? = some node) {input : ValueId} (hmem : input ∈ node.inputs) :
    ∃ value, g.values[input]? = some value ∧ ∀ p, value.producer = some p → p < id :=
  (hwf.node id node hfound).inputs input hmem

/-! ## Equations -/

open Ops

variable [KernelScalar F] [DecidableEq F]

/-- The equation of a node. -/
def equation (node : Node) : Equation ValueId (TensorValue F) :=
  ⟨node.inputs, node.outputs.headD 0, eval node.op node.attributes⟩

def equations (g : Graph F) : List (Equation ValueId (TensorValue F)) := g.nodes.map equation

/-- Every value has the spec that the graph gives it. -/
def Typed (g : Graph F) (env : ValueId → TensorValue F) : Prop :=
  ∀ (id : ValueId) (value : GraphValue), g.values[id]? = some value → (env id).spec = value.spec

/-- The values of a graph satisfy the equations of its nodes. -/
structure Solution (g : Graph F) (env : ValueId → TensorValue F) : Prop where
  typed : g.Typed env
  constant : ∀ (id : ValueId) (tensor : Tensor F), g.constants[id]? = some (some tensor) →
    env id = tensor.contents
  holds : ∀ e ∈ g.equations, e.Holds env

omit [KernelScalar F] [DecidableEq F] in
theorem Typed.inferred {g : Graph F} {env : ValueId → TensorValue F}
    (htyped : g.Typed env) {id : NodeId} {node : Node} {out : ValueId} {value : GraphValue}
    (hdefines : g.Defines id node out value) :
    inferOutputSpecs node.op ((node.inputs.map env).map (·.spec)) node.attributes =
      .ok [value.spec] := by
  rw [List.map_map]
  exact hdefines.inferred _ fun input _ v hfound => htyped input v hfound

/-- A node of a solution computes its output. -/
theorem Solution.node {g : Graph F} {env : ValueId → TensorValue F}
    (h : g.Solution env) {id : NodeId} {node : Node} {out : ValueId} {value : GraphValue}
    (hfound : g.nodes[id]? = some node) (hdefines : g.Defines id node out value) :
    env out = .tabulate value.spec
      (element node.op node.attributes (node.inputs.map env) value.spec.shape) := by
  have hholds := h.holds (equation node) (List.mem_map_of_mem (List.mem_of_getElem? hfound))
  unfold Equation.Holds equation at hholds
  dsimp only at hholds
  rw [hdefines.outputs, eval_some (h.typed.inferred hdefines)] at hholds
  exact (Option.some.inj hholds).symm

/-- The equations of a well-formed graph are ordered, so they have one solution. -/
theorem WellFormed.ordered {g : Graph F} (hwf : g.WellFormed) : Ordered g.equations := by
  have hentry {i : Nat} {e : Equation ValueId (TensorValue F)} (hfound : g.equations[i]? = some e) :
      ∃ node out value, g.nodes[i]? = some node ∧ e = equation node ∧ g.Defines i node out value ∧
        e.output = out := by
    rw [equations, List.getElem?_map] at hfound
    obtain ⟨node, hat, rfl⟩ := Option.map_eq_some_iff.1 hfound
    obtain ⟨out, value, hdefines⟩ := hwf.defines hat
    exact ⟨node, out, value, hat, rfl, hdefines, by rw [equation, hdefines.outputs]; rfl⟩
  refine ordered_of_getElem (fun i j e e' hat hat' hle hmem => ?_)
    fun i j e e' hat hat' hless hsame => ?_
  · obtain ⟨node, out, value, hfound, rfl, hdefines, -⟩ := hentry hat
    obtain ⟨node', out', value', hfound', rfl, hdefines', houtput'⟩ := hentry hat'
    rw [houtput'] at hmem
    obtain ⟨v, hhere, holder⟩ := hwf.input hfound hmem
    rw [hdefines'.found] at hhere
    cases hhere
    exact absurd (holder j hdefines'.producer) (Nat.not_lt.2 hle)
  · obtain ⟨node, out, value, hfound, rfl, hdefines, houtput⟩ := hentry hat
    obtain ⟨node', out', value', hfound', rfl, hdefines', houtput'⟩ := hentry hat'
    rw [houtput, houtput'] at hsame
    have hfound₁ := hdefines'.found
    rw [hsame, hdefines.found] at hfound₁
    cases hfound₁
    have hproducers := hdefines.producer.symm.trans hdefines'.producer
    cases hproducers
    exact absurd hless (Nat.lt_irrefl _)

/-- Values that are no output of a node are inputs or constants. -/
theorem WellFormed.source {g : Graph F} (hwf : g.WellFormed) {id : ValueId}
    (hinside : id < g.values.length) :
    (id ∈ g.inputIds ∨ ∃ tensor, g.constants[id]? = some (some tensor)) ∨
      ∃ e ∈ (g.equations : List (Equation ValueId (TensorValue F))), e.output = id := by
  have hfound := List.getElem?_eq_getElem hinside
  have hmetadata := hwf.metadata id _ hfound
  unfold MetadataOk at hmetadata
  cases hkind : g.values[id].kind with
  | input => exact .inl (.inl ((hwf.inputs_mem id).2 ⟨_, hfound, hkind⟩))
  | constant =>
    rw [hkind] at hmetadata
    obtain ⟨-, tensor, hconstant, -⟩ := hmetadata
    exact .inl (.inr ⟨tensor, hconstant⟩)
  | intermediate =>
    rw [hkind] at hmetadata
    obtain ⟨-, p, node, -, hat, houtputs⟩ := hmetadata
    exact .inr ⟨equation node, List.mem_map_of_mem (List.mem_of_getElem? hat), by
      rw [equation, houtputs]; rfl⟩

/-- The inputs determine the values of a graph. -/
theorem Solution.unique {g : Graph F} (hwf : g.WellFormed) {env env' : ValueId → TensorValue F}
    (h : g.Solution env) (h' : g.Solution env') (hinputs : ∀ id ∈ g.inputIds, env id = env' id) :
    ∀ id < g.values.length, env id = env' id := by
  have hagree := hwf.ordered.unique h.holds h'.holds
    (K := fun id => id ∈ g.inputIds ∨ ∃ tensor, g.constants[id]? = some (some tensor))
    (fun e hmem id hread => ?_) fun id hgiven => ?_
  · exact fun id hinside => hagree id (hwf.source hinside)
  · obtain ⟨node, hmem', rfl⟩ := List.mem_map.1 hmem
    obtain ⟨p, hfound⟩ := List.getElem?_of_mem hmem'
    obtain ⟨value, hat, -⟩ := hwf.input hfound hread
    exact hwf.source (List.getElem?_eq_some_iff.1 hat).1
  · rcases hgiven with hgiven | ⟨tensor, hconstant⟩
    · exact hinputs id hgiven
    · rw [h.constant id tensor hconstant, h'.constant id tensor hconstant]

/-- The values that no node computes, and zeros for the others. -/
def sources (g : Graph F) (inputs : ValueId → TensorValue F) (id : ValueId) : TensorValue F :=
  match (g.constants[id]?).join with
  | some tensor => tensor.contents
  | none =>
    match (g.values[id]?).filter (·.kind == .intermediate) with
    | some value => .tabulate value.spec fun _ => 0
    | none => inputs id

omit [DecidableEq F] in
theorem WellFormed.sources_input {g : Graph F} (hwf : g.WellFormed)
    (inputs : ValueId → TensorValue F) {id : ValueId} {value : GraphValue}
    (hfound : g.values[id]? = some value) (hkind : value.kind = .input) :
    g.sources inputs id = inputs id := by
  have hmetadata := hwf.metadata id value hfound
  rw [MetadataOk, hkind] at hmetadata
  have hconstant : (g.constants[id]?).join = none := by rw [hmetadata.2]; rfl
  have hother : (g.values[id]?).filter (·.kind == .intermediate) = none := by
    rw [hfound]
    simp [hkind]
  rw [sources, hconstant, hother]

/-- Inputs of the specs of a graph are those of a solution. -/
theorem WellFormed.exists_solution {g : Graph F} (hwf : g.WellFormed)
    {inputs : ValueId → TensorValue F}
    (htyped : ∀ id ∈ g.inputIds, ∀ value, g.values[id]? = some value →
      (inputs id).spec = value.spec) :
    ∃ env, g.Solution env ∧ ∀ id ∈ g.inputIds, env id = inputs id := by
  -- Every equation keeps the specs, and neither a constant nor an input is an output of one.
  have hkept : ∃ env, evaluate g.equations (g.sources inputs) = some env ∧ g.Typed env ∧
      (∀ (id : ValueId) (tensor : Tensor F), g.constants[id]? = some (some tensor) →
        env id = tensor.contents) ∧
      ∀ id ∈ g.inputIds, env id = inputs id := by
    refine evaluate_some (fun e hmem env hholds => ?_) ⟨?_, ?_, ?_⟩
    · obtain ⟨htyped, hconstant, hinput⟩ := hholds
      obtain ⟨node, hmem', rfl⟩ := List.mem_map.1 hmem
      obtain ⟨p, hfound⟩ := List.getElem?_of_mem hmem'
      obtain ⟨out, value, hdefines⟩ := hwf.defines hfound
      have houtput : (equation node : Equation ValueId (TensorValue F)).output = out := by
        rw [equation, hdefines.outputs]
        rfl
      have hmetadata := hwf.metadata out value hdefines.found
      rw [MetadataOk, hdefines.kind] at hmetadata
      refine ⟨_, eval_some (Typed.inferred htyped hdefines), ?_, ?_, ?_⟩
      -- the specs: the output gets the one that was inferred for it
      · intro id v hat
        rw [houtput]
        by_cases hsame : id = out
        · subst hsame
          rw [hdefines.found] at hat
          cases hat
          rw [Function.update_self]
          rfl
        · rw [Function.update_of_ne hsame]
          exact htyped id v hat
      -- a constant is no output of a node
      · intro id tensor hat
        rw [houtput, Function.update_of_ne, hconstant id tensor hat]
        rintro rfl
        rw [hmetadata.1] at hat
        cases hat
      -- an input is no output of a node
      · intro id hgiven
        rw [houtput, Function.update_of_ne, hinput id hgiven]
        rintro rfl
        obtain ⟨v, hat, hkind⟩ := (hwf.inputs_mem id).1 hgiven
        rw [hdefines.found] at hat
        cases hat
        rw [hdefines.kind] at hkind
        cases hkind
    -- the sources have the specs the graph states, by the kind of the value
    · intro id value hfound
      have hmetadata := hwf.metadata id value hfound
      cases hkind : value.kind with
      | input =>
        rw [hwf.sources_input inputs hfound hkind]
        exact htyped id ((hwf.inputs_mem id).2 ⟨value, hfound, hkind⟩) value hfound
      | constant =>
        rw [MetadataOk, hkind] at hmetadata
        obtain ⟨-, tensor, hconstant, hsame⟩ := hmetadata
        have hstored : (g.constants[id]?).join = some tensor := by rw [hconstant]; rfl
        rw [sources, hstored]
        exact hsame
      | intermediate =>
        rw [MetadataOk, hkind] at hmetadata
        have hconstant : (g.constants[id]?).join = none := by rw [hmetadata.1]; rfl
        have hhere : (g.values[id]?).filter (·.kind == .intermediate) = some value := by
          rw [hfound]
          simp [hkind]
        rw [sources, hconstant, hhere]
        rfl
    · intro id tensor hconstant
      have hstored : (g.constants[id]?).join = some tensor := by rw [hconstant]; rfl
      rw [sources, hstored]
    · intro id hgiven
      obtain ⟨value, hfound, hkind⟩ := (hwf.inputs_mem id).1 hgiven
      exact hwf.sources_input inputs hfound hkind
  obtain ⟨env, hdone, htyped, hconstant, hinput⟩ := hkept
  exact ⟨env, ⟨htyped, hconstant, hwf.ordered.holds hdone⟩, hinput⟩

/-- Every graph has a solution. -/
theorem WellFormed.solvable {g : Graph F} (hwf : g.WellFormed) : ∃ env, g.Solution env := by
  let zeros : ValueId → TensorValue F := fun id =>
    .tabulate ((g.values[id]?).elim ⟨[], .float32⟩ (·.spec)) fun _ => 0
  have htyped : ∀ id ∈ g.inputIds, ∀ value, g.values[id]? = some value →
    (zeros id).spec = value.spec := by
    intro id _ value hfound
    show (TensorValue.tabulate _ _).spec = _
    rw [hfound]
    rfl
  obtain ⟨env, hsolution, -⟩ := hwf.exists_solution htyped
  exact ⟨env, hsolution⟩

end Graph

end TinyInfer
