import TinyInfer.Graph.Graph
import Mathlib.Data.List.Nodup
import Mathlib.Data.List.Dedup

/-!
# What every graph satisfies

`Graph.WellFormed` is what the functions that build a graph keep: ids are indices,
names differ, the metadata of a value fits its kind, and the inputs of a node were
there before it. `validate` of such a graph throws only if it has no output
(`topologicalOrder_ok`), and Kahn's algorithm then returns the nodes in the order in
which they were added (`kahn_eq`).
-/

namespace TinyInfer

namespace Graph

variable {α : Type}

def names (g : Graph α) : List String := g.values.map (·.name) ++ g.nodes.map (·.name)

/-- The producer of a value, the constant and the tables agree with its kind. -/
def MetadataOk (g : Graph α) (id : ValueId) (value : GraphValue) : Prop :=
  match value.kind with
  | .input => value.producer = none ∧ g.constants[id]? = some none
  | .constant => value.producer = none ∧
      ∃ tensor, g.constants[id]? = some (some tensor) ∧ tensor.spec = value.spec
  | .intermediate => g.constants[id]? = some none ∧
      ∃ p node, value.producer = some p ∧ g.nodes[p]? = some node ∧ node.outputs = [id]

/-- A node reads values that are older than itself, and its output has the inferred
spec and is named after the node. -/
structure NodeOk (g : Graph α) (id : NodeId) (node : Node) : Prop where
  inputs : ∀ input ∈ node.inputs, ∃ value, g.values[input]? = some value ∧
    ∀ p, value.producer = some p → p < id
  output : ∃ out value specs, node.outputs = [out] ∧ g.values[out]? = some value ∧
    value.kind = .intermediate ∧ value.producer = some id ∧
    List.Forall₂ (fun input spec => (g.values[input]?).map (·.spec) = some spec) node.inputs specs ∧
    inferOutputSpecs node.op specs node.attributes = .ok [value.spec] ∧
    ∀ input ∈ node.inputs, input < out
  named : ∀ (out : ValueId) (value : GraphValue), node.outputs = [out] →
    g.values[out]? = some value →
    value.name = outputName node.name 0

structure WellFormed (g : Graph α) : Prop where
  constants_length : g.constants.length = g.values.length
  names_nodup : g.names.Nodup
  names_nonempty : ∀ name ∈ g.names, name ≠ ""
  value_id : ∀ (id : ValueId) (value : GraphValue), g.values[id]? = some value → value.id = id
  spec_valid : ∀ (id : ValueId) (value : GraphValue), g.values[id]? = some value → value.spec.Valid
  metadata : ∀ (id : ValueId) (value : GraphValue), g.values[id]? = some value →
    g.MetadataOk id value
  node_id : ∀ (id : NodeId) (node : Node), g.nodes[id]? = some node → node.id = id
  node : ∀ (id : NodeId) (node : Node), g.nodes[id]? = some node → g.NodeOk id node
  inputs_nodup : g.inputIds.Nodup
  inputs_mem : ∀ id, id ∈ g.inputIds ↔ ∃ value, g.values[id]? = some value ∧ value.kind = .input
  outputs_nodup : g.outputIds.Nodup
  outputs_lt : ∀ id ∈ g.outputIds, id < g.values.length

theorem WellFormed.empty : WellFormed ({} : Graph α) := by
  constructor <;> simp [names]

/-! ## Construction -/

theorem requireUniqueName_ok {g : Graph α} {name : String} :
    g.requireUniqueName name = .ok () ↔ name ≠ "" ∧ name ∉ g.names := by
  unfold requireUniqueName
  rw [check_ok, require_ok, require_ok]
  simp [names]

/-- The specs read for a node's inputs are those of the registered values, one by one. -/
theorem inputSpecs_ok {g : Graph α} {inputs : List ValueId} {e : Exn} {specs : List TensorSpec} :
    g.inputSpecs inputs e = .ok specs ↔
      List.Forall₂ (fun input spec => (g.values[input]?).map (·.spec) = some spec)
        inputs specs := by
  unfold inputSpecs
  induction inputs generalizing specs with
  | nil =>
    rw [List.mapM_nil]
    exact ⟨fun h => (by cases h; exact .nil), fun h => (by cases h; rfl)⟩
  | cons input inputs ih =>
    rw [List.mapM_cons, bind_ok]
    constructor
    · rintro ⟨spec, hfound, h⟩
      obtain ⟨rest, htail, h⟩ := bind_ok.1 h
      cases h
      refine .cons ?_ (ih.1 htail)
      cases hvalue : g.values[input]? with
      | none => rw [hvalue] at hfound; cases hfound
      | some v => rw [hvalue] at hfound; cases hfound; rfl
    · intro h
      cases h with
      | cons hhead htail =>
        obtain ⟨value, hfound, rfl⟩ := Option.map_eq_some_iff.1 hhead
        refine ⟨value.spec, by rw [hfound], bind_ok.2 ⟨_, ih.2 htail, rfl⟩⟩

/-- A checked change returns iff its checks pass, and then makes exactly that change. -/
theorem checked_ok {β γ : Type} {checks : Graph α → Except Exn β}
    {change : β → Graph α → γ × Graph α} {g g' : Graph α} {c : γ} :
    checked checks change g = (.ok c, g') ↔ ∃ b, checks g = .ok b ∧ change b g = (c, g') := by
  unfold checked
  cases checks g with
  | error e => exact ⟨fun h => (by cases h), fun ⟨_, h, _⟩ => (by cases h)⟩
  | ok b => exact ⟨fun h => (by cases h; exact ⟨b, rfl, rfl⟩), fun ⟨_, h, heq⟩ => (by
      cases h
      show (Except.ok (change b g).1, (change b g).2) = _
      rw [heq])⟩

/-- What `addInput` and `addConstant` ask of a name and a spec. -/
theorem checkValueName_ok {g : Graph α} {name : String} {spec : TensorSpec} :
    (do g.requireUniqueName name; validateSpec spec) = .ok () ↔
      (name ≠ "" ∧ name ∉ g.names) ∧ spec.Valid := by
  rw [check_ok, requireUniqueName_ok, validateSpec_ok]

/-- What a call of `addNode` that succeeds has checked. -/
structure NodeAccepted (g : Graph α) (name : String) (op : OpType) (inputs : List ValueId)
    (attributes : NodeAttributes) (spec : TensorSpec) : Prop where
  nonempty : name ≠ ""
  fresh : name ∉ g.names
  output_fresh : outputName name 0 ∉ g.names
  valid : spec.Valid
  inferred : ∃ specs,
    List.Forall₂ (fun input spec => (g.values[input]?).map (·.spec) = some spec) inputs specs ∧
      inferOutputSpecs op specs attributes = .ok [spec]

theorem outputName_ne_empty (name : String) (index : Nat) : outputName name index ≠ "" := by
  intro h
  have := congrArg String.length h
  simp [outputName, String.length_append] at this

/-- The checks of `add_node` pass iff the node is accepted with its one output spec. -/
theorem addNodeChecks_ok {g : Graph α} {name : String} {op : OpType} {inputs : List ValueId}
    {attributes : NodeAttributes} {outputs : List TensorSpec} :
    g.addNodeChecks name op inputs attributes = .ok outputs ↔
      ∃ spec, outputs = [spec] ∧ g.NodeAccepted name op inputs attributes spec := by
  unfold addNodeChecks
  constructor
  · intro h
    obtain ⟨hunique, h⟩ := check_ok.1 h
    obtain ⟨specs, hfound, h⟩ := bind_ok.1 h
    obtain ⟨inferred, hinfer, h⟩ := bind_ok.1 h
    obtain ⟨hvalid, h⟩ := check_ok.1 h
    obtain ⟨houtputsUnique, h⟩ := check_ok.1 h
    cases h
    obtain ⟨spec, rfl⟩ := inferOutputSpecs_ok hinfer
    obtain ⟨hnonempty, hfresh⟩ := requireUniqueName_ok.1 hunique
    have houtputUnique := forM_ok.1 houtputsUnique 0 (by simp)
    exact ⟨spec, rfl, hnonempty, hfresh, (requireUniqueName_ok.1 houtputUnique).2,
      validateSpec_ok.1 (forM_ok.1 hvalid spec (by simp)), specs, inputSpecs_ok.1 hfound, hinfer⟩
  · rintro ⟨spec, rfl, hnonempty, hfresh, houtputFresh, hvalid, specs, hfound, hinfer⟩
    refine check_ok.2 ⟨requireUniqueName_ok.2 ⟨hnonempty, hfresh⟩,
      bind_ok.2 ⟨specs, inputSpecs_ok.2 hfound, bind_ok.2 ⟨[spec], hinfer,
        check_ok.2 ⟨forM_ok.2 ?_, check_ok.2 ⟨forM_ok.2 ?_, rfl⟩⟩⟩⟩⟩
    · simpa using validateSpec_ok.2 hvalid
    · simpa using requireUniqueName_ok.2 ⟨outputName_ne_empty name 0, houtputFresh⟩

/-- A lookup after a push finds an old entry or the new one at the end. -/
theorem getElem?_snoc {β : Type} {bs : List β} {b c : β} {i : Nat} :
    (bs ++ [b])[i]? = some c ↔ bs[i]? = some c ∨ (i = bs.length ∧ c = b) := by
  rw [List.getElem?_append]
  split
  · rename_i hinside
    exact ⟨.inl, fun h => h.elim id fun ⟨heq, _⟩ => absurd hinside (by omega)⟩
  · rename_i houtside
    rw [List.getElem?_eq_none (Nat.not_lt.1 houtside)]
    constructor
    · intro h
      have hindex : i - bs.length = 0 := by
        by_contra hpos
        rw [List.getElem?_eq_none (by simp; omega)] at h
        cases h
      rw [hindex] at h
      cases h
      exact .inr ⟨by omega, rfl⟩
    · rintro (h | ⟨rfl, rfl⟩)
      · cases h
      · simp

theorem getElem?_append_of_some {β : Type} {bs cs : List β} {b : β} {i : Nat}
    (h : bs[i]? = some b) :
    (bs ++ cs)[i]? = some b := by
  rw [List.getElem?_append_left (List.getElem?_eq_some_iff.1 h).1, h]

/-- The tables of `g` are a part of those of `g'`. -/
structure Extends (g g' : Graph α) : Prop where
  values : ∀ (id : ValueId) (value : GraphValue), g.values[id]? = some value →
    g'.values[id]? = some value
  constants : ∀ (id : ValueId) (c : Option (Tensor α)), g.constants[id]? = some c →
    g'.constants[id]? = some c
  nodes : ∀ (id : NodeId) (node : Node), g.nodes[id]? = some node → g'.nodes[id]? = some node

/-- A value's metadata stays right when values and nodes are only appended. -/
theorem MetadataOk.extends {g g' : Graph α} (hext : g.Extends g') {id : ValueId}
    {value : GraphValue} (h : g.MetadataOk id value) : g'.MetadataOk id value := by
  unfold MetadataOk at h ⊢
  cases hkind : value.kind with
  | input =>
    rw [hkind] at h
    exact ⟨h.1, hext.constants id _ h.2⟩
  | constant =>
    rw [hkind] at h
    obtain ⟨hproducer, tensor, hconstant, hspec⟩ := h
    exact ⟨hproducer, tensor, hext.constants id _ hconstant, hspec⟩
  | intermediate =>
    rw [hkind] at h
    obtain ⟨hconstant, p, node, hproducer, hfound, houtputs⟩ := h
    exact ⟨hext.constants id _ hconstant, p, node, hproducer, hext.nodes p _ hfound, houtputs⟩

/-- A node's record stays right when values and nodes are only appended. -/
theorem NodeOk.extends {g g' : Graph α} (hext : g.Extends g') {id : NodeId} {node : Node}
    (h : g.NodeOk id node) : g'.NodeOk id node := by
  constructor
  · intro input hmem
    obtain ⟨value, hfound, holder⟩ := h.inputs input hmem
    exact ⟨value, hext.values input _ hfound, holder⟩
  · obtain ⟨out, value, specs, houtputs, hfound, hkind, hproducer, hinputs, hinferred, holder⟩ :=
      h.output
    refine ⟨out, value, specs, houtputs, hext.values out _ hfound, hkind, hproducer, ?_,
      hinferred, holder⟩
    refine hinputs.imp fun input spec h => ?_
    obtain ⟨v, hfound, rfl⟩ := Option.map_eq_some_iff.1 h
    rw [hext.values input v hfound]
    rfl
  · intro out value honly hfound
    obtain ⟨old, oldValue, -, houtputs, holdFound, -⟩ := h.output
    have hsame : out = old := by simpa using honly.symm.trans houtputs
    rw [hsame, hext.values old oldValue holdFound] at hfound
    cases hfound
    exact h.named old value houtputs holdFound

/-- The tables with one more value, and perhaps the node that produces it. -/
def pushValue (g : Graph α) (name : String) (spec : TensorSpec) (kind : ValueKind)
    (constant : Option (Tensor α)) (node : Option Node) : Graph α :=
  { g with
    values := g.values ++ [⟨g.values.length, name, spec, kind, node.map Node.id⟩]
    constants := g.constants ++ [constant]
    nodes := g.nodes ++ node.toList
    inputIds := if kind = .input then g.inputIds ++ [g.values.length] else g.inputIds }

/-- Appending a value, with or without its node, extends the tables. -/
theorem extends_pushValue (g : Graph α) (name : String) (spec : TensorSpec) (kind : ValueKind)
    (constant : Option (Tensor α)) (node : Option Node) :
    g.Extends (g.pushValue name spec kind constant node) :=
  ⟨fun _ _ h => getElem?_append_of_some h, fun _ _ h => getElem?_append_of_some h,
    fun _ _ h => getElem?_append_of_some h⟩

/-- The names in use after a push are the old ones and those of the pushed entries. -/
theorem names_pushValue (g : Graph α) (name : String) (spec : TensorSpec) (kind : ValueKind)
    (constant : Option (Tensor α)) (node : Option Node) :
    (g.pushValue name spec kind constant node).names.Perm
      (name :: (node.map Node.name).toList ++ g.names) := by
  cases node <;> simp only [Graph.pushValue, names, List.map_append, Option.map, Option.toList,
    List.map_cons, List.map_nil, List.append_nil, List.append_assoc, List.cons_append,
    List.nil_append]
  · exact List.perm_middle
  · refine List.perm_middle.trans (List.Perm.cons _ ?_)
    rw [← List.append_assoc]
    exact List.perm_append_comm

/-- The one step every registration takes: a fresh, valid value keeps the graph well formed. -/
theorem WellFormed.pushValue {g : Graph α} (hwf : g.WellFormed) {name : String} {spec : TensorSpec}
    {kind : ValueKind} {constant : Option (Tensor α)} {node : Option Node}
    (hnodup : (name :: (node.map Node.name).toList ++ g.names).Nodup)
    (hnonempty : ∀ n ∈ name :: (node.map Node.name).toList, n ≠ "") (hvalid : spec.Valid)
    (hmetadata : (g.pushValue name spec kind constant node).MetadataOk g.values.length
      ⟨g.values.length, name, spec, kind, node.map Node.id⟩)
    (hnodeOk : ∀ n, node = some n → n.id = g.nodes.length ∧
      (g.pushValue name spec kind constant node).NodeOk g.nodes.length n) :
    (g.pushValue name spec kind constant node).WellFormed := by
  have hext := g.extends_pushValue name spec kind constant node
  have hpermuted := g.names_pushValue name spec kind constant node
  -- a value of the new tables is an old one or the pushed one
  have hold (id : ValueId) (value : GraphValue)
      (h : (g.pushValue name spec kind constant node).values[id]? = some value) :
      g.values[id]? = some value ∨ (id = g.values.length ∧
        value = ⟨g.values.length, name, spec, kind, node.map Node.id⟩) := getElem?_snoc.1 h
  have holdNode (id : NodeId) (n : Node)
      (h : (g.pushValue name spec kind constant node).nodes[id]? = some n) :
      g.nodes[id]? = some n ∨ (id = g.nodes.length ∧ node = some n) := by
    cases node with
    | none => exact .inl (by simpa [Graph.pushValue] using h)
    | some node =>
      rcases getElem?_snoc.1 h with h | ⟨rfl, rfl⟩
      · exact .inl h
      · exact .inr ⟨rfl, rfl⟩
  -- an input's id is that of a value, so it is not the pushed one's
  have hbound (id : ValueId) (hmem : id ∈ g.inputIds) : id < g.values.length := by
    obtain ⟨value, hfound, -⟩ := (hwf.inputs_mem id).1 hmem
    exact (List.getElem?_eq_some_iff.1 hfound).1
  constructor
  -- the clauses in the order of the structure
  · simp [Graph.pushValue, hwf.constants_length]
  · exact hpermuted.nodup_iff.2 hnodup
  · intro n hmem
    rcases List.mem_append.1 (hpermuted.mem_iff.1 hmem) with hmem | hmem
    · exact hnonempty n hmem
    · exact hwf.names_nonempty n hmem
  · intro id value h
    rcases hold id value h with h | ⟨rfl, rfl⟩
    · exact hwf.value_id id value h
    · rfl
  · intro id value h
    rcases hold id value h with h | ⟨rfl, rfl⟩
    · exact hwf.spec_valid id value h
    · exact hvalid
  · intro id value h
    rcases hold id value h with h | ⟨rfl, rfl⟩
    · exact (hwf.metadata id value h).extends hext
    · exact hmetadata
  · intro id n h
    rcases holdNode id n h with h | ⟨rfl, hnew⟩
    · exact hwf.node_id id n h
    · exact (hnodeOk n hnew).1
  · intro id n h
    rcases holdNode id n h with h | ⟨rfl, hnew⟩
    · exact (hwf.node id n h).extends hext
    · exact (hnodeOk n hnew).2
  · show (if kind = .input then _ else _ : List ValueId).Nodup
    split
    · rw [List.nodup_append]
      refine ⟨hwf.inputs_nodup, List.nodup_singleton _, fun a hmem b hsingle hsame => ?_⟩
      rw [List.mem_singleton.1 hsingle] at hsame
      exact absurd (hsame ▸ hbound a hmem) (Nat.lt_irrefl _)
    · exact hwf.inputs_nodup
  -- an id is an input iff it was one, or the pushed value is
  · intro id
    have hregistered : id ∈ (g.pushValue name spec kind constant node).inputIds ↔
        id ∈ g.inputIds ∨ (kind = .input ∧ id = g.values.length) := by
      show id ∈ (if kind = .input then _ else _ : List ValueId) ↔ _
      split <;> simp_all
    rw [hregistered]
    constructor
    · rintro (hmem | ⟨rfl, rfl⟩)
      · obtain ⟨value, hfound, hkind⟩ := (hwf.inputs_mem id).1 hmem
        exact ⟨value, hext.values id value hfound, hkind⟩
      · exact ⟨_, getElem?_snoc.2 (.inr ⟨rfl, rfl⟩), rfl⟩
    · rintro ⟨value, hfound, hinput⟩
      rcases hold id value hfound with hfound | ⟨rfl, rfl⟩
      · exact .inl ((hwf.inputs_mem id).2 ⟨value, hfound, hinput⟩)
      · exact .inr ⟨hinput, rfl⟩
  · exact hwf.outputs_nodup
  · intro id hmem
    have := hwf.outputs_lt id hmem
    show id < (g.values ++ [_]).length
    rw [List.length_append]
    exact Nat.lt_add_right _ this

theorem pushInput_eq (g : Graph α) (name : String) (spec : TensorSpec) :
    g.pushInput name spec = g.pushValue name spec .input none none := by
  simp [Graph.pushInput, Graph.pushValue]

theorem pushConstant_eq (g : Graph α) (name : String) (tensor : Tensor α) :
    g.pushConstant name tensor = g.pushValue name tensor.spec .constant (some tensor) none := by
  simp [Graph.pushConstant, Graph.pushValue]

theorem WellFormed.pushInput {g : Graph α} (hwf : g.WellFormed) {name : String} {spec : TensorSpec}
    (hnonempty : name ≠ "") (hfresh : name ∉ g.names) (hvalid : spec.Valid) :
    (g.pushInput name spec).WellFormed := by
  rw [pushInput_eq]
  refine hwf.pushValue (List.nodup_cons.2 ⟨hfresh, hwf.names_nodup⟩)
    (by simpa using hnonempty) hvalid
    ⟨rfl, ?_⟩ (fun _ h => (by cases h))
  exact getElem?_snoc.2 (.inr ⟨hwf.constants_length.symm, rfl⟩)

theorem WellFormed.pushConstant {g : Graph α} (hwf : g.WellFormed) {name : String}
    {tensor : Tensor α} (hnonempty : name ≠ "") (hfresh : name ∉ g.names) :
    (g.pushConstant name tensor).WellFormed := by
  rw [pushConstant_eq]
  refine hwf.pushValue (List.nodup_cons.2 ⟨hfresh, hwf.names_nodup⟩) (by simpa using hnonempty)
    tensor.spec_valid ⟨rfl, tensor, ?_, rfl⟩ (fun _ h => (by cases h))
  exact getElem?_snoc.2 (.inr ⟨hwf.constants_length.symm, rfl⟩)

/-- The node that `addNode` adds. -/
def newNode (g : Graph α) (name : String) (op : OpType) (inputs : List ValueId)
    (attributes : NodeAttributes) : Node where
  id := g.nodes.length
  name := name
  op := op
  inputs := inputs
  outputs := [g.values.length]
  attributes := attributes

/-- Registering a node with one output is the common push of that output and the node. -/
theorem pushNode_eq (g : Graph α) (name : String) (op : OpType) (inputs : List ValueId)
    (attributes : NodeAttributes) (spec : TensorSpec) :
    g.pushNode name op inputs attributes [spec] =
      g.pushValue (outputName name 0) spec .intermediate none
        (some (g.newNode name op inputs attributes)) := by
  simp [Graph.pushNode, Graph.pushValue, newNode, List.range_succ]

theorem outputName_ne (name : String) (index : Nat) : outputName name index ≠ name := by
  intro h
  have hlength := congrArg String.length h
  rw [outputName, String.length_append, String.length_append] at hlength
  have hcolon : ":".length = 1 := rfl
  omega

/-- Registering an accepted node keeps the graph well formed. -/
theorem WellFormed.pushNode {g : Graph α} (hwf : g.WellFormed) {name : String} {op : OpType}
    {inputs : List ValueId} {attributes : NodeAttributes} {spec : TensorSpec}
    (h : g.NodeAccepted name op inputs attributes spec) :
    (g.pushNode name op inputs attributes [spec]).WellFormed := by
  rw [pushNode_eq]
  obtain ⟨specs, hfound, hinferred⟩ := h.inferred
  have hext := g.extends_pushValue (outputName name 0) spec .intermediate none
    (some (g.newNode name op inputs attributes))
  -- every input of the node is an older value
  have hexist : ∀ input ∈ inputs, ∃ value, g.values[input]? = some value := by
    intro input hmem
    clear h hinferred hext
    induction hfound with
    | nil => cases hmem
    | cons hhead _ ih =>
      rcases List.mem_cons.1 hmem with rfl | hmem
      · obtain ⟨value, hfound, -⟩ := Option.map_eq_some_iff.1 hhead
        exact ⟨value, hfound⟩
      · exact ih hmem
  refine hwf.pushValue ?_ ?_ h.valid ?_ ?_
  -- the names of the node and its output are new
  · refine List.nodup_cons.2 ⟨?_, List.nodup_cons.2 ⟨h.fresh, hwf.names_nodup⟩⟩
    exact fun hmem => (List.mem_cons.1 hmem).elim (outputName_ne name 0) h.output_fresh
  · simpa [newNode] using ⟨outputName_ne_empty name 0, h.nonempty⟩
  -- the output is defined by the node
  · refine ⟨getElem?_snoc.2 (.inr ⟨hwf.constants_length.symm, rfl⟩), g.nodes.length,
      g.newNode name op inputs attributes, rfl, ?_, rfl⟩
    exact getElem?_snoc.2 (.inr ⟨rfl, rfl⟩)
  -- the node that was added
  · rintro _ ⟨⟩
    refine ⟨rfl, ?_, ?_, ?_⟩
    · intro input hmem
      obtain ⟨value, hold⟩ := hexist input hmem
      refine ⟨value, hext.values input value hold, fun p hproducer => ?_⟩
      -- The producer of an older value is an older node.
      have hmetadata := hwf.metadata input value hold
      unfold MetadataOk at hmetadata
      cases hkind : value.kind with
      | input => rw [hkind] at hmetadata; rw [hmetadata.1] at hproducer; cases hproducer
      | constant => rw [hkind] at hmetadata; rw [hmetadata.1] at hproducer; cases hproducer
      | intermediate =>
        rw [hkind] at hmetadata
        obtain ⟨-, q, node, hproducer', hnodeFound, -⟩ := hmetadata
        rw [hproducer'] at hproducer
        cases hproducer
        exact (List.getElem?_eq_some_iff.1 hnodeFound).1
    · refine ⟨g.values.length, _, specs, rfl, getElem?_snoc.2 (.inr ⟨rfl, rfl⟩), rfl, rfl, ?_,
        hinferred, ?_⟩
      · refine hfound.imp fun input spec h => ?_
        obtain ⟨v, hfound, rfl⟩ := Option.map_eq_some_iff.1 h
        rw [hext.values input v hfound]
        rfl
      · intro input hmem
        obtain ⟨value, hold⟩ := hexist input hmem
        exact (List.getElem?_eq_some_iff.1 hold).1
    · intro out value honly hfound
      have hsame : out = g.values.length := by simpa [newNode] using honly.symm
      rw [hsame] at hfound
      rcases getElem?_snoc.1 hfound with hfound | ⟨-, rfl⟩
      · exact absurd (List.getElem?_eq_some_iff.1 hfound).1 (Nat.lt_irrefl _)
      · rfl

/-- Marking a registered value that is not yet an output keeps the graph well formed. -/
theorem WellFormed.markOutput {g : Graph α} (hwf : g.WellFormed) {id : ValueId}
    (hexists : id < g.values.length) (hfresh : id ∉ g.outputIds) :
    ({ g with outputIds := g.outputIds ++ [id] } : Graph α).WellFormed :=
  { hwf with
    metadata := hwf.metadata
    node := fun i n h => ⟨(hwf.node i n h).inputs, (hwf.node i n h).output, (hwf.node i n h).named⟩
    outputs_nodup := by
      rw [List.nodup_append]
      refine ⟨hwf.outputs_nodup, List.nodup_singleton _, fun a hmem b hsingle hsame => hfresh ?_⟩
      rwa [← List.mem_singleton.1 hsingle, ← hsame]
    outputs_lt := by
      intro v hmem
      rcases List.mem_append.1 hmem with hmem | hmem
      · exact hwf.outputs_lt v hmem
      · rw [List.mem_singleton.1 hmem]
        exact hexists }

/-! ## The order of the nodes -/

/-- The dependencies of a node that are among `k` and the ids after it. -/
def openDependencies (g : Graph α) (k : NodeId) (node : Node) : List NodeId :=
  (g.dependencies node).filter (k ≤ ·)

theorem mem_dependencies {g : Graph α} {node : Node} {p : NodeId} :
    p ∈ g.dependencies node ↔
      ∃ input ∈ node.inputs, ∃ value, g.values[input]? = some value ∧ value.producer = some p := by
  simp [dependencies, List.mem_mergeSort, Option.bind_eq_some_iff]

theorem dependencies_nodup (g : Graph α) (node : Node) : (g.dependencies node).Nodup :=
  List.nodup_dedup _

/-- A node depends on earlier nodes only, so the graph has no cycle. -/
theorem WellFormed.dependencies_lt {g : Graph α} (hwf : g.WellFormed) {id : NodeId} {node : Node}
    (h : g.nodes[id]? = some node) : ∀ p ∈ g.dependencies node, p < id := by
  intro p hmem
  obtain ⟨input, hinputMem, value, hfound, hproducer⟩ := mem_dependencies.1 hmem
  obtain ⟨value', hfound', holder⟩ := (hwf.node id node h).inputs input hinputMem
  rw [hfound'] at hfound
  cases hfound
  exact holder p hproducer

/-- What is left of the dependencies after one more node has run. -/
theorem openDependencies_succ (g : Graph α) (k : NodeId) (node : Node) :
    (g.openDependencies (k + 1) node).length =
      (g.openDependencies k node).length - (if k ∈ g.dependencies node then 1 else 0) := by
  unfold openDependencies
  have hnodup := g.dependencies_nodup node
  generalize g.dependencies node = deps at hnodup
  have hsplit : deps.filter (k + 1 ≤ ·) = (deps.filter (k ≤ ·)).erase k := by
    rw [(hnodup.filter _).erase_eq_filter, List.filter_filter]
    refine List.filter_congr fun d _ => ?_
    rw [Bool.eq_iff_iff, Bool.and_eq_true, decide_eq_true_iff, decide_eq_true_iff, bne_iff_ne]
    exact ⟨fun h => ⟨Nat.ne_of_gt h, Nat.le_of_lt h⟩, fun ⟨hne, hle⟩ =>
      Nat.lt_of_le_of_ne hle (Ne.symm hne)⟩
  rw [hsplit, List.length_erase]
  by_cases hmem : k ∈ deps
  · rw [if_pos hmem, if_pos (List.mem_filter.2 ⟨hmem, by simp⟩)]
  · rw [if_neg hmem, if_neg fun h => hmem (List.mem_filter.1 h).1]
    rfl

/-- Releasing the consumers lowers each indegree once and makes those that reach zero ready. -/
theorem releaseConsumers_spec {consumers : List NodeId} (ready : List NodeId)
    (indegree : NodeId → Nat) (hnodup : consumers.Nodup) :
    (∀ id, (releaseConsumers consumers ready indegree).2 id =
      indegree id - (if id ∈ consumers then 1 else 0)) ∧
    (∀ id, id ∈ (releaseConsumers consumers ready indegree).1 ↔
      id ∈ ready ∨ (id ∈ consumers ∧ indegree id - 1 = 0)) ∧
    (ready.Nodup → (∀ id ∈ consumers, id ∉ ready) →
      (releaseConsumers consumers ready indegree).1.Nodup) := by
  induction consumers generalizing ready indegree with
  | nil => exact ⟨by simp [releaseConsumers], by simp [releaseConsumers], fun h _ => h⟩
  | cons consumer rest ih =>
    obtain ⟨hfresh, hrestNodup⟩ := List.nodup_cons.1 hnodup
    rw [releaseConsumers]
    obtain ⟨hdegrees, hmembers, hdistinct⟩ := ih
      (if indegree consumer - 1 = 0 then consumer :: ready else ready)
      (Function.update indegree consumer (indegree consumer - 1)) hrestNodup
    refine ⟨fun id => ?_, fun id => ?_, fun hreadyNodup hapart => ?_⟩
    · rw [hdegrees]
      by_cases hsame : id = consumer
      · subst hsame
        simp [hfresh]
      · simp [hsame]
    · rw [hmembers]
      by_cases hsame : id = consumer
      · subst hsame
        by_cases hzero : indegree id - 1 = 0
        · simp [hzero]
        · simp [hzero, hfresh]
      · by_cases hzero : indegree consumer - 1 = 0
        · simp [hzero, hsame]
        · simp [hzero, hsame]
    · refine hdistinct ?_ ?_
      · by_cases hzero : indegree consumer - 1 = 0
        · rw [if_pos hzero]
          exact List.nodup_cons.2 ⟨hapart consumer List.mem_cons_self, hreadyNodup⟩
        · rwa [if_neg hzero]
      · intro id hmem hready'
        have hout := hapart id (List.mem_cons_of_mem _ hmem)
        by_cases hzero : indegree consumer - 1 = 0
        · rw [if_pos hzero] at hready'
          rcases List.mem_cons.1 hready' with rfl | h
          · exact hfresh hmem
          · exact hout h
        · rw [if_neg hzero] at hready'
          exact hout hready'

/-- The consumers of a node are the nodes that depend on it. -/
theorem mem_consumers {g : Graph α} (hwf : g.WellFormed) {id c : NodeId} :
    c ∈ g.consumers id ↔ ∃ node, g.nodes[c]? = some node ∧ id ∈ g.dependencies node := by
  unfold consumers
  constructor
  · intro hmem
    obtain ⟨node, hfiltered, rfl⟩ := List.mem_map.1 hmem
    obtain ⟨hnodeMem, hdep⟩ := List.mem_filter.1 hfiltered
    obtain ⟨i, hfound⟩ := List.getElem?_of_mem hnodeMem
    rw [hwf.node_id i node hfound]
    exact ⟨node, hfound, by simpa using hdep⟩
  · rintro ⟨node, hfound, hdep⟩
    rw [← hwf.node_id c node hfound]
    exact List.mem_map.2 ⟨node,
      List.mem_filter.2 ⟨List.mem_of_getElem? hfound, by simpa using hdep⟩, rfl⟩

theorem WellFormed.nodes_map_id {g : Graph α} (hwf : g.WellFormed) :
    g.nodes.map Node.id = List.range g.nodes.length := by
  refine List.ext_getElem (by simp) fun i h _ => ?_
  rw [List.getElem_map, List.getElem_range]
  exact hwf.node_id i _ (List.getElem?_eq_getElem _)

theorem consumers_nodup {g : Graph α} (hwf : g.WellFormed) (id : NodeId) :
    (g.consumers id).Nodup := by
  have hids : (g.nodes.map Node.id).Nodup := hwf.nodes_map_id ▸ List.nodup_range
  exact hids.sublist (List.filter_sublist.map _)

/-- After `k` pops the queue holds the nodes from `k` on that depend on no node from `k`
on, and the smallest of these is `k`. -/
theorem kahn_eq {g : Graph α} (hwf : g.WellFormed) (fuel k : Nat) (ready : List NodeId)
    (indegree : NodeId → Nat) (hfuel_eq : fuel + k = g.nodes.length)
    (hdegrees : ∀ id node, g.nodes[id]? = some node →
      indegree id = (g.openDependencies k node).length)
    (hmembers : ∀ id, id ∈ ready ↔ k ≤ id ∧ ∃ node, g.nodes[id]? = some node ∧
      g.openDependencies k node = [])
    (hnodup : ready.Nodup) : g.kahn fuel ready indegree = List.range' k fuel := by
  induction fuel generalizing k ready indegree with
  | zero => rfl
  | succ fuel ih =>
    -- the least open node is `k`: all it reads comes before
    have hinside : k < g.nodes.length := by omega
    have hfound : g.nodes[k]? = some g.nodes[k] := List.getElem?_eq_getElem hinside
    have hclosed : g.openDependencies k g.nodes[k] = [] := by
      refine List.filter_eq_nil_iff.2 fun p hmem => ?_
      have := hwf.dependencies_lt hfound p hmem
      simpa using this
    have hfirst : ready.min? = some k := by
      refine List.min?_eq_some_iff.2 ⟨(hmembers k).2 ⟨Nat.le_refl _, _, hfound, hclosed⟩, ?_⟩
      exact fun id hmem => ((hmembers id).1 hmem).1
    rw [kahn, hfirst, List.range'_succ]
    obtain ⟨hdegrees', hmembers', hdistinct⟩ := releaseConsumers_spec (ready.erase k)
      indegree (consumers_nodup hwf k)
    have hmem_erase (id : NodeId) : id ∈ ready.erase k ↔ id ≠ k ∧ id ∈ ready := hnodup.mem_erase_iff
    -- A consumer of `k` waits for `k`, so it is not ready yet.
    have hwaiting : ∀ id ∈ g.consumers k, id ∉ ready := by
      intro id hconsumer hmem
      obtain ⟨node, hfound, hdep⟩ := (mem_consumers hwf).1 hconsumer
      obtain ⟨-, node', hfound', hnone⟩ := (hmembers id).1 hmem
      rw [hfound] at hfound'
      cases hfound'
      have : k ∈ g.openDependencies k node := List.mem_filter.2 ⟨hdep, by simp⟩
      rw [hnone] at this
      cases this
    have hconsumes {id : NodeId} {node : Node} (hfound : g.nodes[id]? = some node) :
        id ∈ g.consumers k ↔ k ∈ g.dependencies node := by
      rw [mem_consumers hwf]
      exact ⟨fun ⟨node', hfound', hdep⟩ => (by rw [hfound] at hfound'; cases hfound'; exact hdep),
        fun hdep => ⟨node, hfound, hdep⟩⟩
    show k :: g.kahn fuel _ _ = _
    congr 1
    -- the next node, by induction on what is left
    refine ih (k + 1) _ _ (by omega) ?_ ?_ ?_
    -- a consumer of `k` has one open dependency fewer
    · intro id node hfound
      rw [hdegrees', hdegrees id node hfound, openDependencies_succ]
      simp only [hconsumes hfound]
    -- the queue is again the nodes without open dependencies
    · intro id
      rw [hmembers', hmem_erase, hmembers]
      constructor
      · rintro (⟨hne, hle, node, hfound, hnone⟩ | ⟨hconsumer, hzero⟩)
        · refine ⟨Nat.lt_of_le_of_ne hle (Ne.symm hne), node, hfound, ?_⟩
          have := g.openDependencies_succ k node
          rw [hnone] at this
          exact List.length_eq_zero_iff.1 (by simpa using this)
        · obtain ⟨node, hfound, hdep⟩ := (mem_consumers hwf).1 hconsumer
          refine ⟨hwf.dependencies_lt hfound k hdep, node, hfound, ?_⟩
          refine List.length_eq_zero_iff.1 ?_
          rw [openDependencies_succ, if_pos hdep, ← hdegrees id node hfound, hzero]
      · rintro ⟨hlt, node, hfound, hnone⟩
        have hlength := g.openDependencies_succ k node
        rw [hnone, List.length_nil] at hlength
        by_cases hdep : k ∈ g.dependencies node
        · rw [if_pos hdep] at hlength
          exact .inr ⟨(hconsumes hfound).2 hdep, by rw [hdegrees id node hfound, ← hlength]⟩
        · rw [if_neg hdep] at hlength
          exact .inl ⟨Nat.ne_of_gt hlt, Nat.le_of_lt hlt, node, hfound,
            List.length_eq_zero_iff.1 (by omega)⟩
    · exact hdistinct (hnodup.erase k) fun id hconsumer hmem =>
        hwaiting id hconsumer ((hmem_erase id).1 hmem).2

/-! ## Validation -/

/-- The scan over registered ids passes when all are in range and none repeats. -/
theorem checkRegistered_ok {count : Nat} {outOfRange twice : Exn} {seen ids : List ValueId}
    (hinside : ∀ id ∈ ids, id < count) (hnodup : (ids ++ seen).Nodup) :
    checkRegistered count outOfRange twice seen ids = .ok () := by
  induction ids generalizing seen with
  | nil => rfl
  | cons id ids ih =>
    obtain ⟨hhead, htail⟩ := List.forall_mem_cons.1 hinside
    have hapart := List.nodup_cons.1 hnodup
    refine check_ok.2 ⟨require_ok.2 (by simpa using hhead),
      check_ok.2 ⟨require_ok.2 ?_, ih htail ?_⟩⟩
    · simpa using fun hmem => hapart.1 (List.mem_append_right _ hmem)
    · rwa [List.nodup_middle]

/-- `validate` accepts every value of a well-formed graph. -/
theorem WellFormed.checkValue_ok {g : Graph α} (hwf : g.WellFormed) {id : ValueId}
    {value : GraphValue} (hfound : g.values[id]? = some value) :
    g.checkValue id value = .ok () := by
  have hmetadata := hwf.metadata id value hfound
  have hregistered : g.inputIds.contains id = true ↔ value.kind = .input := by
    rw [List.contains_iff_mem, hwf.inputs_mem]
    exact ⟨fun ⟨value', hfound', hkind⟩ => (by rw [hfound] at hfound'; cases hfound'; exact hkind),
      fun hkind => ⟨value, hfound, hkind⟩⟩
  unfold checkValue
  unfold MetadataOk at hmetadata
  cases hkind : value.kind with
  | input =>
    rw [hkind] at hmetadata
    exact require_ok.2 (by rw [hregistered.2 hkind, hmetadata.1, hmetadata.2]; rfl)
  | constant =>
    rw [hkind] at hmetadata
    obtain ⟨hproducer, tensor, hconstant, hspec⟩ := hmetadata
    have hfree : g.inputIds.contains id = false := by
      rw [Bool.eq_false_iff, ne_eq, hregistered, hkind]
      decide
    refine check_ok.2 ⟨require_ok.2 (by rw [hfree, hproducer, hconstant]; rfl), require_ok.2 ?_⟩
    rw [hconstant]
    simpa using hspec
  | intermediate =>
    rw [hkind] at hmetadata
    obtain ⟨hconstant, p, node, hproducer, hfound, -⟩ := hmetadata
    have hfree : g.inputIds.contains id = false := by
      rw [Bool.eq_false_iff, ne_eq, hregistered, hkind]
      decide
    refine check_ok.2 ⟨require_ok.2 (by rw [hfree, hproducer, hconstant]; rfl), require_ok.2 ?_⟩
    rw [hproducer]
    simpa using (List.getElem?_eq_some_iff.1 hfound).1

/-- The scan over the values passes, by induction on the values still to be seen. -/
theorem WellFormed.checkValues_ok {g : Graph α} (hwf : g.WellFormed)
    {values : List (GraphValue × ValueId)} (names : List String)
    (hfound : ∀ p ∈ values, g.values[p.2]? = some p.1)
    (hnodup : (values.map (·.1.name) ++ names).Nodup) :
    g.checkValues values names = .ok ((values.map (·.1.name)).reverse ++ names) := by
  induction values generalizing names with
  | nil => rfl
  | cons p values ih =>
    obtain ⟨value, id⟩ := p
    obtain ⟨hhead, htail⟩ := List.forall_mem_cons.1 hfound
    have hapart := List.nodup_cons.1 hnodup
    refine check_ok.2 ⟨require_ok.2 (by simpa using hwf.value_id id value hhead),
      check_ok.2 ⟨validateSpec_ok.2 (hwf.spec_valid id value hhead), check_ok.2 ⟨require_ok.2 ?_,
        check_ok.2 ⟨hwf.checkValue_ok hhead, ?_⟩⟩⟩⟩
    · simpa using fun hmem => hapart.1 (List.mem_append_right _ hmem)
    · rw [ih _ htail (by rwa [List.nodup_middle])]
      simp

/-- The output of a node. -/
def outputOf (node : Node) : ValueId := node.outputs.headD 0

/-- The scan over the nodes passes, by induction on the nodes still to be seen. -/
theorem WellFormed.checkNodes_ok {g : Graph α} (hwf : g.WellFormed) {nodes : List (Node × NodeId)}
    (names : List String) (produced : List ValueId) (hfound : ∀ p ∈ nodes, g.nodes[p.2]? = some p.1)
    (hnodup : (nodes.map (·.1.name) ++ names).Nodup)
    (hfresh : (nodes.map (outputOf ·.1) ++ produced).Nodup) :
    g.checkNodes nodes names produced = .ok ((nodes.map (outputOf ·.1)).reverse ++ produced) := by
  induction nodes generalizing names produced with
  | nil => rfl
  | cons p nodes ih =>
    obtain ⟨node, id⟩ := p
    obtain ⟨hhead, htail⟩ := List.forall_mem_cons.1 hfound
    have hapart := List.nodup_cons.1 hnodup
    have hapart' := List.nodup_cons.1 hfresh
    obtain ⟨out, value, specs, houtputs, hfound, hkind, hproducer, hinputs, hinferred, -⟩ :=
      (hwf.node id node hhead).output
    have hsame : outputOf node = out := by rw [outputOf, houtputs]; rfl
    refine check_ok.2 ⟨require_ok.2 (by simpa using hwf.node_id id node hhead),
      check_ok.2 ⟨require_ok.2 ?_,
        check_ok.2 ⟨require_ok.2 (by rw [houtputs]; rfl),
          bind_ok.2 ⟨specs, inputSpecs_ok.2 hinputs,
            bind_ok.2 ⟨_, hinferred, check_ok.2 ⟨require_ok.2 (by rw [houtputs]; rfl),
              bind_ok.2 ⟨out :: produced, ?_, check_ok.2 ⟨require_ok.2 ?_, ?_⟩⟩⟩⟩⟩⟩⟩⟩
    · simpa using fun hmem => hapart.1 (List.mem_append_right _ hmem)
    · rw [houtputs, List.zip_cons_cons, List.zip_nil_left, checkOutputs, hfound]
      refine check_ok.2 ⟨require_ok.2 ?_, check_ok.2 ⟨require_ok.2 ?_, rfl⟩⟩
      · simpa [hsame] using fun hmem => hapart'.1 (List.mem_append_right _ hmem)
      · rw [hkind, hproducer, hwf.node_id id node hhead]
        simp
    · rw [List.all_eq_true]
      intro p hmem
      simpa using Nat.lt_trans (hwf.dependencies_lt hhead p hmem)
        (List.getElem?_eq_some_iff.1 hhead).1
    · have hrest := hfresh
      rw [List.map_cons, hsame] at hrest
      rw [ih _ _ htail (by rwa [List.nodup_middle]) (by rwa [List.nodup_middle])]
      simp [hsame]

/-- No value is the output of two nodes, since each records its producer. -/
theorem WellFormed.outputs_nodup' {g : Graph α} (hwf : g.WellFormed) :
    (g.nodes.map outputOf).Nodup := by
  rw [List.nodup_iff_injective_getElem]
  intro ⟨i, hi⟩ ⟨j, hj⟩ hsame
  have hproducer (k : Nat) (hk : k < g.nodes.length) :
      ∃ value, g.values[outputOf g.nodes[k]]? = some value ∧ value.producer = some k := by
    obtain ⟨out, value, specs, houtputs, hfound, -, hproducer, -⟩ :=
      (hwf.node k _ (List.getElem?_eq_getElem hk)).output
    exact ⟨value, by rw [outputOf, houtputs]; exact hfound, hproducer⟩
  rw [List.length_map] at hi hj
  obtain ⟨v, hfound, hp⟩ := hproducer i hi
  obtain ⟨w, hfound', hq⟩ := hproducer j hj
  have hsame : outputOf g.nodes[i] = outputOf g.nodes[j] := by simpa using hsame
  rw [hsame, hfound'] at hfound
  cases hfound
  rw [hp] at hq
  cases hq
  rfl

theorem map_fst_zipIdx {β γ : Type} (f : β → γ) (bs : List β) :
    bs.zipIdx.map (fun p => f p.1) = bs.map f := by
  rw [show (fun p : β × Nat => f p.1) = f ∘ Prod.fst from rfl, ← List.map_map, List.zipIdx_map_fst]

/-- The order of a well-formed graph is the order in which its nodes were added, and
only a missing output makes `topologicalOrder` throw. -/
theorem topologicalOrder_ok {g : Graph α} (hwf : g.WellFormed) {order : List NodeId} :
    g.topologicalOrder = .ok order ↔ g.outputIds ≠ [] ∧ order = List.range g.nodes.length := by
  have hzipped {β : Type} (bs : List β) : ∀ p ∈ bs.zipIdx, bs[p.2]? = some p.1 :=
    fun p hmem => List.mem_zipIdx_iff_getElem?.1 hmem
  -- the passes over the values and the nodes find nothing wrong
  have hvalues := hwf.checkValues_ok [] (hzipped g.values) (by
    rw [map_fst_zipIdx GraphValue.name, List.append_nil]
    exact (List.nodup_append.1 hwf.names_nodup).1)
  have hnodes := hwf.checkNodes_ok ((g.values.zipIdx.map (·.1.name)).reverse ++ []) []
    (hzipped g.nodes) (by
      rw [map_fst_zipIdx GraphValue.name, map_fst_zipIdx Node.name, List.append_nil]
      refine (List.perm_append_comm.trans ((List.reverse_perm _).append_right _)).nodup_iff.2 ?_
      exact hwf.names_nodup) (by
      rw [map_fst_zipIdx outputOf, List.append_nil]
      exact hwf.outputs_nodup')
  -- The queue starts with the nodes that read no other node.
  let indegree (id : NodeId) : Nat := (g.nodes[id]?).elim 0 fun node => (g.dependencies node).length
  have hall (node : Node) : g.openDependencies 0 node = g.dependencies node :=
    List.filter_eq_self.2 fun p _ => by simp
  have horder_eq :
    g.kahn g.nodes.length ((List.range g.nodes.length).filter (indegree · = 0)) indegree =
      List.range g.nodes.length := by
    refine (kahn_eq hwf _ 0 _ _ rfl (fun id node hfound => ?_) (fun id => ?_)
      (List.nodup_range.filter _)).trans List.range_eq_range'.symm
    · simp only [indegree, hfound, hall, Option.elim]
    · rw [List.mem_filter, List.mem_range]
      constructor
      · rintro ⟨hinside, hzero⟩
        refine ⟨Nat.zero_le _, _, List.getElem?_eq_getElem hinside, ?_⟩
        simpa [indegree, hall, List.getElem?_eq_getElem hinside] using hzero
      · rintro ⟨-, node, hfound, hnone⟩
        rw [hall] at hnone
        exact ⟨(List.getElem?_eq_some_iff.1 hfound).1, by simp [indegree, hfound, hnone]⟩
  -- every intermediate value was produced
  have hproduced : (g.values.zipIdx.all fun p => p.1.kind != .intermediate ||
      ((g.nodes.zipIdx.map fun (p : Node × Nat) => outputOf p.1).reverse ++ []).contains p.2) =
        true := by
    rw [List.all_eq_true]
    rintro ⟨value, id⟩ hmem
    have hmetadata := hwf.metadata id value (hzipped g.values _ hmem)
    unfold MetadataOk at hmetadata
    cases hkind : value.kind with
    | input => simp
    | constant => simp
    | intermediate =>
      rw [hkind] at hmetadata
      obtain ⟨-, p, node, -, hfound, houtputs⟩ := hmetadata
      have : id ∈ g.nodes.map outputOf :=
        List.mem_map.2 ⟨node, List.mem_of_getElem? hfound, by rw [outputOf, houtputs]; rfl⟩
      rw [map_fst_zipIdx outputOf]
      simpa [hkind] using this
  unfold topologicalOrder
  rw [check_ok, require_ok, check_ok, require_ok, check_ok, check_ok]
  -- what is left of each way is the order of Kahn's algorithm
  constructor
  · rintro ⟨-, houtputs, -, -, h⟩
    refine ⟨by simpa using houtputs, ?_⟩
    obtain ⟨names, hvaluesOk, h⟩ := bind_ok.1 h
    obtain ⟨produced', hnodesOk, h⟩ := bind_ok.1 h
    obtain ⟨-, h⟩ := check_ok.1 h
    obtain ⟨-, h⟩ := check_ok.1 h
    cases h
    exact horder_eq
  · rintro ⟨houtputs, rfl⟩
    refine ⟨by simpa using hwf.constants_length, by simpa using houtputs,
      checkRegistered_ok (fun id hmem => ?_) (by rw [List.append_nil]; exact hwf.inputs_nodup),
      checkRegistered_ok hwf.outputs_lt (by rw [List.append_nil]; exact hwf.outputs_nodup),
      bind_ok.2 ⟨_, hvalues, bind_ok.2 ⟨_, hnodes, check_ok.2 ⟨require_ok.2 hproduced,
        check_ok.2 ⟨require_ok.2 ?_, ?_⟩⟩⟩⟩⟩
    · obtain ⟨value, hfound, -⟩ := (hwf.inputs_mem id).1 hmem
      exact (List.getElem?_eq_some_iff.1 hfound).1
    · show (g.kahn g.nodes.length _ indegree).length == _
      rw [horder_eq]
      simp
    · exact congrArg _ horder_eq

theorem validate_ok {g : Graph α} (hwf : g.WellFormed) :
    g.validate = .ok () ↔ g.outputIds ≠ [] := by
  unfold validate
  rw [bind_ok]
  constructor
  · rintro ⟨order, h, -⟩
    exact ((topologicalOrder_ok hwf).1 h).1
  · exact fun houtputs => ⟨_, (topologicalOrder_ok hwf).2 ⟨houtputs, rfl⟩, rfl⟩

/-- `add_input` returns iff the name is fresh and the spec valid, and appends one input. -/
theorem addInput_ok {g g' : Graph α} {name : String} {spec : TensorSpec} {id : ValueId} :
    addInput name spec g = (.ok id, g') ↔ (name ≠ "" ∧ name ∉ g.names) ∧ spec.Valid ∧
      id = g.values.length ∧ g' = g.pushInput name spec := by
  unfold addInput
  rw [checked_ok]
  constructor
  · rintro ⟨_, hpassed, heq⟩
    cases heq
    obtain ⟨hname, hvalid⟩ := checkValueName_ok.1 hpassed
    exact ⟨hname, hvalid, rfl, rfl⟩
  · rintro ⟨hname, hvalid, rfl, rfl⟩
    exact ⟨(), checkValueName_ok.2 ⟨hname, hvalid⟩, rfl⟩

/-- `add_constant` returns iff the name is fresh, and appends one constant. -/
theorem addConstant_ok {g g' : Graph α} {name : String} {tensor : Tensor α} {id : ValueId} :
    addConstant name tensor g = (.ok id, g') ↔ (name ≠ "" ∧ name ∉ g.names) ∧
      id = g.values.length ∧ g' = g.pushConstant name tensor := by
  unfold addConstant
  rw [checked_ok]
  constructor
  · rintro ⟨_, hpassed, heq⟩
    cases heq
    exact ⟨(checkValueName_ok.1 hpassed).1, rfl, rfl⟩
  · rintro ⟨hname, rfl, rfl⟩
    exact ⟨(), checkValueName_ok.2 ⟨hname, tensor.spec_valid⟩, rfl⟩

/-- `add_node` returns iff the node is accepted, and appends the node and its output. -/
theorem addNode_ok {g g' : Graph α} {name : String} {op : OpType} {inputs : List ValueId}
    {attributes : NodeAttributes} {id : NodeId} :
    addNode name op inputs attributes g = (.ok id, g') ↔
      ∃ spec, g.NodeAccepted name op inputs attributes spec ∧ id = g.nodes.length ∧
        g' = g.pushNode name op inputs attributes [spec] := by
  unfold addNode
  rw [checked_ok]
  constructor
  · rintro ⟨outputs, hpassed, heq⟩
    cases heq
    obtain ⟨spec, rfl, haccepted⟩ := addNodeChecks_ok.1 hpassed
    exact ⟨spec, haccepted, rfl, rfl⟩
  · rintro ⟨spec, haccepted, rfl, rfl⟩
    exact ⟨[spec], addNodeChecks_ok.2 ⟨spec, rfl, haccepted⟩, rfl⟩

theorem value_ok {g : Graph α} {id : ValueId} {value : GraphValue} :
    g.value id = .ok value ↔ g.values[id]? = some value := by
  unfold Graph.value
  cases g.values[id]? with
  | none => exact ⟨fun h => (by cases h), fun h => (by cases h)⟩
  | some v => exact ⟨fun h => (by cases h; rfl), fun h => (by cases h; rfl)⟩

/-- `mark_output` returns iff the value is registered and not yet an output. -/
theorem markOutput_ok {g g' : Graph α} {id : ValueId} :
    markOutput id g = (.ok (), g') ↔ id < g.values.length ∧ id ∉ g.outputIds ∧
      g' = { g with outputIds := g.outputIds ++ [id] } := by
  unfold markOutput
  rw [checked_ok]
  constructor
  · rintro ⟨_, hpassed, heq⟩
    cases heq
    obtain ⟨value, hfound, hfresh⟩ := bind_ok.1 hpassed
    exact ⟨(List.getElem?_eq_some_iff.1 (value_ok.1 hfound)).1, by simpa using require_ok.1 hfresh,
      rfl⟩
  · rintro ⟨hinside, hfresh, rfl⟩
    refine ⟨(), bind_ok.2 ⟨_, value_ok.2 (List.getElem?_eq_getElem hinside), ?_⟩, rfl⟩
    exact require_ok.2 (by simpa using hfresh)

end Graph

/-! ## The graphs of a program -/

/-- The tables of a graph are private: only the functions that build a graph change
them. -/
structure BuiltGraph (α : Type) where
  tables : Graph α := {}
  wf : tables.WellFormed := by exact .empty

namespace BuiltGraph

open Lib (Throwing)

variable {α : Type}

/-- A function that builds a graph, on graphs. -/
def build {γ : Type} (f : Throwing Exn (Graph α) γ)
    (hkeeps : ∀ (g g' : Graph α) (c : γ), g.WellFormed → f g = (.ok c, g') → g'.WellFormed) :
    Throwing Exn (BuiltGraph α) γ := fun g =>
  match hresult : f g.tables with
  | (.error e, _) => (.error e, g)
  | (.ok c, tables) => (.ok c, ⟨tables, hkeeps _ _ c g.wf hresult⟩)

def addInput (name : String) (spec : TensorSpec) : Throwing Exn (BuiltGraph α) ValueId :=
  build (Graph.addInput name spec) fun _ _ _ hwf h => by
    obtain ⟨hname, hvalid, -, rfl⟩ := Graph.addInput_ok.1 h
    exact hwf.pushInput hname.1 hname.2 hvalid

def addConstant (name : String) (tensor : Tensor α) : Throwing Exn (BuiltGraph α) ValueId :=
  build (Graph.addConstant name tensor) fun _ _ _ hwf h => by
    obtain ⟨hname, -, rfl⟩ := Graph.addConstant_ok.1 h
    exact hwf.pushConstant hname.1 hname.2

def addNode (name : String) (op : OpType) (inputs : List ValueId) (attributes : NodeAttributes) :
    Throwing Exn (BuiltGraph α) NodeId :=
  build (Graph.addNode name op inputs attributes) fun _ _ _ hwf h => by
    obtain ⟨spec, haccepted, -, rfl⟩ := Graph.addNode_ok.1 h
    exact hwf.pushNode haccepted

def markOutput (id : ValueId) : Throwing Exn (BuiltGraph α) Unit :=
  build (Graph.markOutput id) fun _ _ _ hwf h => by
    obtain ⟨hinside, hfresh, rfl⟩ := Graph.markOutput_ok.1 h
    exact hwf.markOutput hinside hfresh

/-- A step on a built graph returns iff the step on its tables does. -/
theorem build_ok {γ : Type} {f : Throwing Exn (Graph α) γ}
    {hkeeps : ∀ (g g' : Graph α) (c : γ), g.WellFormed → f g = (.ok c, g') → g'.WellFormed}
    {g g' : BuiltGraph α} {c : γ} :
    build f hkeeps g = (.ok c, g') ↔ f g.tables = (.ok c, g'.tables) := by
  unfold build
  split
  · rename_i hfailed
    constructor
    · intro h
      cases h
    · intro h
      rw [hfailed] at h
      cases h
  · rename_i hbuilt
    constructor
    · intro h
      cases h
      exact hbuilt
    · intro h
      rw [hbuilt] at h
      obtain ⟨tables, hwf⟩ := g'
      cases h
      rfl

/-- On a built graph `add_input` succeeds with a fresh name and a valid spec. -/
theorem addInput_ok (g : BuiltGraph α) {name : String} {spec : TensorSpec} (hnonempty : name ≠ "")
    (hfresh : name ∉ g.tables.names) (hvalid : spec.Valid) :
    ∃ g', addInput name spec g = (.ok g.tables.values.length, g') ∧
      g'.tables = g.tables.pushInput name spec :=
  ⟨⟨_, g.wf.pushInput hnonempty hfresh hvalid⟩,
    build_ok.2 (Graph.addInput_ok.2 ⟨⟨hnonempty, hfresh⟩, hvalid, rfl, rfl⟩), rfl⟩

/-- On a built graph `add_constant` succeeds with a fresh name. -/
theorem addConstant_ok (g : BuiltGraph α) {name : String} (tensor : Tensor α)
    (hnonempty : name ≠ "") (hfresh : name ∉ g.tables.names) :
    ∃ g', addConstant name tensor g = (.ok g.tables.values.length, g') ∧
      g'.tables = g.tables.pushConstant name tensor :=
  ⟨⟨_, g.wf.pushConstant hnonempty hfresh⟩,
    build_ok.2 (Graph.addConstant_ok.2 ⟨⟨hnonempty, hfresh⟩, rfl, rfl⟩), rfl⟩

/-- On a built graph `add_node` returns iff the node is accepted. -/
theorem addNode_ok {g g' : BuiltGraph α} {name : String} {op : OpType} {inputs : List ValueId}
    {attributes : NodeAttributes} {id : NodeId} :
    addNode name op inputs attributes g = (.ok id, g') ↔
      ∃ spec, g.tables.NodeAccepted name op inputs attributes spec ∧ id = g.tables.nodes.length ∧
        g'.tables = g.tables.pushNode name op inputs attributes [spec] :=
  build_ok.trans Graph.addNode_ok

/-- On a built graph `mark_output` succeeds for a registered value that is not yet an output. -/
theorem markOutput_ok (g : BuiltGraph α) {id : ValueId} (hinside : id < g.tables.values.length)
    (hfresh : id ∉ g.tables.outputIds) :
    ∃ g', markOutput id g = (.ok (), g') ∧
      g'.tables = { g.tables with outputIds := g.tables.outputIds ++ [id] } :=
  ⟨⟨_, g.wf.markOutput hinside hfresh⟩,
    build_ok.2 (Graph.markOutput_ok.2 ⟨hinside, hfresh, rfl⟩), rfl⟩

end BuiltGraph

end TinyInfer
