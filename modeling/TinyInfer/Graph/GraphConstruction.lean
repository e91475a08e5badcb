import TinyInfer.Graph.GraphInvariant
import Mathlib.Data.List.Sort

/-!
# Building a graph (`graph/graph.cpp`)

Any sequence of calls of the functions that build a graph, those that throw included.
Every graph built so is well formed (`Graph.wellFormed_build`), which `topologicalOrder`
checks again: what it can still object to is a graph without outputs.

Main definitions: `Graph.Call`, `Graph.Call.apply`, `Graph.build`, `Graph.Sorted`.
-/

namespace TinyInfer

namespace Graph

open Lib (Throwing)

variable {α : Type}

/-! ## Calls -/

/-- A call of a function that builds a graph, with its arguments. -/
inductive Call (α : Type) where
  | addInput (name : String) (spec : TensorSpec)
  | addConstant (name : String) (tensor : Tensor α)
  | addNode (name : String) (op : OpType) (inputs : List ValueId) (attributes : NodeAttributes)
  | markOutput (id : ValueId)

/-- What a call does; the id of the new value or node is its result. -/
def Call.apply : Call α → Throwing Exn (Graph α) (Option Nat)
  | .addInput name spec => some <$> Graph.addInput name spec
  | .addConstant name tensor => some <$> Graph.addConstant name tensor
  | .addNode name op inputs attributes => some <$> Graph.addNode name op inputs attributes
  | .markOutput id => (fun (_ : Unit) => none) <$> Graph.markOutput id

/-- The graph after the calls, in order. A caller that catches an exception goes on with
the graph that the call left. -/
def build (calls : List (Call α)) : Graph α :=
  calls.foldl (fun g call => (call.apply g).2) {}

theorem build_concat (calls : List (Call α)) (call : Call α) :
    build (calls ++ [call]) = (call.apply (build calls)).2 := by
  rw [build, List.foldl_append]
  rfl

/-! ## One call -/

/-- A function that checks first leaves the graph unchanged when it throws. -/
theorem checked_error {β γ : Type} {checks : Graph α → Except Exn β}
    {change : β → Graph α → γ × Graph α} {g g' : Graph α} {e : Exn}
    (h : checked checks change g = (.error e, g')) : g' = g := by
  unfold checked at h
  cases hpassed : checks g with
  | error e =>
    rw [hpassed] at h
    cases h
    rfl
  | ok b =>
    rw [hpassed] at h
    cases h

/-- A call that throws leaves the graph as it was. -/
theorem Call.apply_error {call : Call α} {g g' : Graph α} {e : Exn}
    (h : call.apply g = (.error e, g')) : g' = g := by
  cases call with
  | addInput name spec => exact checked_error (Throwing.map_error.1 h)
  | addConstant name tensor => exact checked_error (Throwing.map_error.1 h)
  | addNode name op inputs attributes => exact checked_error (Throwing.map_error.1 h)
  | markOutput id => exact checked_error (Throwing.map_error.1 h)

/-- What a call adds to the graph if it returns: a value, a node with the value that it produces,
or an output. Nothing else changes. -/
inductive Call.Added (g : Graph α) : Call α → Option Nat → Graph α → Prop where
  | addInput {name : String} {spec : TensorSpec} (hname : name ≠ "" ∧ name ∉ g.names)
      (hspec : spec.Valid) :
      Added g (.addInput name spec) (some g.values.length) (g.pushInput name spec)
  | addConstant {name : String} {tensor : Tensor α} (hname : name ≠ "" ∧ name ∉ g.names) :
      Added g (.addConstant name tensor) (some g.values.length) (g.pushConstant name tensor)
  | addNode {name : String} {op : OpType} {inputs : List ValueId} {attributes : NodeAttributes}
      {spec : TensorSpec} (haccepted : g.NodeAccepted name op inputs attributes spec) :
      Added g (.addNode name op inputs attributes) (some g.nodes.length)
        (g.pushNode name op inputs attributes [spec])
  | markOutput {id : ValueId} (hid : id < g.values.length) (hfresh : id ∉ g.outputIds) :
      Added g (.markOutput id) none { g with outputIds := g.outputIds ++ [id] }

/-- A call returns exactly where its arguments are accepted, and adds what they say. -/
theorem Call.apply_ok_iff {call : Call α} {g g' : Graph α} {c : Option Nat} :
    call.apply g = (.ok c, g') ↔ call.Added g c g' := by
  constructor
  · intro h
    cases call with
    | addInput name spec =>
      obtain ⟨id, hrun, rfl⟩ := Throwing.map_ok.1 h
      obtain ⟨hname, hspec, rfl, rfl⟩ := addInput_ok.1 hrun
      exact .addInput hname hspec
    | addConstant name tensor =>
      obtain ⟨id, hrun, rfl⟩ := Throwing.map_ok.1 h
      obtain ⟨hname, rfl, rfl⟩ := addConstant_ok.1 hrun
      exact .addConstant hname
    | addNode name op inputs attributes =>
      obtain ⟨id, hrun, rfl⟩ := Throwing.map_ok.1 h
      obtain ⟨spec, haccepted, rfl, rfl⟩ := addNode_ok.1 hrun
      exact .addNode haccepted
    | markOutput id =>
      obtain ⟨_, hrun, rfl⟩ := Throwing.map_ok.1 h
      obtain ⟨hid, hfresh, rfl⟩ := markOutput_ok.1 hrun
      exact .markOutput hid hfresh
  · intro h
    cases h with
    | addInput hname hspec =>
      exact Throwing.map_ok.2 ⟨_, addInput_ok.2 ⟨hname, hspec, rfl, rfl⟩, rfl⟩
    | addConstant hname => exact Throwing.map_ok.2 ⟨_, addConstant_ok.2 ⟨hname, rfl, rfl⟩, rfl⟩
    | addNode haccepted => exact Throwing.map_ok.2 ⟨_, addNode_ok.2 ⟨_, haccepted, rfl, rfl⟩, rfl⟩
    | markOutput hid hfresh => exact Throwing.map_ok.2 ⟨_, markOutput_ok.2 ⟨hid, hfresh, rfl⟩, rfl⟩

theorem Call.Added.wellFormed {call : Call α} {g g' : Graph α} {c : Option Nat}
    (h : call.Added g c g') (hwf : g.WellFormed) : g'.WellFormed := by
  cases h with
  | addInput hname hspec => exact hwf.pushInput hname.1 hname.2 hspec
  | addConstant hname => exact hwf.pushConstant hname.1 hname.2
  | addNode haccepted => exact hwf.pushNode haccepted
  | markOutput hid hfresh => exact hwf.markOutput hid hfresh

/-- Whatever a call does, the graph stays well formed. -/
theorem Call.wellFormed_apply {g : Graph α} (hwf : g.WellFormed) (call : Call α) :
    (call.apply g).2.WellFormed := by
  rcases hresult : call.apply g with ⟨e | c, g'⟩
  · rw [Call.apply_error hresult]
    exact hwf
  · exact (Call.apply_ok_iff.1 hresult).wellFormed hwf

/-- The graph after any sequence of calls is well formed. -/
theorem wellFormed_build (calls : List (Call α)) : (build calls).WellFormed := by
  induction calls using List.reverseRecOn with
  | nil => exact .empty
  | append_singleton calls call ih =>
    rw [build_concat]
    exact Call.wellFormed_apply ih call

/-! ## The order of the nodes -/

/-- `order` has the ids of all nodes in increasing order, each once, and the producer of
a value before the nodes that read it. -/
structure Sorted (g : Graph α) (order : List NodeId) : Prop where
  increasing : order.Pairwise (· < ·)
  nodup : order.Nodup
  nodes : ∀ id, id ∈ order ↔ id < g.nodes.length
  producers : ∀ (id : NodeId) (node : Node), g.nodes[id]? = some node → ∀ input ∈ node.inputs,
    ∃ value, g.values[input]? = some value ∧
      ∀ p, value.producer = some p → order.idxOf p < order.idxOf id

theorem idxOf_range {count id : Nat} (hinside : id < count) : (List.range count).idxOf id = id := by
  have hwithin : id < (List.range count).length := by simpa using hinside
  have hhere : (List.range count)[id] = id := List.getElem_range _
  calc (List.range count).idxOf id
      = (List.range count).idxOf (List.range count)[id] := by rw [hhere]
    _ = id := List.nodup_range.idxOf_getElem id hwithin

/-- The order of the node ids is itself a topological order. -/
theorem WellFormed.sorted {g : Graph α} (hwf : g.WellFormed) :
    g.Sorted (List.range g.nodes.length) where
  increasing := List.pairwise_lt_range
  nodup := List.nodup_range
  nodes := fun id => List.mem_range
  producers := by
    intro id node hfound input hmem
    have hinside : id < g.nodes.length := (List.getElem?_eq_some_iff.1 hfound).1
    obtain ⟨value, hread, holder⟩ := (hwf.node id node hfound).inputs input hmem
    refine ⟨value, hread, fun p hproducer => ?_⟩
    have hbefore : p < id := holder p hproducer
    rw [idxOf_range hinside, idxOf_range (Nat.lt_trans hbefore hinside)]
    exact hbefore

/-- What every graph that calls have built satisfies. -/
structure Constructed (g : Graph α) : Prop where
  atomic : ∀ (call : Call α) (e : Exn) (g' : Graph α), call.apply g = (.error e, g') → g' = g
  returns : ∀ (call : Call α) (c : Option Nat) (g' : Graph α),
    call.apply g = (.ok c, g') ↔ call.Added g c g'
  order_throws : (∃ e, g.topologicalOrder = .error e) ↔ g.outputIds = []
  validate_throws : (∃ e, g.validate = .error e) ↔ g.outputIds = []
  order : ∀ order, g.topologicalOrder = .ok order → g.Sorted order
  names : g.names.Nodup

/-- A computation throws unless it returns. -/
theorem exists_error_iff {β : Type} {x : Except Exn β} :
    (∃ e, x = .error e) ↔ ¬ ∃ b, x = .ok b := by
  cases x with
  | error e => exact ⟨fun _ ⟨b, h⟩ => (by cases h), fun _ => ⟨e, rfl⟩⟩
  | ok b => exact ⟨fun ⟨e, h⟩ => (by cases h), fun hnone => absurd ⟨b, rfl⟩ hnone⟩

/-- Every list of calls builds a graph that `validate` accepts once it has an output. -/
theorem construction_valid (calls : List (Call α)) : (build calls).Constructed := by
  have hwf := wellFormed_build calls
  refine ⟨fun call e g' => Call.apply_error, fun call c g' => Call.apply_ok_iff, ?_, ?_, ?_,
    hwf.names_nodup⟩
  · rw [exists_error_iff, not_iff_comm]
    constructor
    · exact fun houtputs => ⟨_, (topologicalOrder_ok hwf).2 ⟨houtputs, rfl⟩⟩
    · rintro ⟨order, h⟩
      exact ((topologicalOrder_ok hwf).1 h).1
  · rw [exists_error_iff, not_iff_comm]
    constructor
    · exact fun houtputs => ⟨(), (validate_ok hwf).2 houtputs⟩
    · rintro ⟨_, h⟩
      exact (validate_ok hwf).1 h
  · intro order h
    rw [((topologicalOrder_ok hwf).1 h).2]
    exact hwf.sorted

/-- Two nodes, an output, and a call that throws in between -/
theorem construction_valid_twoNodes :
    let calls : List (Call Int) := [.addInput "x" ⟨[2, 3], .float32⟩, .addNode "first" .reLU [0] [],
      .addNode "first" .reLU [1] [], .addNode "second" .reLU [1] [], .markOutput 2]
    (build calls).topologicalOrder = .ok [0, 1] ∧ (build calls).Sorted [0, 1] := by
  intro calls
  have hvalid := construction_valid calls
  have horder : (build calls).topologicalOrder = .ok [0, 1] :=
    (topologicalOrder_ok (wellFormed_build calls)).2 ⟨by decide, rfl⟩
  exact ⟨horder, hvalid.order _ horder⟩

end Graph

end TinyInfer
