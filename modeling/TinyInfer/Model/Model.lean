import TinyInfer.Graph.GraphInvariant

/-!
# Models (`model/model.cpp`)

A model is a validated graph with a name for each of its inputs and outputs.
-/

namespace TinyInfer

namespace Model

variable {α : Type}

/-- The names of the inputs, or of the outputs, are nonempty and differ. -/
def requireUniqueNames (values : List (String × ValueId)) (kind : String) : Except Exn Unit :=
  require (values.all (·.1 != "") && decide (values.map (·.1)).Nodup)
    (.invalidArgument ("model " ++ kind ++ " names must be non-empty and unique"))

/-- The loop over the named inputs; `bound` are those seen so far. -/
def checkInputs (g : Graph α) : List (String × ValueId) → List ValueId → Except Exn Unit
  | [], _ => .ok ()
  | input :: inputs, bound => do
    let value ← g.value input.2
    require (value.kind == .input && !bound.contains input.2)
      (.invalidArgument "model input does not reference a graph input")
    checkInputs g inputs (input.2 :: bound)

/-- The loop over the named outputs. -/
def checkOutputs (g : Graph α) : List (String × ValueId) → List ValueId → Except Exn Unit
  | [], _ => .ok ()
  | output :: outputs, bound => do
    require (g.outputIds.contains output.2 && !bound.contains output.2)
      (.invalidArgument "model output does not reference a registered graph output")
    checkOutputs g outputs (output.2 :: bound)

/-- The checks of the constructor. -/
def check (g : Graph α) (inputs outputs : List (String × ValueId)) : Except Exn Unit := do
  g.validate
  requireUniqueNames inputs "input"
  requireUniqueNames outputs "output"
  require (inputs.length == g.inputIds.length && outputs.length == g.outputIds.length)
    (.invalidArgument "model input/output bindings must cover the complete graph interface")
  checkInputs g inputs []
  checkOutputs g outputs []

end Model

structure Model (α : Type) where
  graph : BuiltGraph α
  inputs : List (String × ValueId)
  outputs : List (String × ValueId)
  checked : Model.check graph.tables inputs outputs = .ok ()

namespace Model

variable {α : Type}

/-- The constructor. -/
def make (graph : BuiltGraph α) (inputs outputs : List (String × ValueId)) : Except Exn (Model α) :=
  match hchecked : check graph.tables inputs outputs with
  | .error e => .error e
  | .ok () => .ok { graph, inputs, outputs, checked := hchecked }

theorem make_ok {graph : BuiltGraph α} {inputs outputs : List (String × ValueId)}
    (h : check graph.tables inputs outputs = .ok ()) :
    make graph inputs outputs = .ok ⟨graph, inputs, outputs, h⟩ := by
  unfold make
  split
  · rename_i hfailed
    rw [h] at hfailed
    cases hfailed
  · rfl

/-- A model has an output. -/
theorem outputs_ne (model : Model α) : model.graph.tables.outputIds ≠ [] :=
  (Graph.validate_ok model.graph.wf).1 (check_ok.1 model.checked).1

/-- The order of the nodes of a model. -/
theorem order_eq (model : Model α) :
    model.graph.tables.topologicalOrder = .ok (List.range model.graph.tables.nodes.length) :=
  (Graph.topologicalOrder_ok model.graph.wf).2 ⟨model.outputs_ne, rfl⟩

theorem requireUniqueNames_ok {values : List (String × ValueId)} {kind : String} :
    requireUniqueNames values kind = .ok () ↔
      (∀ value ∈ values, value.1 ≠ "") ∧ (values.map (·.1)).Nodup := by
  unfold requireUniqueNames
  rw [require_ok]
  simp

/-- Bound inputs pass when each is a graph input and none is bound twice. -/
theorem checkInputs_ok {g : Graph α} {inputs : List (String × ValueId)} {bound : List ValueId}
    (hkinds : ∀ input ∈ inputs, ∃ value, g.values[input.2]? = some value ∧ value.kind = .input)
    (hnodup : (inputs.map (·.2) ++ bound).Nodup) : checkInputs g inputs bound = .ok () := by
  induction inputs generalizing bound with
  | nil => rfl
  | cons input inputs ih =>
    obtain ⟨⟨value, hfound, hkind⟩, htail⟩ := List.forall_mem_cons.1 hkinds
    have hapart := List.nodup_cons.1 hnodup
    refine bind_ok.2 ⟨value, Graph.value_ok.2 hfound, check_ok.2 ⟨require_ok.2 ?_, ih htail ?_⟩⟩
    · simpa [hkind] using fun hmem => hapart.1 (List.mem_append_right _ hmem)
    · rwa [List.nodup_middle]

/-- Bound outputs pass when each is marked and none is bound twice. -/
theorem checkOutputs_ok {g : Graph α} {outputs : List (String × ValueId)} {bound : List ValueId}
    (hregistered : ∀ output ∈ outputs, output.2 ∈ g.outputIds)
    (hnodup : (outputs.map (·.2) ++ bound).Nodup) : checkOutputs g outputs bound = .ok () := by
  induction outputs generalizing bound with
  | nil => rfl
  | cons output outputs ih =>
    obtain ⟨hhead, htail⟩ := List.forall_mem_cons.1 hregistered
    have hapart := List.nodup_cons.1 hnodup
    refine check_ok.2 ⟨require_ok.2 ?_, ih htail ?_⟩
    · simpa [hhead] using fun hmem => hapart.1 (List.mem_append_right _ hmem)
    · rwa [List.nodup_middle]

/-- What the input check has established when it returns. -/
theorem of_checkInputs {g : Graph α} {inputs : List (String × ValueId)} {bound : List ValueId}
    (hpassed : checkInputs g inputs bound = .ok ()) :
    (∀ input ∈ inputs, ∃ value, g.values[input.2]? = some value ∧ value.kind = .input) ∧
      (inputs.map (·.2)).Nodup ∧ ∀ input ∈ inputs, input.2 ∉ bound := by
  induction inputs generalizing bound with
  | nil => exact ⟨fun _ hmem => (by cases hmem), List.nodup_nil, fun _ hmem => (by cases hmem)⟩
  | cons input inputs ih =>
    obtain ⟨value, hfound, hpassed⟩ := bind_ok.1 hpassed
    obtain ⟨hhead, hpassed⟩ := check_ok.1 hpassed
    obtain ⟨hkinds, hnodup, hapart⟩ := ih hpassed
    obtain ⟨hkind, hfresh⟩ : value.kind = .input ∧ input.2 ∉ bound := by
      simpa using require_ok.1 hhead
    refine ⟨List.forall_mem_cons.2 ⟨⟨value, Graph.value_ok.1 hfound, hkind⟩, hkinds⟩,
      List.nodup_cons.2 ⟨fun hmem => ?_, hnodup⟩,
      List.forall_mem_cons.2 ⟨hfresh, fun other hmem => ?_⟩⟩
    · obtain ⟨other, hknown, hsame⟩ := List.mem_map.1 hmem
      exact hapart other hknown (List.mem_cons.2 (.inl hsame))
    · exact fun hagain => hapart other hmem (List.mem_cons_of_mem _ hagain)

/-- What the output check has established when it returns. -/
theorem of_checkOutputs {g : Graph α} {outputs : List (String × ValueId)} {bound : List ValueId}
    (hpassed : checkOutputs g outputs bound = .ok ()) :
    (∀ output ∈ outputs, output.2 ∈ g.outputIds) ∧
      (outputs.map (·.2)).Nodup ∧ ∀ output ∈ outputs, output.2 ∉ bound := by
  induction outputs generalizing bound with
  | nil => exact ⟨fun _ hmem => (by cases hmem), List.nodup_nil, fun _ hmem => (by cases hmem)⟩
  | cons output outputs ih =>
    obtain ⟨hhead, hpassed⟩ := check_ok.1 hpassed
    obtain ⟨hregistered, hnodup, hapart⟩ := ih hpassed
    obtain ⟨hknown, hfresh⟩ : output.2 ∈ g.outputIds ∧ output.2 ∉ bound := by
      simpa using require_ok.1 hhead
    refine ⟨List.forall_mem_cons.2 ⟨hknown, hregistered⟩,
      List.nodup_cons.2 ⟨fun hmem => ?_, hnodup⟩,
      List.forall_mem_cons.2 ⟨hfresh, fun other hmem => ?_⟩⟩
    · obtain ⟨other, hknown, hsame⟩ := List.mem_map.1 hmem
      exact hapart other hknown (List.mem_cons.2 (.inl hsame))
    · exact fun hagain => hapart other hmem (List.mem_cons_of_mem _ hagain)

/-- What the constructor asks of the names. -/
structure Bound (g : Graph α) (inputs outputs : List (String × ValueId)) : Prop where
  outputs_ne : g.outputIds ≠ []
  input_names : (∀ input ∈ inputs, input.1 ≠ "") ∧ (inputs.map (·.1)).Nodup
  output_names : (∀ output ∈ outputs, output.1 ≠ "") ∧ (outputs.map (·.1)).Nodup
  inputs_length : inputs.length = g.inputIds.length
  outputs_length : outputs.length = g.outputIds.length
  inputs_kind : ∀ input ∈ inputs, ∃ value, g.values[input.2]? = some value ∧ value.kind = .input
  inputs_nodup : (inputs.map (·.2)).Nodup
  outputs_mem : ∀ output ∈ outputs, output.2 ∈ g.outputIds
  outputs_nodup : (outputs.map (·.2)).Nodup

/-- `Model::create` accepts exactly the bound signatures. -/
theorem check_iff {g : Graph α} (hwf : g.WellFormed) {inputs outputs : List (String × ValueId)} :
    check g inputs outputs = .ok () ↔ Bound g inputs outputs := by
  unfold check
  rw [check_ok, Graph.validate_ok hwf, check_ok, requireUniqueNames_ok, check_ok,
    requireUniqueNames_ok, check_ok, require_ok, check_ok]
  constructor
  · rintro ⟨houtputs_ne, hinput_names, houtput_names, hlengths, hinputsOk, houtputsOk⟩
    obtain ⟨hinputs_length, houtputs_length⟩ : inputs.length = g.inputIds.length ∧
        outputs.length = g.outputIds.length := by simpa using hlengths
    obtain ⟨hinputs_kind, hinputs_nodup, -⟩ := of_checkInputs hinputsOk
    obtain ⟨houtputs_mem, houtputs_nodup, -⟩ := of_checkOutputs houtputsOk
    exact ⟨houtputs_ne, hinput_names, houtput_names, hinputs_length, houtputs_length, hinputs_kind,
      hinputs_nodup, houtputs_mem, houtputs_nodup⟩
  · intro h
    refine ⟨h.outputs_ne, h.input_names, h.output_names, ?_,
      checkInputs_ok h.inputs_kind ?_, checkOutputs_ok h.outputs_mem ?_⟩
    · simp [h.inputs_length, h.outputs_length]
    · rw [List.append_nil]
      exact h.inputs_nodup
    · rw [List.append_nil]
      exact h.outputs_nodup

theorem bound (model : Model α) : Bound model.graph.tables model.inputs model.outputs :=
  (check_iff model.graph.wf).1 model.checked

/-- The outputs of a model are those of its graph, in an order of its own. -/
theorem outputs_perm (model : Model α) :
    (model.outputs.map (·.2)).Perm model.graph.tables.outputIds := by
  have h := model.bound
  refine (List.subperm_of_subset h.outputs_nodup fun id hmem => ?_).perm_of_length_le ?_
  · obtain ⟨output, hknown, rfl⟩ := List.mem_map.1 hmem
    exact h.outputs_mem output hknown
  · rw [List.length_map, h.outputs_length]

/-- The inputs of a model are those of its graph. -/
theorem inputs_perm (model : Model α) :
    (model.inputs.map (·.2)).Perm model.graph.tables.inputIds := by
  have h := model.bound
  refine (List.subperm_of_subset h.inputs_nodup fun id hmem => ?_).perm_of_length_le ?_
  · obtain ⟨input, hknown, rfl⟩ := List.mem_map.1 hmem
    exact (model.graph.wf.inputs_mem input.2).2 (h.inputs_kind input hknown)
  · rw [List.length_map, h.inputs_length]

end Model

end TinyInfer
