import TinyInfer.Onnx.ImporterNames

/-!
# What the importer accepts

`Supported` is a model that the importer means to accept: names are nonempty and
differ, the operators are supported, the nodes can be sorted, and every value has the
spec that shape inference computes. `importModel_ok_iff` says that such a model is
imported exactly if no initializer or input has the name that the graph gives to the
output of a node.

`StateInv` holds of the locals of the importer from the first initializer to the last
node, `LoopInv` in the loop over the nodes.
-/

namespace TinyInfer.Onnx

variable {α : Type}

/-- The names of the initializers and inputs. -/
def reservedNames (model : ModelProto α) : List String :=
  model.graph.initializers.map (·.name) ++ model.graph.inputs.map (·.name)

/-- The names of the values of a model. -/
def IsDefined (model : ModelProto α) (name : String) : Prop :=
  name ∈ reservedNames model ∨ ∃ node ∈ model.graph.nodes, node.outputs = [name]

/-- A node of a supported operator, whose output has the inferred spec. -/
structure NodeSupported (model : ModelProto α) (specs : String → TensorSpec) (rank : String → Nat)
    (node : NodeProto) (output : String) : Prop where
  outputs : node.outputs = [output]
  nonempty : output ≠ ""
  unreserved : output ∉ reservedNames model
  domain : node.domain = "" ∨ node.domain = "ai.onnx"
  inputs : ∀ input ∈ node.inputs, IsDefined model input
  acyclic : ∀ input ∈ node.inputs, rank input < rank output
  valid : (specs output).Valid
  inferred : ∃ op attributes, translate node model.opsetVersion = .ok (op, attributes) ∧
    inferOutputSpecs op (node.inputs.map specs) attributes = .ok [specs output]

/-- `specs` are the specs of all values, and `rank` sorts the nodes. -/
structure Supported (model : ModelProto α) (specs : String → TensorSpec) (rank : String → Nat) :
    Prop where
  opset : 13 ≤ model.opsetVersion
  initializers_nodup : (model.graph.initializers.map (·.name)).Nodup
  inputs_nodup : (model.graph.inputs.map (·.name)).Nodup
  names_nonempty : ∀ name ∈ reservedNames model, name ≠ ""
  initializers : ∀ initializer ∈ model.graph.initializers,
    initializer.value.spec = specs initializer.name
  inputs : ∀ input ∈ model.graph.inputs, input.spec = specs input.name ∧ input.spec.Valid
  nodes : ∀ node ∈ model.graph.nodes, ∃ output, NodeSupported model specs rank node output
  nodes_nodup : (model.graph.nodes.map (·.outputs)).Nodup
  outputs_ne : model.graph.outputs ≠ []
  outputs_nodup : (model.graph.outputs.map (·.name)).Nodup
  outputs : ∀ output ∈ model.graph.outputs, IsDefined model output.name ∧
    output.spec = specs output.name

/-! ## The symbols -/

/-- The locals, when exactly the names in `Defined` have a value. -/
structure StateInv (specs : String → TensorSpec) (Defined : String → Prop) (s : ImportState α) :
    Prop where
  defined : ∀ name, (s.symbols.lookup name).isSome ↔ Defined name
  typed : ∀ name id, s.symbols.lookup name = some id → s.specOf id = some (specs name)
  injective : ∀ name name' id, s.symbols.lookup name = some id → s.symbols.lookup name' = some id →
    name = name'
  nonempty : ∀ name, Defined name → name ≠ ""
  input_ids : s.modelInputs.map (·.2) = s.graph.tables.inputIds
  input_names : (s.modelInputs.map (·.1)).Nodup
  inputs_defined : ∀ name ∈ s.modelInputs.map (·.1), Defined name
  outputs : s.graph.tables.outputIds = []

variable {specs : String → TensorSpec} {Defined Defined' : String → Prop} {s s' : ImportState α}

theorem StateInv.congr (h : StateInv specs Defined s)
    (hsame : ∀ name, Defined name ↔ Defined' name) :
    StateInv specs Defined' s := by
  obtain rfl : Defined = Defined' := funext fun name => propext (hsame name)
  exact h

theorem StateInv.id_lt (h : StateInv specs Defined s) {name : String} {id : ValueId}
    (hfound : s.symbols.lookup name = some id) : id < s.graph.tables.values.length := by
  obtain ⟨value, hinside, -⟩ := Option.map_eq_some_iff.1 (h.typed name id hfound)
  exact (List.getElem?_eq_some_iff.1 hinside).1

/-- A name gets the newest value of the graph. -/
theorem StateInv.define (h : StateInv specs Defined s) (s' : ImportState α) {name : String}
    {v : GraphValue} (hfresh : ¬ Defined name) (hnonempty : name ≠ "") (hspec : v.spec = specs name)
    (hvalues : s'.graph.tables.values = s.graph.tables.values ++ [v])
    (hsymbols : s'.symbols = (name, s.graph.tables.values.length) :: s.symbols)
    (houtputs : s'.graph.tables.outputIds = s.graph.tables.outputIds)
    (hinputs : (s'.modelInputs = s.modelInputs ∧
        s'.graph.tables.inputIds = s.graph.tables.inputIds) ∨
      (s'.modelInputs = s.modelInputs ++ [(name, s.graph.tables.values.length)] ∧
        s'.graph.tables.inputIds = s.graph.tables.inputIds ++ [s.graph.tables.values.length])) :
    StateInv specs (fun n => n = name ∨ Defined n) s' := by
  -- the new symbol hides none, as its name was not defined
  have hlookup (n : String) : s'.symbols.lookup n =
      if n = name then some s.graph.tables.values.length else s.symbols.lookup n := by
    rw [hsymbols, List.lookup_cons]
    by_cases hsame : n = name
    · subst hsame
      simp
    · have : (n == name) = false := by simpa using hsame
      rw [this, if_neg hsame]
  -- the old values keep their specs
  have hspecOf {id : ValueId} (hinside : id < s.graph.tables.values.length) :
    s'.specOf id = s.specOf id := by
    unfold ImportState.specOf
    rw [hvalues, List.getElem?_append_left hinside]
  constructor
  · intro n
    rw [hlookup]
    by_cases hsame : n = name
    · simp [hsame]
    · rw [if_neg hsame, h.defined]
      simp [hsame]
  · intro n id hfound
    rw [hlookup] at hfound
    by_cases hsame : n = name
    · rw [if_pos hsame] at hfound
      cases hfound
      unfold ImportState.specOf
      rw [hvalues, List.getElem?_concat_length, Option.map_some, hspec, hsame]
    · rw [if_neg hsame] at hfound
      rw [hspecOf (h.id_lt hfound), h.typed n id hfound]
  -- the new id is not that of an old symbol
  · intro n n' id hfound hfound'
    rw [hlookup] at hfound hfound'
    by_cases hsame : n = name
    · by_cases hsame' : n' = name
      · rw [hsame, hsame']
      · rw [if_pos hsame] at hfound
        rw [if_neg hsame'] at hfound'
        cases hfound
        exact absurd (h.id_lt hfound') (Nat.lt_irrefl _)
    · rw [if_neg hsame] at hfound
      by_cases hsame' : n' = name
      · rw [if_pos hsame'] at hfound'
        cases hfound'
        exact absurd (h.id_lt hfound) (Nat.lt_irrefl _)
      · rw [if_neg hsame'] at hfound'
        exact h.injective n n' id hfound hfound'
  · rintro n (rfl | hdefined)
    · exact hnonempty
    · exact h.nonempty n hdefined
  -- the model's inputs and their ids grow together, or not at all
  · rcases hinputs with ⟨hsame, hids⟩ | ⟨hsame, hids⟩
    · rw [hsame, hids, h.input_ids]
    · rw [hsame, hids, List.map_append, h.input_ids]
      rfl
  · rcases hinputs with ⟨hsame, -⟩ | ⟨hsame, -⟩
    · rw [hsame]
      exact h.input_names
    · rw [hsame, List.map_append, List.nodup_append]
      refine ⟨h.input_names, List.nodup_singleton _, fun a hmem b hsingle hsame => hfresh ?_⟩
      have : a = name := hsame.trans (by simpa using hsingle)
      exact this ▸ h.inputs_defined a hmem
  · rcases hinputs with ⟨hsame, -⟩ | ⟨hsame, -⟩
    · rw [hsame]
      exact fun n hmem => .inr (h.inputs_defined n hmem)
    · rw [hsame, List.map_append]
      intro n hmem
      rcases List.mem_append.1 hmem with hmem | hmem
      · exact .inr (h.inputs_defined n hmem)
      · exact .inl (by simpa using hmem)
  · rw [houtputs, h.outputs]

/-! ## Initializers and inputs -/

/-- Before the first node the names of the graph are the defined ones, and reserved. -/
structure BaseInv (specs : String → TensorSpec) (Defined : String → Prop) (s : ImportState α) : Prop
    extends StateInv specs Defined s where
  names : ∀ name, name ∈ s.graph.tables.names ↔ Defined name
  reserved : ∀ name, name ∈ s.reservedNames ↔ Defined name

theorem BaseInv.congr (h : BaseInv specs Defined s) (hsame : ∀ name, Defined name ↔ Defined' name) :
    BaseInv specs Defined' s := by
  obtain rfl : Defined = Defined' := funext fun name => propext (hsame name)
  exact h

/-- An initializer with a fresh name is imported as a constant. -/
theorem importInitializer_ok (model : ModelProto α) (h : BaseInv specs Defined s)
    (hnames : ∀ name, name ∈ s.initializerNames ↔ Defined name) {initializer : Initializer α}
    (hfresh : ¬ Defined initializer.name) (hnonempty : initializer.name ≠ "")
    (hspec : initializer.value.spec = specs initializer.name) :
    ∃ s', importInitializer model s initializer = .ok s' ∧
      BaseInv specs (fun n => n = initializer.name ∨ Defined n) s' ∧
      s'.initializerNames = initializer.name :: s.initializerNames := by
  obtain ⟨g', hadded, htables⟩ := s.graph.addConstant_ok initializer.value hnonempty
    (fun hmem => hfresh ((h.names _).1 hmem))
  unfold importInitializer
  rw [if_neg (by rw [not_or]; exact ⟨hnonempty, fun hmem => hfresh ((hnames _).1 hmem)⟩), hadded]
  refine ⟨_, rfl, ⟨h.toStateInv.define _ (v := ⟨s.graph.tables.values.length,
    initializer.name, initializer.value.spec, .constant, none⟩) hfresh hnonempty hspec ?_ rfl ?_
      (.inl ⟨rfl, ?_⟩), ?_, ?_⟩, rfl⟩
  · exact congrArg Graph.values htables
  · show g'.tables.outputIds = _
    rw [htables]
    rfl
  · show g'.tables.inputIds = _
    rw [htables]
    rfl
  · intro n
    show n ∈ g'.tables.names ↔ _
    rw [htables, Graph.pushConstant_eq, (Graph.names_pushValue ..).mem_iff]
    simp [h.names]
  · intro n
    simp [h.reserved]

/-- The initializers are imported in order, by induction on those still to come. -/
theorem importInitializers_ok (model : ModelProto α) {initializers : List (Initializer α)}
    (h : BaseInv specs Defined s) (hnames : ∀ name, name ∈ s.initializerNames ↔ Defined name)
    (hnodup : (initializers.map (·.name)).Nodup)
    (heach : ∀ initializer ∈ initializers, ¬ Defined initializer.name ∧ initializer.name ≠ "" ∧
      initializer.value.spec = specs initializer.name) :
    ∃ s', initializers.foldlM (importInitializer model) s = .ok s' ∧
      BaseInv specs (fun n => n ∈ initializers.map (·.name) ∨ Defined n) s' ∧
      ∀ name, name ∈ s'.initializerNames ↔ name ∈ initializers.map (·.name) ∨ Defined name := by
  induction initializers generalizing s Defined with
  | nil => exact ⟨s, rfl, h.congr (by simp), by simpa using hnames⟩
  | cons initializer rest ih =>
    obtain ⟨⟨hfresh, hnonempty, hspec⟩, hothers⟩ := List.forall_mem_cons.1 heach
    obtain ⟨hapart, hrestNodup⟩ := List.nodup_cons.1 hnodup
    obtain ⟨s₁, himported, hinv, hinitializerNames⟩ :=
      importInitializer_ok model h hnames hfresh hnonempty hspec
    obtain ⟨s₂, hrun, hinv', hnames'⟩ := ih hinv (by simp [hinitializerNames, hnames]) hrestNodup
      (fun other hmem => ⟨fun hsame => hsame.elim
        (fun hsame => hapart (List.mem_map.2 ⟨other, hmem, hsame⟩)) (hothers other hmem).1,
        (hothers other hmem).2⟩)
    refine ⟨s₂, ?_, hinv'.congr ?_, ?_⟩
    · rw [List.foldlM_cons, himported]
      exact hrun
    · intro n
      simp only [List.map_cons, List.mem_cons]
      tauto
    · intro n
      rw [hnames', List.map_cons, List.mem_cons]
      tauto

/-- An input either repeats an initializer or has a name of its own. -/
theorem importInput_ok (model : ModelProto α) (h : BaseInv specs Defined s) {input : ValueInfo}
    (hknown : Defined input.name ↔ input.name ∈ s.initializerNames) (hnonempty : input.name ≠ "")
    (hspec : input.spec = specs input.name) (hvalid : input.spec.Valid) :
    ∃ s', importInput model s input = .ok s' ∧
      BaseInv specs (fun n => n = input.name ∨ Defined n) s' ∧
      s'.initializerNames = s.initializerNames := by
  unfold importInput
  by_cases hrepeated : input.name ∈ s.initializerNames
  · obtain ⟨id, hfound⟩ := Option.isSome_iff_exists.1 ((h.defined _).2 (hknown.2 hrepeated))
    rw [if_pos hrepeated, if_pos (by rw [hfound, hspec]; exact h.typed _ id hfound)]
    refine ⟨s, rfl, h.congr fun n => ⟨.inr, ?_⟩, rfl⟩
    rintro (rfl | hdefined)
    · exact hknown.2 hrepeated
    · exact hdefined
  · have hfresh : ¬ Defined input.name := fun hdefined => hrepeated (hknown.1 hdefined)
    obtain ⟨g', hadded, htables⟩ :=
      s.graph.addInput_ok hnonempty (fun hmem => hfresh ((h.names _).1 hmem)) hvalid
    rw [if_neg hrepeated, if_neg (by rw [not_or, h.defined]; exact ⟨hnonempty, hfresh⟩), hadded]
    refine ⟨_, rfl, ⟨h.toStateInv.define _ (v := ⟨s.graph.tables.values.length, input.name,
      input.spec, .input, none⟩) hfresh hnonempty hspec ?_ rfl ?_ (.inr ⟨rfl, ?_⟩), ?_, ?_⟩, rfl⟩
    · exact congrArg Graph.values htables
    · show g'.tables.outputIds = _
      rw [htables]
      rfl
    · show g'.tables.inputIds = _
      rw [htables]
      rfl
    · intro n
      show n ∈ g'.tables.names ↔ _
      rw [htables, Graph.pushInput_eq, (Graph.names_pushValue ..).mem_iff]
      simp [h.names]
    · intro n
      simp [h.reserved]

theorem importInputs_ok (model : ModelProto α) {inputs : List ValueInfo}
    (h : BaseInv specs Defined s) (hnodup : (inputs.map (·.name)).Nodup)
    (heach : ∀ input ∈ inputs, (Defined input.name ↔ input.name ∈ s.initializerNames) ∧
      input.name ≠ "" ∧ input.spec = specs input.name ∧ input.spec.Valid) :
    ∃ s', inputs.foldlM (importInput model) s = .ok s' ∧
      BaseInv specs (fun n => n ∈ inputs.map (·.name) ∨ Defined n) s' := by
  induction inputs generalizing s Defined with
  | nil => exact ⟨s, rfl, h.congr (by simp)⟩
  | cons input rest ih =>
    obtain ⟨⟨hknown, hnonempty, hspec, hvalid⟩, hothers⟩ := List.forall_mem_cons.1 heach
    obtain ⟨hapart, hrestNodup⟩ := List.nodup_cons.1 hnodup
    obtain ⟨s₁, himported, hinv, hnames⟩ := importInput_ok model h hknown hnonempty hspec hvalid
    obtain ⟨s₂, hrun, hinv'⟩ := ih hinv hrestNodup (fun other hmem => by
      obtain ⟨hknown, hrest⟩ := hothers other hmem
      have hne : other.name ≠ input.name :=
        fun hsame => hapart (List.mem_map.2 ⟨other, hmem, hsame⟩)
      exact ⟨by rw [hnames, ← hknown]; simp [hne], hrest⟩)
    refine ⟨s₂, ?_, hinv'.congr ?_⟩
    · rw [List.foldlM_cons, himported]
      exact hrun
    · intro n
      simp only [List.map_cons, List.mem_cons]
      tauto

/-! ## Nodes -/

/-- The name of node `index` in the graph. -/
def graphName (model : ModelProto α) (index : Nat) : String := nodeName index (reservedNames model)

/-- The output of a node has a reserved name. -/
def Collides (model : ModelProto α) (index : Nat) : Prop :=
  Graph.outputName (graphName model index) 0 ∈ reservedNames model

/-- The values that are there in the loop over the nodes. -/
def Known (model : ModelProto α) (imported : Nat → Bool) (name : String) : Prop :=
  name ∈ reservedNames model ∨
    ∃ index node, imported index = true ∧ model.graph.nodes[index]? = some node ∧
    node.outputs = [name]

structure LoopInv (model : ModelProto α) (specs : String → TensorSpec) (s : NodeLoop α) : Prop where
  state : StateInv specs (Known model s.imported) s.state
  names : ∀ name, name ∈ s.state.graph.tables.names ↔ name ∈ reservedNames model ∨
    ∃ index, s.imported index = true ∧
      (name = graphName model index ∨ name = Graph.outputName (graphName model index) 0)
  reserved : ∀ name, name ∈ s.state.reservedNames ↔ name ∈ reservedNames model
  imported_lt : ∀ index, s.imported index = true → index < model.graph.nodes.length
  remaining : s.remaining =
    ((List.range model.graph.nodes.length).filter fun index => !s.imported index).length
  accepted : ∀ index, s.imported index = true → ¬ Collides model index

variable {model : ModelProto α}

theorem inputsReady_some {node : NodeProto} {ids : List ValueId} :
    s.inputsReady node = some ids ↔
      List.Forall₂ (fun name id => name ≠ "" ∧
        s.symbols.lookup name = some id) node.inputs ids := by
  unfold ImportState.inputsReady
  generalize node.inputs = names
  induction names generalizing ids with
  | nil =>
    rw [List.mapM_nil]
    exact ⟨fun h => (by cases h; exact .nil), fun h => (by cases h; rfl)⟩
  | cons name names ih =>
    rw [List.mapM_cons]
    constructor
    · intro h
      obtain ⟨id, hfound, h⟩ := Option.bind_eq_some_iff.1 h
      obtain ⟨rest, htail, h⟩ := Option.bind_eq_some_iff.1 h
      cases h
      split at hfound
      · cases hfound
      · rename_i hnonempty
        exact .cons ⟨hnonempty, hfound⟩ (ih.1 htail)
    · intro h
      cases h with
      | cons hhead htail =>
        rw [if_neg hhead.1, hhead.2]
        exact Option.bind_eq_some_iff.2 ⟨_, rfl, Option.bind_eq_some_iff.2 ⟨_, ih.2 htail, rfl⟩⟩

/-- The inputs of a node are ready exactly if all are known. -/
theorem StateInv.ready (h : StateInv specs Defined s) {node : NodeProto}
    (hknown : ∀ name ∈ node.inputs, Defined name) : ∃ ids, s.inputsReady node = some ids := by
  suffices ∃ ids, List.Forall₂ (fun name id => name ≠ "" ∧ s.symbols.lookup name = some id)
      node.inputs ids from this.imp fun _ hfound => inputsReady_some.2 hfound
  generalize node.inputs = names at hknown
  induction names with
  | nil => exact ⟨[], .nil⟩
  | cons name names ih =>
    obtain ⟨hhead, htail⟩ := List.forall_mem_cons.1 hknown
    obtain ⟨id, hfound⟩ := Option.isSome_iff_exists.1 ((h.defined name).2 hhead)
    obtain ⟨ids, hrest⟩ := ih htail
    exact ⟨id :: ids, .cons ⟨h.nonempty name hhead, hfound⟩ hrest⟩

/-- The specs of the inputs of a node in the graph. -/
theorem StateInv.inputSpecs (h : StateInv specs Defined s) {node : NodeProto} {ids : List ValueId}
    (hready : s.inputsReady node = some ids) :
    List.Forall₂ (fun id spec => (s.graph.tables.values[id]?).map (·.spec) = some spec) ids
      (node.inputs.map specs) := by
  refine List.forall₂_map_right_iff.2 (List.Forall₂.flip ?_)
  exact (inputsReady_some.1 hready).imp fun name id hfound => h.typed name id hfound.2

/-- The specs of the inputs of a node are unique. -/
theorem forall₂_specs_unique {g : Graph α} {ids : List ValueId} {as bs : List TensorSpec}
    (ha : List.Forall₂ (fun id spec => (g.values[id]?).map (·.spec) = some spec) ids as)
    (hb : List.Forall₂ (fun id spec => (g.values[id]?).map (·.spec) = some spec) ids bs) :
    as = bs := by
  induction ha generalizing bs with
  | nil => cases hb; rfl
  | cons hhead _ ih =>
    cases hb with
    | cons hhead' htail' =>
      rw [hhead] at hhead'
      cases hhead'
      rw [ih htail']

theorem graphName_ne_empty (model : ModelProto α) (index : Nat) : graphName model index ≠ "" :=
  nodeName_ne_empty index _

/-- The name of a node that is not imported yet is fresh. -/
theorem LoopInv.fresh {s : NodeLoop α} (h : LoopInv model specs s) {index : Nat}
    (hnew : s.imported index = false) : graphName model index ∉ s.state.graph.tables.names := by
  rw [h.names]
  rintro (hreserved | ⟨other, hold, hsame | hsame⟩)
  · exact nodeName_fresh index _ hreserved
  · rw [nodeName_inj hsame, hold] at hnew
    cases hnew
  · exact outputName_ne_nodeName _ _ _ hsame.symm

/-- So is the name of its output, unless it is reserved. -/
theorem LoopInv.output_fresh {s : NodeLoop α} (h : LoopInv model specs s) {index : Nat}
    (hnew : s.imported index = false) :
    Graph.outputName (graphName model index) 0 ∉ s.state.graph.tables.names ↔
      ¬ Collides model index := by
  rw [h.names, Collides, not_iff_not]
  constructor
  · rintro (hreserved | ⟨other, hold, hsame | hsame⟩)
    · exact hreserved
    · exact absurd hsame (outputName_ne_nodeName _ _ _)
    · rw [nodeName_inj (outputName_inj hsame), hold] at hnew
      cases hnew
  · exact .inl

/-- What is left after one more node. -/
theorem remaining_update {imported : Nat → Bool} {index count : Nat} (hinside : index < count)
    (hnew : imported index = false) :
    ((List.range count).filter fun i => !(Function.update imported index true i)).length + 1 =
      ((List.range count).filter fun i => !imported i).length := by
  have hnodup : ((List.range count).filter fun i => !imported i).Nodup := List.nodup_range.filter _
  have hmem : index ∈ (List.range count).filter fun i => !imported i :=
    List.mem_filter.2 ⟨List.mem_range.2 hinside, by simp [hnew]⟩
  have hsplit : ((List.range count).filter fun i => !(Function.update imported index true i)) =
      ((List.range count).filter fun i => !imported i).erase index := by
    rw [hnodup.erase_eq_filter, List.filter_filter]
    refine List.filter_congr fun i _ => ?_
    by_cases hsame : i = index
    · subst hsame
      simp
    · simp [hsame]
  rw [hsplit, List.length_erase_of_mem hmem]
  have := List.length_pos_of_mem hmem
  omega

/-- One more node is in the graph, and its output has a value. -/
theorem LoopInv.insert {s : NodeLoop α} (h : LoopInv model specs s) {index : Nat} {node : NodeProto}
    {output : String} (hfound : model.graph.nodes[index]? = some node)
    (houtputs : node.outputs = [output]) (hnonempty : output ≠ "")
    (hfresh : ¬ Known model s.imported output) (hnew : s.imported index = false)
    (haccepted : ¬ Collides model index) {graph : BuiltGraph α} {op : OpType}
    {inputs : List ValueId} {attributes : NodeAttributes}
    (htables : graph.tables = s.state.graph.tables.pushNode
      (graphName model index) op inputs attributes [specs output])
    {state : ImportState α}
    (heq : state = { s.state with
      graph, symbols := (output, s.state.graph.tables.values.length) :: s.state.symbols }) :
    LoopInv model specs {
      state
      imported := Function.update s.imported index true
      remaining := s.remaining - 1
      progress := true } := by
  subst heq
  -- the nodes that are imported afterwards
  have hinside : index < model.graph.nodes.length := (List.getElem?_eq_some_iff.1 hfound).1
  have himported_iff (i : Nat) :
      Function.update s.imported index true i = true ↔ i = index ∨ s.imported i = true := by
    by_cases hsame : i = index
    · simp [hsame]
    · simp [hsame]
  constructor
  -- the symbols: the output joins the names that were known
  · have hdefined := h.state.define { s.state with
        graph, symbols := (output, s.state.graph.tables.values.length) :: s.state.symbols }
      (v := ⟨s.state.graph.tables.values.length, Graph.outputName (graphName model index) 0,
        specs output, .intermediate, some s.state.graph.tables.nodes.length⟩) hfresh hnonempty rfl
      (by show graph.tables.values = _; rw [htables, Graph.pushNode_eq]; rfl) rfl
      (by show graph.tables.outputIds = _; rw [htables]; rfl)
      (.inl ⟨rfl, by show graph.tables.inputIds = _; rw [htables]; rfl⟩)
    refine hdefined.congr fun n => ?_
    constructor
    · rintro (rfl | hreserved | ⟨i, m, hold, hat, hout⟩)
      · exact .inr ⟨index, node, (himported_iff _).2 (.inl rfl), hfound, houtputs⟩
      · exact .inl hreserved
      · exact .inr ⟨i, m, (himported_iff _).2 (.inr hold), hat, hout⟩
    · rintro (hreserved | ⟨i, m, hold, hat, hout⟩)
      · exact .inr (.inl hreserved)
      · rcases (himported_iff i).1 hold with rfl | hold
        · rw [hfound] at hat
          cases hat
          rw [houtputs] at hout
          cases hout
          exact .inl rfl
        · exact .inr (.inr ⟨i, m, hold, hat, hout⟩)
  -- the names of the graph: the node and its output join them
  · intro n
    show n ∈ graph.tables.names ↔ _
    rw [htables, Graph.pushNode_eq, (Graph.names_pushValue ..).mem_iff]
    show n ∈ Graph.outputName (graphName model index) 0 :: [graphName model index] ++ _ ↔ _
    rw [List.cons_append, List.mem_cons, List.singleton_append, List.mem_cons, h.names]
    constructor
    · rintro (rfl | rfl | hreserved | ⟨i, hold, hname⟩)
      · exact .inr ⟨index, (himported_iff _).2 (.inl rfl), .inr rfl⟩
      · exact .inr ⟨index, (himported_iff _).2 (.inl rfl), .inl rfl⟩
      · exact .inl hreserved
      · exact .inr ⟨i, (himported_iff _).2 (.inr hold), hname⟩
    · rintro (hreserved | ⟨i, hold, hname⟩)
      · exact .inr (.inr (.inl hreserved))
      · rcases (himported_iff i).1 hold with rfl | hold
        · exact hname.elim (fun h => .inr (.inl h)) .inl
        · exact .inr (.inr (.inr ⟨i, hold, hname⟩))
  · exact h.reserved
  · intro i hold
    rcases (himported_iff i).1 hold with rfl | hold
    · exact hinside
    · exact h.imported_lt i hold
  -- one node fewer remains
  · have hleft := remaining_update hinside hnew
    show s.remaining - 1 = ((List.range model.graph.nodes.length).filter
      fun i => !(Function.update s.imported index true i)).length
    rw [h.remaining]
    omega
  · intro i hold
    rcases (himported_iff i).1 hold with rfl | hold
    · exact haccepted
    · exact h.accepted i hold

/-- The import of a node throws if the node collides, and waits if an input is not
known. -/
theorem LoopInv.importNode {rank : String → Nat} (hsupported : Supported model specs rank)
    {s : NodeLoop α} (h : LoopInv model specs s) {index : Nat} {node : NodeProto}
    (hfound : model.graph.nodes[index]? = some node) (hnew : s.imported index = false) :
    (∃ d, importNode model s.state node index = .error d ∧ Collides model index) ∨
    (importNode model s.state node index = .ok none ∧
      ¬ ∀ input ∈ node.inputs, Known model s.imported input) ∨
    ∃ state, importNode model s.state node index = .ok (some state) ∧ LoopInv model specs {
      state
      imported := Function.update s.imported index true
      remaining := s.remaining - 1
      progress := true } := by
  have hmem : node ∈ model.graph.nodes := List.mem_of_getElem? hfound
  obtain ⟨output, hok⟩ := hsupported.nodes node hmem
  have hdomain : ¬ (node.domain ≠ "" ∧ node.domain ≠ "ai.onnx") := by
    rcases hok.domain with h | h <;> simp [h]
  -- No other node has this output.
  have hfresh : ¬ Known model s.imported output := by
    rintro (hreserved | ⟨i, m, hold, hat, hout⟩)
    · exact hok.unreserved hreserved
    · have hsame : i = index := by
        have hnodup := List.nodup_iff_getElem?_ne_getElem?.1 hsupported.nodes_nodup
        by_contra hne
        have houtputs_eq : (model.graph.nodes.map (·.outputs))[i]? =
            (model.graph.nodes.map (·.outputs))[index]? := by
          rw [List.getElem?_map, List.getElem?_map, hat, hfound, Option.map_some, Option.map_some,
            hout, hok.outputs]
        have hinside : index < (model.graph.nodes.map (·.outputs)).length := by
          rw [List.length_map]
          exact (List.getElem?_eq_some_iff.1 hfound).1
        have hinside' : i < (model.graph.nodes.map (·.outputs)).length := by
          rw [List.length_map]
          exact h.imported_lt i hold
        rcases Nat.lt_or_gt_of_ne hne with hlt | hlt
        · exact hnodup i index hlt hinside houtputs_eq
        · exact hnodup index i hlt hinside' houtputs_eq.symm
      rw [hsame, hnew] at hold
      cases hold
  unfold Onnx.importNode
  rw [if_neg hdomain]
  -- the node waits until all its inputs have symbols
  cases hready : s.state.inputsReady node with
  | none =>
    refine .inr (.inl ⟨rfl, fun hknown => ?_⟩)
    obtain ⟨ids, hsome⟩ := h.state.ready hknown
    rw [hready] at hsome
    cases hsome
  | some ids =>
    obtain ⟨op, attributes, htranslated, hinferred⟩ := hok.inferred
    have hundefined : s.state.symbols.lookup output = none := by
      rw [← Option.not_isSome_iff_eq_none, h.state.defined]
      exact hfresh
    have hname : nodeName index s.state.reservedNames = graphName model index :=
      nodeName_congr h.reserved
    simp only [hok.outputs, if_neg hok.nonempty, hundefined, htranslated, hname, Option.isSome_none,
      Bool.false_eq_true, if_false]
    -- without a collision every check of `add_node` passes
    have haccepted : ¬ Collides model index →
        s.state.graph.tables.NodeAccepted (graphName model index) op ids attributes
          (specs output) :=
      fun hfree => ⟨graphName_ne_empty model index, h.fresh hnew,
        (h.output_fresh hnew).2 hfree, hok.valid, _, h.state.inputSpecs hready, hinferred⟩
    cases hadded : BuiltGraph.addNode (graphName model index) op ids attributes s.state.graph with
    | mk outcome graph =>
      cases outcome with
      -- an error is a collision, as all other checks pass
      | error e =>
        refine .inl ⟨_, rfl, ?_⟩
        by_contra hfree
        have hsuccess : BuiltGraph.addNode (graphName model index) op ids attributes s.state.graph =
            (.ok s.state.graph.tables.nodes.length,
              ⟨_, s.state.graph.wf.pushNode (haccepted hfree)⟩) :=
          BuiltGraph.addNode_ok.2 ⟨specs output, haccepted hfree, rfl, rfl⟩
        rw [hsuccess] at hadded
        cases hadded
      -- the node is added, with the spec that was inferred
      | ok id =>
        obtain ⟨spec, haccepted', rfl, htables⟩ := BuiltGraph.addNode_ok.1 hadded
        obtain ⟨inputSpecs, hspecsFound, hinferred'⟩ := haccepted'.inferred
        rw [forall₂_specs_unique hspecsFound (h.state.inputSpecs hready), hinferred] at hinferred'
        cases hinferred'
        refine .inr (.inr ⟨_, rfl, h.insert hfound hok.outputs hok.nonempty hfresh hnew
          ((h.output_fresh hnew).1 haccepted'.output_fresh) htables ?_⟩)
        congr 3
        rw [htables, Graph.pushNode_eq]
        simp [Graph.pushValue, Graph.newNode, Graph.outputOf]

/-- The loop over the nodes goes from `s` to `s'` without an error. -/
structure Continues (model : ModelProto α) (specs : String → TensorSpec) (s s' : NodeLoop α) :
    Prop where
  inv : LoopInv model specs s'
  imported : ∀ i, s.imported i = true → s'.imported i = true
  remaining : s'.remaining ≤ s.remaining
  progress : s.progress = true → s'.progress = true
  made : s'.progress = true → s.progress = true ∨ s'.remaining < s.remaining
  newly : ∀ i, s'.imported i = true → s.imported i = true ∨ s'.progress = true

theorem Continues.refl {s : NodeLoop α} (h : LoopInv model specs s) : Continues model specs s s :=
  ⟨h, fun _ hold => hold, Nat.le_refl _, id, .inl, fun _ => .inl⟩

theorem Continues.known {s s' : NodeLoop α} (h : Continues model specs s s') {name : String}
    (known : Known model s.imported name) : Known model s'.imported name :=
  known.imp_right fun ⟨i, node, hold, hrest⟩ => ⟨i, node, h.imported i hold, hrest⟩

theorem Continues.trans {s s' s'' : NodeLoop α} (h : Continues model specs s s')
    (h' : Continues model specs s' s'') : Continues model specs s s'' where
  inv := h'.inv
  imported i hold := h'.imported i (h.imported i hold)
  remaining := h'.remaining.trans h.remaining
  progress hmade := h'.progress (h.progress hmade)
  made hmade := (h'.made hmade).elim (fun hmade => (h.made hmade).imp_right h'.remaining.trans_lt)
    fun hless => .inr (hless.trans_le h.remaining)
  newly i hnow := (h'.newly i hnow).elim (fun hold => (h.newly i hold).imp_right h'.progress) .inr

/-- One round of the loop over the nodes: it throws for a node that collides, or goes
on; it makes progress at a new node whose inputs are known. -/
theorem LoopInv.visit {rank : String → Nat} (hsupported : Supported model specs rank)
    {s : NodeLoop α} (h : LoopInv model specs s) {index : Nat} {node : NodeProto}
    (hfound : model.graph.nodes[index]? = some node) :
    (∃ d, s.visit model (node, index) = .error d ∧ Collides model index) ∨
    ∃ s', s.visit model (node, index) = .ok s' ∧ Continues model specs s s' ∧
      (s.imported index = false → (∀ input ∈ node.inputs, Known model s.imported input) →
        s'.progress = true) := by
  by_cases hold : s.imported index = true
  · refine .inr ⟨s, by simp [NodeLoop.visit, hold], .refl h, ?_⟩
    intro hnew
    rw [hold] at hnew
    cases hnew
  · have hnew : s.imported index = false := by simpa using hold
    rcases h.importNode hsupported hfound hnew with ⟨d, hfailed, hcollides⟩ | ⟨hwaits, hunknown⟩ |
      ⟨state, himported, hinv⟩
    · exact .inl ⟨d, by simp [NodeLoop.visit, hnew, hfailed], hcollides⟩
    · exact .inr ⟨s, by simp [NodeLoop.visit, hnew, hwaits], .refl h,
        fun _ hknown => absurd hknown hunknown⟩
    · have hleft := remaining_update (List.getElem?_eq_some_iff.1 hfound).1 hnew
      rw [← h.remaining] at hleft
      refine .inr ⟨_, by simp only [NodeLoop.visit, hnew, himported]; rfl,
        ⟨hinv, fun i hold => ?_, ?_, fun _ => rfl, fun _ => ?_, fun _ _ => .inr rfl⟩,
        fun _ _ => rfl⟩
      · show Function.update s.imported index true i = true
        by_cases hsame : i = index
        · simp [hsame]
        · simpa [hsame] using hold
      · exact Nat.sub_le _ _
      · exact .inr (by show s.remaining - 1 < s.remaining; omega)

/-- A pass throws for a node that collides, or goes on; it makes progress if there is a
new node whose inputs are known. -/
theorem LoopInv.visits {rank : String → Nat} (hsupported : Supported model specs rank)
    {visited : List (NodeProto × Nat)}
    (hfound : ∀ p ∈ visited, model.graph.nodes[p.2]? = some p.1) {s : NodeLoop α}
    (h : LoopInv model specs s) :
    (∃ d, visited.foldlM (NodeLoop.visit model) s = .error d ∧ ∃ p ∈ visited, Collides model p.2) ∨
    ∃ s', visited.foldlM (NodeLoop.visit model) s = .ok s' ∧ Continues model specs s s' ∧
      ∀ p ∈ visited, s.imported p.2 = false → (∀ input ∈ p.1.inputs, Known model s.imported input) →
        s'.progress = true := by
  induction visited generalizing s with
  | nil =>
    exact .inr ⟨s, rfl, .refl h, fun p hmem => absurd hmem List.not_mem_nil⟩
  | cons p rest ih =>
    obtain ⟨hhere, hothers⟩ := List.forall_mem_cons.1 hfound
    rcases h.visit hsupported hhere with ⟨d, hfailed, hcollides⟩ | ⟨s₁, hvisit, hstep, hready⟩
    · exact .inl ⟨d, by rw [List.foldlM_cons, hfailed]; rfl, p, List.mem_cons_self, hcollides⟩
    · rcases ih hothers hstep.inv with ⟨d, hfailed, q, hmem, hcollides⟩ | ⟨s₂, hrun, hsteps, hrest⟩
      · exact .inl ⟨d, by rw [List.foldlM_cons, hvisit]; exact hfailed, q,
          List.mem_cons_of_mem p hmem, hcollides⟩
      · refine .inr ⟨s₂, by rw [List.foldlM_cons, hvisit]; exact hrun, hstep.trans hsteps, ?_⟩
        intro q hmem hnew hknown
        rcases List.mem_cons.1 hmem with rfl | hmem
        · exact hsteps.progress (hready hnew hknown)
        · by_cases hnow : s₁.imported q.2 = true
          · rcases hstep.newly q.2 hnow with hold | hmade
            · rw [hold] at hnew
              cases hnew
            · exact hsteps.progress hmade
          · exact hrest q hmem (by simpa using hnow) fun input hmem =>
              hstep.known (hknown input hmem)

/-! ## The passes -/

theorem zipIdx_found {nodes : List NodeProto} : ∀ p ∈ nodes.zipIdx, nodes[p.2]? = some p.1 := by
  intro p hmem
  exact List.mem_zipIdx_iff_getElem?.1 hmem

/-- While a node is left, there is one whose inputs are known. -/
theorem LoopInv.exists_ready {rank : String → Nat} (hsupported : Supported model specs rank)
    {s : NodeLoop α} (h : LoopInv model specs s) (hleft : s.remaining ≠ 0) :
    ∃ index node, model.graph.nodes[index]? = some node ∧ s.imported index = false ∧
      ∀ input ∈ node.inputs, Known model s.imported input := by
  -- A node that waits for another has the larger rank.
  suffices ∀ r index node output, model.graph.nodes[index]? = some node → s.imported index = false →
      node.outputs = [output] → rank output = r →
      ∃ index node, model.graph.nodes[index]? = some node ∧ s.imported index = false ∧
        ∀ input ∈ node.inputs, Known model s.imported input by
    rw [h.remaining] at hleft
    obtain ⟨index, hmem⟩ := List.exists_mem_of_length_pos (Nat.pos_of_ne_zero hleft)
    obtain ⟨hinside, hnew⟩ := List.mem_filter.1 hmem
    have hfound := List.getElem?_eq_getElem (List.mem_range.1 hinside)
    obtain ⟨output, hok⟩ := hsupported.nodes _ (List.mem_of_getElem? hfound)
    exact this _ index _ output hfound (by simpa using hnew) hok.outputs rfl
  intro r
  induction r using Nat.strong_induction_on with
  | _ r ih =>
    intro index node output hfound hnew houtputs hrank_eq
    by_cases hready : ∀ input ∈ node.inputs, Known model s.imported input
    · exact ⟨index, node, hfound, hnew, hready⟩
    · push Not at hready
      obtain ⟨input, hmem, hunknown⟩ := hready
      obtain ⟨output', hok⟩ := hsupported.nodes node (List.mem_of_getElem? hfound)
      obtain rfl : output' = output := by
        rw [hok.outputs] at houtputs
        exact List.singleton_inj.1 houtputs
      rcases hok.inputs input hmem with hreserved | ⟨producer, hproduced, hout⟩
      · exact absurd (.inl hreserved) hunknown
      · obtain ⟨i, hat⟩ := List.getElem?_of_mem hproduced
        have hwaiting : s.imported i = false := by
          by_contra hold
          exact hunknown (.inr ⟨i, producer, by simpa using hold, hat, hout⟩)
        exact ih (rank input) (hrank_eq ▸ hok.acyclic input hmem) i producer input hat
          hwaiting hout rfl

/-- The passes throw for a node that collides, or import all nodes. -/
theorem LoopInv.importNodes {rank : String → Nat} (hsupported : Supported model specs rank)
    {fuel : Nat} {s : NodeLoop α} (h : LoopInv model specs s) (henough : s.remaining ≤ fuel) :
    (∃ d, importNodes model fuel s = .error d ∧
      ∃ index < model.graph.nodes.length, Collides model index) ∨
    ∃ last, importNodes model fuel s = .ok last.state ∧ LoopInv model specs last ∧
      last.remaining = 0 := by
  induction fuel generalizing s with
  | zero =>
    have hdone : s.remaining = 0 := Nat.le_zero.1 henough
    exact .inr ⟨s, by rw [Onnx.importNodes, if_pos hdone], h, hdone⟩
  | succ fuel ih =>
    by_cases hdone : s.remaining = 0
    · exact .inr ⟨s, by rw [Onnx.importNodes, if_pos hdone], h, hdone⟩
    · rw [Onnx.importNodes, if_neg hdone]
      have hstart : LoopInv model specs { s with progress := false } :=
        ⟨h.state, h.names, h.reserved, h.imported_lt, h.remaining, h.accepted⟩
      rcases hstart.visits hsupported zipIdx_found with ⟨d, hfailed, p, hmem, hcollides⟩ |
        ⟨s', hrun, hsteps, hready⟩
      · refine .inl ⟨d, by rw [NodeLoop.pass, hfailed]; rfl, p.2, ?_, hcollides⟩
        exact (List.getElem?_eq_some_iff.1 (zipIdx_found p hmem)).1
      · obtain ⟨index, node, hfound, hnew, hknown⟩ := hstart.exists_ready hsupported hdone
        have hprogress : s'.progress = true :=
          hready (node, index) (List.mem_zipIdx_iff_getElem?.2 hfound) hnew hknown
        have hless : s'.remaining < s.remaining := by
          rcases hsteps.made hprogress with habsurd | hless
          · cases habsurd
          · exact hless
        have hnext := ih hsteps.inv (by omega)
        rw [NodeLoop.pass, hrun]
        show (_ ∨ _)
        simpa [bind, Except.bind, hprogress] using hnext

/-! ## The outputs -/

/-- What is there after the outputs in `done`. -/
structure OutputInv (start s : ImportState α) (done : List (String × ValueId)) : Prop where
  symbols : s.symbols = start.symbols
  modelInputs : s.modelInputs = start.modelInputs
  values : s.graph.tables.values = start.graph.tables.values
  inputIds : s.graph.tables.inputIds = start.graph.tables.inputIds
  outputIds : s.graph.tables.outputIds = done.map (·.2)
  found : ∀ p ∈ done, start.symbols.lookup p.1 = some p.2

/-- The outputs are marked in order, by induction on those still to come. -/
theorem importOutputs_ok (model : ModelProto α) {start : ImportState α}
    (h : StateInv specs Defined start) {outputs : List ValueInfo} {done : List (String × ValueId)}
    (hinv : OutputInv start s done) (hnodup : (done.map (·.1) ++ outputs.map (·.name)).Nodup)
    (heach : ∀ output ∈ outputs, Defined output.name ∧ output.spec = specs output.name) :
    ∃ s' outs, outputs.foldlM (importOutput model) (s, done) = .ok (s', outs) ∧
      OutputInv start s' outs ∧ outs.map (·.1) = done.map (·.1) ++ outputs.map (·.name) := by
  induction outputs generalizing s done with
  | nil => exact ⟨s, done, rfl, hinv, by simp⟩
  | cons output rest ih =>
    obtain ⟨⟨hdefined, hspec⟩, hothers⟩ := List.forall_mem_cons.1 heach
    obtain ⟨id, hfound⟩ := Option.isSome_iff_exists.1 ((h.defined output.name).2 hdefined)
    have htyped : s.specOf id = some output.spec := by
      rw [hspec, ← h.typed _ id hfound, ImportState.specOf, ImportState.specOf, hinv.values]
    have hinside : id < s.graph.tables.values.length := hinv.values ▸ h.id_lt hfound
    have hfresh : id ∉ s.graph.tables.outputIds := by
      rw [hinv.outputIds]
      intro hmem
      obtain ⟨p, hold, rfl⟩ := List.mem_map.1 hmem
      have hsame := h.injective _ _ _ (hinv.found p hold) hfound
      exact (List.nodup_append.1 hnodup).2.2 p.1 (List.mem_map_of_mem hold) output.name
        List.mem_cons_self hsame
    obtain ⟨graph, hmarked, htables⟩ := s.graph.markOutput_ok hinside hfresh
    have hhere : importOutput model (s, done) output =
        .ok ({ s with graph }, done ++ [(output.name, id)]) := by
      have hlookup : s.symbols.lookup output.name = some id := hinv.symbols ▸ hfound
      simp only [importOutput, hlookup, htyped, if_true, hmarked]
    have hnext : OutputInv start { s with graph } (done ++ [(output.name, id)]) := by
      refine ⟨hinv.symbols, hinv.modelInputs, ?_, ?_, ?_, ?_⟩
      · show graph.tables.values = _
        rw [htables]
        exact hinv.values
      · show graph.tables.inputIds = _
        rw [htables]
        exact hinv.inputIds
      · show graph.tables.outputIds = _
        rw [htables, List.map_append, ← hinv.outputIds]
        rfl
      · intro p hmem
        rcases List.mem_append.1 hmem with hmem | hmem
        · exact hinv.found p hmem
        · obtain rfl := List.mem_singleton.1 hmem
          exact hfound
    obtain ⟨s', outs, hrun, hinv', hnames⟩ := ih hnext (by simpa using hnodup) hothers
    refine ⟨s', outs, ?_, hinv', by simpa using hnames⟩
    rw [List.foldlM_cons, hhere]
    exact hrun

/-- The checks of `Model` pass. -/
theorem OutputInv.make {start : ImportState α} (h : StateInv specs Defined start)
    {outs : List (String × ValueId)} (hinv : OutputInv start s outs) (hnonempty : outs ≠ [])
    (hnodup : (outs.map (·.1)).Nodup) :
    ∃ result, Model.make s.graph s.modelInputs outs = .ok result := by
  have hids : s.modelInputs.map (·.2) = s.graph.tables.inputIds := by
    rw [hinv.modelInputs, hinv.inputIds, h.input_ids]
  have hname_ne (p : String × ValueId) (hmem : p ∈ outs) : p.1 ≠ "" :=
    h.nonempty _ ((h.defined _).1 (by rw [hinv.found p hmem]; rfl))
  refine ⟨_, Model.make_ok (check_ok.2 ⟨(Graph.validate_ok s.graph.wf).2 ?_,
    check_ok.2 ⟨Model.requireUniqueNames_ok.2 ⟨?_, ?_⟩, check_ok.2 ⟨Model.requireUniqueNames_ok.2
    ⟨hname_ne, hnodup⟩, check_ok.2 ⟨require_ok.2 ?_, check_ok.2 ⟨?_, ?_⟩⟩⟩⟩⟩)⟩
  · rw [hinv.outputIds]
    simpa using hnonempty
  · intro p hmem
    rw [hinv.modelInputs] at hmem
    exact h.nonempty _ (h.inputs_defined _ (List.mem_map_of_mem hmem))
  · rw [hinv.modelInputs]
    exact h.input_names
  · rw [← hids, hinv.outputIds]
    simp
  · refine Model.checkInputs_ok (fun p hmem => ?_) ?_
    · exact (s.graph.wf.inputs_mem p.2).1 (hids ▸ List.mem_map_of_mem hmem)
    · rw [List.append_nil, hids]
      exact s.graph.wf.inputs_nodup
  · refine Model.checkOutputs_ok (fun p hmem => ?_) ?_
    · rw [hinv.outputIds]
      exact List.mem_map_of_mem hmem
    · rw [List.append_nil, ← hinv.outputIds]
      exact s.graph.wf.outputs_nodup

/-! ## The importer -/

/-- The locals before the first node. -/
theorem importBase {rank : String → Nat} (hsupported : Supported model specs rank) :
    ∃ s₁ s₂, model.graph.initializers.foldlM (importInitializer model) {} = .ok s₁ ∧
      model.graph.inputs.foldlM (importInput model) s₁ = .ok s₂ ∧
      BaseInv specs (· ∈ reservedNames model) s₂ := by
  have hempty : BaseInv specs (fun _ => False) ({} : ImportState α) := by
    constructor
    · constructor <;> simp
    · simp [Graph.names]
    · simp
  have hnames : ∀ name, name ∈ ({} : ImportState α).initializerNames ↔ False := by simp
  obtain ⟨s₁, hrun, hinv, hnames⟩ := importInitializers_ok model hempty hnames
    hsupported.initializers_nodup fun initializer hmem => ⟨id, hsupported.names_nonempty _
      (List.mem_append_left _ (List.mem_map_of_mem hmem)), hsupported.initializers initializer hmem⟩
  obtain ⟨s₂, hrun', hinv'⟩ := importInputs_ok model hinv hsupported.inputs_nodup
    fun input hmem => ⟨(hnames input.name).symm, hsupported.names_nonempty _
      (List.mem_append_right _ (List.mem_map_of_mem hmem)), hsupported.inputs input hmem⟩
  refine ⟨s₁, s₂, hrun, hrun', hinv'.congr fun name => ?_⟩
  rw [reservedNames, List.mem_append]
  tauto

/-- The state of the loop before the first node. -/
theorem BaseInv.loopInv (h : BaseInv specs (· ∈ reservedNames model) s) :
    LoopInv model specs { state := s, remaining := model.graph.nodes.length } where
  state := h.toStateInv.congr fun name => by simp [Known]
  names name := by simp [h.names]
  reserved := h.reserved
  imported_lt index himported := by cases himported
  remaining := by simp
  accepted index himported := by cases himported

/-- When no node is left, every node is imported. -/
theorem LoopInv.all_imported {s : NodeLoop α} (h : LoopInv model specs s)
    (hdone : s.remaining = 0) :
    ∀ index < model.graph.nodes.length, s.imported index = true := by
  intro index hinside
  have hnone := List.filter_eq_nil_iff.1 (List.length_eq_zero_iff.1 (h.remaining ▸ hdone)) index
    (List.mem_range.2 hinside)
  simpa using hnone

/-- A supported model is imported exactly if no initializer or input has the name of the
output of a node in the graph. -/
theorem importModel_ok_iff (model : ModelProto α) (specs : String → TensorSpec)
    (rank : String → Nat) (hsupported : Supported model specs rank) :
    (∃ result, importModel model = .ok result) ↔
      ∀ index < model.graph.nodes.length, ¬ Collides model index := by
  obtain ⟨s₁, s₂, hinitializers, hinputs, hbase⟩ := importBase hsupported
  unfold importModel
  rw [if_neg (by have := hsupported.opset; omega), hinitializers]
  show (∃ result, (model.graph.inputs.foldlM (importInput model) s₁ >>= _) = .ok result) ↔ _
  rw [hinputs]
  show (∃ result, (importNodes model _ _ >>= _) = .ok result) ↔ _
  rcases hbase.loopInv.importNodes hsupported (Nat.le_refl _) with
    ⟨d, hfailed, index, hinside, hcollides⟩ | ⟨last, hrun, hinv, hdone⟩
  · rw [hfailed]
    constructor
    · rintro ⟨result, h⟩
      cases h
    · intro hfree
      exact absurd hcollides (hfree index hinside)
  · have hall := hinv.all_imported hdone
    refine iff_of_true ?_ fun index hinside => hinv.accepted index (hall index hinside)
    have hdefined (name : String) (h : IsDefined model name) : Known model last.imported name := by
      refine h.imp_right fun ⟨node, hmem, hout⟩ => ?_
      obtain ⟨index, hfound⟩ := List.getElem?_of_mem hmem
      exact ⟨index, node, hall index (List.getElem?_eq_some_iff.1 hfound).1, hfound, hout⟩
    have hstart : OutputInv last.state last.state [] :=
      ⟨rfl, rfl, rfl, rfl, hinv.state.outputs, fun p hmem => absurd hmem List.not_mem_nil⟩
    obtain ⟨s₃, outs, houtputs, houtputInv, hnames⟩ := importOutputs_ok model hinv.state hstart
      (by simpa using hsupported.outputs_nodup) fun output hmem =>
        ⟨hdefined _ (hsupported.outputs output hmem).1, (hsupported.outputs output hmem).2⟩
    have hnames : outs.map (·.1) = model.graph.outputs.map (·.name) := hnames
    obtain ⟨result, hmade⟩ := houtputInv.make hinv.state
      (fun hempty => hsupported.outputs_ne (by simpa [hempty] using hnames.symm))
      (hnames ▸ hsupported.outputs_nodup)
    refine ⟨result, ?_⟩
    rw [hrun]
    show (List.foldlM (importOutput model) (last.state, []) _ >>= _) = _
    rw [houtputs]
    simp only [bind, Except.bind, hmade]

/-- `Relu(x) + w` with an initializer `w`, the sum before the node that it reads -/
def shifted : ModelProto Int where
  opsetVersion := 13
  graph := {
    initializers := [⟨"w", ⟨.contiguous [7] (by decide), .float32, fun _ => 3, by decide⟩⟩]
    inputs := [⟨"x", ⟨[7], .float32⟩⟩]
    nodes := [
      { opType := "Add", inputs := ["h", "w"], outputs := ["y"] },
      { opType := "Relu", inputs := ["x"], outputs := ["h"] }]
    outputs := [⟨"y", ⟨[7], .float32⟩⟩] }

/-- The model with two nodes listed out of order is supported. -/
theorem shifted_supported : Supported shifted (fun _ => ⟨[7], .float32⟩)
    (fun n => if n = "y" then 2 else if n = "h" then 1 else 0) := by
  have hvalid : (⟨[7], .float32⟩ : TensorSpec).Valid := by decide
  have hreserved : reservedNames shifted = ["w", "x"] := rfl
  have hh : IsDefined shifted "h" := .inr ⟨_, List.mem_cons_of_mem _ List.mem_cons_self, rfl⟩
  have hy : IsDefined shifted "y" := .inr ⟨_, List.mem_cons_self, rfl⟩
  have hw : IsDefined shifted "w" := .inl (by rw [hreserved]; decide)
  have hx : IsDefined shifted "x" := .inl (by rw [hreserved]; decide)
  constructor
  · show (13 : Int) ≤ 13
    decide
  · exact List.nodup_singleton _
  · exact List.nodup_singleton _
  · rw [hreserved]
    decide
  · intro initializer hmem
    obtain rfl := List.mem_singleton.1 hmem
    rfl
  · intro input hmem
    obtain rfl := List.mem_singleton.1 hmem
    exact ⟨rfl, hvalid⟩
  · intro node hmem
    rcases List.mem_cons.1 hmem with rfl | hmem
    · refine ⟨"y", ⟨rfl, by decide, by rw [hreserved]; decide, .inl rfl, ?_, by decide,
        hvalid, .add, [], by rfl, by rfl⟩⟩
      exact List.forall_mem_cons.2 ⟨hh, List.forall_mem_singleton.2 hw⟩
    · obtain rfl := List.mem_singleton.1 hmem
      refine ⟨"h", ⟨rfl, by decide, by rw [hreserved]; decide, .inl rfl, ?_, by decide,
        hvalid, .reLU, [], by rfl, by rfl⟩⟩
      exact List.forall_mem_singleton.2 hx
  · show [["y"], ["h"]].Nodup
    decide
  · exact List.cons_ne_nil _ _
  · exact List.nodup_singleton _
  · intro output hmem
    obtain rfl := List.mem_singleton.1 hmem
    exact ⟨hy, rfl⟩

/-- An initializer, and two nodes listed out of order. -/
theorem importModel_ok_shifted : ∃ result, importModel shifted = .ok result :=
  (importModel_ok_iff _ _ _ shifted_supported).2 fun index hindex => by
    have hcases : index = 0 ∨ index = 1 := by
      have : index < 2 := hindex
      omega
    rcases hcases with rfl | rfl
    · unfold Collides
      decide
    · unfold Collides
      decide

/-- A `Relu` of `x`, beside an input that is not used. -/
def unusedInput (name : String) : ModelProto Int where
  opsetVersion := 13
  graph := {
    inputs := [⟨"x", ⟨[1], .float32⟩⟩, ⟨name, ⟨[1], .float32⟩⟩]
    nodes := [{ opType := "Relu", inputs := ["x"], outputs := ["y"] }]
    outputs := [⟨"y", ⟨[1], .float32⟩⟩] }

theorem unusedInput_supported {name : String} (hnonempty : name ≠ "")
    (hapart : name ≠ "x" ∧ name ≠ "y") :
    Supported (unusedInput name) (fun _ => ⟨[1], .float32⟩)
      (fun n => if n = "y" then 1 else 0) := by
  have hvalid : (⟨[1], .float32⟩ : TensorSpec).Valid := by decide
  have hreserved : reservedNames (unusedInput name) = ["x", name] := rfl
  constructor
  · show (13 : Int) ≤ 13
    decide
  · exact List.nodup_nil
  · simpa [unusedInput] using fun hsame => hapart.1 hsame.symm
  · rw [hreserved]
    simpa using hnonempty
  · exact fun initializer hmem => absurd hmem List.not_mem_nil
  · simpa [unusedInput] using hvalid
  · intro node hmem
    obtain rfl := List.mem_singleton.1 hmem
    refine ⟨"y", ⟨rfl, by decide, ?_, .inl rfl, ?_, ?_, hvalid, .reLU, [], by rfl, by rfl⟩⟩
    · rw [hreserved]
      simpa using fun hsame => hapart.2 hsame.symm
    · intro input hmem
      obtain rfl := List.mem_singleton.1 hmem
      exact .inl (by rw [hreserved]; exact List.mem_cons_self)
    · intro input hmem
      obtain rfl := List.mem_singleton.1 hmem
      decide
  · exact List.nodup_singleton _
  · exact List.cons_ne_nil _ _
  · exact List.nodup_singleton _
  · intro output hmem
    obtain rfl := List.mem_singleton.1 hmem
    exact ⟨.inr ⟨_, List.mem_singleton_self _, rfl⟩, rfl⟩

/-- The unused input has the name of the output of the first node. -/
theorem importModel_name_clash :
    ¬ ∀ (model : ModelProto Int) (specs : String → TensorSpec) (rank : String → Nat),
      Supported model specs rank → ∃ result, importModel model = .ok result := by
  intro haccepts
  obtain ⟨result, haccepted⟩ := haccepts (unusedInput "__onnx_node_0:0") _ _
    (unusedInput_supported (by decide) (by decide))
  have hfailed : (importModel (unusedInput "__onnx_node_0:0")).isOk = false := by rfl
  rw [haccepted] at hfailed
  cases hfailed

end TinyInfer.Onnx
