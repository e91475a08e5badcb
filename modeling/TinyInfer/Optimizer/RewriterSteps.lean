import TinyInfer.Optimizer.Rewriting

/-!
# The steps of a rewriter

Every member function of the rewriter, called as the passes call it, returns and keeps
`Open`, the invariant of a rewriter that is not finished. `finish` then returns a model,
and `Rewritten` is what a pass knows of it.

Main definitions: `Available`, `Open`, `Rewritten`. Main results: `replaceNode_ok`,
`replaceWithConstant_ok`, `copyMissing_ok`, `finish_ok`.
-/

namespace TinyInfer.Optimizer

variable {α : Type} {s t : Graph α} {inputs : List ValueId} {actions : List (Action α)}
  {wanted : ValueId → Prop} {mapping : List (Option ValueId)}

/-! ## The tables -/

/-- A value that was just mapped. -/
theorem mapped_new {v : ValueId} (hunmapped : mapping[v]? = some none) (w : ValueId) :
    Mapped (mapping.set v (some w)) v w := (mapped_set hunmapped).2 (.inr ⟨rfl, rfl⟩)

theorem mapped_old {v w : ValueId} (hunmapped : mapping[v]? = some none) (u x : ValueId)
    (h : Mapped mapping u x) : Mapped (mapping.set v (some w)) u x :=
  (mapped_set hunmapped).2 (.inl h)

theorem Rewrites.nodes_mono (h : Rewrites s inputs actions wanted t mapping)
    {actions' : List (Action α)} {mapping' : List (Option ValueId)} (hlonger : actions <+: actions')
    (hmore : ∀ v w, Mapped mapping v w → Mapped mapping' v w) :
    List.Forall₂ (NodeImage s actions' mapping') (emitted actions) t.nodes :=
  h.nodes.imp fun _ _ himage => himage.mono hlonger hmore

/-- After the action of one more node. -/
theorem Rewrites.produced_concat (h : Rewrites s inputs actions wanted t mapping)
    {mapping' : List (Option ValueId)} (hmore : ∀ v w, Mapped mapping v w → Mapped mapping' v w)
    {node : Node} (hfound : s.nodes[actions.length]? = some node) {action : Action α}
    (hlast : action.keeps = true → ∀ v ∈ node.outputs, ∃ w, Mapped mapping' v w) (p : NodeId)
    (n : Node) (a : Action α) (hthere : s.nodes[p]? = some n)
    (hacted : (actions ++ [action])[p]? = some a) (hkeeps : a.keeps = true) :
    ∀ v ∈ n.outputs, ∃ w, Mapped mapping' v w := by
  rcases Graph.getElem?_snoc.1 hacted with hacted | ⟨rfl, rfl⟩
  · intro v hmem
    obtain ⟨w, hmapped⟩ := h.produced p n a hthere hacted hkeeps v hmem
    exact ⟨w, hmore v w hmapped⟩
  · rw [hfound] at hthere
    cases hthere
    exact hlast hkeeps

/-- Copying an input keeps the rewriting relation. -/
theorem Rewrites.pushInput (h : Rewrites s inputs actions wanted t mapping) (hwf : t.WellFormed)
    {v : ValueId} {value : GraphValue} (hfound : s.values[v]? = some value)
    (hkind : value.kind = .input) (hunmapped : mapping[v]? = some none) :
    Rewrites s (inputs ++ [v]) actions wanted (t.pushInput value.name value.spec)
      (mapping.set v (some t.values.length)) := by
  have hmore := mapped_old (w := t.values.length) hunmapped
  have hext := t.extends_pushValue value.name value.spec .input none none
  rw [← Graph.pushInput_eq] at hext
  constructor
  · refine h.toMaps.push hwf hfound hunmapped (List.prefix_refl actions) hext rfl rfl rfl
      (.input hkind rfl) fun hconstant => ?_
    rw [hkind] at hconstant
    cases hconstant
  · refine List.rel_append (h.inputIds.imp hmore) ?_
    exact .cons (mapped_new hunmapped _) .nil
  · exact h.nodes_mono (List.prefix_refl actions) hmore
  · intro p node action hthere hacted hkeeps u hmem
    obtain ⟨w, hmapped⟩ := h.produced p node action hthere hacted hkeeps u hmem
    exact ⟨w, hmore u w hmapped⟩

/-- Copying a constant keeps the rewriting relation. -/
theorem Rewrites.pushConstant (h : Rewrites s inputs actions wanted t mapping) (hwf : t.WellFormed)
    {v : ValueId} {value : GraphValue} {tensor : Tensor α} (hfound : s.values[v]? = some value)
    (hkind : value.kind = .constant) (hconstant : s.constants[v]? = some (some tensor))
    (hspec : tensor.spec = value.spec) (hasked : wanted v) (hunmapped : mapping[v]? = some none) :
    Rewrites s inputs actions wanted (t.pushConstant value.name tensor)
      (mapping.set v (some t.values.length)) := by
  have hmore := mapped_old (w := t.values.length) hunmapped
  have hext := t.extends_pushValue value.name tensor.spec .constant (some tensor) none
  rw [← Graph.pushConstant_eq] at hext
  constructor
  · refine h.toMaps.push hwf hfound hunmapped (List.prefix_refl actions) hext rfl rfl hspec
      (.constant hkind rfl ?_) fun _ => hasked
    rw [hconstant]
    exact Graph.getElem?_snoc.2 (.inr ⟨hwf.constants_length.symm, rfl⟩)
  · exact h.inputIds.imp hmore
  · exact h.nodes_mono (List.prefix_refl actions) hmore
  · intro p node action hthere hacted hkeeps u hmem
    obtain ⟨w, hmapped⟩ := h.produced p node action hthere hacted hkeeps u hmem
    exact ⟨w, hmore u w hmapped⟩

/-- Removing a node adds an action and nothing else. -/
theorem Rewrites.remove (h : Rewrites s inputs actions wanted t mapping) {node : Node}
    (hfound : s.nodes[actions.length]? = some node) :
    Rewrites s inputs (actions ++ [.remove]) wanted t mapping := by
  have hlonger : actions <+: actions ++ [.remove] := List.prefix_append actions _
  constructor
  · refine { h.toMaps with image := fun v w hmapped => ?_ }
    obtain ⟨value, image, hthere, hfound', hname, hspec, hstands⟩ := h.image v w hmapped
    refine ⟨value, image, hthere, hfound', hname, hspec, ?_⟩
    cases hstands with
    | input hkind hsame => exact .input hkind hsame
    | constant hkind hsame htensor => exact .constant hkind hsame htensor
    | node p op ins attributes hproducer haction hsame =>
      exact .node p op ins attributes hproducer (Graph.getElem?_append_of_some haction) hsame
    | folded p tensor hproducer haction hkind hconstant =>
      exact .folded p tensor hproducer (Graph.getElem?_append_of_some haction) hkind hconstant
  · exact h.inputIds
  · rw [emitted_concat_of_not rfl]
    exact h.nodes_mono hlonger fun _ _ hmapped => hmapped
  · refine h.produced_concat (fun _ _ hmapped => hmapped) hfound fun hkeeps => ?_
    cases hkeeps

/-- Folding a node maps its output to a new constant. -/
theorem Rewrites.fold (h : Rewrites s inputs actions wanted t mapping) (hwf : t.WellFormed)
    {node : Node} {out : ValueId} {value : GraphValue} {tensor : Tensor α}
    (hfound : s.nodes[actions.length]? = some node) (houtputs : node.outputs = [out])
    (hthere : s.values[out]? = some value) (hproducer : value.producer = some actions.length)
    (hkind : value.kind = .intermediate) (hspec : tensor.spec = value.spec)
    (hunmapped : mapping[out]? = some none) :
    Rewrites s inputs (actions ++ [.fold tensor]) wanted (t.pushConstant value.name tensor)
      (mapping.set out (some t.values.length)) := by
  have hmore := mapped_old (w := t.values.length) hunmapped
  have hlonger : actions <+: actions ++ [.fold tensor] := List.prefix_append actions _
  have hext := t.extends_pushValue value.name tensor.spec .constant (some tensor) none
  rw [← Graph.pushConstant_eq] at hext
  constructor
  · refine h.toMaps.push hwf hthere hunmapped hlonger hext rfl rfl hspec
      (.folded actions.length tensor hproducer ?_ rfl ?_) fun hconstant => ?_
    · exact Graph.getElem?_snoc.2 (.inr ⟨rfl, rfl⟩)
    · exact Graph.getElem?_snoc.2 (.inr ⟨hwf.constants_length.symm, rfl⟩)
    · rw [hkind] at hconstant
      cases hconstant
  · exact h.inputIds.imp hmore
  · rw [emitted_concat_of_not rfl]
    exact h.nodes_mono hlonger hmore
  · refine h.produced_concat hmore hfound fun _ v hmem => ?_
    rw [houtputs, List.mem_singleton] at hmem
    rw [hmem]
    exact ⟨_, mapped_new hunmapped _⟩

/-- Emitting a node maps its output to the new node's. -/
theorem Rewrites.pushNode (h : Rewrites s inputs actions wanted t mapping)
    {node : Node} {out : ValueId} {value : GraphValue} {op : OpType} {ids images : List ValueId}
    {attributes : NodeAttributes} (hfound : s.nodes[actions.length]? = some node)
    (houtputs : node.outputs = [out]) (hthere : s.values[out]? = some value)
    (hproducer : value.producer = some actions.length) (hkind : value.kind = .intermediate)
    (hname : value.name = Graph.outputName node.name 0) (hwf : t.WellFormed)
    (hins : List.Forall₂ (Mapped mapping) ids images) (hunmapped : mapping[out]? = some none) :
    Rewrites s inputs (actions ++ [.emit op ids attributes]) wanted
      (t.pushNode node.name op images attributes [value.spec])
      (mapping.set out (some t.values.length)) := by
  have hmore := mapped_old (w := t.values.length) hunmapped
  have hlonger : actions <+: actions ++ [.emit op ids attributes] := List.prefix_append actions _
  have hlast : (actions ++ [.emit op ids attributes])[actions.length]? =
    some (.emit op ids attributes) :=
    Graph.getElem?_snoc.2 (.inr ⟨rfl, rfl⟩)
  have hext := t.extends_pushValue (Graph.outputName node.name 0) value.spec .intermediate none
    (some (t.newNode node.name op images attributes))
  rw [← Graph.pushNode_eq] at hext
  have hvalues : (t.pushNode node.name op images attributes [value.spec]).values = t.values ++
      [⟨t.values.length, Graph.outputName node.name 0, value.spec, .intermediate,
        some t.nodes.length⟩] := by
    rw [Graph.pushNode_eq]
    rfl
  constructor
  · refine h.toMaps.push hwf hthere hunmapped hlonger hext hvalues hname.symm rfl
      (.node actions.length op ids attributes hproducer hlast rfl) fun hconstant => ?_
    rw [hkind] at hconstant
    cases hconstant
  · exact h.inputIds.imp hmore
  · rw [emitted_concat, Action.emits, if_pos rfl, Graph.pushNode_eq]
    refine List.rel_append (h.nodes_mono hlonger hmore) (.cons ?_ .nil)
    refine ⟨node, ids, hfound, hlast, rfl, hins.imp hmore, ?_⟩
    rw [houtputs]
    exact .cons (mapped_new hunmapped _) .nil
  · refine h.produced_concat hmore hfound fun _ v hmem => ?_
    rw [houtputs, List.mem_singleton] at hmem
    rw [hmem]
    exact ⟨_, mapped_new hunmapped _⟩

/-! ## The member functions -/

/-- An input that was not added yet is not mapped. -/
theorem Rewrites.input_unmapped (h : Rewrites s inputs actions wanted t mapping)
    (hws : s.WellFormed) (hwt : t.WellFormed) {v : ValueId} {value : GraphValue}
    (hfound : s.values[v]? = some value) (hkind : value.kind = .input) (hfresh : v ∉ inputs) :
    mapping[v]? = some none := by
  have hinside : v < mapping.length := by
    rw [h.length]
    exact (List.getElem?_eq_some_iff.1 hfound).1
  rw [List.getElem?_eq_getElem hinside]
  cases hentry : mapping[v] with
  | none => rfl
  | some w =>
    have hmapped : Mapped mapping v w := by
      unfold Mapped
      rw [List.getElem?_eq_getElem hinside, hentry]
    obtain ⟨value', image, hfound', hthere, -, -, hstands⟩ := h.image v w hmapped
    rw [hfound] at hfound'
    cases hfound'
    have hadded (hsame : image.kind = .input) : v ∈ inputs := by
      have hknown := (hwt.inputs_mem w).2 ⟨image, hthere, hsame⟩
      obtain ⟨i, hhere⟩ := List.getElem?_of_mem hknown
      obtain ⟨u, hbefore, hmapped'⟩ := forall₂_right h.inputIds hhere
      rw [h.injective v u w hmapped hmapped']
      exact List.mem_of_getElem? hbefore
    cases hstands with
    | input _ hsame => exact absurd (hadded hsame) hfresh
    | constant hconstant =>
      rw [hkind] at hconstant
      cases hconstant
    | node p op ins attributes hproducer =>
      have := kind_of_producer hws hfound hproducer
      rw [hkind] at this
      cases this
    | folded p tensor hproducer =>
      have := kind_of_producer hws hfound hproducer
      rw [hkind] at this
      cases this

/-- A rewriter that is not finished. -/
structure Open (s : Graph α) (inputs : List ValueId) (actions : List (Action α))
    (wanted : ValueId → Prop) (r : GraphRewriter α) : Prop where
  rewrites : Rewrites s inputs actions wanted r.graph.tables r.valueMapping
  unfinished : r.finished = false
  outputIds : r.graph.tables.outputIds = []

namespace GraphRewriter

variable {r : GraphRewriter α}

theorem mapped_eq_some {v w : ValueId} : r.mapped v = some w ↔ Mapped r.valueMapping v w := by
  unfold GraphRewriter.mapped Mapped
  cases r.valueMapping[v]? with
  | none => simp
  | some entry => simp

theorem mapped_eq_none {v : ValueId} (hunmapped : r.valueMapping[v]? = some none) :
    r.mapped v = none := by
  unfold GraphRewriter.mapped
  rw [hunmapped]
  rfl

theorem onGraph_ok {γ : Type} {f : Lib.Throwing Exn (BuiltGraph α) γ} {c : γ} {graph : BuiltGraph α}
    (h : f r.graph = (.ok c, graph)) : r.onGraph f = .ok (c, { r with graph }) := by
  unfold onGraph
  rw [h]

theorem requireOpen_ok (h : Open s inputs actions wanted r) : r.requireOpen = .ok () :=
  require_ok.2 (by rw [h.unfinished]; rfl)

/-- The inputs are copied in order, by induction on those still to come. -/
theorem addInputs_ok (hwf : s.WellFormed) {rest inputs : List ValueId}
    (hall : inputs ++ rest = s.inputIds) (h : Open s inputs [] wanted r) :
    ∃ r', addInputs s rest r = .ok r' ∧ Open s s.inputIds [] wanted r' := by
  induction rest generalizing inputs r with
  | nil =>
    rw [List.append_nil] at hall
    subst hall
    exact ⟨r, rfl, h⟩
  | cons v rest ih =>
    obtain ⟨value, hfound, hkind⟩ := (hwf.inputs_mem v).1 (by rw [← hall]; simp)
    have hapart : v ∉ inputs := by
      intro hmem
      have hnodup := hwf.inputs_nodup
      rw [← hall] at hnodup
      exact (List.nodup_append.1 hnodup).2.2 v hmem v List.mem_cons_self rfl
    have hunmapped := h.rewrites.input_unmapped hwf r.graph.wf hfound hkind hapart
    obtain ⟨graph, hadded, htables⟩ := r.graph.addInput_ok
      (hwf.names_nonempty value.name
        (List.mem_append_left _ (List.mem_map_of_mem (List.mem_of_getElem? hfound))))
      (h.rewrites.value_fresh hwf hfound hunmapped) (hwf.spec_valid v value hfound)
    have hnext : Open s (inputs ++ [v]) [] wanted
        (({ r with graph } : GraphRewriter α).setMapped v r.graph.tables.values.length) := by
      refine ⟨?_, h.unfinished, ?_⟩
      · show Rewrites s (inputs ++ [v]) [] wanted graph.tables _
        rw [htables]
        exact h.rewrites.pushInput r.graph.wf hfound hkind hunmapped
      · show graph.tables.outputIds = []
        rw [htables]
        exact h.outputIds
    obtain ⟨r', hrun, hdone⟩ := ih (by rw [← hall, List.append_assoc]; rfl) hnext
    exact ⟨r', bind_ok.2 ⟨value, Graph.value_ok.2 hfound, bind_ok.2 ⟨_, onGraph_ok hadded, hrun⟩⟩,
      hdone⟩

/-- The rewriter that has only the inputs. -/
theorem start_ok (source : Model α) (wanted : ValueId → Prop) :
    ∃ r, start source = .ok r ∧
      Open source.graph.tables source.graph.tables.inputIds [] wanted r := by
  refine addInputs_ok source.graph.wf (List.nil_append _) ⟨?_, rfl, rfl⟩
  have hnone {v w : ValueId}
      (hmapped : Mapped (List.replicate source.graph.tables.values.length (none : Option ValueId)) v
        w) :
      False := by
    unfold Mapped at hmapped
    rw [List.getElem?_replicate] at hmapped
    split at hmapped <;> cases hmapped
  constructor
  · constructor
    · exact List.length_replicate
    · simp [List.countP_replicate]
    · exact fun _ _ _ hmapped _ => (hnone hmapped).elim
    · exact fun w hinside => absurd hinside (Nat.not_lt_zero w)
    · exact fun _ _ hmapped => (hnone hmapped).elim
    · exact fun _ _ _ hmapped _ _ => (hnone hmapped).elim
  · exact .nil
  · exact .nil
  · intro p node action _ hacted
    cases hacted

end GraphRewriter

/-- A value that a node of the new graph may read. -/
def Available (s : Graph α) (actions : List (Action α)) (wanted : ValueId → Prop) (v : ValueId) :
    Prop :=
  ∃ value, s.values[v]? = some value ∧ (value.kind = .constant → wanted v) ∧
    ∀ p, value.producer = some p → ∃ action, actions[p]? = some action ∧ action.keeps = true

/-- An available value is mapped, unless it is a constant. -/
theorem Rewrites.mapped_or_constant (hws : s.WellFormed)
    (h : Rewrites s s.inputIds actions wanted t mapping) {v : ValueId}
    (havailable : Available s actions wanted v) :
    (∃ w, Mapped mapping v w) ∨ ∃ value, s.values[v]? = some value ∧ value.kind = .constant := by
  obtain ⟨value, hfound, -, hkept⟩ := havailable
  have hmetadata := hws.metadata v value hfound
  unfold Graph.MetadataOk at hmetadata
  cases hkind : value.kind with
  | input =>
    obtain ⟨i, hhere⟩ := List.getElem?_of_mem ((hws.inputs_mem v).2 ⟨value, hfound, hkind⟩)
    obtain ⟨w, -, hmapped⟩ := forall₂_left h.inputIds hhere
    exact .inl ⟨w, hmapped⟩
  | constant => exact .inr ⟨value, hfound, hkind⟩
  | intermediate =>
    rw [hkind] at hmetadata
    obtain ⟨-, p, node, hproducer, hthere, houtputs⟩ := hmetadata
    obtain ⟨action, hacted, hkeeps⟩ := hkept p hproducer
    exact .inl (h.produced p node action hthere hacted hkeeps v
      (by rw [houtputs]; exact List.mem_singleton_self v))

/-- `r'` maps what `r` maps. -/
def Grows (r r' : GraphRewriter α) : Prop :=
  ∀ v w, Mapped r.valueMapping v w → Mapped r'.valueMapping v w

theorem Grows.refl (r : GraphRewriter α) : Grows r r := fun _ _ hmapped => hmapped

theorem Grows.trans {r r' r'' : GraphRewriter α} (h : Grows r r') (h' : Grows r' r'') :
    Grows r r'' := fun v w hmapped => h' v w (h v w hmapped)

theorem grows_setMapped {r : GraphRewriter α} {v : ValueId} (graph : BuiltGraph α)
    (hunmapped : r.valueMapping[v]? = some none) (w : ValueId) :
    Grows r (({ r with graph } : GraphRewriter α).setMapped v w) := mapped_old hunmapped

/-- The entry of a value that is not mapped. -/
theorem Rewrites.entry_eq (h : Rewrites s inputs actions wanted t mapping) {v : ValueId}
    {value : GraphValue} (hfound : s.values[v]? = some value) (hnone : (mapping[v]?).join = none) :
    mapping[v]? = some none := by
  have hinside : v < mapping.length := by
    rw [h.length]
    exact (List.getElem?_eq_some_iff.1 hfound).1
  rw [List.getElem?_eq_getElem hinside] at hnone ⊢
  exact congrArg some hnone

namespace GraphRewriter

variable {r : GraphRewriter α} {source : Model α}

/-- A new constant, for a value of the source that is not mapped. -/
theorem onGraph_addConstant (hwf : s.WellFormed) (h : Open s inputs actions wanted r) {v : ValueId}
    {value : GraphValue} (hfound : s.values[v]? = some value)
    (hunmapped : r.valueMapping[v]? = some none) (tensor : Tensor α) :
    ∃ graph, r.onGraph (BuiltGraph.addConstant value.name tensor) =
        .ok (r.graph.tables.values.length, { r with graph }) ∧
      graph.tables = r.graph.tables.pushConstant value.name tensor := by
  obtain ⟨graph, hadded, htables⟩ := r.graph.addConstant_ok tensor
    (hwf.names_nonempty value.name
      (List.mem_append_left _ (List.mem_map_of_mem (List.mem_of_getElem? hfound))))
    (h.rewrites.value_fresh hwf hfound hunmapped)
  exact ⟨graph, onGraph_ok hadded, htables⟩

/-- An available value is copied at most once and has an image. -/
theorem copyValue_ok
    (h : Open source.graph.tables source.graph.tables.inputIds actions wanted r) {v : ValueId}
    (havailable : Available source.graph.tables actions wanted v) :
    ∃ w r', r.copyValue source v = .ok (w, r') ∧
      Open source.graph.tables source.graph.tables.inputIds actions wanted r' ∧
      Mapped r'.valueMapping v w ∧ Grows r r' := by
  have hwf := source.graph.wf
  have hkinds := h.rewrites.mapped_or_constant hwf havailable
  obtain ⟨value, hfound, hasked, -⟩ := havailable
  have hopened := requireOpen_ok h
  cases hentry : r.mapped v with
  | some w =>
    refine ⟨w, r, ?_, h, mapped_eq_some.1 hentry, Grows.refl r⟩
    unfold copyValue
    rw [check_ok]
    refine ⟨hopened, bind_ok.2 ⟨value, Graph.value_ok.2 hfound, ?_⟩⟩
    rw [hentry]
  | none =>
    have hunmapped := h.rewrites.entry_eq hfound hentry
    obtain ⟨w, hmapped⟩ | ⟨value', hfound', hkind⟩ := hkinds
    · rw [mapped_eq_some.2 hmapped] at hentry
      cases hentry
    rw [hfound] at hfound'
    cases hfound'
    have hmetadata := hwf.metadata v value hfound
    unfold Graph.MetadataOk at hmetadata
    rw [hkind] at hmetadata
    obtain ⟨-, tensor, hconstant, hspec⟩ := hmetadata
    obtain ⟨graph, hadded, htables⟩ := onGraph_addConstant hwf h hfound hunmapped tensor
    refine ⟨r.graph.tables.values.length,
      ({ r with graph } : GraphRewriter α).setMapped v r.graph.tables.values.length, ?_,
      ⟨?_, h.unfinished, ?_⟩, mapped_new hunmapped _, grows_setMapped graph hunmapped _⟩
    · unfold copyValue
      rw [check_ok]
      refine ⟨hopened, bind_ok.2 ⟨value, Graph.value_ok.2 hfound, ?_⟩⟩
      rw [hentry]
      unfold copyUnmapped
      rw [hkind]
      refine bind_ok.2 ⟨tensor, ?_, bind_ok.2 ⟨_, hadded, rfl⟩⟩
      unfold Graph.constant
      rw [hconstant]
      exact bind_ok.2 ⟨value, Graph.value_ok.2 hfound, rfl⟩
    · show Rewrites _ _ _ _ graph.tables _
      rw [htables]
      exact h.rewrites.pushConstant r.graph.wf hfound hkind hconstant hspec (hasked hkind) hunmapped
    · show graph.tables.outputIds = []
      rw [htables]
      exact h.outputIds

/-- Available values all get images, by induction on the list. -/
theorem copyValues_ok {ids : List ValueId}
    (h : Open source.graph.tables source.graph.tables.inputIds actions wanted r)
    (havailable : ∀ v ∈ ids, Available source.graph.tables actions wanted v) :
    ∃ images r', r.copyValues source ids = .ok (images, r') ∧
      Open source.graph.tables source.graph.tables.inputIds actions wanted r' ∧
      List.Forall₂ (Mapped r'.valueMapping) ids images ∧ Grows r r' := by
  induction ids generalizing r with
  | nil => exact ⟨[], r, rfl, h, .nil, Grows.refl r⟩
  | cons id ids ih =>
    obtain ⟨hhead, htail⟩ := List.forall_mem_cons.1 havailable
    obtain ⟨w, r₁, hcopied, h₁, hmapped, hgrows₁⟩ := copyValue_ok h hhead
    obtain ⟨images, r₂, hrest, h₂, hall, hgrows₂⟩ := ih h₁ htail
    exact ⟨w :: images, r₂, bind_ok.2 ⟨_, hcopied, bind_ok.2 ⟨_, hrest, rfl⟩⟩, h₂,
      .cons (hgrows₂ id w hmapped) hall, hgrows₁.trans hgrows₂⟩

/-- The values a node does not bring along are copied. -/
theorem copyMissing_ok {ids : List ValueId}
    (h : Open source.graph.tables source.graph.tables.inputIds actions wanted r)
    (havailable : ∀ v ∈ ids, Available source.graph.tables actions wanted v) :
    ∃ r', r.copyMissing source ids = .ok r' ∧
      Open source.graph.tables source.graph.tables.inputIds actions wanted r' ∧
      (∀ v ∈ ids, ∃ w, Mapped r'.valueMapping v w) ∧ Grows r r' := by
  induction ids generalizing r with
  | nil => exact ⟨r, rfl, h, fun _ hmem => (by cases hmem), Grows.refl r⟩
  | cons id ids ih =>
    obtain ⟨hhead, htail⟩ := List.forall_mem_cons.1 havailable
    unfold copyMissing
    cases hentry : r.mapped id with
    | none =>
      obtain ⟨w, r₁, hcopied, h₁, hmapped, hgrows₁⟩ := copyValue_ok h hhead
      obtain ⟨r₂, hrest, h₂, hall, hgrows₂⟩ := ih h₁ htail
      exact ⟨r₂, bind_ok.2 ⟨_, hcopied, hrest⟩, h₂,
        List.forall_mem_cons.2 ⟨⟨w, hgrows₂ id w hmapped⟩, hall⟩, hgrows₁.trans hgrows₂⟩
    | some w =>
      obtain ⟨r₂, hrest, h₂, hall, hgrows₂⟩ := ih h htail
      exact ⟨r₂, hrest, h₂,
        List.forall_mem_cons.2 ⟨⟨w, hgrows₂ id w (mapped_eq_some.1 hentry)⟩, hall⟩, hgrows₂⟩

end GraphRewriter

/-- The specs of these values. -/
def Specs (g : Graph α) : List ValueId → List TensorSpec → Prop :=
  List.Forall₂ fun id spec => (g.values[id]?).map (·.spec) = some spec

/-- The images have the specs of the values they stand for. -/
theorem Maps.specs (h : Maps s actions wanted t mapping) {ids images : List ValueId}
    {specs : List TensorSpec} (hall : List.Forall₂ (Mapped mapping) ids images)
    (hknown : Specs s ids specs) : Specs t images specs := by
  induction hall generalizing specs with
  | nil =>
    cases hknown
    exact .nil
  | cons hmapped _ ih =>
    cases hknown with
    | cons hhead htail =>
      refine .cons ?_ (ih htail)
      obtain ⟨value, image, hfound, hthere, -, hspec, -⟩ := h.image _ _ hmapped
      rw [hfound] at hhead
      rw [hthere, Option.map_some, hspec]
      exact hhead

/-- An operator and its operands give the output of a node its spec. -/
def Infers (s : Graph α) (node : Node) (op : OpType) (ids : List ValueId)
    (attributes : NodeAttributes) : Prop :=
  ∃ out value specs, node.outputs = [out] ∧ s.values[out]? = some value ∧ Specs s ids specs ∧
    inferOutputSpecs op specs attributes = .ok [value.spec]

namespace GraphRewriter

variable {r : GraphRewriter α} {source : Model α}

/-- A new node, in place of one of the source. -/
theorem onGraph_addNode (hwf : s.WellFormed) (h : Open s inputs actions wanted r) {node : Node}
    {out : ValueId} {value : GraphValue} {op : OpType} {ids images : List ValueId}
    {attributes : NodeAttributes} {specs : List TensorSpec}
    (hfound : s.nodes[actions.length]? = some node) (hthere : s.values[out]? = some value)
    (hname : value.name = Graph.outputName node.name 0)
    (hall : List.Forall₂ (Mapped r.valueMapping) ids images) (hknown : Specs s ids specs)
    (hinferred : inferOutputSpecs op specs attributes = .ok [value.spec])
    (hunmapped : r.valueMapping[out]? = some none) :
    ∃ graph, r.onGraph (BuiltGraph.addNode node.name op images attributes) =
        .ok (r.graph.tables.nodes.length, { r with graph }) ∧
      graph.tables = r.graph.tables.pushNode node.name op images attributes [value.spec] := by
  have haccepted : r.graph.tables.NodeAccepted node.name op images attributes value.spec := by
    constructor
    · exact hwf.names_nonempty node.name
        (List.mem_append_right _ (List.mem_map_of_mem (List.mem_of_getElem? hfound)))
    · exact h.rewrites.node_fresh hwf hfound (Nat.le_refl _)
    · rw [← hname]
      exact h.rewrites.value_fresh hwf hthere hunmapped
    · exact hwf.spec_valid out value hthere
    · exact ⟨specs, h.rewrites.specs hall hknown, hinferred⟩
  refine ⟨⟨_, r.graph.wf.pushNode haccepted⟩, onGraph_ok ?_, rfl⟩
  exact BuiltGraph.addNode_ok.2 ⟨value.spec, haccepted, rfl, rfl⟩

/-- A node is emitted with mapped operands. -/
theorem replaceNode_ok
    (h : Open source.graph.tables source.graph.tables.inputIds actions wanted r) {node : Node}
    {op : OpType} {ids : List ValueId} {attributes : NodeAttributes}
    (hfound : source.graph.tables.nodes[actions.length]? = some node)
    (havailable : ∀ v ∈ ids, Available source.graph.tables actions wanted v)
    (hinfers : Infers source.graph.tables node op ids attributes) :
    ∃ q r', r.replaceNode source actions.length op ids attributes = .ok (q, r') ∧
      Open source.graph.tables source.graph.tables.inputIds
        (actions ++ [.emit op ids attributes]) wanted r' := by
  have hwf := source.graph.wf
  have hnodeOk := hwf.node actions.length node hfound
  obtain ⟨out, value, -, houtputs, hthere, hkind, hproducer, -⟩ := hnodeOk.output
  obtain ⟨out', value', specs, houtputs', hthere', hknown, hinferred⟩ := hinfers
  have hsame : out' = out := by simpa using houtputs'.symm.trans houtputs
  rw [hsame, hthere] at hthere'
  cases hthere'
  -- neither the inputs nor the new node map the output yet
  have hunmapped := h.rewrites.unmapped hwf hthere hproducer (Nat.le_refl _)
  obtain ⟨images, r₁, hcopied, h₁, hall, -⟩ := copyValues_ok h havailable
  have hunmapped₁ := h₁.rewrites.unmapped hwf hthere hproducer (Nat.le_refl _)
  obtain ⟨graph, hadded, htables⟩ := onGraph_addNode hwf h₁ hfound hthere
    (hnodeOk.named out value houtputs hthere) hall hknown hinferred hunmapped₁
  refine ⟨r₁.graph.tables.nodes.length,
    ({ r₁ with graph } : GraphRewriter α).setMapped out r₁.graph.tables.values.length, ?_,
    ⟨?_, h₁.unfinished, ?_⟩⟩
  -- the rewriter finds the node and the copy it added
  · unfold replaceNode
    have himage : graph.tables.node r₁.graph.tables.nodes.length =
        .ok (r₁.graph.tables.newNode node.name op images attributes) := by
      have hlast : graph.tables.nodes[r₁.graph.tables.nodes.length]? =
          some (r₁.graph.tables.newNode node.name op images attributes) := by
        rw [htables, Graph.pushNode_eq]
        exact Graph.getElem?_snoc.2 (.inr ⟨rfl, rfl⟩)
      unfold Graph.node
      rw [hlast]
    have hnode_eq : source.graph.tables.node actions.length = .ok node := by
      unfold Graph.node
      rw [hfound]
    refine check_ok.2 ⟨requireOpen_ok h, bind_ok.2 ⟨node, hnode_eq, check_ok.2 ⟨require_ok.2 ?_,
      bind_ok.2 ⟨_, hcopied, bind_ok.2 ⟨_, hadded, bind_ok.2 ⟨_, himage,
        check_ok.2 ⟨require_ok.2 ?_, ?_⟩⟩⟩⟩⟩⟩⟩
    · rw [houtputs, List.all_cons, List.all_nil, mapped_eq_none hunmapped]
      rfl
    · rw [houtputs]
      rfl
    · rw [houtputs]
      -- The node has one output, whose spec shape inference gives again.
      have hlast : graph.tables.values[r₁.graph.tables.values.length]? =
          some ⟨r₁.graph.tables.values.length, Graph.outputName node.name 0, value.spec,
            .intermediate, some r₁.graph.tables.nodes.length⟩ := by
        rw [htables, Graph.pushNode_eq]
        exact Graph.getElem?_snoc.2 (.inr ⟨rfl, rfl⟩)
      refine bind_ok.2 ⟨_, ?_, rfl⟩
      exact bind_ok.2 ⟨_, Graph.value_ok.2 hlast, bind_ok.2 ⟨value, Graph.value_ok.2 hthere,
        check_ok.2 ⟨require_ok.2 (by simp), rfl⟩⟩⟩
  -- the tables grew by one node and its output
  · show Rewrites _ _ _ _ graph.tables _
    rw [htables]
    exact h₁.rewrites.pushNode hfound houtputs hthere hproducer hkind
      (hnodeOk.named out value houtputs hthere) r₁.graph.wf hall hunmapped₁
  · show graph.tables.outputIds = []
    rw [htables]
    exact h₁.outputIds

/-- A node may be copied when the nodes it depends on are kept. -/
theorem copyNode_ok
    (h : Open source.graph.tables source.graph.tables.inputIds actions wanted r) {node : Node}
    (hfound : source.graph.tables.nodes[actions.length]? = some node)
    (havailable : ∀ v ∈ node.inputs, Available source.graph.tables actions wanted v) :
    ∃ q r', r.copyNode source actions.length = .ok (q, r') ∧
      Open source.graph.tables source.graph.tables.inputIds
        (actions ++ [.emit node.op node.inputs node.attributes]) wanted r' := by
  obtain ⟨out, value, specs, houtputs, hthere, -, -, hknown, hinferred, -⟩ :=
    (source.graph.wf.node actions.length node hfound).output
  obtain ⟨q, r', hrun, hdone⟩ := replaceNode_ok h hfound havailable
    ⟨out, value, specs, houtputs, hthere, hknown, hinferred⟩
  refine ⟨q, r', bind_ok.2 ⟨node, ?_, hrun⟩, hdone⟩
  unfold Graph.node
  rw [hfound]

/-- A node is replaced by the constant it computes. -/
theorem replaceWithConstant_ok
    (h : Open source.graph.tables source.graph.tables.inputIds actions wanted r) {node : Node}
    {out : ValueId} {value : GraphValue} {tensor : Tensor α}
    (hfound : source.graph.tables.nodes[actions.length]? = some node)
    (houtputs : node.outputs = [out]) (hthere : source.graph.tables.values[out]? = some value)
    (hspec : tensor.spec = value.spec) :
    ∃ w r', r.replaceWithConstant source out tensor = .ok (w, r') ∧
      Open source.graph.tables source.graph.tables.inputIds
        (actions ++ [.fold tensor]) wanted r' := by
  have hwf := source.graph.wf
  obtain ⟨out', value', -, houtputs', hthere', hkind, hproducer, -⟩ :=
    (hwf.node actions.length node hfound).output
  have hsame : out' = out := by simpa using houtputs'.symm.trans houtputs
  rw [hsame, hthere] at hthere'
  cases hthere'
  have hunmapped := h.rewrites.unmapped hwf hthere hproducer (Nat.le_refl _)
  obtain ⟨graph, hadded, htables⟩ := onGraph_addConstant hwf h hthere hunmapped tensor
  refine ⟨r.graph.tables.values.length,
    ({ r with graph } : GraphRewriter α).setMapped out r.graph.tables.values.length, ?_,
    ⟨?_, h.unfinished, ?_⟩⟩
  · refine check_ok.2 ⟨requireOpen_ok h, bind_ok.2 ⟨value, Graph.value_ok.2 hthere,
      check_ok.2 ⟨require_ok.2 ?_, check_ok.2 ⟨require_ok.2 ?_, bind_ok.2 ⟨_, hadded, rfl⟩⟩⟩⟩⟩
    · rw [mapped_eq_none hunmapped]
      rfl
    · simpa using hspec
  · show Rewrites _ _ _ _ graph.tables _
    rw [htables]
    exact h.rewrites.fold r.graph.wf hfound houtputs hthere hproducer hkind hspec hunmapped
  · show graph.tables.outputIds = []
    rw [htables]
    exact h.outputIds

end GraphRewriter

/-! ## The model -/

/-- A named value of the new model, for one of the source. -/
def NamedImage (mapping : List (Option ValueId)) (a b : String × ValueId) : Prop :=
  a.1 = b.1 ∧ Mapped mapping a.2 b.2

/-- What a pass knows of the model it returns. -/
structure Rewritten (source target : Model α) (actions : List (Action α)) (wanted : ValueId → Prop)
    (mapping : List (Option ValueId)) : Prop where
  rewrites : Rewrites source.graph.tables source.graph.tables.inputIds actions wanted
    target.graph.tables mapping
  complete : actions.length = source.graph.tables.nodes.length
  inputs : List.Forall₂ (NamedImage mapping) source.inputs target.inputs
  outputs : List.Forall₂ (NamedImage mapping) source.outputs target.outputs
  outputIds : target.graph.tables.outputIds = target.outputs.map (·.2)

/-- Marking outputs changes neither the values nor the nodes. -/
theorem Rewrites.mark (h : Rewrites s inputs actions wanted t mapping) (hwf : t.WellFormed)
    (outputIds : List ValueId) : Rewrites s inputs actions wanted { t with outputIds } mapping := by
  constructor
  · refine ⟨h.length, h.count, h.injective, h.surjective, fun v w hmapped => ?_, h.constants⟩
    obtain ⟨value, image, hfound, hthere, hname, hspec, hstands⟩ := h.image v w hmapped
    refine ⟨value, image, hfound, hthere, hname, hspec,
      hstands.mono ?_ (List.prefix_refl actions) ?_⟩
    · rw [hwf.constants_length]
      exact h.lt hmapped
    · exact ⟨fun _ _ hfound => hfound, fun _ _ hfound => hfound, fun _ _ hfound => hfound⟩
  · exact h.inputIds
  · exact h.nodes
  · exact h.produced

theorem nodup_images {as bs : List (String × ValueId)}
    (hinjective : ∀ v v' w, Mapped mapping v w → Mapped mapping v' w → v = v')
    (hall : List.Forall₂ (NamedImage mapping) as bs) (hnodup : (as.map (·.2)).Nodup) :
    (bs.map (·.2)).Nodup := by
  induction hall with
  | nil => exact List.nodup_nil
  | cons hhead htail ih =>
    obtain ⟨hfresh, hrest⟩ := List.nodup_cons.1 hnodup
    refine List.nodup_cons.2 ⟨fun hmem => hfresh ?_, ih hrest⟩
    obtain ⟨b, hknown, hsame⟩ := List.mem_map.1 hmem
    obtain ⟨i, hhere⟩ := List.getElem?_of_mem hknown
    obtain ⟨a, hthere, -, hmapped⟩ := forall₂_right htail hhere
    have hmapped : Mapped mapping a.2 b.2 := hmapped
    rw [hsame] at hmapped
    exact List.mem_map.2 ⟨a, List.mem_of_getElem? hthere, hinjective _ _ _ hmapped hhead.2⟩

theorem names_images {as bs : List (String × ValueId)}
    (hall : List.Forall₂ (NamedImage mapping) as bs) :
    bs.map (·.1) = as.map (·.1) := by
  induction hall with
  | nil => rfl
  | cons hhead _ ih => rw [List.map_cons, List.map_cons, ih, hhead.1]

namespace GraphRewriter

variable {r : GraphRewriter α} {source : Model α}

theorem finishInputs_ok {named : List (String × ValueId)}
    (hmapped : ∀ input ∈ named, ∃ w, Mapped r.valueMapping input.2 w) :
    ∃ images, r.finishInputs named = .ok images ∧
      List.Forall₂ (NamedImage r.valueMapping) named images := by
  induction named with
  | nil => exact ⟨[], rfl, .nil⟩
  | cons input named ih =>
    obtain ⟨⟨w, hhead⟩, htail⟩ := List.forall_mem_cons.1 hmapped
    obtain ⟨images, hrun, hall⟩ := ih htail
    refine ⟨(input.1, w) :: images, ?_, .cons ⟨rfl, hhead⟩ hall⟩
    unfold finishInputs
    rw [mapped_eq_some.2 hhead]
    exact bind_ok.2 ⟨images, hrun, rfl⟩

/-- The signature's outputs are marked and mapped entry by entry. -/
theorem finishOutputs_ok {named : List (String × ValueId)}
    (hmapped : ∀ output ∈ named, ∃ w, Mapped r.valueMapping output.2 w)
    (hnodup : (named.map (·.2)).Nodup)
    (hinside : ∀ v w, Mapped r.valueMapping v w → w < r.graph.tables.values.length)
    (hinjective : ∀ v v' w, Mapped r.valueMapping v w → Mapped r.valueMapping v' w → v = v')
    (hfresh : ∀ output ∈ named, ∀ w, Mapped r.valueMapping output.2 w →
      w ∉ r.graph.tables.outputIds) :
    ∃ images r', finishOutputs named r = .ok (images, r') ∧
      List.Forall₂ (NamedImage r.valueMapping) named images ∧
      r'.graph.tables = { r.graph.tables with
        outputIds := r.graph.tables.outputIds ++ images.map (·.2) } := by
  induction named generalizing r with
  | nil => exact ⟨[], r, rfl, .nil, by rw [List.map_nil, List.append_nil]⟩
  | cons output named ih =>
    obtain ⟨⟨w, hhead⟩, htail⟩ := List.forall_mem_cons.1 hmapped
    obtain ⟨hapart, hrest⟩ := List.nodup_cons.1 hnodup
    obtain ⟨graph, hmarked, htables⟩ := r.graph.markOutput_ok (hinside output.2 w hhead)
      (hfresh output List.mem_cons_self w hhead)
    obtain ⟨images, r', hrun, hall, hfinal⟩ := ih (r := { r with graph }) htail hrest
      (fun v x hknown => by
        show x < graph.tables.values.length
        rw [htables]
        exact hinside v x hknown)
      hinjective
      (fun other hmem x hknown => by
        show x ∉ graph.tables.outputIds
        rw [htables, List.mem_append, List.mem_singleton]
        rintro (hagain | rfl)
        · exact hfresh other (List.mem_cons_of_mem output hmem) x hknown hagain
        · exact hapart (List.mem_map.2 ⟨other, hmem, hinjective _ _ _ hknown hhead⟩))
    refine ⟨(output.1, w) :: images, r', ?_, .cons ⟨rfl, hhead⟩ hall, ?_⟩
    · unfold finishOutputs
      rw [mapped_eq_some.2 hhead]
      exact bind_ok.2 ⟨_, onGraph_ok hmarked, bind_ok.2 ⟨_, hrun, rfl⟩⟩
    · rw [hfinal]
      show ({ graph.tables with outputIds := graph.tables.outputIds ++ _ } : Graph α) = _
      rw [htables, List.map_cons, List.append_assoc]
      rfl

/-- Once every node is processed, `finish` returns the rewritten model. -/
theorem finish_ok
    (h : Open source.graph.tables source.graph.tables.inputIds actions wanted r)
    (hcomplete : actions.length = source.graph.tables.nodes.length)
    (houtputs : ∀ v ∈ source.graph.tables.outputIds, ∃ w, Mapped r.valueMapping v w) :
    ∃ target, r.finish source = .ok target ∧
      Rewritten source target actions wanted r.valueMapping := by
  have hbound := source.bound
  have hwf := source.graph.wf
  -- every input and output of the source has an image
  have hmappedInputs : ∀ input ∈ source.inputs, ∃ w, Mapped r.valueMapping input.2 w := by
    intro input hmem
    obtain ⟨value, hfound, hkind⟩ := hbound.inputs_kind input hmem
    obtain ⟨i, hhere⟩ := List.getElem?_of_mem ((hwf.inputs_mem input.2).2 ⟨value, hfound, hkind⟩)
    obtain ⟨w, -, hmapped⟩ := forall₂_left h.rewrites.inputIds hhere
    exact ⟨w, hmapped⟩
  have hmappedOutputs : ∀ output ∈ source.outputs, ∃ w, Mapped r.valueMapping output.2 w :=
    fun output hmem => houtputs output.2 (hbound.outputs_mem output hmem)
  obtain ⟨images, hfinished, hins⟩ := finishInputs_ok hmappedInputs
  obtain ⟨marked, r', hrun, houts, htables⟩ := finishOutputs_ok hmappedOutputs hbound.outputs_nodup
    (fun v w hmapped => h.rewrites.lt hmapped) h.rewrites.injective
    (fun _ _ _ _ => by rw [h.outputIds]; exact List.not_mem_nil)
  rw [h.outputIds, List.nil_append] at htables
  -- marking the outputs keeps what was rewritten
  have hrewrites : Rewrites source.graph.tables source.graph.tables.inputIds actions wanted
      r'.graph.tables r.valueMapping := by
    rw [htables]
    exact h.rewrites.mark r.graph.wf _
  have houtputIds : r'.graph.tables.outputIds = marked.map (·.2) := by rw [htables]
  -- the new model passes its own check, field by field
  have hpassed : Model.check r'.graph.tables images marked = .ok () := by
    refine (Model.check_iff r'.graph.wf).2 ⟨?_, ?_, ?_, ?_, ?_, ?_, ?_, ?_, ?_⟩
    · rw [houtputIds, ne_eq, List.map_eq_nil_iff, ← List.length_eq_zero_iff, ← houts.length_eq,
        hbound.outputs_length, List.length_eq_zero_iff]
      exact hbound.outputs_ne
    · refine ⟨fun input hmem => ?_, ?_⟩
      · have hknown : input.1 ∈ source.inputs.map (·.1) := by
          rw [← names_images hins]
          exact List.mem_map_of_mem hmem
        obtain ⟨other, hthere, hsame⟩ := List.mem_map.1 hknown
        rw [← hsame]
        exact hbound.input_names.1 other hthere
      · rw [names_images hins]
        exact hbound.input_names.2
    · refine ⟨fun output hmem => ?_, ?_⟩
      · have hknown : output.1 ∈ source.outputs.map (·.1) := by
          rw [← names_images houts]
          exact List.mem_map_of_mem hmem
        obtain ⟨other, hthere, hsame⟩ := List.mem_map.1 hknown
        rw [← hsame]
        exact hbound.output_names.1 other hthere
      · rw [names_images houts]
        exact hbound.output_names.2
    · rw [← hins.length_eq, hbound.inputs_length, hrewrites.inputIds.length_eq]
    · rw [houtputIds, List.length_map]
    · intro image hmem
      obtain ⟨i, hhere⟩ := List.getElem?_of_mem hmem
      obtain ⟨input, hthere, -, hmapped⟩ := forall₂_right hins hhere
      obtain ⟨value, hfound, hkind⟩ := hbound.inputs_kind input (List.mem_of_getElem? hthere)
      obtain ⟨i, hknown⟩ := List.getElem?_of_mem ((hwf.inputs_mem input.2).2 ⟨value, hfound, hkind⟩)
      obtain ⟨w, hadded, hmapped'⟩ := forall₂_left hrewrites.inputIds hknown
      rw [hmapped.unique hmapped']
      exact (r'.graph.wf.inputs_mem w).1 (List.mem_of_getElem? hadded)
    · exact nodup_images h.rewrites.injective hins hbound.inputs_nodup
    · intro output hmem
      rw [houtputIds]
      exact List.mem_map_of_mem hmem
    · exact nodup_images h.rewrites.injective houts hbound.outputs_nodup
  refine ⟨⟨r'.graph, images, marked, hpassed⟩, ?_, hrewrites, hcomplete, hins, houts, houtputIds⟩
  refine check_ok.2 ⟨require_ok.2 (by rw [h.unfinished]; rfl), bind_ok.2 ⟨images, hfinished,
    bind_ok.2 ⟨_, hrun, Model.make_ok hpassed⟩⟩⟩

end GraphRewriter

/-! ## Rewrites without folds -/

/-- The constant of the table belongs to a constant. -/
theorem kind_of_constant {g : Graph α} (hwf : g.WellFormed) {v : ValueId} {tensor : Tensor α}
    (hconstant : g.constants[v]? = some (some tensor)) :
    ∃ value, g.values[v]? = some value ∧ value.kind = .constant := by
  have hinside : v < g.values.length := by
    rw [← hwf.constants_length]
    exact (List.getElem?_eq_some_iff.1 hconstant).1
  refine ⟨_, List.getElem?_eq_getElem hinside, ?_⟩
  have hmetadata := hwf.metadata v _ (List.getElem?_eq_getElem hinside)
  unfold Graph.MetadataOk at hmetadata
  cases hkind : g.values[v].kind with
  | input =>
    rw [hkind, hconstant] at hmetadata
    cases hmetadata.2
  | constant => rfl
  | intermediate =>
    rw [hkind, hconstant] at hmetadata
    cases hmetadata.1

/-- Where nothing is folded a value keeps its kind, and a constant its tensor. -/
theorem Maps.copied (h : Maps s actions wanted t mapping) (hwf : s.WellFormed)
    (hnone : ∀ (p : NodeId) (tensor : Tensor α), actions[p]? ≠ some (.fold tensor)) {v w : ValueId}
    (hmapped : Mapped mapping v w) :
    ∃ value image, s.values[v]? = some value ∧ t.values[w]? = some image ∧
      image.kind = value.kind ∧ image.name = value.name ∧ image.spec = value.spec ∧
      (value.kind = .constant → t.constants[w]? = s.constants[v]?) := by
  obtain ⟨value, image, hfound, hthere, hname, hspec, hstands⟩ := h.image v w hmapped
  refine ⟨value, image, hfound, hthere, ?_, hname, hspec, fun hconstant => ?_⟩
  · cases hstands with
    | input hkind hsame => rw [hkind, hsame]
    | constant hkind hsame => rw [hkind, hsame]
    | node p op inputs attributes hproducer haction hsame =>
      rw [hsame, kind_of_producer hwf hfound hproducer]
    | folded p tensor hproducer haction => exact absurd haction (hnone p tensor)
  · cases hstands with
    | input hkind =>
      rw [hconstant] at hkind
      cases hkind
    | constant _ _ htensor => exact htensor
    | node p op inputs attributes hproducer =>
      have := kind_of_producer hwf hfound hproducer
      rw [hconstant] at this
      cases this
    | folded p tensor hproducer haction => exact absurd haction (hnone p tensor)

/-! ## The loop over the nodes -/

/-- A loop over `0, …, n - 1` whose rounds return and keep an invariant. -/
theorem foldlM_range_ok {σ : Type} {f : σ → Nat → Except Exn σ} {P : Nat → σ → Prop}
    {n : Nat} {a : σ} (hstart : P 0 a) (hstep : ∀ k < n, ∀ a, P k a → ∃ b, f a k = .ok b ∧
      P (k + 1) b) :
    ∃ b, (List.range n).foldlM f a = .ok b ∧ P n b := by
  induction n with
  | zero => exact ⟨a, rfl, hstart⟩
  | succ n ih =>
    obtain ⟨b, hrun, hholds⟩ := ih fun k hless => hstep k (Nat.lt_succ_of_lt hless)
    obtain ⟨c, hlast, hholds⟩ := hstep n (Nat.lt_succ_self n) b hholds
    refine ⟨c, ?_, hholds⟩
    rw [List.range_succ, List.foldlM_append, hrun]
    exact bind_ok.2 ⟨b, rfl, bind_ok.2 ⟨c, hlast, rfl⟩⟩

/-- The actions are those that `act` says. -/
def Follows (s : Graph α) (act : NodeId → Node → Action α) (actions : List (Action α)) : Prop :=
  ∀ (p : NodeId) (node : Node), p < actions.length → s.nodes[p]? = some node →
    actions[p]? = some (act p node)

theorem Follows.concat {act : NodeId → Node → Action α} (h : Follows s act actions) {node : Node}
    (hfound : s.nodes[actions.length]? = some node) :
    Follows s act (actions ++ [act actions.length node]) := by
  intro p other hinside hthere
  rw [List.length_append, List.length_singleton] at hinside
  rcases Nat.lt_succ_iff_lt_or_eq.1 hinside with hold | rfl
  · exact Graph.getElem?_append_of_some (h p other hold hthere)
  · rw [hfound] at hthere
    cases hthere
    exact Graph.getElem?_snoc.2 (.inr ⟨rfl, rfl⟩)

end TinyInfer.Optimizer
