import TinyInfer.Optimizer.GraphRewriter

/-!
# The graph under construction in a rewrite

A pass decides for every node of the source, in order, what becomes of it (`Action`).
`Rewrites` says what the new graph and the mapping are after the actions of some of the
nodes; each member function of the rewriter that a pass calls keeps it.

Main definitions: `Action`, `Mapped`, `ValueImage`, `NodeImage`, `Rewrites`.
-/

namespace TinyInfer.Optimizer

variable {α : Type}

/-- What becomes of a node. -/
inductive Action (α : Type) where
  | remove
  /-- A node with the name of the old one. -/
  | emit (op : OpType) (inputs : List ValueId) (attributes : NodeAttributes)
  /-- A constant in place of the output. -/
  | fold (tensor : Tensor α)

namespace Action

def emits : Action α → Bool
  | .emit _ _ _ => true
  | _ => false

/-- The output of the node has a value in the new graph. -/
def keeps : Action α → Bool
  | .remove => false
  | _ => true

end Action

/-- The nodes that have a node in the new graph. -/
def emitted (actions : List (Action α)) : List NodeId :=
  (List.range actions.length).filter fun p => (actions[p]?).any Action.emits

/-- The emitted nodes are those whose action emits. -/
theorem mem_emitted {actions : List (Action α)} {p : NodeId} :
    p ∈ emitted actions ↔ ∃ op inputs attributes, actions[p]? = some
      (.emit op inputs attributes) := by
  unfold emitted
  rw [List.mem_filter, List.mem_range]
  constructor
  · rintro ⟨hinside, hemits⟩
    rw [List.getElem?_eq_getElem hinside] at hemits ⊢
    cases haction : actions[p] with
    | remove => rw [haction] at hemits; cases hemits
    | emit op inputs attributes => exact ⟨op, inputs, attributes, rfl⟩
    | fold tensor => rw [haction] at hemits; cases hemits
  · rintro ⟨op, inputs, attributes, haction⟩
    exact ⟨(List.getElem?_eq_some_iff.1 haction).1, by rw [haction]; rfl⟩

/-- One more action adds its node iff it emits. -/
theorem emitted_concat (actions : List (Action α)) (action : Action α) :
    emitted (actions ++ [action]) =
      emitted actions ++ if action.emits then [actions.length] else [] := by
  unfold emitted
  rw [List.length_append, List.length_singleton, List.range_succ, List.filter_append]
  congr 1
  · refine List.filter_congr fun p hmem => ?_
    rw [List.getElem?_append_left (List.mem_range.1 hmem)]
  · cases action <;> simp [Action.emits]

theorem emitted_concat_of_not {actions : List (Action α)} {action : Action α}
    (hsilent : action.emits = false) : emitted (actions ++ [action]) = emitted actions := by
  rw [emitted_concat, hsilent, if_neg Bool.false_ne_true, List.append_nil]

/-! ## The mapping -/

/-- The mapping sends `v` to `w`. -/
def Mapped (mapping : List (Option ValueId)) (v w : ValueId) : Prop := mapping[v]? = some (some w)

theorem Mapped.unique {mapping : List (Option ValueId)} {v w w' : ValueId} (h : Mapped mapping v w)
    (h' : Mapped mapping v w') : w = w' := by
  unfold Mapped at h h'
  rw [h] at h'
  exact Option.some.inj (Option.some.inj h')

/-- Mapping an unmapped value adds exactly that pair. -/
theorem mapped_set {mapping : List (Option ValueId)} {v w u x : ValueId}
    (hunmapped : mapping[v]? = some none) :
    Mapped (mapping.set v (some w)) u x ↔ Mapped mapping u x ∨ (u = v ∧ x = w) := by
  have hinside := (List.getElem?_eq_some_iff.1 hunmapped).1
  unfold Mapped
  rw [List.getElem?_set]
  by_cases hsame : v = u
  · subst hsame
    rw [if_pos rfl, if_pos hinside, hunmapped]
    constructor
    · rintro ⟨⟩
      exact .inr ⟨rfl, rfl⟩
    · rintro (h | ⟨-, rfl⟩)
      · cases h
      · rfl
  · rw [if_neg hsame]
    exact ⟨.inl, fun h => h.resolve_right fun ⟨heq, _⟩ => hsame heq.symm⟩

theorem countP_set {mapping : List (Option ValueId)} {v w : ValueId}
    (hunmapped : mapping[v]? = some none) :
    (mapping.set v (some w)).countP Option.isSome = mapping.countP Option.isSome + 1 := by
  obtain ⟨hinside, hnone⟩ := List.getElem?_eq_some_iff.1 hunmapped
  rw [List.countP_set hinside, hnone]
  simp

theorem forall₂_right {β γ : Type} {R : β → γ → Prop} {bs : List β} {cs : List γ}
    (h : List.Forall₂ R bs cs) {i : Nat} {c : γ} (hfound : cs[i]? = some c) :
    ∃ b, bs[i]? = some b ∧ R b c := by
  induction h generalizing i with
  | nil => cases hfound
  | cons hhead _ ih =>
    cases i with
    | zero =>
      cases hfound
      exact ⟨_, rfl, hhead⟩
    | succ i => exact ih hfound

theorem forall₂_left {β γ : Type} {R : β → γ → Prop} {bs : List β} {cs : List γ}
    (h : List.Forall₂ R bs cs) {i : Nat} {b : β} (hfound : bs[i]? = some b) :
    ∃ c, cs[i]? = some c ∧ R b c :=
  forall₂_right (R := flip R) (List.Forall₂.flip h) hfound

/-! ## Images -/

/-- How `image` stands for `value`. -/
inductive Stands (s : Graph α) (actions : List (Action α)) (t : Graph α) (v w : ValueId)
    (value image : GraphValue) : Prop where
  | input (kind : value.kind = .input) (same : image.kind = .input)
  | constant (kind : value.kind = .constant) (same : image.kind = .constant)
      (tensor : t.constants[w]? = s.constants[v]?)
  | node (p : NodeId) (op : OpType) (inputs : List ValueId) (attributes : NodeAttributes)
      (producer : value.producer = some p)
        (action : actions[p]? = some (.emit op inputs attributes))
      (same : image.kind = .intermediate)
  | folded (p : NodeId) (tensor : Tensor α) (producer : value.producer = some p)
      (action : actions[p]? = some (.fold tensor)) (kind : image.kind = .constant)
      (tensor : t.constants[w]? = some (some tensor))

/-- The value `w` of `t` stands for the value `v` of `s`. -/
def ValueImage (s : Graph α) (actions : List (Action α)) (t : Graph α) (v w : ValueId) : Prop :=
  ∃ value image, s.values[v]? = some value ∧ t.values[w]? = some image ∧
    image.name = value.name ∧ image.spec = value.spec ∧ Stands s actions t v w value image

/-- `image` is what the action of `p` emits. -/
def NodeImage (s : Graph α) (actions : List (Action α)) (mapping : List (Option ValueId))
    (p : NodeId) (image : Node) : Prop :=
  ∃ node inputs, s.nodes[p]? = some node ∧
    actions[p]? = some (.emit image.op inputs image.attributes) ∧ image.name = node.name ∧
    List.Forall₂ (Mapped mapping) inputs image.inputs ∧
    List.Forall₂ (Mapped mapping) node.outputs image.outputs

variable {s t : Graph α} {actions : List (Action α)} {mapping : List (Option ValueId)}

/-- An image still stands for its value when the target grows. -/
theorem Stands.mono {actions' : List (Action α)} {t' : Graph α} {v w : ValueId}
    {value image : GraphValue} (h : Stands s actions t v w value image)
    (hinside : w < t.constants.length) (hlonger : actions <+: actions') (hext : t.Extends t') :
    Stands s actions' t' v w value image := by
  have hlater (p : NodeId) (action : Action α) (h : actions[p]? = some action) :
      actions'[p]? = some action := by
    obtain ⟨rest, rfl⟩ := hlonger
    exact Graph.getElem?_append_of_some h
  cases h with
  | input hkind hsame => exact .input hkind hsame
  | constant hkind hsame htensor =>
    refine .constant hkind hsame ?_
    rw [← htensor, List.getElem?_eq_getElem hinside]
    exact hext.constants w _ (List.getElem?_eq_getElem hinside)
  | node p op inputs attributes hproducer haction hsame =>
    exact .node p op inputs attributes hproducer (hlater p _ haction) hsame
  | folded p tensor hproducer haction hkind hfound =>
    exact .folded p tensor hproducer (hlater p _ haction) hkind (hext.constants w _ hfound)

/-- A node's image still is one when the target grows. -/
theorem NodeImage.mono {actions' : List (Action α)} {mapping' : List (Option ValueId)} {p : NodeId}
    {image : Node} (h : NodeImage s actions mapping p image) (hlonger : actions <+: actions')
    (hmore : ∀ v w, Mapped mapping v w → Mapped mapping' v w) :
    NodeImage s actions' mapping' p image := by
  obtain ⟨node, inputs, hfound, haction, hname, hins, houts⟩ := h
  obtain ⟨rest, rfl⟩ := hlonger
  exact ⟨node, inputs, hfound, Graph.getElem?_append_of_some haction, hname, hins.imp hmore,
    houts.imp hmore⟩

/-! ## The invariant -/

/-- The values of `t` are the images of those of `s` that are mapped; of the constants
these are some of the `wanted` ones. -/
structure Maps (s : Graph α) (actions : List (Action α)) (wanted : ValueId → Prop) (t : Graph α)
    (mapping : List (Option ValueId)) : Prop where
  length : mapping.length = s.values.length
  count : t.values.length = mapping.countP Option.isSome
  injective : ∀ v v' w, Mapped mapping v w → Mapped mapping v' w → v = v'
  surjective : ∀ w < t.values.length, ∃ v, Mapped mapping v w
  image : ∀ v w, Mapped mapping v w → ValueImage s actions t v w
  constants : ∀ v w value, Mapped mapping v w → s.values[v]? = some value →
    value.kind = .constant → wanted v

/-- What holds after the actions of the first nodes, and after the first `inputs` of the
graph were added. -/
structure Rewrites (s : Graph α) (inputs : List ValueId) (actions : List (Action α))
    (wanted : ValueId → Prop) (t : Graph α) (mapping : List (Option ValueId)) : Prop
    extends Maps s actions wanted t mapping where
  inputIds : List.Forall₂ (Mapped mapping) inputs t.inputIds
  nodes : List.Forall₂ (NodeImage s actions mapping) (emitted actions) t.nodes
  produced : ∀ (p : NodeId) (node : Node) (action : Action α), s.nodes[p]? = some node →
    actions[p]? = some action → action.keeps = true → ∀ v ∈ node.outputs, ∃ w, Mapped mapping v w

variable {inputs : List ValueId} {wanted : ValueId → Prop}

theorem Maps.lt (h : Maps s actions wanted t mapping) {v w : ValueId}
    (hmapped : Mapped mapping v w) :
    w < t.values.length := by
  obtain ⟨value, image, -, hfound, -⟩ := h.image v w hmapped
  exact (List.getElem?_eq_some_iff.1 hfound).1

/-- Only an intermediate value has a producer. -/
theorem kind_of_producer (hwf : s.WellFormed) {v : ValueId} {value : GraphValue} {p : NodeId}
    (hfound : s.values[v]? = some value) (hproducer : value.producer = some p) :
    value.kind = .intermediate := by
  have hmetadata := hwf.metadata v value hfound
  unfold Graph.MetadataOk at hmetadata
  cases hkind : value.kind with
  | input =>
    rw [hkind] at hmetadata
    rw [hmetadata.1] at hproducer
    cases hproducer
  | constant =>
    rw [hkind] at hmetadata
    rw [hmetadata.1] at hproducer
    cases hproducer
  | intermediate => rfl

/-- The producer of a value is a node with that output. -/
theorem node_of_producer (hwf : s.WellFormed) {v : ValueId} {value : GraphValue} {p : NodeId}
    (hfound : s.values[v]? = some value) (hproducer : value.producer = some p) :
    ∃ node, s.nodes[p]? = some node ∧ node.outputs = [v] := by
  have hmetadata := hwf.metadata v value hfound
  unfold Graph.MetadataOk at hmetadata
  rw [kind_of_producer hwf hfound hproducer] at hmetadata
  obtain ⟨-, q, node, hproducer', hthere, houtputs⟩ := hmetadata
  rw [hproducer] at hproducer'
  cases hproducer'
  exact ⟨node, hthere, houtputs⟩

/-- The producer of an output of a node is that node. -/
theorem producer_of_output (hwf : s.WellFormed) {p : NodeId} {node : Node} {w : ValueId}
    (hthere : s.nodes[p]? = some node) (hout : w ∈ node.outputs) :
    ∃ value, s.values[w]? = some value ∧ value.producer = some p := by
  obtain ⟨w', value, -, houtputs, hfound, -, hproducer, -⟩ := (hwf.node p node hthere).output
  rw [houtputs, List.mem_singleton] at hout
  rw [hout]
  exact ⟨value, hfound, hproducer⟩

/-- The values of a node that has had no action yet are not mapped. -/
theorem Maps.unmapped (hwf : s.WellFormed) (h : Maps s actions wanted t mapping) {v : ValueId}
    {value : GraphValue} {p : NodeId} (hfound : s.values[v]? = some value)
    (hproducer : value.producer = some p) (hopen : actions.length ≤ p) :
    mapping[v]? = some none := by
  have hinside : v < mapping.length := by
    rw [h.length]
    exact (List.getElem?_eq_some_iff.1 hfound).1
  have hnone (action : Action α) (hacted : actions[p]? = some action) : False :=
    absurd (List.getElem?_eq_some_iff.1 hacted).1 (Nat.not_lt.2 hopen)
  rw [List.getElem?_eq_getElem hinside]
  cases hmapped : mapping[v] with
  | none => rfl
  | some w =>
    obtain ⟨value', image, hfound', -, -, -, hstands⟩ :=
      h.image v w (by unfold Mapped; rw [List.getElem?_eq_getElem hinside, hmapped])
    rw [hfound] at hfound'
    cases hfound'
    have hproduced := kind_of_producer hwf hfound hproducer
    cases hstands with
    | input hkind =>
      rw [hkind] at hproduced
      cases hproduced
    | constant hkind =>
      rw [hkind] at hproduced
      cases hproduced
    | node q op ins attributes hproducer' haction =>
      rw [hproducer] at hproducer'
      cases hproducer'
      exact (hnone _ haction).elim
    | folded q tensor hproducer' haction =>
      rw [hproducer] at hproducer'
      cases hproducer'
      exact (hnone _ haction).elim

/-- One more value of the source is mapped, to a new value. -/
theorem Maps.push (h : Maps s actions wanted t mapping) (hwf : t.WellFormed)
    {actions' : List (Action α)} {t' : Graph α} {v : ValueId} {value image : GraphValue}
    (hfound : s.values[v]? = some value) (hunmapped : mapping[v]? = some none)
    (hlonger : actions <+: actions') (hext : t.Extends t')
    (hvalues : t'.values = t.values ++ [image]) (hname : image.name = value.name)
    (hspec : image.spec = value.spec) (hstands : Stands s actions' t' v t.values.length value image)
    (hasked : value.kind = .constant → wanted v) :
    Maps s actions' wanted t' (mapping.set v (some t.values.length)) := by
  have hset (u x : ValueId) := mapped_set (u := u) (x := x) (w := t.values.length) hunmapped
  constructor
  · rw [List.length_set]
    exact h.length
  · rw [hvalues, List.length_append, List.length_singleton, countP_set hunmapped, h.count]
  · intro u u' x hmapped hmapped'
    rcases (hset u x).1 hmapped with hold | ⟨rfl, rfl⟩ <;> rcases (hset u' _).1
      hmapped' with hold' | ⟨rfl, hnew⟩
    · exact h.injective u u' x hold hold'
    · exact absurd (hnew ▸ h.lt hold) (Nat.lt_irrefl _)
    · exact absurd (h.lt hold') (Nat.lt_irrefl _)
    · rfl
  · intro w hinside
    rw [hvalues, List.length_append, List.length_singleton] at hinside
    rcases Nat.lt_succ_iff_lt_or_eq.1 hinside with hold | rfl
    · obtain ⟨u, hmapped⟩ := h.surjective w hold
      exact ⟨u, (hset u w).2 (.inl hmapped)⟩
    · exact ⟨v, (hset v _).2 (.inr ⟨rfl, rfl⟩)⟩
  · intro u x hmapped
    rcases (hset u x).1 hmapped with hold | ⟨rfl, rfl⟩
    · obtain ⟨value', image', hfound', himageFound, hname', hspec', hstands'⟩ := h.image u x hold
      refine ⟨value', image', hfound', hext.values x image' himageFound, hname', hspec',
        hstands'.mono ?_ hlonger hext⟩
      rw [hwf.constants_length]
      exact h.lt hold
    · refine ⟨value, image, hfound, ?_, hname, hspec, hstands⟩
      rw [hvalues]
      exact Graph.getElem?_snoc.2 (.inr ⟨rfl, rfl⟩)
  · intro u x value' hmapped hfound' hconstant
    rcases (hset u x).1 hmapped with hold | ⟨rfl, -⟩
    · exact h.constants u x value' hold hfound' hconstant
    · rw [hfound] at hfound'
      cases hfound'
      exact hasked hconstant

/-! ## Names -/

/-- Values of one graph are told apart by their names. -/
theorem value_name_injective (hwf : s.WellFormed) {v v' : ValueId} {a b : GraphValue}
    (hfound : s.values[v]? = some a) (hfound' : s.values[v']? = some b) (hsame : a.name = b.name) :
    v = v' := by
  have hnodup := (List.nodup_append.1 hwf.names_nodup).1
  obtain ⟨hinside, rfl⟩ := List.getElem?_eq_some_iff.1 hfound
  obtain ⟨hinside', rfl⟩ := List.getElem?_eq_some_iff.1 hfound'
  rw [← List.length_map GraphValue.name] at hinside hinside'
  have hnames : (s.values.map (·.name))[v] = (s.values.map (·.name))[v'] := by simpa using hsame
  exact hnodup.getElem_inj_iff.1 hnames

/-- Nodes of one graph are told apart by their names. -/
theorem node_name_injective (hwf : s.WellFormed) {p q : NodeId} {a b : Node}
    (hfound : s.nodes[p]? = some a) (hfound' : s.nodes[q]? = some b) (hsame : a.name = b.name) :
    p = q := by
  have hnodup := (List.nodup_append.1 hwf.names_nodup).2.1
  obtain ⟨hinside, rfl⟩ := List.getElem?_eq_some_iff.1 hfound
  obtain ⟨hinside', rfl⟩ := List.getElem?_eq_some_iff.1 hfound'
  rw [← List.length_map Node.name] at hinside hinside'
  have hnames : (s.nodes.map (·.name))[p] = (s.nodes.map (·.name))[q] := by simpa using hsame
  exact hnodup.getElem_inj_iff.1 hnames

theorem value_name_ne_node_name (hwf : s.WellFormed) {v : ValueId} {p : NodeId} {value : GraphValue}
    {node : Node} (hfound : s.values[v]? = some value) (hfound' : s.nodes[p]? = some node) :
    value.name ≠ node.name :=
  (List.nodup_append.1 hwf.names_nodup).2.2 _ (List.mem_map_of_mem (List.mem_of_getElem? hfound)) _
    (List.mem_map_of_mem (List.mem_of_getElem? hfound'))

/-- A new value and a new node have the names of those they stand for. -/
theorem Rewrites.names (h : Rewrites s inputs actions wanted t mapping) {name : String}
    (hmem : name ∈ t.names) :
    (∃ v w value, Mapped mapping v w ∧ s.values[v]? = some value ∧ value.name = name) ∨
      ∃ p node, p < actions.length ∧ s.nodes[p]? = some node ∧ node.name = name := by
  rcases List.mem_append.1 hmem with hmem | hmem
  · obtain ⟨image, hknown, rfl⟩ := List.mem_map.1 hmem
    obtain ⟨w, hfound⟩ := List.getElem?_of_mem hknown
    obtain ⟨v, hmapped⟩ := h.surjective w (List.getElem?_eq_some_iff.1 hfound).1
    obtain ⟨value, image', hthere, hfound', hname, -⟩ := h.image v w hmapped
    rw [hfound] at hfound'
    cases hfound'
    exact .inl ⟨v, w, value, hmapped, hthere, hname.symm⟩
  · obtain ⟨image, hknown, rfl⟩ := List.mem_map.1 hmem
    obtain ⟨q, hhere⟩ := List.getElem?_of_mem hknown
    obtain ⟨p, -, node, ins, hfound, haction, hname, -⟩ := forall₂_right h.nodes hhere
    exact .inr ⟨p, node, (List.getElem?_eq_some_iff.1 haction).1, hfound, hname.symm⟩

/-- The name of a value that is not mapped is free. -/
theorem Rewrites.value_fresh (hwf : s.WellFormed) (h : Rewrites s inputs actions wanted t mapping)
    {v : ValueId} {value : GraphValue} (hfound : s.values[v]? = some value)
    (hunmapped : mapping[v]? = some none) : value.name ∉ t.names := by
  intro hmem
  rcases h.names hmem with ⟨u, w, value', hmapped, hfound', hsame⟩ | ⟨p, node, -, hfound', hsame⟩
  · rw [value_name_injective hwf hfound' hfound hsame] at hmapped
    unfold Mapped at hmapped
    rw [hunmapped] at hmapped
    cases hmapped
  · exact value_name_ne_node_name hwf hfound hfound' hsame.symm

/-- The name of a node that has had no action yet is free. -/
theorem Rewrites.node_fresh (hwf : s.WellFormed) (h : Rewrites s inputs actions wanted t mapping)
    {p : NodeId} {node : Node} (hfound : s.nodes[p]? = some node) (hopen : actions.length ≤ p) :
    node.name ∉ t.names := by
  intro hmem
  rcases h.names hmem with ⟨u, w, value, -, hfound', hsame⟩ | ⟨q, node', hinside, hfound', hsame⟩
  · exact value_name_ne_node_name hwf hfound' hfound hsame
  · rw [node_name_injective hwf hfound' hfound hsame] at hinside
    exact absurd hinside (Nat.not_lt.2 hopen)

end TinyInfer.Optimizer
