import TinyInfer.Optimizer.DeadCode
import TinyInfer.Optimizer.Fusing

/-!
# What a fusion preserves

A `Fusion` is a rewrite in which every node is copied, or fused with the producer of one
of its inputs; a rewrite that copies every node is one. If everything is live before,
so it is after (`Fusion.allLive`); a node all of whose inputs are constants is none of
its making (`Fusion.noFold`); and where it copies the node that a pattern looks for, the
pattern matches after only what it matched before (`Fusion.unmatched`).

Main definitions: `Fusion`, `NoFold`, `AllLive`, `Unmatched`.
-/

namespace TinyInfer.Optimizer

variable {α : Type}

/-! ## Images of nodes -/

section

variable {s t : Graph α} {inputs : List ValueId} {actions : List (Action α)}
  {wanted : ValueId → Prop} {mapping : List (Option ValueId)}

/-- `image` reads the images of `ids` and computes that of the output of `node`. -/
structure Emitted (mapping : List (Option ValueId)) (node : Node) (ids : List ValueId)
    (image : Node) : Prop where
  name : image.name = node.name
  inputs : List.Forall₂ (Mapped mapping) ids image.inputs
  outputs : List.Forall₂ (Mapped mapping) node.outputs image.outputs

theorem Rewrites.emitted_image (h : Rewrites s inputs actions wanted t mapping) {p : NodeId}
    {node : Node} {op : OpType} {ids : List ValueId} {attributes : NodeAttributes}
    (hfound : s.nodes[p]? = some node) (haction : actions[p]? = some (.emit op ids attributes)) :
    ∃ (q : NodeId) (image : Node), t.nodes[q]? = some image ∧ image.op = op ∧
      image.attributes = attributes ∧
      Emitted mapping node ids image := by
  obtain ⟨q, hhere⟩ := List.getElem?_of_mem (mem_emitted.2 ⟨_, _, _, haction⟩)
  obtain ⟨image, hthere, node', ids', hfound', haction', hname, hins, houts⟩ :=
    forall₂_left h.nodes hhere
  rw [hfound] at hfound'
  cases hfound'
  rw [haction] at haction'
  injection Option.some.inj haction' with hop_eq hids_eq hattributes_eq
  exact ⟨q, image, hthere, hop_eq.symm, hattributes_eq.symm, hname, hids_eq ▸ hins, houts⟩

theorem Rewrites.image_emitted (h : Rewrites s inputs actions wanted t mapping) {q : NodeId}
    {image : Node} (hfound : t.nodes[q]? = some image) :
    ∃ (p : NodeId) (node : Node) (ids : List ValueId), s.nodes[p]? = some node ∧
      actions[p]? = some (.emit image.op ids image.attributes) ∧
        Emitted mapping node ids image := by
  obtain ⟨p, -, node, ids, hthere, haction, hname, hins, houts⟩ := forall₂_right h.nodes hfound
  exact ⟨p, node, ids, hthere, haction, hname, hins, houts⟩

theorem mapped_of_mem {ids images : List ValueId} (h : List.Forall₂ (Mapped mapping) ids images)
    {v : ValueId} (hmem : v ∈ ids) : ∃ w ∈ images, Mapped mapping v w := by
  obtain ⟨i, hhere⟩ := List.getElem?_of_mem hmem
  obtain ⟨w, hthere, hmapped⟩ := forall₂_left h hhere
  exact ⟨w, List.mem_of_getElem? hthere, hmapped⟩

theorem mem_of_mapped {ids images : List ValueId} (h : List.Forall₂ (Mapped mapping) ids images)
    {w : ValueId} (hmem : w ∈ images) : ∃ v ∈ ids, Mapped mapping v w := by
  obtain ⟨i, hhere⟩ := List.getElem?_of_mem hmem
  obtain ⟨v, hthere, hmapped⟩ := forall₂_right h hhere
  exact ⟨v, List.mem_of_getElem? hthere, hmapped⟩

/-- An image occurs as often as what it stands for. -/
theorem count_images (hinjective : ∀ v v' w, Mapped mapping v w → Mapped mapping v' w → v = v')
    {ids images : List ValueId} (h : List.Forall₂ (Mapped mapping) ids images) {v w : ValueId}
    (hmapped : Mapped mapping v w) : images.count w = ids.count v := by
  induction h with
  | nil => rfl
  | @cons a b as bs hhead _ ih =>
    rw [List.count_cons, List.count_cons, ih]
    by_cases hsame : a = v
    · subst hsame
      rw [hhead.unique hmapped]
      simp
    · have hother : b ≠ w := by
        rintro rfl
        exact hsame (hinjective _ _ _ hhead hmapped)
      rw [if_neg (by simpa using hother), if_neg (by simpa using hsame)]

/-- The node that computes the image of a value stands for the node that computes the
value. -/
theorem Maps.same_node (h : Maps s actions wanted t mapping) (hws : s.WellFormed) {p p' : NodeId}
    {node node' image : Node} (hfound : s.nodes[p]? = some node)
    (hfound' : s.nodes[p']? = some node')
    (houts : List.Forall₂ (Mapped mapping) node.outputs image.outputs)
    (houts' : List.Forall₂ (Mapped mapping) node'.outputs image.outputs) : p = p' := by
  obtain ⟨out, value, -, houtputs, hthere, -, hproducer, -⟩ := (hws.node p node hfound).output
  obtain ⟨out', value', -, houtputs', hthere', -, hproducer', -⟩ :=
    (hws.node p' node' hfound').output
  rw [houtputs] at houts
  obtain ⟨w, hmem, hmapped⟩ := mapped_of_mem houts (List.mem_singleton_self out)
  obtain ⟨v, hmem', hmapped'⟩ := mem_of_mapped houts' hmem
  rw [houtputs', List.mem_singleton] at hmem'
  subst hmem'
  rw [h.injective _ _ _ hmapped hmapped', hthere'] at hthere
  cases hthere
  rw [hproducer] at hproducer'
  exact Option.some.inj hproducer'

end

theorem Rewritten.output_iff {source target : Model α} {actions : List (Action α)}
    {wanted : ValueId → Prop} {mapping : List (Option ValueId)}
    (h : Rewritten source target actions wanted mapping) {v w : ValueId}
    (hmapped : Mapped mapping v w) :
    w ∈ target.graph.tables.outputIds ↔ v ∈ source.graph.tables.outputIds := by
  rw [h.outputIds, ← source.outputs_perm.mem_iff, List.mem_map, List.mem_map]
  constructor
  · rintro ⟨output, hmem, rfl⟩
    obtain ⟨i, hhere⟩ := List.getElem?_of_mem hmem
    obtain ⟨original, hthere, -, hmapped'⟩ := forall₂_right h.outputs hhere
    exact ⟨original, List.mem_of_getElem? hthere, h.rewrites.injective _ _ _ hmapped' hmapped⟩
  · rintro ⟨output, hmem, rfl⟩
    obtain ⟨i, hhere⟩ := List.getElem?_of_mem hmem
    obtain ⟨image, hthere, -, hmapped'⟩ := forall₂_left h.outputs hhere
    exact ⟨image, List.mem_of_getElem? hthere, hmapped'.unique hmapped⟩

/-- The outputs of a graph are mapped. -/
theorem Rewritten.output_mapped {source target : Model α} {actions : List (Action α)}
    {wanted : ValueId → Prop} {mapping : List (Option ValueId)}
    (h : Rewritten source target actions wanted mapping) {v : ValueId}
    (hmem : v ∈ source.graph.tables.outputIds) : ∃ w, Mapped mapping v w := by
  obtain ⟨output, hknown, rfl⟩ := List.mem_map.1 ((source.outputs_perm.mem_iff).2 hmem)
  obtain ⟨i, hhere⟩ := List.getElem?_of_mem hknown
  obtain ⟨image, -, -, hmapped⟩ := forall₂_left h.outputs hhere
  exact ⟨image.2, hmapped⟩

/-! ## Fusions -/

/-- What a fusion does with a node. -/
inductive Becomes (head producer fused : OpType) (g : Graph α) (actions : List (Action α))
    (p : NodeId) (node : Node) : Prop where
  | plain (action : actions[p]? = some (.emit node.op node.inputs node.attributes))
  | head (c : Candidate) (gone : Node) (product : ValueId)
      (fuses : Fuses head producer fused g node c gone product)
      (action : actions[p]? = some (.emit c.op c.inputs c.attributes))
      (goes : actions[c.removed]? = some .remove)
  | gone (user : Node) (c : Candidate) (product : ValueId)
      (found : g.nodes[user.id]? = some user)
        (fuses : Fuses head producer fused g user c node product)
      (action : actions[p]? = some .remove)
      (stays : actions[user.id]? = some (.emit c.op c.inputs c.attributes))

/-- A rewrite that copies the nodes or fuses pairs of them. -/
structure Fusion (head producer fused : OpType) (source target : Model α)
    (actions : List (Action α)) (wanted : ValueId → Prop) (mapping : List (Option ValueId)) :
    Prop where
  rewritten : Rewritten source target actions wanted mapping
  becomes : ∀ (p : NodeId) (node : Node), source.graph.tables.nodes[p]? = some node →
    Becomes head producer fused source.graph.tables actions p node

namespace Fusion

variable {head producer fused : OpType} {source target : Model α} {actions : List (Action α)}
  {wanted : ValueId → Prop} {mapping : List (Option ValueId)}

theorem no_folds (h : Fusion head producer fused source target actions wanted mapping) (p : NodeId)
    (tensor : Tensor α) : actions[p]? ≠ some (.fold tensor) := by
  intro haction
  have hinside := (List.getElem?_eq_some_iff.1 haction).1
  rw [h.rewritten.complete] at hinside
  cases h.becomes p _ (List.getElem?_eq_getElem hinside) with
  | plain haction' =>
    rw [haction] at haction'
    cases haction'
  | head c gone product _ haction' =>
    rw [haction] at haction'
    cases haction'
  | gone user c product _ _ haction' =>
    rw [haction] at haction'
    cases haction'

/-- What the node that goes computes is not mapped. -/
theorem product_unmapped (h : Fusion head producer fused source target actions wanted mapping)
    {user gone : Node} {c : Candidate} {product w : ValueId}
    (hfuses : Fuses head producer fused source.graph.tables user c gone product)
    (hgoes : actions[c.removed]? = some .remove) : ¬ Mapped mapping product w := by
  intro hmapped
  have hwf := source.graph.wf
  obtain ⟨value, hfound, hproducer⟩ := producer_of_output hwf hfuses.found
    (by rw [hfuses.outputs]; exact List.mem_singleton_self product)
  have hkind := kind_of_producer hwf hfound hproducer
  obtain ⟨value', image, hfound', -, -, -, hstands⟩ := h.rewritten.rewrites.image product w hmapped
  rw [hfound] at hfound'
  cases hfound'
  cases hstands with
  | input hkind' =>
    rw [hkind] at hkind'
    cases hkind'
  | constant hkind' =>
    rw [hkind] at hkind'
    cases hkind'
  | node p op ids attributes hproducer' haction =>
    rw [hproducer] at hproducer'
    cases hproducer'
    rw [hgoes] at haction
    cases haction
  | folded p tensor hproducer' haction => exact h.no_folds p tensor haction

/-- A mapped value that a node reads is read by the new node as well. -/
theorem read_by_new (h : Fusion head producer fused source target actions wanted mapping)
    {node gone : Node} {c : Candidate} {product v w : ValueId}
    (hfuses : Fuses head producer fused source.graph.tables node c gone product)
    (hgoes : actions[c.removed]? = some .remove) (hread : v ∈ node.inputs)
    (hmapped : Mapped mapping v w) : v ∈ c.inputs := by
  have hother : v ≠ product := by
    rintro rfl
    exact h.product_unmapped hfuses hgoes hmapped
  exact hfuses.inputs.mem_iff.2 (List.mem_append_left _ ((List.mem_erase_of_ne hother).2 hread))

/-- So is all that the node that goes reads. -/
theorem gone_read_by_new {node gone : Node} {c : Candidate} {product v : ValueId}
    {g : Graph α} (hfuses : Fuses head producer fused g node c gone product)
    (hread : v ∈ gone.inputs) :
    v ∈ c.inputs := hfuses.inputs.mem_iff.2 (List.mem_append_right _ hread)

end Fusion

/-! ## Constant inputs -/

/-- Every node reads something that is not a constant. -/
def NoFold (g : Graph α) : Prop := ∀ node ∈ g.nodes, ∃ v ∈ node.inputs, g.isConstant v = false

theorem isConstant_eq {g : Graph α} (hwf : g.WellFormed) {v : ValueId} {value : GraphValue}
    (hfound : g.values[v]? = some value) : g.isConstant v = true ↔ value.kind = .constant := by
  have hmetadata := hwf.metadata v value hfound
  unfold Graph.MetadataOk at hmetadata
  unfold Graph.isConstant
  cases hkind : value.kind with
  | input =>
    rw [hkind] at hmetadata
    simp [hmetadata.2]
  | constant =>
    rw [hkind] at hmetadata
    obtain ⟨-, tensor, hconstant, -⟩ := hmetadata
    simp [hconstant]
  | intermediate =>
    rw [hkind] at hmetadata
    simp [hmetadata.1]

section

variable {source target : Model α} {actions : List (Action α)} {wanted : ValueId → Prop}
  {mapping : List (Option ValueId)}

theorem isConstant_image (h : Rewritten source target actions wanted mapping)
    (hnone : ∀ (p : NodeId) (tensor : Tensor α), actions[p]? ≠ some (.fold tensor)) {v w : ValueId}
    (hmapped : Mapped mapping v w) :
    target.graph.tables.isConstant w = source.graph.tables.isConstant v := by
  obtain ⟨value, image, hfound, hthere, hkind, -⟩ := h.rewrites.copied source.graph.wf hnone hmapped
  rw [Bool.eq_iff_iff, isConstant_eq target.graph.wf hthere,
    isConstant_eq source.graph.wf hfound, hkind]

/-- Without folds it is enough that every new node is made to read something that is not
a constant. -/
theorem noFold_of_reads (h : Rewritten source target actions wanted mapping)
    (hnone : ∀ (p : NodeId) (tensor : Tensor α), actions[p]? ≠ some (.fold tensor))
    (hreads : ∀ (p : NodeId) (node : Node) (op : OpType) (ids : List ValueId)
      (attributes : NodeAttributes), source.graph.tables.nodes[p]? = some node →
      actions[p]? = some (.emit op ids attributes) →
      ∃ v ∈ ids, source.graph.tables.isConstant v = false) :
    NoFold target.graph.tables := by
  intro image hmem
  obtain ⟨q, hhere⟩ := List.getElem?_of_mem hmem
  obtain ⟨p, node, ids, hfound, haction, hemitted⟩ := h.rewrites.image_emitted hhere
  obtain ⟨v, hread, hother⟩ := hreads p node _ ids _ hfound haction
  obtain ⟨w, hthere, hmapped⟩ := mapped_of_mem hemitted.inputs hread
  exact ⟨w, hthere, by rw [isConstant_image h hnone hmapped, hother]⟩

end

namespace Fusion

variable {head producer fused : OpType} {source target : Model α} {actions : List (Action α)}
  {wanted : ValueId → Prop} {mapping : List (Option ValueId)}

/-- A new node reads what is not a constant, because an old one does. -/
theorem noFold (h : Fusion head producer fused source target actions wanted mapping)
    (hbefore : NoFold source.graph.tables) : NoFold target.graph.tables := by
  refine noFold_of_reads h.rewritten h.no_folds fun p node op ids attributes hfound haction => ?_
  cases h.becomes p node hfound with
  | plain haction' =>
    rw [haction] at haction'
    injection Option.some.inj haction' with _ hids_eq _
    rw [hids_eq]
    exact hbefore node (List.mem_of_getElem? hfound)
  | head c gone product hfuses haction' =>
    rw [haction] at haction'
    injection Option.some.inj haction' with _ hids_eq _
    obtain ⟨v, hread, hother⟩ := hbefore gone (List.mem_of_getElem? hfuses.found)
    rw [hids_eq]
    exact ⟨v, gone_read_by_new hfuses hread, hother⟩
  | gone user c product _ _ haction' =>
    rw [haction] at haction'
    cases haction'

end Fusion

/-! ## Liveness -/

/-- All nodes and constants are live. -/
def AllLive (g : Graph α) : Prop :=
  (∀ node ∈ g.nodes, LiveNode g node) ∧
    ∀ v value, g.values[v]? = some value → value.kind = .constant → LiveValue g v

namespace Fusion

variable {head producer fused : OpType} {source target : Model α} {actions : List (Action α)}
  {wanted : ValueId → Prop} {mapping : List (Option ValueId)}

/-- A step along the uses of a value, in the new graph. -/
theorem feeds_image (h : Fusion head producer fused source target actions wanted mapping)
    {p : NodeId} {node : Node} {op : OpType} {ids : List ValueId} {attributes : NodeAttributes}
    {v w u : ValueId} (hfound : source.graph.tables.nodes[p]? = some node)
    (haction : actions[p]? = some (.emit op ids attributes)) (hread : v ∈ ids)
    (hmapped : Mapped mapping v w) (hout : u ∈ node.outputs) :
    ∃ x, Mapped mapping u x ∧ Feeds target.graph.tables w x := by
  obtain ⟨q, image, hthere, -, -, hemitted⟩ := h.rewritten.rewrites.emitted_image hfound haction
  obtain ⟨w', hmem, hmapped'⟩ := mapped_of_mem hemitted.inputs hread
  obtain ⟨x, hmem', hmapped''⟩ := mapped_of_mem hemitted.outputs hout
  rw [hmapped'.unique hmapped] at hmem
  exact ⟨x, hmapped'', image, List.mem_of_getElem? hthere, hmem, hmem'⟩

/-- The image of a live value is live, and so is that of the output of the head of a pair
whose product is live. -/
theorem live_image (h : Fusion head producer fused source target actions wanted mapping)
    {v : ValueId} (hlive : LiveValue source.graph.tables v) :
    (∀ w, Mapped mapping v w → LiveValue target.graph.tables w) ∧
      ∀ user c gone, source.graph.tables.nodes[user.id]? = some user →
        Fuses head producer fused source.graph.tables user c gone v →
        ∀ u ∈ user.outputs, ∀ w, Mapped mapping u w → LiveValue target.graph.tables w := by
  have hwf := source.graph.wf
  obtain ⟨output, hknown, hpath⟩ := hlive
  -- Along the path to the output, from its end.
  induction hpath using Relation.ReflTransGen.head_induction_on with
  | refl =>
    refine ⟨fun w hmapped => .output ((h.rewritten.output_iff hmapped).2 hknown), ?_⟩
    exact fun user c gone _ hfuses => absurd hknown hfuses.only.not_output
  | head hedge _ ih =>
    obtain ⟨node, hmem, hread, hout⟩ := hedge
    obtain ⟨p, hfound⟩ := List.getElem?_of_mem hmem
    constructor
    · intro w hmapped
      cases h.becomes p node hfound with
      | plain haction =>
        obtain ⟨x, hmapped', hfeeds⟩ := h.feeds_image hfound haction hread hmapped hout
        exact .feeds hfeeds (ih.1 x hmapped')
      | head c gone product hfuses haction hgoes =>
        obtain ⟨x, hmapped', hfeeds⟩ :=
          h.feeds_image hfound haction (h.read_by_new hfuses hgoes hread hmapped) hmapped hout
        exact .feeds hfeeds (ih.1 x hmapped')
      | gone user c product hthere hfuses _ hstays =>
        rw [hfuses.outputs, List.mem_singleton] at hout
        subst hout
        obtain ⟨out', value, -, houtputs, -⟩ := (hwf.node _ user hthere).output
        have honly : out' ∈ user.outputs := by
          rw [houtputs]
          exact List.mem_singleton_self out'
        obtain ⟨x, hmapped', hfeeds⟩ :=
          h.feeds_image hthere hstays (gone_read_by_new hfuses hread) hmapped honly
        exact .feeds hfeeds (ih.2 user c node hthere hfuses out' honly x hmapped')
    · intro user c gone hthere hfuses u honly w hmapped
      -- The head is the only node that reads the product.
      rw [hfuses.only.only p node hfound hread, hthere] at hfound
      cases hfound
      obtain ⟨out', value, -, houtputs, -⟩ := (hwf.node _ node hthere).output
      rw [houtputs, List.mem_singleton] at honly hout
      rw [honly, ← hout] at hmapped
      exact ih.1 w hmapped

/-- After a fusion of a model in which all is live, all is live. -/
theorem allLive (h : Fusion head producer fused source target actions wanted mapping)
    (hbefore : AllLive source.graph.tables) : AllLive target.graph.tables := by
  have hwf := source.graph.wf
  constructor
  · intro image hmem
    obtain ⟨q, hhere⟩ := List.getElem?_of_mem hmem
    obtain ⟨p, node, ids, hfound, haction, hemitted⟩ := h.rewritten.rewrites.image_emitted hhere
    obtain ⟨v, hout, hlive⟩ := hbefore.1 node (List.mem_of_getElem? hfound)
    obtain ⟨w, hthere, hmapped⟩ := mapped_of_mem hemitted.outputs hout
    exact ⟨w, hthere, (h.live_image hlive).1 w hmapped⟩
  · intro w image hthere hconstant
    obtain ⟨v, hmapped⟩ := h.rewritten.rewrites.surjective w (List.getElem?_eq_some_iff.1 hthere).1
    obtain ⟨value, image', hfound, hthere', hkind, -⟩ :=
      h.rewritten.rewrites.copied hwf h.no_folds hmapped
    rw [hthere] at hthere'
    cases hthere'
    rw [hconstant] at hkind
    exact (h.live_image (hbefore.2 v value hfound hkind.symm)).1 w hmapped

end Fusion

/-! ## Matches -/

/-- Nothing matches. -/
def Unmatched (P : Pattern α) (g : Graph α) : Prop := ∀ node ∈ g.nodes, P.matched g node = none

/-- `image` is a copy of `node`. -/
structure CopyOf (s t : Graph α) (mapping : List (Option ValueId)) (p q : NodeId)
    (node image : Node) : Prop where
  source : s.nodes[p]? = some node
  target : t.nodes[q]? = some image
  op : image.op = node.op
  attributes : image.attributes = node.attributes
  emitted : Emitted mapping node node.inputs image

namespace Fusion

variable {head producer fused : OpType} {source target : Model α} {actions : List (Action α)}
  {wanted : ValueId → Prop} {mapping : List (Option ValueId)}

/-- A value whose image is used by the copy of a node alone is used by that node alone. -/
theorem onlyUse_image (h : Fusion head producer fused source target actions wanted mapping)
    (hapart : fused ≠ head) {p q : NodeId} {node image : Node} {v w : ValueId}
    (hcopy : CopyOf source.graph.tables target.graph.tables mapping p q node image)
    (haction : actions[p]? = some (.emit node.op node.inputs node.attributes))
    (hmapped : Mapped mapping v w) (honly : OnlyUse target.graph.tables w image.id) :
    OnlyUse source.graph.tables v node.id := by
  have hwf := source.graph.wf
  have hinjective := h.rewritten.rewrites.injective
  have hnode_id := hwf.node_id p node hcopy.source
  have himage_id := target.graph.wf.node_id q image hcopy.target
  refine ⟨fun hmem => honly.not_output ((h.rewritten.output_iff hmapped).2 hmem),
    ⟨node, ?_, ?_⟩, ?_⟩
  · rw [hnode_id]
    exact hcopy.source
  · obtain ⟨image', hthere, honce⟩ := honly.once
    rw [himage_id, hcopy.target] at hthere
    cases hthere
    rw [← honce, count_images hinjective hcopy.emitted.inputs hmapped]
  · intro p' other hthere hread
    -- Whoever takes over the read is the copy, so it stands for the node.
    have hsame {p'' : NodeId} {user : Node} {op : OpType} {ids : List ValueId}
        {attributes : NodeAttributes} (hfound : source.graph.tables.nodes[p'']? = some user)
        (hemit : actions[p'']? = some (.emit op ids attributes)) (hmem : v ∈ ids) : p'' = p := by
      obtain ⟨q', image', hhere, -, -, hemitted⟩ := h.rewritten.rewrites.emitted_image hfound hemit
      obtain ⟨w', hmem', hmapped'⟩ := mapped_of_mem hemitted.inputs hmem
      rw [hmapped'.unique hmapped] at hmem'
      have hat_q := honly.only q' image' hhere hmem'
      rw [himage_id] at hat_q
      rw [hat_q, hcopy.target] at hhere
      cases hhere
      exact h.rewritten.rewrites.same_node hwf hfound hcopy.source hemitted.outputs
        hcopy.emitted.outputs
    rw [hnode_id]
    cases h.becomes p' other hthere with
    | plain hemit => exact hsame hthere hemit hread
    | head c gone product hfuses hemit hgoes =>
      exact hsame hthere hemit (h.read_by_new hfuses hgoes hread hmapped)
    | gone user c product hfound hfuses _ hemit =>
      have hhere := hsame hfound hemit (gone_read_by_new hfuses hread)
      rw [hhere] at hfound hemit
      rw [hcopy.source] at hfound
      cases hfound
      rw [haction] at hemit
      injection Option.some.inj hemit with hop _ _
      exact absurd (hfuses.fused_op.symm.trans (hop.symm.trans hfuses.op)) hapart

/-- The producer of the image of a value is a copy of the producer of the value, as far as
an operator is concerned that the fusion neither looks for nor makes. -/
theorem producerOf_image (h : Fusion head producer fused source target actions wanted mapping)
    {op : OpType} (hnot_head : op ≠ head) (hnot_fused : op ≠ fused) {v w : ValueId}
    (hmapped : Mapped mapping v w) :
    (producerOf source.graph.tables op v = none ∧ producerOf target.graph.tables op w = none) ∨
      ∃ p q node image, producerOf source.graph.tables op v = some p ∧
        producerOf target.graph.tables op w = some q ∧
        CopyOf source.graph.tables target.graph.tables mapping p q node image := by
  have hwf := source.graph.wf
  obtain ⟨value, image, hfound, hthere, hkind, -⟩ :=
    h.rewritten.rewrites.copied hwf h.no_folds hmapped
  have hnone_of {g : Graph α} {u : ValueId} (hnever : ∀ p, producerOf g op u ≠ some p) :
      producerOf g op u = none := Option.eq_none_iff_forall_ne_some.2 hnever
  -- The producer of the image, when the producer of the value is emitted.
  have htarget_producer {p : NodeId} {node : Node} {op' : OpType} {ids : List ValueId}
      {attributes : NodeAttributes} (hthere' : source.graph.tables.nodes[p]? = some node)
      (houtputs : node.outputs = [v]) (hemit : actions[p]? = some (.emit op' ids attributes)) :
      ∃ q new, target.graph.tables.nodes[q]? = some new ∧ image.producer = some q ∧ new.op = op' ∧
        new.attributes = attributes ∧ Emitted mapping node ids new := by
    obtain ⟨q, new, hhere, hop_eq, hattributes_eq, hemitted⟩ :=
      h.rewritten.rewrites.emitted_image hthere' hemit
    obtain ⟨w', hmem, hmapped'⟩ :=
      mapped_of_mem hemitted.outputs (by rw [houtputs]; exact List.mem_singleton_self v)
    rw [hmapped'.unique hmapped] at hmem
    obtain ⟨image', hthere'', hproducer'⟩ := producer_of_output target.graph.wf hhere hmem
    rw [hthere] at hthere''
    cases hthere''
    exact ⟨q, new, hhere, hproducer', hop_eq, hattributes_eq, hemitted⟩
  -- where neither node has the operator, nothing is found on either side
  have hneither (hnot_source : ∀ (p : NodeId) (node : Node), value.producer = some p →
        source.graph.tables.nodes[p]? = some node → node.op ≠ op)
      (hnot_target : ∀ (q : NodeId) (new : Node), image.producer = some q →
        target.graph.tables.nodes[q]? = some new → new.op ≠ op) :
      producerOf source.graph.tables op v = none ∧ producerOf target.graph.tables op w = none := by
    constructor
    · refine hnone_of fun p hproduced => ?_
      obtain ⟨value', node, hfound', hproducer', hhere, hsame⟩ := producerOf_eq_some.1 hproduced
      rw [hfound] at hfound'
      cases hfound'
      exact hnot_source p node hproducer' hhere hsame
    · refine hnone_of fun q hproduced => ?_
      obtain ⟨image', new, hthere', hproducer', hhere, hsame⟩ := producerOf_eq_some.1 hproduced
      rw [hthere] at hthere'
      cases hthere'
      exact hnot_target q new hproducer' hhere hsame
  cases hproduced : value.producer with
  | none =>
    refine .inl (hneither (fun p node hproducer' => ?_) fun q new hproducer' => ?_)
    · rw [hproduced] at hproducer'
      cases hproducer'
    · -- The image has the kind of the value.
      have hmetadata := hwf.metadata v value hfound
      have himage_kind := kind_of_producer target.graph.wf hthere hproducer'
      rw [hkind] at himage_kind
      unfold Graph.MetadataOk at hmetadata
      rw [himage_kind] at hmetadata
      obtain ⟨-, p, -, hproducer'', -⟩ := hmetadata
      rw [hproduced] at hproducer''
      cases hproducer''
  -- the producer is copied, replaced by the fused node, or absorbed
  | some p =>
    obtain ⟨node, hthere', houtputs⟩ := node_of_producer hwf hfound hproduced
    have hsource_node {p' : NodeId} {node' : Node} (hproducer' : value.producer = some p')
        (hhere : source.graph.tables.nodes[p']? = some node') : node' = node := by
      rw [hproduced] at hproducer'
      cases hproducer'
      rw [hthere'] at hhere
      cases hhere
      rfl
    cases h.becomes p node hthere' with
    | plain hemit =>
      obtain ⟨q, new, hhere, hproducer', hop_eq, hattributes_eq, hemitted⟩ :=
        htarget_producer hthere' houtputs hemit
      have htarget_node {q' : NodeId} {new' : Node} (hproducer'' : image.producer = some q')
          (hhere' : target.graph.tables.nodes[q']? = some new') : new' = new := by
        rw [hproducer'] at hproducer''
        cases hproducer''
        rw [hhere] at hhere'
        cases hhere'
        rfl
      -- a copied node keeps its operator
      by_cases hsame : node.op = op
      · refine .inr ⟨p, q, node, new,
          producerOf_eq_some.2 ⟨value, node, hfound, hproduced, hthere', hsame⟩,
          producerOf_eq_some.2 ⟨image, new, hthere, hproducer', hhere, hop_eq.trans hsame⟩, hthere',
          hhere, hop_eq, hattributes_eq, hemitted⟩
      · refine .inl (hneither (fun p' node' hproducer'' hhere' => ?_)
          fun q' new' hproducer'' hhere' => ?_)
        · rw [hsource_node hproducer'' hhere']
          exact hsame
        · rw [htarget_node hproducer'' hhere', hop_eq]
          exact hsame
    | head c gone product hfuses hemit _ =>
      -- the head and the fused node both have other operators
      obtain ⟨q, new, hhere, hproducer', hop_eq, -, -⟩ := htarget_producer hthere' houtputs hemit
      refine .inl (hneither (fun p' node' hproducer'' hhere' => ?_)
        fun q' new' hproducer'' hhere' => ?_)
      · rw [hsource_node hproducer'' hhere', hfuses.op]
        exact hnot_head.symm
      · rw [hproducer'] at hproducer''
        cases hproducer''
        rw [hhere] at hhere'
        cases hhere'
        rw [hop_eq, hfuses.fused_op]
        exact hnot_fused.symm
    | gone user c product hfound' hfuses hgoes _ =>
      -- the output of an absorbed producer has no image
      have hsame : product = v := by simpa [houtputs] using hfuses.outputs.symm
      refine absurd hmapped (hsame ▸ h.product_unmapped hfuses ?_)
      have hhere := hfuses.found
      obtain ⟨out, hknown, hproducer'⟩ := producer_of_output hwf hhere
        (by rw [hfuses.outputs]; exact List.mem_singleton_self product)
      rw [hsame, hfound] at hknown
      cases hknown
      rw [hproduced] at hproducer'
      rw [← Option.some.inj hproducer']
      exact hgoes

/-- The schema sees the same specs. -/
theorem fits_image (h : Fusion head producer fused source target actions wanted mapping)
    {ids images : List ValueId} (hall : List.Forall₂ (Mapped mapping) ids images)
    {out out' : ValueId} (hmapped : Mapped mapping out out') (op : OpType)
    (attributes : NodeAttributes) :
    fits target.graph.tables op images attributes out' =
      fits source.graph.tables op ids attributes out := by
  have hspec {v w : ValueId} (hmapped : Mapped mapping v w) :
      (target.graph.tables.values[w]?).map (·.spec) =
        (source.graph.tables.values[v]?).map (·.spec) := by
    obtain ⟨value, image, hfound, hthere, -, hspec, -⟩ := h.rewritten.rewrites.image v w hmapped
    rw [hfound, hthere, Option.map_some, Option.map_some, hspec]
  have hspecs : (images.filterMap fun id => (target.graph.tables.values[id]?).map (·.spec)) =
      ids.filterMap fun id => (source.graph.tables.values[id]?).map (·.spec) := by
    induction hall with
    | nil => rfl
    | cons hhead _ ih => rw [List.filterMap_cons, List.filterMap_cons, hspec hhead, ih]
  unfold fits
  rw [hspecs, hspec hmapped]

/-- The candidate of a pattern for a copy of a node is one for the node. -/
def CandidateImage (P : Pattern α) (s t : Graph α) (mapping : List (Option ValueId))
    (node image : Node) : Prop :=
  ∀ c', P.candidate t image = some c' → ∃ c, P.candidate s node = some c ∧ c.op = c'.op ∧
    c.attributes = c'.attributes ∧ List.Forall₂ (Mapped mapping) c.inputs c'.inputs

/-- A pattern that matches no copied node, and does not look for what the fusion makes,
matches nothing afterwards. -/
theorem unmatched (h : Fusion head producer fused source target actions wanted mapping)
    (P : Pattern α) (hapart : fused ≠ P.head)
    (hcandidates : ∀ (p q : NodeId) (node image : Node),
      CopyOf source.graph.tables target.graph.tables mapping p q node image →
      actions[p]? = some (.emit node.op node.inputs node.attributes) →
      CandidateImage P source.graph.tables target.graph.tables mapping node image)
    (hbefore : ∀ (p : NodeId) (node : Node), source.graph.tables.nodes[p]? = some node →
      actions[p]? = some (.emit node.op node.inputs node.attributes) →
      P.matched source.graph.tables node = none) :
    Unmatched P target.graph.tables := by
  have hwf := source.graph.wf
  intro image hmem
  obtain ⟨q, hhere⟩ := List.getElem?_of_mem hmem
  obtain ⟨p, node, ids, hfound, hemit, hemitted⟩ := h.rewritten.rewrites.image_emitted hhere
  cases hmatched : P.matched target.graph.tables image with
  | none => rfl
  | some c' =>
    cases h.becomes p node hfound with
    -- a copy would have been matched in the source as well
    | plain haction =>
      rw [hemit] at haction
      injection Option.some.inj haction with hop hids_eq hattributes
      subst hids_eq
      have hcopy : CopyOf source.graph.tables target.graph.tables mapping p q node image :=
        ⟨hfound, hhere, hop, hattributes, hemitted⟩
      have haction : actions[p]? = some (.emit node.op node.inputs node.attributes) := by
        rw [hemit, hop, hattributes]
      obtain ⟨hcandidate, hfit⟩ := P.matched_some.1 hmatched
      obtain ⟨c, hcandidate', hop', hattributes', hins⟩ :=
        hcandidates p q node image hcopy haction c' hcandidate
      -- The schema accepts the candidate of the node as well.
      have hagain : P.matched source.graph.tables node = some c := by
        refine P.matched_some.2 ⟨hcandidate', ?_⟩
        obtain ⟨out, value, -, houtputs, -⟩ := (hwf.node p node hfound).output
        have houts := hemitted.outputs
        rw [houtputs] at houts ⊢
        cases houtputs' : image.outputs with
        | nil =>
          rw [houtputs'] at houts
          cases houts
        | cons out' rest =>
          rw [houtputs'] at houts hfit
          cases houts with
          | cons hmapped _ =>
            rw [hop', hattributes', List.headD_cons, ← h.fits_image hins hmapped]
            exact hfit
      rw [hbefore p node hfound haction] at hagain
      cases hagain
    -- the fused node does not match, as its operator is another
    | head c gone product hfuses haction hgoes =>
      rw [hemit] at haction
      injection Option.some.inj haction with hop _ _
      obtain ⟨gone', product', hfuses'⟩ := P.matched_fuses target.graph.wf hmatched
      exact absurd (hfuses.fused_op.symm.trans (hop.symm.trans hfuses'.op)) hapart
    -- a removed node has no image
    | gone user c product _ _ haction =>
      rw [hemit] at haction
      cases haction

end Fusion

/-! ## The two patterns -/

section

variable {head producer fused : OpType} {source target : Model α} {actions : List (Action α)}
  {wanted : ValueId → Prop} {mapping : List (Option ValueId)}

/-- The output of the producer stands for what the copied node reads. -/
theorem outputs_image (h : Fusion head producer fused source target actions wanted mapping)
    {p q : NodeId} {node image : Node} {v w : ValueId}
    (hcopy : CopyOf source.graph.tables target.graph.tables mapping p q node image)
    (houtputs : image.outputs = [w]) (hmapped : Mapped mapping v w) : node.outputs = [v] := by
  obtain ⟨out, value, -, houtputs', -⟩ := (source.graph.wf.node p node hcopy.source).output
  have houts := hcopy.emitted.outputs
  rw [houtputs, houtputs'] at houts
  rw [houtputs']
  cases houts with
  | cons hmapped' _ => rw [h.rewritten.rewrites.injective _ _ _ hmapped' hmapped]

theorem getElem?_image {ids images : List ValueId} (hall : List.Forall₂ (Mapped mapping) ids images)
    {i : Nat} {w : ValueId} (hfound : images[i]? = some w) :
    ∃ v, ids[i]? = some v ∧ Mapped mapping v w := forall₂_right hall hfound

namespace MatMulAddCanonicalizationPass

/-- Both loops have found a product at the same place, or neither has. -/
def SameProduct (s t : Graph α) (mapping : List (Option ValueId)) :
    Option (Nat × NodeId) → Option (Nat × NodeId) → Prop
  | none, none => True
  | some (i, p), some (j, q) => i = j ∧ ∃ node image, CopyOf s t mapping p q node image
  | _, _ => False

/-- A product found among the images was there before. -/
theorem findProduct_image (h : Fusion head producer fused source target actions wanted mapping)
    (hnot_head : .matMul ≠ head) (hnot_fused : .matMul ≠ fused) {ids images : List ValueId}
    (hall : List.Forall₂ (Mapped mapping) ids images) (k : Nat)
    {found found' : Option (Nat × NodeId)}
    (hsame : SameProduct source.graph.tables target.graph.tables mapping found found') :
    SameProduct source.graph.tables target.graph.tables mapping
      (findProduct source.graph.tables (ids.zipIdx k) found)
      (findProduct target.graph.tables (images.zipIdx k) found') := by
  induction hall generalizing k found found' with
  | nil => exact hsame
  | cons hmapped _ ih =>
    rw [List.zipIdx_cons, List.zipIdx_cons]
    unfold findProduct
    rcases h.producerOf_image hnot_head hnot_fused hmapped with
      ⟨hnone, hnone'⟩ | ⟨p, q, node, image, hsome, hsome', hcopy⟩
    · rw [hnone, hnone']
      exact ih (k + 1) hsame
    · rw [hsome, hsome']
      cases found with
      | none =>
        cases found' with
        | none => exact ih (k + 1) ⟨rfl, node, image, hcopy⟩
        | some => exact hsame.elim
      | some =>
        cases found' with
        | none => exact hsame.elim
        | some => trivial

/-- A product and addition matched at a copied node were matched at the node itself. -/
theorem candidate_image (h : Fusion head producer fused source target actions wanted mapping)
    (hapart : fused ≠ head) (hnot_head : .matMul ≠ head) (hnot_fused : .matMul ≠ fused)
    {p q : NodeId} {node image : Node}
    (hcopy : CopyOf source.graph.tables target.graph.tables mapping p q node image)
    (haction : actions[p]? = some (.emit node.op node.inputs node.attributes)) :
    Fusion.CandidateImage pattern source.graph.tables target.graph.tables mapping node image := by
  intro c' hfound
  obtain ⟨index, product', bias', matmul', hop, htwo, hone, hsearched, hhere, hthere, htwo',
    houtputs, hused, hother, heq⟩ := candidate_some hfound
  obtain ⟨product, here_s, hmapped⟩ := getElem?_image hcopy.emitted.inputs hhere
  obtain ⟨bias, hother_s, hmapped_bias⟩ := getElem?_image hcopy.emitted.inputs hother
  have hboth := findProduct_image h hnot_head hnot_fused hcopy.emitted.inputs 0
    (show SameProduct source.graph.tables target.graph.tables mapping none none from trivial)
  rw [hsearched] at hboth
  cases hsearched_s : findProduct source.graph.tables node.inputs.zipIdx none with
  | none =>
    rw [hsearched_s] at hboth
    exact hboth.elim
  | some found =>
    obtain ⟨i, removed⟩ := found
    rw [hsearched_s] at hboth
    obtain ⟨rfl, matmul, image', hcopy'⟩ := hboth
    have htarget := hcopy'.target
    rw [hthere] at htarget
    cases htarget
    have honly := Fusion.onlyUse_image h hapart hcopy haction hmapped
      ((usedOnce_iff (Model.graph _).wf).1 hused)
    refine ⟨_, candidate_of ?_ ?_ ?_ hsearched_s here_s hcopy'.source ?_
      (outputs_image h hcopy' houtputs hmapped) ((usedOnce_iff source.graph.wf).2 honly) hother_s,
      ?_⟩
    · rw [← hcopy.op, hop]
    · rw [hcopy.emitted.inputs.length_eq, htwo]
    · rw [hcopy.emitted.outputs.length_eq, hone]
    · rw [hcopy'.emitted.inputs.length_eq, htwo']
    · rw [heq]
      exact ⟨rfl, rfl, List.rel_append hcopy'.emitted.inputs (.cons hmapped_bias .nil)⟩

end MatMulAddCanonicalizationPass

namespace GemmActivationFusionPass

/-- An activation matched at a copied node was matched at the node itself. -/
theorem candidate_image (h : Fusion head producer fused source target actions wanted mapping)
    (hapart : fused ≠ head) (hnot_head : .gemm ≠ head) (hnot_fused : .gemm ≠ fused) {p q : NodeId}
    {node image : Node}
    (hcopy : CopyOf source.graph.tables target.graph.tables mapping p q node image)
    (haction : actions[p]? = some (.emit node.op node.inputs node.attributes)) :
    Fusion.CandidateImage pattern source.graph.tables target.graph.tables mapping node image := by
  intro c' hfound
  obtain ⟨output', gemm', hop, hinputs, hone, hproduced, hused, hthere, houtputs, heq⟩ :=
    candidate_some hfound
  have hins := hcopy.emitted.inputs
  rw [hinputs] at hins
  obtain ⟨output, rest, hmapped, htail, hnode_inputs⟩ := List.forall₂_cons_right_iff.1 hins
  cases htail
  rcases h.producerOf_image hnot_head hnot_fused hmapped with
    ⟨-, hnone'⟩ | ⟨p', q', gemm, image', hsome, hsome', hcopy'⟩
  · rw [hproduced] at hnone'
    cases hnone'
  · rw [hproduced] at hsome'
    cases hsome'
    have htarget := hcopy'.target
    rw [hthere] at htarget
    cases htarget
    have honly := Fusion.onlyUse_image h hapart hcopy haction hmapped
      ((usedOnce_iff (Model.graph _).wf).1 hused)
    refine ⟨_, candidate_of ?_ hnode_inputs ?_ hsome ((usedOnce_iff source.graph.wf).2 honly)
      hcopy'.source (outputs_image h hcopy' houtputs hmapped), ?_⟩
    · rw [← hcopy.op, hop]
    · rw [hcopy.emitted.outputs.length_eq, hone]
    · rw [heq, hcopy'.attributes]
      exact ⟨rfl, rfl, hcopy'.emitted.inputs⟩

end GemmActivationFusionPass

end

end TinyInfer.Optimizer
