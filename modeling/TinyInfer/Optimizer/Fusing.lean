import TinyInfer.Backend.CapabilityOracle
import TinyInfer.Optimizer.Passes
import TinyInfer.Optimizer.RewriterSteps

/-!
# Fusing two nodes into one

A pass that fuses replaces a node, the head, by one that also does the work of the node
that produces one of its inputs. That node goes: nothing else uses its output
(`usedOnce_iff`). A `Pattern` is what such a pass looks for, with what its candidates
have in common; `fuse_ok` is the run of any such pass, and `FusedAction` what becomes of
a node.

Main definitions: `Fuses`, `Pattern`, `FusedAction`. Main result: `fuse_ok`.
-/

namespace TinyInfer.Optimizer

variable {α : Type} {g : Graph α}

/-! ## Uses -/

/-- Only the node `user` reads `v`, once, and `v` is no output. -/
structure OnlyUse (g : Graph α) (v : ValueId) (user : NodeId) : Prop where
  not_output : v ∉ g.outputIds
  once : ∃ node, g.nodes[user]? = some node ∧ node.inputs.count v = 1
  only : ∀ (p : NodeId) (node : Node), g.nodes[p]? = some node → v ∈ node.inputs → p = user

/-- Uses are counted over the nodes that use the value. -/
theorem sum_count_filter (v : ValueId) (nodes : List Node) :
    (nodes.map fun node => node.inputs.count v).sum =
      ((nodes.filter fun node => node.inputs.contains v).map
        fun node => node.inputs.count v).sum := by
  induction nodes with
  | nil => rfl
  | cons node nodes ih =>
    rw [List.map_cons, List.sum_cons, ih]
    by_cases hmem : v ∈ node.inputs
    · have hreads : node.inputs.contains v = true := List.contains_iff_mem.2 hmem
      rw [List.filter_cons, if_pos hreads, List.map_cons, List.sum_cons]
    · have hreads : ¬ node.inputs.contains v = true := fun h => hmem (List.contains_iff_mem.1 h)
      rw [List.filter_cons, if_neg hreads, List.count_eq_zero_of_not_mem hmem, Nat.zero_add]

/-- The ids of the nodes are their indices. -/
theorem ids_nodup (hwf : g.WellFormed) : (g.nodes.map Node.id).Nodup := by
  have hids : g.nodes.map Node.id = List.range g.nodes.length := by
    refine List.ext_getElem (by simp) fun i hinside _ => ?_
    rw [List.length_map] at hinside
    rw [List.getElem_map, List.getElem_range]
    exact hwf.node_id i _ (List.getElem?_eq_getElem hinside)
  rw [hids]
  exact List.nodup_range

theorem found_of_mem (hwf : g.WellFormed) {node : Node} (hmem : node ∈ g.nodes) :
    g.nodes[node.id]? = some node := by
  obtain ⟨p, hfound⟩ := List.getElem?_of_mem hmem
  rw [hwf.node_id p node hfound]
  exact hfound

theorem mem_valueConsumers (hwf : g.WellFormed) {v : ValueId} {p : NodeId} :
    p ∈ g.valueConsumers v ↔ ∃ node, g.nodes[p]? = some node ∧ v ∈ node.inputs := by
  unfold Graph.valueConsumers
  rw [List.mem_map]
  constructor
  · rintro ⟨node, hmem, rfl⟩
    obtain ⟨hknown, hreads⟩ := List.mem_filter.1 hmem
    obtain ⟨q, hfound⟩ := List.getElem?_of_mem hknown
    rw [hwf.node_id q node hfound]
    exact ⟨node, hfound, List.contains_iff_mem.1 hreads⟩
  · rintro ⟨node, hfound, hreads⟩
    exact ⟨node, List.mem_filter.2 ⟨List.mem_of_getElem? hfound, List.contains_iff_mem.2 hreads⟩,
      hwf.node_id p node hfound⟩

/-- The pass's test for a single use is exact. -/
theorem usedOnce_iff (hwf : g.WellFormed) {v : ValueId} {user : NodeId} :
    usedOnce g v user = true ↔ OnlyUse g v user := by
  have hsublist : (g.valueConsumers v).Nodup :=
    (ids_nodup hwf).sublist (List.filter_sublist.map Node.id)
  have hsingle : g.valueConsumers v = [user] ↔ ∀ p, p ∈ g.valueConsumers v ↔ p = user := by
    constructor
    · intro heq p
      rw [heq, List.mem_singleton]
    · intro hsame
      refine List.perm_singleton.1
        ((List.perm_ext_iff_of_nodup hsublist (List.nodup_singleton user)).2 ?_)
      intro p
      rw [hsame, List.mem_singleton]
  -- With one consumer the uses are its uses.
  have huses {node : Node} (hfound : g.nodes[user]? = some node)
    (heq : g.valueConsumers v = [user]) :
      g.useCount v = node.inputs.count v := by
    unfold Graph.useCount
    rw [sum_count_filter]
    unfold Graph.valueConsumers at heq
    obtain ⟨other, hfiltered, hid⟩ := List.map_eq_singleton_iff.1 heq
    have hmem : other ∈ g.nodes :=
      (List.mem_filter.1 (by rw [hfiltered]; exact List.mem_singleton_self other)).1
    obtain ⟨q, hthere⟩ := List.getElem?_of_mem hmem
    have hhere : q = user := (hwf.node_id q other hthere).symm.trans hid
    rw [hhere, hfound] at hthere
    cases hthere
    rw [hfiltered]
    simp
  unfold usedOnce
  rw [Bool.and_eq_true, Bool.and_eq_true, beq_iff_eq, beq_iff_eq, Graph.isGraphOutput]
  constructor
  · rintro ⟨⟨hcount, hunmarked⟩, heq⟩
    obtain ⟨node, hfound, -⟩ := (mem_valueConsumers hwf).1 (((hsingle.1 heq) user).2 rfl)
    refine ⟨by simpa using hunmarked, ⟨node, hfound, by rw [← huses hfound heq, hcount]⟩, ?_⟩
    intro p other hthere hreads
    exact ((hsingle.1 heq) p).1 ((mem_valueConsumers hwf).2 ⟨other, hthere, hreads⟩)
  · intro h
    obtain ⟨node, hfound, honce⟩ := h.once
    have heq : g.valueConsumers v = [user] := by
      refine hsingle.2 fun p => ⟨fun hmem => ?_, ?_⟩
      · obtain ⟨other, hthere, hreads⟩ := (mem_valueConsumers hwf).1 hmem
        exact h.only p other hthere hreads
      · rintro rfl
        exact (mem_valueConsumers hwf).2 ⟨node, hfound, List.count_pos_iff.1 (by omega)⟩
    refine ⟨⟨by rw [huses hfound heq, honce], ?_⟩, heq⟩
    simpa using h.not_output

/-! ## Patterns -/

/-- The node `gone` produces `product` for `node`, and `c` does the work of both. -/
structure Fuses (head producer fused : OpType) (g : Graph α) (node : Node) (c : Candidate)
    (gone : Node) (product : ValueId) : Prop where
  op : node.op = head
  fused_op : c.op = fused
  found : g.nodes[c.removed]? = some gone
  gone_op : gone.op = producer
  outputs : gone.outputs = [product]
  read : product ∈ node.inputs
  only : OnlyUse g product node.id
  inputs : c.inputs.Perm (node.inputs.erase product ++ gone.inputs)

/-- What a pass that fuses looks for. -/
structure Pattern (α : Type) where
  name : String
  head : OpType
  producer : OpType
  fused : OpType
  candidate : Graph α → Node → Option Candidate
  head_ne : head ≠ producer
  fused_ne_head : fused ≠ head
  fused_ne_producer : fused ≠ producer
  fused_ne_softmax : fused ≠ .softmax
  fuses : ∀ (g : Graph α) (node : Node) (c : Candidate), g.WellFormed → candidate g node = some c →
    ∃ gone product, Fuses head producer fused g node c gone product

theorem producerOf_eq_some {op : OpType} {v : ValueId} {p : NodeId} :
    producerOf g op v = some p ↔ ∃ value node, g.values[v]? = some value ∧
      value.producer = some p ∧ g.nodes[p]? = some node ∧ node.op = op := by
  unfold producerOf
  rw [Option.filter_eq_some_iff, Option.bind_eq_some_iff, Option.any_eq_true]
  constructor
  · rintro ⟨⟨value, hfound, hproducer⟩, node, hthere, hsame⟩
    exact ⟨value, node, hfound, hproducer, hthere, beq_iff_eq.1 hsame⟩
  · rintro ⟨value, node, hfound, hproducer, hthere, hsame⟩
    exact ⟨⟨value, hfound, hproducer⟩, node, hthere, beq_iff_eq.2 hsame⟩

namespace MatMulAddCanonicalizationPass

/-- The product found is among the inputs. -/
theorem findProduct_some {inputs : List (ValueId × Nat)}
    {found : Option (Nat × NodeId)} {index : Nat} {matmul : NodeId}
    (h : findProduct g inputs found = some (index, matmul)) :
    found = some (index, matmul) ∨
      ∃ v, (v, index) ∈ inputs ∧ producerOf g .matMul v = some matmul := by
  induction inputs generalizing found with
  | nil => exact .inl h
  | cons input inputs ih =>
    obtain ⟨v, i⟩ := input
    unfold findProduct at h
    split at h
    · rcases ih h with h | ⟨w, hmem, hproduced⟩
      · exact .inl h
      · exact .inr ⟨w, List.mem_cons_of_mem _ hmem, hproduced⟩
    · cases h
    · rename_i hproduced
      rcases ih h with h | ⟨w, hmem, hproduced'⟩
      · cases h
        exact .inr ⟨v, List.mem_cons_self, hproduced⟩
      · exact .inr ⟨w, List.mem_cons_of_mem _ hmem, hproduced'⟩

/-- What the checks of `match` say of a candidate. -/
theorem candidate_some {add : Node} {c : Candidate} (h : candidate g add = some c) :
    ∃ index product bias matmul, add.op = .add ∧ add.inputs.length = 2 ∧ add.outputs.length = 1 ∧
      findProduct g add.inputs.zipIdx none = some (index, c.removed) ∧
      add.inputs[index]? = some product ∧ g.nodes[c.removed]? = some matmul ∧
      matmul.inputs.length = 2 ∧ matmul.outputs = [product] ∧ usedOnce g product add.id = true ∧
      add.inputs[1 - index]? = some bias ∧
      c = ⟨c.removed, .gemm, matmul.inputs ++ [bias], canonicalAttributes⟩ := by
  unfold candidate at h
  simp only [Option.bind_eq_bind, Option.bind_eq_some_iff, guard, Option.pure_def] at h
  obtain ⟨_, hhead, ⟨index, removed⟩, hproduct, id, hat, matmul, hthere, _, hguards, bias,
    hother, h⟩ := h
  cases h
  split at hhead
  · rename_i hshape
    split at hguards
    · rename_i huses
      rw [Bool.and_eq_true, Bool.and_eq_true, beq_iff_eq, beq_iff_eq, beq_iff_eq] at hshape
      rw [Bool.and_eq_true, Bool.and_eq_true, beq_iff_eq, beq_iff_eq] at huses
      exact ⟨index, id, bias, matmul, hshape.1.1, hshape.1.2, hshape.2, hproduct, hat,
        hthere, huses.1.1, huses.1.2, huses.2, hother, rfl⟩
    · cases hguards
  · cases hhead

/-- The checks of `match`, passed. -/
theorem candidate_of {add matmul : Node} {index removed : Nat} {product bias : ValueId}
    (hop : add.op = .add) (htwo : add.inputs.length = 2) (hone : add.outputs.length = 1)
    (hsearched : findProduct g add.inputs.zipIdx none = some (index, removed))
    (hhere : add.inputs[index]? = some product) (hthere : g.nodes[removed]? = some matmul)
    (htwo' : matmul.inputs.length = 2) (houtputs : matmul.outputs = [product])
    (hused : usedOnce g product add.id = true) (hother : add.inputs[1 - index]? = some bias) :
    candidate g add = some ⟨removed, .gemm, matmul.inputs ++ [bias], canonicalAttributes⟩ := by
  unfold candidate
  simp only [hop, htwo, hone, hsearched, hhere, hthere, htwo', houtputs, hused, hother, guard,
    beq_self_eq_true, Bool.and_self, if_true, Option.bind_eq_bind, Option.bind_some,
    Option.pure_def]

/-- `match` finds an `Add` of a `MatMul`. -/
def pattern : Pattern α where
  name := "MatMulAddCanonicalizationPass"
  head := .add
  producer := .matMul
  fused := .gemm
  candidate := candidate
  head_ne := by decide
  fused_ne_head := by decide
  fused_ne_producer := by decide
  fused_ne_softmax := by decide
  fuses := by
    intro g add c hwf h
    obtain ⟨index, product, bias, matmul, hop, htwo, -, hsearched, hhere, hthere, -, houtputs,
      hused, hother, heq⟩ :=
      candidate_some h
    obtain ⟨v, hmem, hproduced⟩ := (findProduct_some hsearched).resolve_left (by simp)
    obtain ⟨value, node, -, -, hfound, hmatmul_op⟩ := producerOf_eq_some.1 hproduced
    rw [hthere] at hfound
    cases hfound
    obtain ⟨a, b, htwo⟩ := List.length_eq_two.1 htwo
    refine ⟨matmul, product, hop, by rw [heq], hthere, hmatmul_op, houtputs,
      List.mem_of_getElem? hhere, (usedOnce_iff hwf).1 hused, ?_⟩
    -- The bias is the other input.
    have hrest : add.inputs.erase product = [bias] := by
      rw [htwo] at hhere hother ⊢
      match index with
      | 0 =>
        cases hhere
        cases hother
        rw [List.erase_cons_head]
      | 1 =>
        cases hhere
        cases hother
        by_cases hsame : bias = product
        · rw [hsame, List.erase_cons_head]
        · rw [List.erase_cons_tail (by simpa using hsame), List.erase_cons_head]
      | index + 2 => cases hhere
    rw [heq, hrest]
    exact List.perm_append_comm

end MatMulAddCanonicalizationPass

namespace GemmActivationFusionPass

/-- What a candidate activation has established. -/
theorem candidate_some {activation : Node} {c : Candidate} (h : candidate g activation = some c) :
    ∃ output gemm, activation.op = .reLU ∧ activation.inputs = [output] ∧
      activation.outputs.length = 1 ∧ producerOf g .gemm output = some c.removed ∧
      usedOnce g output activation.id = true ∧ g.nodes[c.removed]? = some gemm ∧
      gemm.outputs = [output] ∧
      c = ⟨c.removed, .fusedGemmActivation, gemm.inputs, activate gemm.attributes⟩ := by
  unfold candidate at h
  simp only [Option.bind_eq_bind, Option.bind_eq_some_iff, guard, Option.pure_def] at h
  obtain ⟨_, hhead, output, hfirst, removed, hproduced, _, hused, gemm, hthere, _, houts, h⟩ := h
  cases h
  split at hhead
  · rename_i hshape
    split at hused
    · rename_i huses
      split at houts
      · rename_i houtputs
        rw [Bool.and_eq_true, Bool.and_eq_true, beq_iff_eq, beq_iff_eq, beq_iff_eq] at hshape
        obtain ⟨only, hone⟩ := List.length_eq_one_iff.1 hshape.1.2
        rw [hone] at hfirst
        cases hfirst
        exact ⟨output, gemm, hshape.1.1, hone, hshape.2, hproduced, huses, hthere,
          beq_iff_eq.1 houtputs, rfl⟩
      · cases houts
    · cases hused
  · cases hhead

/-- The checks of `match`, passed. -/
theorem candidate_of {activation gemm : Node} {output : ValueId} {removed : NodeId}
    (hop : activation.op = .reLU) (honly : activation.inputs = [output])
    (hone : activation.outputs.length = 1) (hproduced : producerOf g .gemm output = some removed)
    (hused : usedOnce g output activation.id = true) (hthere : g.nodes[removed]? = some gemm)
    (houtputs : gemm.outputs = [output]) :
    candidate g activation =
      some ⟨removed, .fusedGemmActivation, gemm.inputs, activate gemm.attributes⟩ := by
  unfold candidate
  simp [hop, honly, hone, hproduced, hused, hthere, houtputs, guard]

/-- `match` finds a `ReLU` of a `Gemm`. -/
def pattern : Pattern α where
  name := "GemmActivationFusionPass"
  head := .reLU
  producer := .gemm
  fused := .fusedGemmActivation
  candidate := candidate
  head_ne := by decide
  fused_ne_head := by decide
  fused_ne_producer := by decide
  fused_ne_softmax := by decide
  fuses := by
    intro g activation c hwf h
    obtain ⟨output, gemm, hop, hone, -, hproduced, hused, hthere, houtputs, heq⟩ := candidate_some h
    obtain ⟨value, node, -, -, hfound, hgemm_op⟩ := producerOf_eq_some.1 hproduced
    rw [hthere] at hfound
    cases hfound
    refine ⟨gemm, output, hop, by rw [heq], hthere, hgemm_op, houtputs, ?_,
      (usedOnce_iff hwf).1 hused, ?_⟩
    · rw [hone]
      exact List.mem_singleton_self output
    · rw [heq, hone, List.erase_cons_head, List.nil_append]

end GemmActivationFusionPass

/-! ## Matching -/

/-- The specs that `fits` reads. -/
theorem specs_filterMap {ids : List ValueId}
    (hknown : ∀ v ∈ ids, ∃ value, g.values[v]? = some value) :
    Specs g ids (ids.filterMap fun id => (g.values[id]?).map (·.spec)) := by
  induction ids with
  | nil => exact .nil
  | cons id ids ih =>
    obtain ⟨⟨value, hfound⟩, hrest⟩ := List.forall_mem_cons.1 hknown
    have hspec : (g.values[id]?).map (·.spec) = some value.spec := by
      rw [hfound]
      rfl
    rw [List.filterMap_cons, hspec]
    exact .cons hspec (ih hrest)

/-- Every exception of the schema of these operators has a handler in `match`. -/
theorem fits_returns {op : OpType} (hother : op ≠ .softmax) (ids : List ValueId)
    (attributes : NodeAttributes) (out : ValueId) :
    ∃ fit, fits g op ids attributes out = .ok fit := by
  unfold fits
  cases hresult : inferOutputSpecs op (ids.filterMap fun id => (g.values[id]?).map (·.spec))
    attributes with
  | ok inferred => exact ⟨_, rfl⟩
  | error e =>
    rcases inferOutputSpecs_error hresult with handled | ⟨-, hsoftmax, -⟩
    · cases e with
      | invalidArgument | overflowError => exact ⟨false, rfl⟩
      | outOfRange => exact ⟨false, rfl⟩
      | logicError | runtimeError => exact handled.elim
    · exact absurd hsoftmax hother

theorem fits_true {op : OpType} {ids : List ValueId} {attributes : NodeAttributes} {out : ValueId}
    (h : fits g op ids attributes out = .ok true) {value : GraphValue}
    (hfound : g.values[out]? = some value) :
    inferOutputSpecs op (ids.filterMap fun id => (g.values[id]?).map (·.spec)) attributes =
      .ok [value.spec] := by
  unfold fits at h
  split at h
  · rename_i inferred hresult
    rw [hresult]
    have hsame : inferred.length = 1 ∧ inferred.head? = some value.spec := by
      simpa [hfound] using h
    obtain ⟨spec, rfl⟩ := List.length_eq_one_iff.1 hsame.1
    cases hsame.2
    rfl
  · cases h
  · cases h
  · cases h
  · cases h

namespace Pattern

variable (P : Pattern α)

/-- The candidate for a node. -/
def matched (g : Graph α) (node : Node) : Option Candidate :=
  match matchNode P.candidate g node with
  | .ok c => c
  | .error _ => none

theorem matchNode_eq (hwf : g.WellFormed) (node : Node) :
    matchNode P.candidate g node = .ok (P.matched g node) := by
  unfold matched
  unfold matchNode
  cases hfound : P.candidate g node with
  | none => rfl
  | some c =>
    obtain ⟨gone, product, hfuses⟩ := P.fuses g node c hwf hfound
    have hother : c.op ≠ .softmax := by
      rw [hfuses.fused_op]
      exact P.fused_ne_softmax
    obtain ⟨fit, heq⟩ := fits_returns (g := g) hother c.inputs c.attributes (node.outputs.headD 0)
    dsimp only
    rw [heq]
    rfl

/-- A match is a candidate that fits. -/
theorem matched_some {node : Node} {c : Candidate} :
    P.matched g node = some c ↔ P.candidate g node = some c ∧
      fits g c.op c.inputs c.attributes (node.outputs.headD 0) = .ok true := by
  unfold matched matchNode
  cases P.candidate g node with
  | none => exact ⟨fun h => (by cases h), fun h => (by cases h.1)⟩
  | some d =>
    dsimp only
    constructor
    · intro h
      cases hfit : fits g d.op d.inputs d.attributes (node.outputs.headD 0) with
      | error e =>
        rw [hfit] at h
        cases h
      | ok b =>
        rw [hfit] at h
        cases b with
        | false => cases h
        | true =>
          cases h
          exact ⟨rfl, hfit⟩
    · rintro ⟨h, hfit⟩
      cases h
      rw [hfit]
      rfl

theorem candidates_eq (hwf : g.WellFormed) :
    g.nodes.mapM (matchNode P.candidate g) = .ok (g.nodes.map (P.matched g)) := by
  rw [mapM_ok, List.forall₂_map_right_iff]
  exact List.forall₂_same.2 fun node _ => P.matchNode_eq hwf node

/-- The node goes. -/
def Removed (g : Graph α) (p : NodeId) : Prop :=
  ∃ node ∈ g.nodes, ∃ c, P.matched g node = some c ∧ c.removed = p

theorem mem_removed {p : NodeId} :
    p ∈ (g.nodes.map (P.matched g)).filterMap (fun c => c.map Candidate.removed) ↔
      P.Removed g p := by
  rw [List.mem_filterMap]
  constructor
  · rintro ⟨c, hmem, hsame⟩
    obtain ⟨node, hknown, rfl⟩ := List.mem_map.1 hmem
    obtain ⟨c, heq, hsame⟩ := Option.map_eq_some_iff.1 hsame
    exact ⟨node, hknown, c, heq, hsame⟩
  · rintro ⟨node, hknown, c, heq, hsame⟩
    exact ⟨some c, List.mem_map.2 ⟨node, hknown, heq⟩, by rw [Option.map_some, hsame]⟩

theorem matched_fuses (hwf : g.WellFormed) {node : Node} {c : Candidate}
    (h : P.matched g node = some c) :
    ∃ gone product, Fuses P.head P.producer P.fused g node c gone product :=
  P.fuses g node c hwf ((P.matched_some).1 h).1

/-- A node that goes is the producer of the input of a head. -/
theorem removed_fuses (hwf : g.WellFormed) {p : NodeId} {node : Node}
    (hfound : g.nodes[p]? = some node) (h : P.Removed g p) :
    ∃ user ∈ g.nodes, ∃ c product, P.matched g user = some c ∧ c.removed = p ∧
      Fuses P.head P.producer P.fused g user c node product := by
  obtain ⟨user, hmem, c, heq, hsame⟩ := h
  obtain ⟨gone, product, hfuses⟩ := P.matched_fuses hwf heq
  have hthere := hfuses.found
  rw [hsame, hfound] at hthere
  cases hthere
  exact ⟨user, hmem, c, product, heq, hsame, hfuses⟩

/-- A head stays. -/
theorem not_removed (hwf : g.WellFormed) {p : NodeId} {node : Node}
    (hfound : g.nodes[p]? = some node) {c : Candidate} (h : P.matched g node = some c) :
    ¬ P.Removed g p := by
  intro hremoved
  obtain ⟨user, -, d, product, -, -, hfuses⟩ := P.removed_fuses hwf hfound hremoved
  obtain ⟨gone, product', hfuses'⟩ := P.matched_fuses hwf h
  exact P.head_ne (hfuses'.op.symm.trans hfuses.gone_op)

open Classical in
/-- What becomes of a node. -/
noncomputable def action (g : Graph α) (p : NodeId) (node : Node) : Action α :=
  if P.Removed g p then .remove
  else
    match P.matched g node with
    | some c => .emit c.op c.inputs c.attributes
    | none => .emit node.op node.inputs node.attributes

theorem action_keeps {p : NodeId} {node : Node} (hstays : ¬ P.Removed g p) :
    (P.action g p node).keeps = true := by
  unfold action
  rw [if_neg hstays]
  split <;> rfl

/-- A value that comes from a node that goes is read by its head alone. -/
theorem reader_of_removed (hwf : g.WellFormed) {v : ValueId} {value : GraphValue} {p q : NodeId}
    {node : Node} (hfound : g.values[v]? = some value) (hproducer : value.producer = some q)
    (hremoved : P.Removed g q) (hthere : g.nodes[p]? = some node) (hread : v ∈ node.inputs) :
    ∃ c gone, P.matched g node = some c ∧ c.removed = q ∧
      Fuses P.head P.producer P.fused g node c gone v := by
  obtain ⟨gone, hhere, houtputs⟩ := node_of_producer hwf hfound hproducer
  obtain ⟨user, hmem, c, product, heq, hsame, hfuses⟩ := P.removed_fuses hwf hhere hremoved
  have hproduct_eq : product = v := by simpa [houtputs] using hfuses.outputs.symm
  subst hproduct_eq
  have hknown := found_of_mem hwf hmem
  rw [← hfuses.only.only p node hthere hread, hthere] at hknown
  cases hknown
  exact ⟨c, gone, heq, hsame, hfuses⟩

/-- What the new node reads comes from nodes that stay and are older. -/
theorem reads_kept (hwf : g.WellFormed) {p : NodeId} {node : Node}
    (hfound : g.nodes[p]? = some node) {v : ValueId}
    (hread : v ∈ ((P.matched g node).elim node.inputs (·.inputs))) :
    ∃ value, g.values[v]? = some value ∧
      ∀ q, value.producer = some q → q < p ∧ ¬ P.Removed g q := by
  cases heq : P.matched g node with
  | none =>
    rw [heq] at hread
    obtain ⟨value, hthere, holder⟩ := (hwf.node p node hfound).inputs v hread
    refine ⟨value, hthere, fun q hproducer => ⟨holder q hproducer, fun hremoved => ?_⟩⟩
    obtain ⟨c, gone, hmatched, -⟩ := P.reader_of_removed hwf hthere hproducer hremoved hfound hread
    rw [heq] at hmatched
    cases hmatched
  | some c =>
    rw [heq] at hread
    obtain ⟨gone, product, hfuses⟩ := P.matched_fuses hwf heq
    rcases List.mem_append.1 (hfuses.inputs.mem_iff.1 hread) with hold | hnew
    · -- The head reads the output of the node that goes once, and that is erased.
      have hread := List.mem_of_mem_erase hold
      obtain ⟨value, hthere, holder⟩ := (hwf.node p node hfound).inputs v hread
      refine ⟨value, hthere, fun q hproducer => ⟨holder q hproducer, fun hremoved => ?_⟩⟩
      obtain ⟨d, gone', hmatched, -, hfuses'⟩ :=
        P.reader_of_removed hwf hthere hproducer hremoved hfound hread
      rw [heq] at hmatched
      cases hmatched
      have hthere' := hfuses'.found
      rw [hfuses.found] at hthere'
      cases hthere'
      have hsame : product = v := by simpa [hfuses.outputs] using hfuses'.outputs
      subst hsame
      obtain ⟨other, hhere, honce⟩ := hfuses.only.once
      rw [hwf.node_id p node hfound, hfound] at hhere
      cases hhere
      have hleft := List.count_pos_iff.2 hold
      rw [List.count_erase_self, honce] at hleft
      exact absurd hleft (Nat.lt_irrefl 0)
    · -- The node that goes is no head.
      obtain ⟨value, hthere, holder⟩ := (hwf.node c.removed gone hfuses.found).inputs v hnew
      obtain ⟨out, hproduced, hbefore⟩ := (hwf.node p node hfound).inputs product hfuses.read
      obtain ⟨out', hhere, hproducer⟩ := producer_of_output hwf hfuses.found
        (by rw [hfuses.outputs]; exact List.mem_singleton_self product)
      rw [hproduced] at hhere
      cases hhere
      refine ⟨value, hthere, fun q holder' =>
        ⟨Nat.lt_trans (holder q holder') (hbefore _ hproducer), ?_⟩⟩
      intro hremoved
      obtain ⟨d, gone', hmatched, -⟩ :=
        P.reader_of_removed hwf hthere holder' hremoved hfuses.found hnew
      exact P.not_removed hwf hfuses.found hmatched ⟨node, List.mem_of_getElem? hfound, c, heq, rfl⟩

/-- An output comes from a node that stays. -/
theorem output_kept (hwf : g.WellFormed) {v : ValueId} (hmem : v ∈ g.outputIds) :
    ∃ value, g.values[v]? = some value ∧ ∀ q, value.producer = some q → ¬ P.Removed g q := by
  have hfound := List.getElem?_eq_getElem (hwf.outputs_lt v hmem)
  refine ⟨_, hfound, fun q hproducer hremoved => ?_⟩
  obtain ⟨gone, hthere, houtputs⟩ := node_of_producer hwf hfound hproducer
  obtain ⟨user, -, c, product, -, -, hfuses⟩ := P.removed_fuses hwf hthere hremoved
  have hsame : product = v := by simpa [houtputs] using hfuses.outputs.symm
  exact hfuses.only.not_output (hsame ▸ hmem)

/-- The new node gives the output its spec. -/
theorem action_infers (hwf : g.WellFormed) {p : NodeId} {node : Node}
    (hfound : g.nodes[p]? = some node) {c : Candidate} (heq : P.matched g node = some c) :
    Infers g node c.op c.inputs c.attributes := by
  obtain ⟨out, value, -, houtputs, hthere, -⟩ := (hwf.node p node hfound).output
  have hfit := ((P.matched_some).1 heq).2
  rw [houtputs, List.headD_cons] at hfit
  refine ⟨out, value, _, houtputs, hthere, specs_filterMap fun v hmem => ?_, fits_true hfit hthere⟩
  obtain ⟨input, hknown, -⟩ := P.reads_kept hwf hfound (v := v) (by rw [heq]; exact hmem)
  exact ⟨input, hknown⟩

end Pattern

/-! ## The run -/

section

variable (P : Pattern α) {model : Model α}

/-- Everything a fusion keeps is wanted. -/
def Anything (_ : ValueId) : Prop := True

/-- What becomes of the nodes of a model. -/
abbrev Pattern.Plan (model : Model α) (actions : List (Action α)) : Prop :=
  Follows model.graph.tables (P.action model.graph.tables) actions

theorem Pattern.available {actions : List (Action α)} (hplan : P.Plan model actions) {v : ValueId}
    {value : GraphValue} (hfound : model.graph.tables.values[v]? = some value)
    (hkept : ∀ q, value.producer = some q → q < actions.length ∧ ¬ P.Removed model.graph.tables q) :
    Available model.graph.tables actions Anything v := by
  refine ⟨value, hfound, fun _ => trivial, fun q hproducer => ?_⟩
  obtain ⟨holder, hstays⟩ := hkept q hproducer
  obtain ⟨before, hthere, -⟩ := node_of_producer model.graph.wf hfound hproducer
  exact ⟨_, hplan q before holder hthere, P.action_keeps hstays⟩

/-- One round of the loop over the nodes. -/
theorem fuseStep_ok {actions : List (Action α)} {r : GraphRewriter α} {fused : Nat}
    (h : Open model.graph.tables model.graph.tables.inputIds actions Anything r)
    (hplan : P.Plan model actions) {node : Node}
    (hfound : model.graph.tables.nodes[actions.length]? = some node) :
    ∃ state, fuseStep model (model.graph.tables.nodes.map (P.matched model.graph.tables)) (r, fused)
        actions.length = .ok state ∧
      Open model.graph.tables model.graph.tables.inputIds
        (actions ++ [P.action model.graph.tables actions.length node]) Anything state.1 := by
  have hwf := model.graph.wf
  have hentry :
    ((model.graph.tables.nodes.map (P.matched model.graph.tables))[actions.length]?).join =
      P.matched model.graph.tables node := by
    rw [List.getElem?_map, hfound]
    rfl
  have havailable (v : ValueId)
      (hread : v ∈ (P.matched model.graph.tables node).elim node.inputs (·.inputs)) :
      Available model.graph.tables actions Anything v := by
    obtain ⟨value, hthere, hkept⟩ := P.reads_kept hwf hfound hread
    exact P.available hplan hthere hkept
  unfold fuseStep Pattern.action
  dsimp only
  rw [hentry]
  by_cases hremoved : P.Removed model.graph.tables actions.length
  · refine ⟨(r, fused), ?_, ?_⟩
    · rw [if_pos (List.contains_iff_mem.2 (P.mem_removed.2 hremoved))]
    · rw [if_pos hremoved]
      exact ⟨h.rewrites.remove hfound, h.unfinished, h.outputIds⟩
  · rw [if_neg fun hagain => hremoved (P.mem_removed.1 (List.contains_iff_mem.1 hagain)),
      if_neg hremoved]
    cases heq : P.matched model.graph.tables node with
    | none =>
      rw [heq] at havailable
      obtain ⟨q, r', hcopied, hnext⟩ := GraphRewriter.copyNode_ok h hfound havailable
      exact ⟨(r', fused), bind_ok.2 ⟨_, hcopied, rfl⟩, hnext⟩
    | some c =>
      rw [heq] at havailable
      obtain ⟨q, r', hreplaced, hnext⟩ :=
        GraphRewriter.replaceNode_ok h hfound havailable (P.action_infers hwf hfound heq)
      exact ⟨(r', fused + 1), bind_ok.2 ⟨_, hreplaced, rfl⟩, hnext⟩

/-- The part of a pass after a candidate was found. -/
theorem fuseCandidates_ok (model : Model α) :
    ∃ optimized mapping actions fused,
      fuseCandidates P.name (model.graph.tables.nodes.map (P.matched model.graph.tables)) model =
        .ok ⟨optimized, mapping, [{ sizes P.name model.graph.tables optimized.graph.tables with
          nodesRewritten := fused
          changed := fused != 0 }]⟩ ∧
      Rewritten model optimized actions Anything mapping ∧ P.Plan model actions := by
  have hwf := model.graph.wf
  obtain ⟨r₀, hstarted, hopen₀⟩ := GraphRewriter.start_ok model Anything
  obtain ⟨⟨r₁, fused⟩, hloop, actions, hplan, hcomplete, hopen₁⟩ :=
    foldlM_range_ok (n := model.graph.tables.nodes.length) (a := (r₀, 0))
      (f := fuseStep model (model.graph.tables.nodes.map (P.matched model.graph.tables)))
      (P := fun k state => ∃ actions, P.Plan model actions ∧ actions.length = k ∧
        Open model.graph.tables model.graph.tables.inputIds actions Anything state.1)
      ⟨[], fun _ _ hless _ => absurd hless (Nat.not_lt_zero _), rfl, hopen₀⟩ (by
        rintro k hless ⟨r, fused⟩ ⟨actions, hplan, rfl, h⟩
        have hfound := List.getElem?_eq_getElem hless
        obtain ⟨state, hrun, hnext⟩ := fuseStep_ok P h hplan hfound
        refine ⟨state, hrun, _, hplan.concat hfound, ?_, hnext⟩
        rw [List.length_append, List.length_singleton])
  have hconstants : ∀ v ∈ constantIds model.graph.tables,
      Available model.graph.tables actions Anything v := by
    intro v hmem
    obtain ⟨value, hknown, rfl⟩ := List.mem_map.1 hmem
    obtain ⟨hknown, hconstant⟩ := List.mem_filter.1 hknown
    obtain ⟨i, hfound⟩ := List.getElem?_of_mem hknown
    rw [hwf.value_id i value hfound]
    refine P.available hplan hfound fun q hproducer => ?_
    have hkind := kind_of_producer hwf hfound hproducer
    rw [beq_iff_eq.1 hconstant] at hkind
    cases hkind
  have houtputs : ∀ v ∈ model.graph.tables.outputIds,
      Available model.graph.tables actions Anything v := by
    intro v hmem
    obtain ⟨value, hfound, hstays⟩ := P.output_kept hwf hmem
    refine P.available hplan hfound fun q hproducer => ⟨?_, hstays q hproducer⟩
    obtain ⟨node, hthere, -⟩ := node_of_producer hwf hfound hproducer
    rw [hcomplete]
    exact (List.getElem?_eq_some_iff.1 hthere).1
  obtain ⟨r₂, hcopied, hopen₂, -⟩ := GraphRewriter.copyMissing_ok hopen₁ hconstants
  obtain ⟨r₃, hcopied', hopen₃, hmapped, -⟩ := GraphRewriter.copyMissing_ok hopen₂ houtputs
  obtain ⟨optimized, hfinished, hrewritten⟩ := GraphRewriter.finish_ok hopen₃ hcomplete hmapped
  refine ⟨optimized, r₃.valueMapping, actions, fused, ?_, hrewritten, hplan⟩
  exact bind_ok.2 ⟨r₀, hstarted,
    bind_ok.2 ⟨_, model.order_eq,
      bind_ok.2 ⟨_, hloop, bind_ok.2
        ⟨r₂, hcopied, bind_ok.2 ⟨r₃, hcopied', bind_ok.2 ⟨optimized, hfinished, rfl⟩⟩⟩⟩⟩⟩

/-- A pass that fuses leaves a model without candidates as it is, and else returns a
rewrite of it. -/
theorem fuse_ok (model : Model α) :
    ((∀ node ∈ model.graph.tables.nodes, P.matched model.graph.tables node = none) ∧
      fuse P.name P.candidate model = .ok (untouched P.name model)) ∨
    ∃ optimized mapping actions fused,
      fuse P.name P.candidate model =
        .ok ⟨optimized, mapping, [{ sizes P.name model.graph.tables optimized.graph.tables with
          nodesRewritten := fused
          changed := fused != 0 }]⟩ ∧
      Rewritten model optimized actions Anything mapping ∧ P.Plan model actions := by
  have hwf := model.graph.wf
  have hvalid := (Graph.validate_ok hwf).2 model.outputs_ne
  unfold fuse
  by_cases hnone :
    (model.graph.tables.nodes.map (P.matched model.graph.tables)).all Option.isNone = true
  · refine .inl ⟨fun node hmem => ?_, ?_⟩
    · rw [List.all_eq_true] at hnone
      exact Option.isNone_iff_eq_none.1 (hnone _ (List.mem_map_of_mem hmem))
    · refine check_ok.2 ⟨hvalid, bind_ok.2 ⟨_, P.candidates_eq hwf, ?_⟩⟩
      rw [if_pos hnone]
  · obtain ⟨optimized, mapping, actions, fused, hrun, hrest⟩ := fuseCandidates_ok P model
    refine .inr ⟨optimized, mapping, actions, fused, ?_, hrest⟩
    refine check_ok.2 ⟨hvalid, bind_ok.2 ⟨_, P.candidates_eq hwf, ?_⟩⟩
    rw [if_neg hnone]
    exact hrun

end

/-! ## What becomes of a node -/

/-- A node is copied, or is a head that takes over the work of another, or goes. -/
inductive FusedAction (P : Pattern α) (g : Graph α) (actions : List (Action α)) (p : NodeId)
    (node : Node) : Prop where
  | plain (unmatched : P.matched g node = none)
      (action : actions[p]? = some (.emit node.op node.inputs node.attributes))
  | head (c : Candidate) (gone : Node) (product : ValueId) (matched : P.matched g node = some c)
      (fuses : Fuses P.head P.producer P.fused g node c gone product)
      (action : actions[p]? = some (.emit c.op c.inputs c.attributes))
      (goes : actions[c.removed]? = some .remove)
  | gone (user : Node) (c : Candidate) (product : ValueId)
      (found : g.nodes[user.id]? = some user)
      (fuses : Fuses P.head P.producer P.fused g user c node product)
      (action : actions[p]? = some .remove)
      (stays : actions[user.id]? = some (.emit c.op c.inputs c.attributes))

/-- The action at each node: absorbed, fused or copied. -/
theorem Pattern.Plan.fusedAction {P : Pattern α} {model : Model α} {actions : List (Action α)}
    (hplan : P.Plan model actions) (hcomplete : actions.length = model.graph.tables.nodes.length)
    {p : NodeId} {node : Node} (hfound : model.graph.tables.nodes[p]? = some node) :
    FusedAction P model.graph.tables actions p node := by
  have hwf := model.graph.wf
  have hacted (q : NodeId) (other : Node) (hthere : model.graph.tables.nodes[q]? = some other) :
      actions[q]? = some (P.action model.graph.tables q other) := by
    refine hplan q other ?_ hthere
    rw [hcomplete]
    exact (List.getElem?_eq_some_iff.1 hthere).1
  have hheads (q : NodeId) (other : Node) (hthere : model.graph.tables.nodes[q]? = some other)
      (c : Candidate) (hmatched : P.matched model.graph.tables other = some c) :
      actions[q]? = some (.emit c.op c.inputs c.attributes) := by
    rw [hacted q other hthere, Pattern.action, if_neg (P.not_removed hwf hthere hmatched), hmatched]
  by_cases hremoved : P.Removed model.graph.tables p
  · obtain ⟨user, hmem, c, product, hmatched, hsame, hfuses⟩ := P.removed_fuses hwf hfound hremoved
    have hknown := found_of_mem hwf hmem
    refine .gone user c product hknown hfuses ?_ (hheads _ user hknown c hmatched)
    rw [hacted p node hfound, Pattern.action, if_pos hremoved]
  · cases hmatched : P.matched model.graph.tables node with
    | none =>
      refine .plain hmatched ?_
      rw [hacted p node hfound, Pattern.action, if_neg hremoved, hmatched]
    | some c =>
      obtain ⟨gone, product, hfuses⟩ := P.matched_fuses hwf hmatched
      refine .head c gone product hmatched hfuses (hheads p node hfound c hmatched) ?_
      rw [hacted _ gone hfuses.found, Pattern.action,
        if_pos ⟨node, List.mem_of_getElem? hfound, c, hmatched, rfl⟩]

end TinyInfer.Optimizer
