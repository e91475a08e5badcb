import TinyInfer.Optimizer.Folding

/-!
# One run of the pipeline is enough

After constant folding nothing can be folded, after dead code elimination everything is
live, after a fusion its pattern matches nothing, and the passes that come later in the
pipeline keep all that (`settled_of_run`). Of a graph with these properties every pass
returns a copy, with the same properties, and reports no change (`settled_pass`), so a
second run of the pipeline changes nothing (`pipeline_fixpoint`).

Main definitions: `Settled`, `Idle`, `pipeline`. Main result: `pipeline_fixpoint`.
-/

namespace TinyInfer.Optimizer

variable {α : Type}

/-! ## Copies -/

section

variable {source target : Model α} {actions : List (Action α)} {wanted : ValueId → Prop}
  {mapping : List (Option ValueId)}

/-- A rewrite that copies every node is a fusion that fuses nothing. -/
theorem fusion_of_copies (h : Rewritten source target actions wanted mapping)
    (hcopies : ConstantFoldingPass.Copies source.graph.tables actions)
    (head producer fused : OpType) :
    Fusion head producer fused source target actions wanted mapping where
  rewritten := h
  becomes p node hfound := .plain (hcopies p node (by
    rw [h.complete]
    exact (List.getElem?_eq_some_iff.1 hfound).1) hfound)

/-- If everything is live and every node is copied, every value has an image. -/
theorem all_mapped (h : Rewritten source target actions wanted mapping)
    (hcopies : ConstantFoldingPass.Copies source.graph.tables actions)
    (hlive : AllLive source.graph.tables) {v : ValueId}
    (hinside : v < source.graph.tables.values.length) : ∃ w, Mapped mapping v w := by
  have hwf := source.graph.wf
  have hfound := List.getElem?_eq_getElem hinside
  have himage {p : NodeId} {node : Node} (hthere : source.graph.tables.nodes[p]? = some node) :
      ∃ new, Emitted mapping node node.inputs new := by
    have haction := hcopies p node (by
      rw [h.complete]
      exact (List.getElem?_eq_some_iff.1 hthere).1) hthere
    obtain ⟨q, new, -, -, -, hemitted⟩ := h.rewrites.emitted_image hthere haction
    exact ⟨new, hemitted⟩
  have hmetadata := hwf.metadata v _ hfound
  unfold Graph.MetadataOk at hmetadata
  cases hkind : source.graph.tables.values[v].kind with
  | input =>
    obtain ⟨i, hhere⟩ := List.getElem?_of_mem ((hwf.inputs_mem v).2 ⟨_, hfound, hkind⟩)
    obtain ⟨w, -, hmapped⟩ := forall₂_left h.rewrites.inputIds hhere
    exact ⟨w, hmapped⟩
  | constant =>
    rcases (hlive.2 v _ hfound hkind).cases_output_or_read with hmem | ⟨node, hmem, -, hread⟩
    · exact h.output_mapped hmem
    · obtain ⟨p, hthere⟩ := List.getElem?_of_mem hmem
      obtain ⟨new, hemitted⟩ := himage hthere
      obtain ⟨w, -, hmapped⟩ := mapped_of_mem hemitted.inputs hread
      exact ⟨w, hmapped⟩
  | intermediate =>
    rw [hkind] at hmetadata
    obtain ⟨-, p, node, -, hthere, houtputs⟩ := hmetadata
    obtain ⟨new, hemitted⟩ := himage hthere
    obtain ⟨w, -, hmapped⟩ :=
      mapped_of_mem hemitted.outputs (by rw [houtputs]; exact List.mem_singleton_self v)
    exact ⟨w, hmapped⟩

/-- Where every node is copied, none is lost. -/
theorem nodes_length_of_copies (h : Rewritten source target actions wanted mapping)
    (hcopies : ConstantFoldingPass.Copies source.graph.tables actions) :
    target.graph.tables.nodes.length = source.graph.tables.nodes.length := by
  have hemits : (emitted actions).length = (List.range actions.length).length := by
    refine List.length_filter_eq_length_iff.2 fun p hmem => ?_
    have hinside := List.mem_range.1 hmem
    have hthere := hinside
    rw [h.complete] at hthere
    rw [hcopies p _ hinside (List.getElem?_eq_getElem hthere)]
    rfl
  rw [← h.rewrites.nodes.length_eq, hemits, List.length_range, h.complete]

theorem values_length_of_copies (h : Rewritten source target actions wanted mapping)
    (hcopies : ConstantFoldingPass.Copies source.graph.tables actions)
    (hlive : AllLive source.graph.tables) :
    target.graph.tables.values.length = source.graph.tables.values.length :=
  ((DeadCodeEliminationPass.values_length_eq h).2 fun _ hinside => all_mapped h hcopies
    hlive hinside).symm

end

/-! ## The passes -/

namespace DeadCodeEliminationPass

variable {source target : Model α} {actions : List (Action α)} {mapping : List (Option ValueId)}

/-- The image of a live value is live. -/
theorem live_image
    (h : Rewritten source target actions (LiveValue source.graph.tables) mapping)
    (hcopies : CopiesLive source.graph.tables actions) {v w : ValueId}
    (hlive : LiveValue source.graph.tables v) (hmapped : Mapped mapping v w) :
    LiveValue target.graph.tables w := by
  obtain ⟨output, hknown, hpath⟩ := hlive
  induction hpath using Relation.ReflTransGen.head_induction_on generalizing w with
  | refl => exact .output ((h.output_iff hmapped).2 hknown)
  | head hedge hrest ih =>
    obtain ⟨node, hmem, hread, hout⟩ := hedge
    obtain ⟨p, hfound⟩ := List.getElem?_of_mem hmem
    have haction := (hcopies p node hfound).1 ⟨_, hout, output, hknown, hrest⟩
    obtain ⟨q, image, hthere, -, -, hemitted⟩ := h.rewrites.emitted_image hfound haction
    obtain ⟨w', hmem', hmapped'⟩ := mapped_of_mem hemitted.inputs hread
    obtain ⟨x, hmem'', hmapped''⟩ := mapped_of_mem hemitted.outputs hout
    rw [hmapped'.unique hmapped] at hmem'
    exact .feeds ⟨image, List.mem_of_getElem? hthere, hmem', hmem''⟩ (ih hmapped'')

/-- After dead code elimination everything is live. -/
theorem allLive
    (h : Rewritten source target actions (LiveValue source.graph.tables) mapping)
    (hcopies : CopiesLive source.graph.tables actions) : AllLive target.graph.tables := by
  have hwf := source.graph.wf
  constructor
  · intro image hmem
    obtain ⟨q, hhere⟩ := List.getElem?_of_mem hmem
    obtain ⟨p, node, ids, hfound, haction, hemitted⟩ := h.rewrites.image_emitted hhere
    obtain ⟨v, hout, hlive⟩ := LiveNode_of_emitted hcopies (mem_emitted.2 ⟨_, _, _, haction⟩) hfound
    obtain ⟨w, hthere, hmapped⟩ := mapped_of_mem hemitted.outputs hout
    exact ⟨w, hthere, live_image h hcopies hlive hmapped⟩
  · intro w image hthere hconstant
    obtain ⟨v, hmapped⟩ := h.rewrites.surjective w (List.getElem?_eq_some_iff.1 hthere).1
    obtain ⟨value, image', hfound, hthere', hkind, -⟩ :=
      h.rewrites.copied hwf (no_folds h.complete hcopies) hmapped
    rw [hthere] at hthere'
    cases hthere'
    rw [hconstant] at hkind
    exact live_image h hcopies (h.rewrites.constants v w value hmapped hfound hkind.symm) hmapped

/-- Dead code elimination makes no node foldable. -/
theorem noFold
    (h : Rewritten source target actions (LiveValue source.graph.tables) mapping)
    (hcopies : CopiesLive source.graph.tables actions) (hbefore : NoFold source.graph.tables) :
    NoFold target.graph.tables := by
  refine noFold_of_reads h (no_folds h.complete hcopies)
    fun p node op ids attributes hfound haction => ?_
  have hlive := LiveNode_of_emitted hcopies (mem_emitted.2 ⟨_, _, _, haction⟩) hfound
  rw [(hcopies p node hfound).1 hlive] at haction
  injection Option.some.inj haction with _ hids_eq _
  rw [← hids_eq]
  exact hbefore node (List.mem_of_getElem? hfound)

/-- Where everything is live the pass copies the graph. -/
theorem copies_of_allLive {g : Graph α} (hcopies : CopiesLive g actions) (hlive : AllLive g) :
    ConstantFoldingPass.Copies g actions :=
  fun p node _ hfound => (hcopies p node hfound).1 (hlive.1 node (List.mem_of_getElem? hfound))

end DeadCodeEliminationPass

namespace Pattern.Plan

variable {P : Pattern α} {source target : Model α} {actions : List (Action α)}
  {mapping : List (Option ValueId)}

theorem fusion (hplan : P.Plan source actions)
    (h : Rewritten source target actions Anything mapping) :
    Fusion P.head P.producer P.fused source target actions Anything mapping where
  rewritten := h
  becomes p node hfound := by
    cases hplan.fusedAction h.complete hfound with
    | plain _ haction => exact .plain haction
    | head c gone product _ hfuses haction hgoes => exact .head c gone product hfuses haction hgoes
    | gone user c product hthere hfuses haction hstays =>
      exact .gone user c product hthere hfuses haction hstays

/-- A node that is copied was not matched. -/
theorem unmatched_of_copied (hplan : P.Plan source actions)
    (h : Rewritten source target actions Anything mapping) (p : NodeId) (node : Node)
    (hfound : source.graph.tables.nodes[p]? = some node)
    (haction : actions[p]? = some (.emit node.op node.inputs node.attributes)) :
    P.matched source.graph.tables node = none := by
  cases hplan.fusedAction h.complete hfound with
  | plain hunmatched _ => exact hunmatched
  | head c gone product _ hfuses haction' =>
    rw [haction] at haction'
    injection Option.some.inj haction' with hop _ _
    exact absurd (hfuses.fused_op.symm.trans (hop.symm.trans hfuses.op)) P.fused_ne_head
  | gone user c product _ _ haction' =>
    rw [haction] at haction'
    cases haction'

end Pattern.Plan

/-! ## What the pipeline leaves behind -/

/-- Nothing can be folded, everything is live, and neither pattern matches. -/
structure Settled (g : Graph α) : Prop where
  noFold : NoFold g
  allLive : AllLive g
  noProduct : Unmatched MatMulAddCanonicalizationPass.pattern g
  noActivation : Unmatched GemmActivationFusionPass.pattern g

section

variable {head producer fused : OpType} {source target : Model α} {actions : List (Action α)}
  {wanted : ValueId → Prop} {mapping : List (Option ValueId)}

/-- A fusion that has no business with `Add`s and `MatMul`s makes no match of these. -/
theorem noProduct_of_fusion (h : Fusion head producer fused source target actions wanted mapping)
    (hapart : fused ≠ head) (hnot_add : fused ≠ .add) (hnot_head : .matMul ≠ head)
    (hnot_fused : .matMul ≠ fused)
    (hbefore : ∀ (p : NodeId) (node : Node), source.graph.tables.nodes[p]? = some node →
      actions[p]? = some (.emit node.op node.inputs node.attributes) →
      MatMulAddCanonicalizationPass.pattern.matched source.graph.tables node = none) :
    Unmatched MatMulAddCanonicalizationPass.pattern target.graph.tables :=
  h.unmatched _ hnot_add (fun _ _ _ _ hcopy haction =>
    MatMulAddCanonicalizationPass.candidate_image h hapart hnot_head hnot_fused hcopy haction)
      hbefore

/-- A fusion makes no new activation after a Gemm. -/
theorem noActivation_of_fusion (h : Fusion head producer fused source target actions wanted mapping)
    (hapart : fused ≠ head) (hnot_relu : fused ≠ .reLU) (hnot_head : .gemm ≠ head)
    (hnot_fused : .gemm ≠ fused)
    (hbefore : ∀ (p : NodeId) (node : Node), source.graph.tables.nodes[p]? = some node →
      actions[p]? = some (.emit node.op node.inputs node.attributes) →
      GemmActivationFusionPass.pattern.matched source.graph.tables node = none) :
    Unmatched GemmActivationFusionPass.pattern target.graph.tables :=
  h.unmatched _ hnot_relu (fun _ _ _ _ hcopy haction =>
    GemmActivationFusionPass.candidate_image h hapart hnot_head hnot_fused hcopy haction) hbefore

/-- A copy is settled if the original is. -/
theorem Settled.copy (h : Rewritten source target actions wanted mapping)
    (hcopies : ConstantFoldingPass.Copies source.graph.tables actions)
    (hsettled : Settled source.graph.tables) : Settled target.graph.tables := by
  have hfusion := fusion_of_copies h hcopies .softmax .softmax .tanh
  constructor
  · exact hfusion.noFold hsettled.noFold
  · exact hfusion.allLive hsettled.allLive
  · refine noProduct_of_fusion hfusion (by decide) (by decide) (by decide) (by decide) ?_
    exact fun p node hfound _ => hsettled.noProduct node (List.mem_of_getElem? hfound)
  · refine noActivation_of_fusion hfusion (by decide) (by decide) (by decide) (by decide) ?_
    exact fun p node hfound _ => hsettled.noActivation node (List.mem_of_getElem? hfound)

end

/-! ## The checks of the pass manager -/

namespace PassManager

theorem checkBindings_ok {mapping : List (Option ValueId)} {e : Exn}
    {as bs : List (String × ValueId)} (hall : List.Forall₂ (NamedImage mapping) as bs) :
    checkBindings mapping e (as.zip bs) = .ok () := by
  induction hall with
  | nil => rfl
  | cons hhead _ ih =>
    refine check_ok.2 ⟨require_ok.2 ?_, ih⟩
    have hentry := hhead.2
    unfold Mapped at hentry
    rw [hentry, hhead.1]
    simp

/-- The pass manager accepts a result whose signatures are images of the old ones. -/
theorem validateInterface_of_images {before after : Model α} {mapping : List (Option ValueId)}
    (hlength : mapping.length = before.graph.tables.values.length)
    (hinside : ∀ v w, Mapped mapping v w → w < after.graph.tables.values.length)
    (hinputs : List.Forall₂ (NamedImage mapping) before.inputs after.inputs)
    (houtputs : List.Forall₂ (NamedImage mapping) before.outputs after.outputs) (name : String) :
    validateInterface before after mapping name = .ok () := by
  refine check_ok.2 ⟨require_ok.2 (by simpa using hlength), check_ok.2 ⟨require_ok.2 ?_,
    check_ok.2 ⟨require_ok.2 ?_, check_ok.2 ⟨checkBindings_ok hinputs, checkBindings_ok houtputs⟩⟩⟩⟩
  · rw [List.all_eq_true]
    intro entry hmem
    cases entry with
    | none => rfl
    | some w =>
      obtain ⟨v, hhere⟩ := List.getElem?_of_mem hmem
      simpa using hinside v w hhere
  · simp [hinputs.length_eq, houtputs.length_eq]

theorem validateInterface_of_rewritten {before after : Model α} {actions : List (Action α)}
    {wanted : ValueId → Prop} {mapping : List (Option ValueId)}
    (h : Rewritten before after actions wanted mapping) (name : String) :
    validateInterface before after mapping name = .ok () :=
  validateInterface_of_images h.rewrites.length (fun _ _ hmapped => h.rewrites.lt hmapped) h.inputs
    h.outputs name

theorem mapped_identity {count v w : Nat} :
    Mapped (identityMapping count) v w ↔ v < count ∧ w = v := by
  unfold Mapped identityMapping
  rw [List.getElem?_map]
  by_cases hinside : v < count
  · rw [List.getElem?_range hinside, Option.map_some]
    simp [hinside, eq_comm]
  · rw [List.getElem?_eq_none (by simpa using hinside)]
    simp [hinside]

/-- The pass manager accepts an untouched model. -/
theorem validateInterface_untouched (model : Model α) (name : String) :
    validateInterface model model
      (identityMapping model.graph.tables.values.length) name = .ok () := by
  have hbound := model.bound
  have hsame (named : List (String × ValueId))
      (hinside : ∀ a ∈ named, a.2 < model.graph.tables.values.length) :
      List.Forall₂ (NamedImage (identityMapping model.graph.tables.values.length)) named named := by
    refine List.forall₂_same.2 fun a hmem => ⟨rfl, mapped_identity.2 ⟨hinside a hmem, rfl⟩⟩
  refine validateInterface_of_images (by simp [identityMapping]) (fun v w hmapped => ?_)
    (hsame _ fun a hmem => ?_) (hsame _ fun a hmem => ?_) name
  · obtain ⟨hinside, rfl⟩ := mapped_identity.1 hmapped
    exact hinside
  · obtain ⟨value, hfound, -⟩ := hbound.inputs_kind a hmem
    exact (List.getElem?_eq_some_iff.1 hfound).1
  · exact model.graph.wf.outputs_lt _ (hbound.outputs_mem a hmem)

end PassManager

/-! ## Passes over a settled model -/

namespace ConstantFoldingPass

def pass (execute : Graph α → ValueId → Except Exn (Tensor α)) : GraphPass α :=
  ⟨"ConstantFoldingPass", run execute⟩

end ConstantFoldingPass

namespace DeadCodeEliminationPass

def pass : GraphPass α := ⟨"DeadCodeEliminationPass", run⟩

end DeadCodeEliminationPass

namespace MatMulAddCanonicalizationPass

def pass : GraphPass α := ⟨"MatMulAddCanonicalizationPass", run⟩

end MatMulAddCanonicalizationPass

namespace GemmActivationFusionPass

def pass : GraphPass α := ⟨"GemmActivationFusionPass", run⟩

end GemmActivationFusionPass

/-- The record of a pass that found and left `nodes` nodes and `values` values. -/
structure Unchanged (statistics : PassStatistics) (nodes values : Nat) : Prop where
  changed : statistics.changed = false
  nodesBefore : statistics.nodesBefore = nodes
  nodesAfter : statistics.nodesAfter = nodes
  valuesBefore : statistics.valuesBefore = values
  valuesAfter : statistics.valuesAfter = values

/-- The model has as many nodes and values as these. -/
def HasSize (model : Model α) (nodes values : Nat) : Prop :=
  model.graph.tables.nodes.length = nodes ∧ model.graph.tables.values.length = values

/-- The pass returns a settled model of the same size, and reports no change. -/
def Idle (pass : GraphPass α) (model : Model α) (nodes values : Nat) : Prop :=
  ∃ after mapping statistics, pass.run model = .ok ⟨after, mapping, [statistics]⟩ ∧
    PassManager.validateInterface model after mapping pass.name = .ok () ∧
    statistics.passName = pass.name ∧ Unchanged statistics nodes values ∧
    HasSize after nodes values ∧
    Settled after.graph.tables

section

variable {model : Model α} {nodes values : Nat}

theorem HasSize.unchanged (hsize : HasSize model nodes values) {after : Model α}
    (hsize' : HasSize after nodes values) {statistics : PassStatistics} {name : String}
    (heq : statistics = sizes name model.graph.tables after.graph.tables) :
    Unchanged statistics nodes values := by
  subst heq
  exact ⟨rfl, hsize.1, hsize'.1, hsize.2, hsize'.2⟩

theorem HasSize.copy (hsize : HasSize model nodes values) {after : Model α}
    {actions : List (Action α)} {wanted : ValueId → Prop} {mapping : List (Option ValueId)}
    (h : Rewritten model after actions wanted mapping)
    (hcopies : ConstantFoldingPass.Copies model.graph.tables actions)
    (hlive : AllLive model.graph.tables) : HasSize after nodes values :=
  ⟨(nodes_length_of_copies h hcopies).trans hsize.1,
    (values_length_of_copies h hcopies hlive).trans hsize.2⟩

theorem constantFolding_idle (execute : Graph α → ValueId → Except Exn (Tensor α))
    (hsettled : Settled model.graph.tables) (hsize : HasSize model nodes values) :
    Idle (ConstantFoldingPass.pass execute) model nodes values := by
  obtain ⟨after, mapping, actions, hrun, h, hcopies⟩ :=
    ConstantFoldingPass.run_of_noFold execute hsettled.noFold
  have hsize' := hsize.copy h hcopies hsettled.allLive
  exact ⟨after, mapping, _, hrun, PassManager.validateInterface_of_rewritten h _, rfl,
    hsize.unchanged hsize' rfl, hsize', hsettled.copy h hcopies⟩

/-- On a settled model dead code elimination changes nothing. -/
theorem deadCode_idle (hsettled : Settled model.graph.tables) (hsize : HasSize model nodes values) :
    Idle DeadCodeEliminationPass.pass model nodes values := by
  obtain ⟨after, mapping, actions, hrun, h, hcopies⟩ := DeadCodeEliminationPass.run_ok model
  have hall := DeadCodeEliminationPass.copies_of_allLive hcopies hsettled.allLive
  have hsize' := hsize.copy h hall hsettled.allLive
  have hsame : model.graph.tables.nodes.length = after.graph.tables.nodes.length ∧
      model.graph.tables.values.length = after.graph.tables.values.length :=
    ⟨hsize.1.trans hsize'.1.symm, hsize.2.trans hsize'.2.symm⟩
  refine ⟨after, mapping, _, hrun, PassManager.validateInterface_of_rewritten h _, rfl,
    ⟨?_, hsize.1, hsize'.1, hsize.2, hsize'.2⟩, hsize', hsettled.copy h hall⟩
  simp [DeadCodeEliminationPass.statistics, hsame.1, hsame.2]

/-- Where nothing matches a pass that fuses is done at once. -/
theorem fuse_of_unmatched (P : Pattern α) (model : Model α)
    (hnone : Unmatched P model.graph.tables) :
    fuse P.name P.candidate model = .ok (untouched P.name model) := by
  have hvalid := (Graph.validate_ok model.graph.wf).2 model.outputs_ne
  refine check_ok.2 ⟨hvalid, bind_ok.2 ⟨_, P.candidates_eq model.graph.wf, ?_⟩⟩
  have hall :
    (model.graph.tables.nodes.map (P.matched model.graph.tables)).all Option.isNone = true := by
    rw [List.all_eq_true]
    intro c hmem
    obtain ⟨node, hknown, rfl⟩ := List.mem_map.1 hmem
    rw [hnone node hknown]
    rfl
  rw [if_pos hall]

theorem untouched_idle (pass : GraphPass α)
    (hrun : pass.run model = .ok (untouched pass.name model))
    (hsettled : Settled model.graph.tables) (hsize : HasSize model nodes values) :
    Idle pass model nodes values :=
  ⟨model, _, _, hrun, PassManager.validateInterface_untouched model _, rfl,
    hsize.unchanged hsize rfl, hsize, hsettled⟩

/-- The four passes. -/
def passes (execute : Graph α → ValueId → Except Exn (Tensor α)) : List (GraphPass α) :=
  [ConstantFoldingPass.pass execute, DeadCodeEliminationPass.pass,
    MatMulAddCanonicalizationPass.pass, GemmActivationFusionPass.pass]

/-- Every pass leaves a settled model alone. -/
theorem settled_pass (execute : Graph α → ValueId → Except Exn (Tensor α))
    (hsettled : Settled model.graph.tables) (hsize : HasSize model nodes values) :
    ∀ pass ∈ passes execute, Idle pass model nodes values := by
  intro pass hmem
  simp only [passes, List.mem_cons, List.not_mem_nil, or_false] at hmem
  rcases hmem with rfl | rfl | rfl | rfl
  · exact constantFolding_idle execute hsettled hsize
  · exact deadCode_idle hsettled hsize
  · exact untouched_idle _ (fuse_of_unmatched MatMulAddCanonicalizationPass.pattern model
      hsettled.noProduct)
      hsettled hsize
  · exact untouched_idle _ (fuse_of_unmatched GemmActivationFusionPass.pattern model
      hsettled.noActivation)
      hsettled hsize

/-- A run of any of the passes, in any order, over a settled model. -/
theorem runPasses_idle (execute : Graph α → ValueId → Except Exn (Tensor α))
    {list : List (GraphPass α)} (hknown : ∀ pass ∈ list, pass ∈ passes execute)
    {c : OptimizationResult α} (hsettled : Settled c.model.graph.tables)
    (hsize : HasSize c.model nodes values) :
    ∃ result records, PassManager.runPasses list c = .ok result ∧
      result.passStatistics = c.passStatistics ++ records ∧ records.length = list.length ∧
      (∀ statistics ∈ records, Unchanged statistics nodes values) ∧
      HasSize result.model nodes values := by
  induction list generalizing c with
  | nil => exact ⟨c, [], rfl, (List.append_nil _).symm, rfl, fun _ hmem => (by cases hmem), hsize⟩
  | cons pass list ih =>
    obtain ⟨hhead, htail⟩ := List.forall_mem_cons.1 hknown
    obtain ⟨after, mapping, statistics, hrun, hinterface, hname, hunchanged, hsize', hsettled'⟩ :=
      settled_pass execute hsettled hsize pass hhead
    obtain ⟨result, records, hrest, heq, hlength, hall, hfinal⟩ := ih htail
      (c := ⟨after, c.valueMapping.map fun mapped =>
        mapped.bind fun id => (mapping[id]?).join, c.passStatistics ++ [statistics]⟩)
          hsettled' hsize'
    refine ⟨result, statistics :: records, ?_, ?_, ?_,
      List.forall_mem_cons.2 ⟨hunchanged, hall⟩, hfinal⟩
    · refine bind_ok.2 ⟨_, hrun, check_ok.2 ⟨hinterface, bind_ok.2 ⟨statistics, ?_, hrest⟩⟩⟩
      refine check_ok.2 ⟨require_ok.2 ?_, rfl⟩
      simp [sizes, hname, hunchanged.nodesBefore, hunchanged.nodesAfter, hunchanged.valuesBefore,
        hunchanged.valuesAfter, hsize.1, hsize.2, hsize'.1, hsize'.2]
    · rw [heq, List.append_assoc]
      rfl
    · rw [List.length_cons, hlength, List.length_cons]

end

/-! ## The pipeline -/

/-- Folding, dead code, both fusions, and dead code again. -/
def pipeline (execute : Graph α → ValueId → Except Exn (Tensor α)) : List (GraphPass α) :=
  [ConstantFoldingPass.pass execute, DeadCodeEliminationPass.pass,
    MatMulAddCanonicalizationPass.pass, GemmActivationFusionPass.pass, DeadCodeEliminationPass.pass]

/-- The first pass of a run that returns. -/
theorem runPasses_cons {pass : GraphPass α} {list : List (GraphPass α)}
    {c result : OptimizationResult α} (hrun : PassManager.runPasses (pass :: list) c = .ok result) :
    ∃ r next, pass.run c.model = .ok r ∧ next.model = r.model ∧
      PassManager.runPasses list next = .ok result := by
  obtain ⟨r, hfirst, hrun⟩ := bind_ok.1 hrun
  obtain ⟨-, hrun⟩ := check_ok.1 hrun
  obtain ⟨statistics, -, hrest⟩ := bind_ok.1 hrun
  refine ⟨r, _, hfirst, ?_, hrest⟩
  rfl

/-- What a fusion pass returns is unmatched, and keeps the rest. -/
theorem fuse_cases (P : Pattern α) {model : Model α} {result : OptimizationResult α}
    (hrun : fuse P.name P.candidate model = .ok result) :
    (result = untouched P.name model ∧ Unmatched P model.graph.tables) ∨
      ∃ actions, Rewritten model result.model actions Anything result.valueMapping ∧
        P.Plan model actions := by
  rcases fuse_ok P model with ⟨hnone, hrun'⟩ | ⟨optimized, mapping, actions, fused, hrun', h, hplan⟩
  · rw [hrun] at hrun'
    cases hrun'
    exact .inl ⟨rfl, hnone⟩
  · rw [hrun] at hrun'
    cases hrun'
    exact .inr ⟨actions, h, hplan⟩

/-- After the canonicalization no product followed by an addition is left. -/
theorem matMulAdd_result {model : Model α} {result : OptimizationResult α}
    (hrun : MatMulAddCanonicalizationPass.run model = .ok result) :
    Unmatched MatMulAddCanonicalizationPass.pattern result.model.graph.tables ∧
      (NoFold model.graph.tables → NoFold result.model.graph.tables) ∧
      (AllLive model.graph.tables → AllLive result.model.graph.tables) := by
  rcases fuse_cases MatMulAddCanonicalizationPass.pattern
    hrun with ⟨rfl, hnone⟩ | ⟨actions, h, hplan⟩
  · exact ⟨hnone, fun hbefore => hbefore, fun hbefore => hbefore⟩
  · have hfusion :
      Fusion .add .matMul .gemm model result.model actions Anything result.valueMapping :=
      hplan.fusion h
    refine ⟨?_, hfusion.noFold, hfusion.allLive⟩
    exact noProduct_of_fusion hfusion (by decide) (by decide) (by decide) (by decide)
      fun p node hfound haction => hplan.unmatched_of_copied h p node hfound haction

/-- After the activation fusion no fusable Gemm is left. -/
theorem gemmActivation_result {model : Model α} {result : OptimizationResult α}
    (hrun : GemmActivationFusionPass.run model = .ok result) :
    Unmatched GemmActivationFusionPass.pattern result.model.graph.tables ∧
      (NoFold model.graph.tables → NoFold result.model.graph.tables) ∧
      (AllLive model.graph.tables → AllLive result.model.graph.tables) ∧
      (Unmatched MatMulAddCanonicalizationPass.pattern model.graph.tables →
        Unmatched MatMulAddCanonicalizationPass.pattern result.model.graph.tables) := by
  rcases fuse_cases GemmActivationFusionPass.pattern hrun with ⟨rfl, hnone⟩ | ⟨actions, h, hplan⟩
  · exact ⟨hnone, fun hbefore => hbefore, fun hbefore => hbefore, fun hbefore => hbefore⟩
  · have hfusion : Fusion .reLU .gemm .fusedGemmActivation model result.model actions Anything
        result.valueMapping := hplan.fusion h
    refine ⟨?_, hfusion.noFold, hfusion.allLive, fun hbefore => ?_⟩
    · exact noActivation_of_fusion hfusion (by decide) (by decide) (by decide) (by decide)
        fun p node hfound haction => hplan.unmatched_of_copied h p node hfound haction
    · exact noProduct_of_fusion hfusion (by decide) (by decide) (by decide) (by decide)
        fun p node hfound _ => hbefore node (List.mem_of_getElem? hfound)

/-- After dead code elimination all is live, and nothing became foldable or fusable. -/
theorem deadCode_result {model : Model α} {result : OptimizationResult α}
    (hrun : DeadCodeEliminationPass.run model = .ok result) :
    AllLive result.model.graph.tables ∧
      (NoFold model.graph.tables → NoFold result.model.graph.tables) ∧
      (Settled model.graph.tables → Settled result.model.graph.tables) := by
  obtain ⟨optimized, mapping, actions, hrun', h, hcopies⟩ := DeadCodeEliminationPass.run_ok model
  rw [hrun] at hrun'
  cases hrun'
  exact ⟨DeadCodeEliminationPass.allLive h hcopies, DeadCodeEliminationPass.noFold h hcopies,
    fun hsettled => hsettled.copy h
      (DeadCodeEliminationPass.copies_of_allLive hcopies hsettled.allLive)⟩

/-- The pipeline leaves a settled model behind. -/
theorem settled_of_run {execute : Graph α → ValueId → Except Exn (Tensor α)} {model : Model α}
    {result : OptimizationResult α} (hrun : PassManager.run (pipeline execute) model = .ok result) :
    Settled result.model.graph.tables := by
  obtain ⟨r₁, c₁, hfirst, hmodel₁, hrun⟩ := runPasses_cons hrun
  obtain ⟨r₂, c₂, hsecond, hmodel₂, hrun⟩ := runPasses_cons hrun
  obtain ⟨r₃, c₃, hthird, hmodel₃, hrun⟩ := runPasses_cons hrun
  obtain ⟨r₄, c₄, hfourth, hmodel₄, hrun⟩ := runPasses_cons hrun
  obtain ⟨r₅, c₅, hfifth, hmodel₅, hrun⟩ := runPasses_cons hrun
  cases hrun
  have hnoFold₁ : NoFold c₁.model.graph.tables := by
    rw [hmodel₁]
    exact ConstantFoldingPass.noFold_of_run hfirst
  obtain ⟨hallLive₂, hnoFold₂, -⟩ := deadCode_result hsecond
  rw [← hmodel₂] at hallLive₂ hnoFold₂
  obtain ⟨hnoProduct₃, hnoFold₃, hallLive₃⟩ := matMulAdd_result hthird
  rw [← hmodel₃] at hnoProduct₃ hnoFold₃ hallLive₃
  obtain ⟨hnoActivation₄, hnoFold₄, hallLive₄, hnoProduct₄⟩ := gemmActivation_result hfourth
  rw [← hmodel₄] at hnoActivation₄ hnoFold₄ hallLive₄ hnoProduct₄
  rw [hmodel₅]
  exact (deadCode_result hfifth).2.2 ⟨hnoFold₄ (hnoFold₃ (hnoFold₂ hnoFold₁)),
    hallLive₄ (hallLive₃ hallLive₂), hnoProduct₄ hnoProduct₃, hnoActivation₄⟩

/-- The pass reports no change. -/
def ReportsNoChange (pass : GraphPass α) (model : Model α) : Prop :=
  ∃ again, pass.run model = .ok again ∧ again.changed = false

theorem constantFolding_again (execute : Graph α → ValueId → Except Exn (Tensor α))
    {model : Model α} {result : OptimizationResult α}
    (hrun : ConstantFoldingPass.run execute model = .ok result) :
    ReportsNoChange (ConstantFoldingPass.pass execute) result.model := by
  obtain ⟨after, mapping, actions, hagain, -⟩ :=
    ConstantFoldingPass.run_of_noFold execute (ConstantFoldingPass.noFold_of_run hrun)
  exact ⟨_, hagain, rfl⟩

/-- Eliminating dead code again changes nothing. -/
theorem deadCode_again {model : Model α} {result : OptimizationResult α}
    (hrun : DeadCodeEliminationPass.run model = .ok result) :
    ReportsNoChange DeadCodeEliminationPass.pass result.model := by
  obtain ⟨after, mapping, actions, hagain, h, hcopies⟩ :=
    DeadCodeEliminationPass.run_ok result.model
  obtain ⟨hnodes, hconstants⟩ := (deadCode_result hrun).1
  refine ⟨_, hagain, ?_⟩
  have hunchanged : ¬ (DeadCodeEliminationPass.statistics result.model.graph.tables
      after.graph.tables).changed = true := by
    rw [DeadCodeEliminationPass.changed_iff h hcopies]
    rintro (⟨node, hmem, hdead⟩ | ⟨v, value, hfound, hkind, hdead⟩)
    · exact hdead (hnodes node hmem)
    · exact hdead (hconstants v value hfound hkind)
  simpa [OptimizationResult.changed] using hunchanged

theorem fuse_again (P : Pattern α) {model : Model α} (hnone : Unmatched P model.graph.tables)
    (pass : GraphPass α) (hsame : pass.run = fuse P.name P.candidate) :
    ReportsNoChange pass model := by
  refine ⟨_, by rw [hsame, fuse_of_unmatched P model hnone], rfl⟩

/-- Each pass run on its own result reports no change, and so does every pass of the
pipeline run on the result of the pipeline, which keeps its numbers of nodes and values.
What folding computes does not matter. -/
theorem pipeline_fixpoint (execute : Graph α → ValueId → Except Exn (Tensor α)) (model : Model α) :
    (∀ pass ∈ passes execute, ∀ result, pass.run model = .ok result →
      ReportsNoChange pass result.model) ∧
    ∀ result, PassManager.run (pipeline execute) model = .ok result →
      ∃ again, PassManager.run (pipeline execute) result.model = .ok again ∧
        again.passStatistics.length = 5 ∧
        (∀ statistics ∈ again.passStatistics, Unchanged statistics
          result.model.graph.tables.nodes.length result.model.graph.tables.values.length) ∧
        HasSize again.model result.model.graph.tables.nodes.length
          result.model.graph.tables.values.length := by
  constructor
  · intro pass hmem result hrun
    simp only [passes, List.mem_cons, List.not_mem_nil, or_false] at hmem
    rcases hmem with rfl | rfl | rfl | rfl
    · exact constantFolding_again execute hrun
    · exact deadCode_again hrun
    · exact fuse_again MatMulAddCanonicalizationPass.pattern (matMulAdd_result hrun).1 _ rfl
    · exact fuse_again GemmActivationFusionPass.pattern (gemmActivation_result hrun).1 _ rfl
  · intro result hrun
    have hknown : ∀ pass ∈ pipeline execute, pass ∈ passes execute := by
      simp [pipeline, passes]
    have hsettled := settled_of_run hrun
    obtain ⟨again, records, hrerun, heq, hlength, hall, hsize⟩ := runPasses_idle execute hknown
      (c := ⟨result.model, identityMapping result.model.graph.tables.values.length, []⟩)
      hsettled ⟨rfl, rfl⟩
    rw [List.nil_append] at heq
    exact ⟨again, hrerun, by rw [heq, hlength]; rfl, by rw [heq]; exact hall, hsize⟩

end TinyInfer.Optimizer
