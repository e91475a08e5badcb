import TinyInfer.Lib.Worklist
import TinyInfer.Optimizer.Passes
import TinyInfer.Optimizer.RewriterSteps
import Mathlib.Algebra.BigOperators.Fin

/-!
# Dead code elimination

A value is live if an output can be reached from it along the uses of values. The loop
over `pending` marks the live values (`markLive_ok`), so the new graph has the inputs,
the live nodes and the live constants, and nothing else (`dead_code_elimination`).

Main definitions: `Feeds`, `LiveValue`, `LiveNode`, `KeepsLive`.
-/

namespace TinyInfer.Optimizer

open Lib (Reaches Search)

variable {α : Type}

/-! ## Liveness -/

/-- `w` is computed from `v` by one node. -/
def Feeds (g : Graph α) (v w : ValueId) : Prop :=
  ∃ node ∈ g.nodes, v ∈ node.inputs ∧ w ∈ node.outputs

/-- An output can be reached from `v`. -/
def LiveValue (g : Graph α) (v : ValueId) : Prop :=
  ∃ output ∈ g.outputIds, Relation.ReflTransGen (Feeds g) v output

def LiveNode (g : Graph α) (node : Node) : Prop := ∃ v ∈ node.outputs, LiveValue g v

theorem LiveValue.output {g : Graph α} {v : ValueId} (hmem : v ∈ g.outputIds) : LiveValue g v :=
  ⟨v, hmem, .refl⟩

theorem LiveValue.feeds {g : Graph α} {v w : ValueId} (feeds : Feeds g v w)
    (hlive : LiveValue g w) :
    LiveValue g v := by
  obtain ⟨output, hmem, hpath⟩ := hlive
  exact ⟨output, hmem, hpath.head feeds⟩

/-- What a node reads is live if the node is. -/
theorem LiveNode.input {g : Graph α} {node : Node} (hmem : node ∈ g.nodes) (hlive : LiveNode g node)
    {v : ValueId} (hread : v ∈ node.inputs) : LiveValue g v := by
  obtain ⟨w, hout, hlive⟩ := hlive
  exact .feeds ⟨node, hmem, hread, hout⟩ hlive

/-- A live value is an output, or a live node reads it. -/
theorem LiveValue.cases_output_or_read {g : Graph α} {v : ValueId} (hlive : LiveValue g v) :
    v ∈ g.outputIds ∨ ∃ node ∈ g.nodes, LiveNode g node ∧ v ∈ node.inputs := by
  obtain ⟨output, hmem, hpath⟩ := hlive
  rcases Relation.ReflTransGen.cases_head hpath with rfl | ⟨w, ⟨node, hknown, hread, hout⟩, hrest⟩
  · exact .inl hmem
  · exact .inr ⟨node, hknown, ⟨w, hout, output, hmem, hrest⟩, hread⟩

/-- The inputs of the producer of a value. -/
def operands (g : Graph α) (v : ValueId) : List ValueId :=
  (((g.values[v]?).bind (·.producer)).bind fun p => g.nodes[p]?).elim [] (·.inputs)

theorem operands_of_producer {g : Graph α} {v : ValueId} {value : GraphValue} {p : NodeId}
    {node : Node} (hfound : g.values[v]? = some value) (hproducer : value.producer = some p)
    (hthere : g.nodes[p]? = some node) : operands g v = node.inputs := by
  unfold operands
  rw [hfound, Option.bind_some, hproducer, Option.bind_some, hthere]
  rfl

theorem operands_of_none {g : Graph α} {v : ValueId} {value : GraphValue}
    (hfound : g.values[v]? = some value) (hproducer : value.producer = none) :
    operands g v = [] := by
  unfold operands
  rw [hfound, Option.bind_some, hproducer]
  rfl

/-- A value feeds another iff it is an operand of its producer. -/
theorem feeds_iff {g : Graph α} (hwf : g.WellFormed) {v w : ValueId} :
    Feeds g v w ↔ v ∈ operands g w := by
  constructor
  · rintro ⟨node, hmem, hread, hout⟩
    obtain ⟨p, hthere⟩ := List.getElem?_of_mem hmem
    obtain ⟨value, hfound, hproducer⟩ := producer_of_output hwf hthere hout
    rwa [operands_of_producer hfound hproducer hthere]
  · intro hmem
    unfold operands at hmem
    cases hfound : g.values[w]? with
    | none =>
      rw [hfound] at hmem
      cases hmem
    | some value =>
      cases hproducer : value.producer with
      | none =>
        rw [hfound, Option.bind_some, hproducer] at hmem
        cases hmem
      | some p =>
        obtain ⟨node, hthere, houtputs⟩ := node_of_producer hwf hfound hproducer
        rw [hfound, Option.bind_some, hproducer, Option.bind_some, hthere] at hmem
        exact ⟨node, List.mem_of_getElem? hthere,
          hmem, by rw [houtputs]; exact List.mem_singleton_self w⟩

/-- The live values are those that a search from the outputs finds. -/
theorem liveValue_iff {g : Graph α} (hwf : g.WellFormed) {v : ValueId} :
    LiveValue g v ↔ Reaches (operands g) g.outputIds v := by
  have hflip : Feeds g = Function.swap fun a b => b ∈ operands g a := by
    funext a b
    exact propext (feeds_iff hwf)
  unfold LiveValue Reaches
  rw [hflip]
  exact exists_congr fun _ => and_congr_right fun _ => Relation.reflTransGen_swap

/-- A live value is registered. -/
theorem LiveValue.exists_value {g : Graph α} (hwf : g.WellFormed) {v : ValueId}
    (h : LiveValue g v) :
    ∃ value, g.values[v]? = some value := by
  refine Reaches.induct (P := fun v => ∃ value, g.values[v]? = some value)
    (fun out hmem => ?_) (fun w v _ hread => ?_) ((liveValue_iff hwf).1 h)
  · exact ⟨_, List.getElem?_eq_getElem (hwf.outputs_lt out hmem)⟩
  · obtain ⟨node, hmem, hread, -⟩ := (feeds_iff hwf).2 hread
    obtain ⟨p, hthere⟩ := List.getElem?_of_mem hmem
    obtain ⟨value, hfound, -⟩ := (hwf.node p node hthere).inputs v hread
    exact ⟨value, hfound⟩

/-! ## Marking -/

namespace DeadCodeEliminationPass

variable {g : Graph α}

/-- The inputs of the nodes that are not live yet: as many values can still come into
`pending`. -/
def waiting (g : Graph α) (live : Live) : Nat :=
  ∑ p ∈ Finset.range g.nodes.length,
    if live.nodes p then 0 else (g.nodes[p]?).elim 0 (·.inputs.length)

theorem waiting_none (g : Graph α) : waiting g {} = (g.nodes.map (·.inputs.length)).sum := by
  unfold waiting
  rw [Finset.sum_range, ← Fin.sum_univ_getElem]
  refine Finset.sum_equiv (Fin.castOrderIso (by rw [List.length_map])).toEquiv (by simp) fun i _ =>
    ?_
  simp

/-- A node that becomes live. -/
theorem waiting_mark {live : Live} {p : NodeId} {node : Node} (hfound : g.nodes[p]? = some node)
    (hfresh : live.nodes p = false) (values : ValueId → Bool) :
    waiting g live =
      waiting g { values, nodes := Function.update live.nodes p true } + node.inputs.length := by
  have hinside : p ∈ Finset.range g.nodes.length :=
    Finset.mem_range.2 (List.getElem?_eq_some_iff.1 hfound).1
  unfold waiting
  rw [← Finset.add_sum_erase _ _ hinside, ← Finset.add_sum_erase _ _ hinside]
  have hrest : ∀ q ∈ (Finset.range g.nodes.length).erase p,
      (if live.nodes q then 0 else (g.nodes[q]?).elim 0 (·.inputs.length)) =
        if Function.update live.nodes p true q then 0 else (g.nodes[q]?).elim 0
          (·.inputs.length) := by
    intro q hmem
    rw [Function.update_of_ne (Finset.ne_of_mem_erase hmem)]
  rw [Finset.sum_congr rfl hrest, hfresh, hfound]
  simp only [Function.update_self, Bool.false_eq_true, if_false, if_true,
    Option.elim_some, Nat.zero_add]
  exact Nat.add_comm _ _

/-- A node is live exactly if its output is. -/
def Agrees (g : Graph α) (live : Live) : Prop :=
  ∀ (p : NodeId) (node : Node), g.nodes[p]? = some node → ∀ out ∈ node.outputs,
    live.nodes p = live.values out

/-- The loop over `pending` returns the live values. -/
theorem markLive_loop (hwf : g.WellFormed) {fuel : Nat} {pending : List ValueId} {live : Live}
    (hsearch : Search (operands g) g.outputIds pending fun v => live.values v = true)
    (hagrees : Agrees g live) (henough : pending.length + waiting g live ≤ fuel) :
    ∃ final, markLive g fuel pending live = .ok final ∧ Agrees g final ∧
      ∀ v, final.values v = true ↔ LiveValue g v := by
  -- on the fuel, which covers the pending values and those still to be pushed
  induction fuel generalizing pending live with
  | zero =>
    have hempty : pending = [] := List.length_eq_zero_iff.1 (by omega)
    subst hempty
    exact ⟨live, rfl, hagrees, fun v => hsearch.finished.trans (liveValue_iff hwf).symm⟩
  | succ fuel ih =>
    cases pending with
    | nil => exact ⟨live, rfl, hagrees, fun v => hsearch.finished.trans (liveValue_iff hwf).symm⟩
    | cons id pending =>
      rw [List.length_cons] at henough
      unfold markLive
      cases hmarked : live.values id with
      -- marked before: nothing new is reached
      | true => exact ih (hsearch.skip hmarked) hagrees (by omega)
      | false =>
        obtain ⟨value, hfound⟩ := LiveValue.exists_value hwf
          ((liveValue_iff hwf).2 (hsearch.pending_reached id List.mem_cons_self))
        rw [if_neg Bool.false_ne_true]
        have hseen : (fun v => Function.update live.values id true v = true) =
            fun v => v = id ∨ live.values v = true := by
          funext v
          by_cases hsame : v = id
          · simp [hsame]
          · simp [hsame]
        have hread : g.value id = .ok value := Graph.value_ok.2 hfound
        cases hproducer : value.producer with
        | none =>
          -- An input or a constant: no node becomes live.
          have hnext : Search (operands g) g.outputIds pending
              fun v => Function.update live.values id true v = true := by
            rw [hseen, ← List.nil_append pending]
            exact hsearch.visit fun w => by rw [operands_of_none hfound hproducer]
          -- the value is no node's output, so the marks of the nodes stay right
          have hagrees' : Agrees g { live with values := Function.update live.values id true } := by
            intro p node hthere out hmem
            obtain ⟨value', hfound', hproducer'⟩ := producer_of_output hwf hthere hmem
            have hother : out ≠ id := by
              rintro rfl
              rw [hfound] at hfound'
              cases hfound'
              rw [hproducer] at hproducer'
              cases hproducer'
            show live.nodes p = Function.update live.values id true out
            rw [Function.update_of_ne hother]
            exact hagrees p node hthere out hmem
          have hless : pending.length +
              waiting g { live with values := Function.update live.values id true } ≤ fuel := by
            show pending.length + waiting g live ≤ fuel
            omega
          obtain ⟨final, hrun, hdone⟩ := ih hnext hagrees' hless
          exact ⟨final, bind_ok.2 ⟨value, hread, by rw [hproducer]; exact hrun⟩, hdone⟩
        -- a produced value: its node becomes live, and its inputs are pushed
        | some p =>
          obtain ⟨node, hthere, houtputs⟩ := node_of_producer hwf hfound hproducer
          have hfresh : live.nodes p = false := by
            rw [hagrees p node hthere id (by rw [houtputs]; exact List.mem_singleton_self id),
              hmarked]
          have hnext : Search (operands g) g.outputIds (node.inputs.reverse ++ pending)
              fun v => Function.update live.values id true v = true := by
            rw [hseen]
            exact hsearch.visit fun w => by
              rw [operands_of_producer hfound hproducer hthere, List.mem_reverse]
          -- the node has this one output, and both are marked together
          have hagrees' : Agrees g
              ⟨Function.update live.values id true, Function.update live.nodes p true⟩ := by
            intro q node' hthere' out hmem
            show Function.update live.nodes p true q = Function.update live.values id true out
            by_cases hsame : q = p
            · subst hsame
              rw [hthere] at hthere'
              cases hthere'
              rw [houtputs, List.mem_singleton] at hmem
              rw [hmem, Function.update_self, Function.update_self]
            · have hother : out ≠ id := by
                rintro rfl
                obtain ⟨value', hfound', hproducer'⟩ := producer_of_output hwf hthere' hmem
                rw [hfound] at hfound'
                cases hfound'
                rw [hproducer] at hproducer'
                cases hproducer'
                exact hsame rfl
              rw [Function.update_of_ne hsame, Function.update_of_ne hother]
              exact hagrees q node' hthere' out hmem
          -- the node was not marked before, so its inputs are still in the measure
          have hless : (node.inputs.reverse ++ pending).length +
              waiting g ⟨Function.update live.values id true, Function.update live.nodes p true⟩ ≤
                fuel := by
            have := waiting_mark hthere hfresh (Function.update live.values id true)
            rw [List.length_append, List.length_reverse]
            omega
          obtain ⟨final, hrun, hdone⟩ := ih hnext hagrees' hless
          refine ⟨final, bind_ok.2 ⟨value, hread, ?_⟩, hdone⟩
          rw [hproducer]
          dsimp only
          rw [hfresh, if_neg Bool.false_ne_true]
          refine bind_ok.2 ⟨node, ?_, hrun⟩
          unfold Graph.node
          rw [hthere]

/-- The search ends within its rounds and marks exactly the live values. -/
theorem markLive_ok (hwf : g.WellFormed) :
    ∃ live, markLive g (rounds g) g.outputIds.reverse {} = .ok live ∧ Agrees g live ∧
      ∀ v, live.values v = true ↔ LiveValue g v := by
  refine markLive_loop hwf ?_ (fun _ _ _ _ _ => rfl) ?_
  · have hstarted : Search (operands g) g.outputIds g.outputIds.reverse fun _ => False :=
      .start g.outputIds fun v => List.mem_reverse
    simpa using hstarted
  · rw [waiting_none, List.length_reverse]
    exact Nat.le_refl _

/-! ## The rewrite -/

/-- What the pass does with a node. -/
def action (live : Live) (p : NodeId) (node : Node) : Action α :=
  if live.nodes p then .emit node.op node.inputs node.attributes else .remove

theorem action_keeps {live : Live} {p : NodeId} {node : Node} (h : live.nodes p = true) :
    (action live p node : Action α).keeps = true := by
  unfold action
  rw [if_pos h]
  rfl

/-- One round of the loop over the nodes. -/
theorem step_ok {model : Model α} {live : Live} {r : GraphRewriter α} {actions : List (Action α)}
    (hagrees : Agrees model.graph.tables live)
    (hmarked : ∀ v, live.values v = true ↔ LiveValue model.graph.tables v)
    (h : Open model.graph.tables model.graph.tables.inputIds actions
      (LiveValue model.graph.tables) r)
    (hfollows : Follows model.graph.tables (action live) actions) {node : Node}
    (hfound : model.graph.tables.nodes[actions.length]? = some node) :
    ∃ r', step model live r actions.length = .ok r' ∧
      Open model.graph.tables model.graph.tables.inputIds
        (actions ++ [action live actions.length node]) (LiveValue model.graph.tables) r' := by
  have hwf := model.graph.wf
  unfold step action
  cases hkept : live.nodes actions.length with
  | false => exact ⟨r, rfl, h.rewrites.remove hfound, h.unfinished, h.outputIds⟩
  | true =>
    obtain ⟨out, value, -, houtputs, -⟩ := (hwf.node actions.length node hfound).output
    have hout_mem : out ∈ node.outputs := by
      rw [houtputs]
      exact List.mem_singleton_self out
    have hlive_node : LiveNode model.graph.tables node :=
      ⟨out, hout_mem, (hmarked out).1 (by rw [← hagrees _ node hfound out hout_mem, hkept])⟩
    obtain ⟨q, r', hcopied, hnext⟩ := GraphRewriter.copyNode_ok h hfound fun v hread => by
      have hlive_value := hlive_node.input (List.mem_of_getElem? hfound) hread
      obtain ⟨input, hthere, holder⟩ := (hwf.node _ node hfound).inputs v hread
      refine ⟨input, hthere, fun _ => hlive_value, fun p hproducer => ?_⟩
      obtain ⟨before, hfound', houtputs'⟩ := node_of_producer hwf hthere hproducer
      refine ⟨_, hfollows p before (holder p hproducer) hfound', action_keeps ?_⟩
      rw [hagrees p before hfound' v (by rw [houtputs']; exact List.mem_singleton_self v)]
      exact (hmarked v).2 hlive_value
    exact ⟨r', bind_ok.2 ⟨_, hcopied, rfl⟩, hnext⟩

/-- The actions of the pass: the live nodes are copied. -/
def CopiesLive (g : Graph α) (actions : List (Action α)) : Prop :=
  ∀ (p : NodeId) (node : Node), g.nodes[p]? = some node →
    (LiveNode g node → actions[p]? = some (.emit node.op node.inputs node.attributes)) ∧
      (¬ LiveNode g node → actions[p]? = some .remove)

/-- The statistics of the pass. -/
def statistics (before after : Graph α) : PassStatistics :=
  { sizes "DeadCodeEliminationPass" before after with
    nodesRewritten := before.nodes.length - after.nodes.length
    changed := before.nodes.length != after.nodes.length ||
      before.values.length != after.values.length }

/-- The pass never fails, and rewrites the model with the live nodes copied. -/
theorem run_ok (model : Model α) :
    ∃ optimized mapping actions,
      run model = .ok ⟨optimized, mapping,
        [statistics model.graph.tables optimized.graph.tables]⟩ ∧
      Rewritten model optimized actions (LiveValue model.graph.tables) mapping ∧
      CopiesLive model.graph.tables actions := by
  have hwf := model.graph.wf
  obtain ⟨live, hmarking, hagrees, hmarked⟩ := markLive_ok hwf
  obtain ⟨r₀, hstarted, hopen₀⟩ := GraphRewriter.start_ok model (LiveValue model.graph.tables)
  -- the loop over the nodes keeps what was marked
  obtain ⟨r₁, hloop, actions, hfollows, hcomplete, hopen₁⟩ :=
    foldlM_range_ok (f := step model live) (n := model.graph.tables.nodes.length)
      (P := fun k r => ∃ actions, Follows model.graph.tables (action live) actions ∧
        actions.length = k ∧
        Open model.graph.tables model.graph.tables.inputIds actions
          (LiveValue model.graph.tables) r)
      ⟨[], fun _ _ hless _ => absurd hless (Nat.not_lt_zero _), rfl, hopen₀⟩ (by
        rintro k hless r ⟨actions, hfollows, rfl, h⟩
        have hfound := List.getElem?_eq_getElem hless
        obtain ⟨r', hrun, hnext⟩ := step_ok hagrees hmarked h hfollows hfound
        refine ⟨r', hrun, _, hfollows.concat hfound, ?_, hnext⟩
        rw [List.length_append, List.length_singleton])
  have hlive_iff (p : NodeId) (node : Node) (hfound : model.graph.tables.nodes[p]? = some node) :
      live.nodes p = true ↔ LiveNode model.graph.tables node := by
    obtain ⟨out, value, -, houtputs, -⟩ := (hwf.node p node hfound).output
    have hout_mem : out ∈ node.outputs := by
      rw [houtputs]
      exact List.mem_singleton_self out
    rw [hagrees p node hfound out hout_mem, hmarked out]
    refine ⟨fun h => ⟨out, hout_mem, h⟩, fun ⟨w, hmem, h⟩ => ?_⟩
    rw [houtputs, List.mem_singleton] at hmem
    rwa [← hmem]
  -- a node is copied if and only if it is live
  have hcopies : CopiesLive model.graph.tables actions := by
    intro p node hfound
    have hacted := hfollows p node (by
      rw [hcomplete]
      exact (List.getElem?_eq_some_iff.1 hfound).1) hfound
    unfold action at hacted
    constructor
    · intro h
      rw [hacted, if_pos ((hlive_iff p node hfound).2 h)]
    · intro h
      rw [hacted, if_neg (fun hagain => h ((hlive_iff p node hfound).1 hagain))]
  -- every output of the model has an image
  have havailable : ∀ v ∈ model.graph.tables.outputIds,
      Available model.graph.tables actions (LiveValue model.graph.tables) v := by
    intro v hmem
    have hlive_value := LiveValue.output hmem
    obtain ⟨value, hfound⟩ := hlive_value.exists_value hwf
    refine ⟨value, hfound, fun _ => hlive_value, fun p hproducer => ?_⟩
    obtain ⟨node, hthere, houtputs⟩ := node_of_producer hwf hfound hproducer
    refine ⟨_, (hcopies p node hthere).1 ⟨v, ?_, hlive_value⟩, rfl⟩
    rw [houtputs]
    exact List.mem_singleton_self v
  obtain ⟨r₂, hcopied, hopen₂, hmapped, -⟩ := GraphRewriter.copyMissing_ok hopen₁ havailable
  obtain ⟨optimized, hfinished, hrewritten⟩ := GraphRewriter.finish_ok hopen₂ hcomplete hmapped
  refine ⟨optimized, r₂.valueMapping, actions, ?_, hrewritten, hcopies⟩
  exact bind_ok.2 ⟨live, hmarking, bind_ok.2 ⟨r₀, hstarted, bind_ok.2 ⟨_, model.order_eq,
    bind_ok.2 ⟨r₁, hloop, bind_ok.2 ⟨r₂, hcopied, bind_ok.2 ⟨optimized, hfinished, rfl⟩⟩⟩⟩⟩⟩

end DeadCodeEliminationPass

/-! ## What is kept -/

/-- `image` is a copy of `node`. -/
structure Copied (mapping : List (Option ValueId)) (node image : Node) : Prop where
  name : image.name = node.name
  op : image.op = node.op
  attributes : image.attributes = node.attributes
  inputs : List.Forall₂ (Mapped mapping) node.inputs image.inputs
  outputs : List.Forall₂ (Mapped mapping) node.outputs image.outputs

/-- The new graph has the inputs, the live nodes and the live constants, and nothing
else. -/
structure KeepsLive (source target : Graph α) (mapping : List (Option ValueId)) : Prop where
  inputs : ∀ v ∈ source.inputIds, ∃ w value image, Mapped mapping v w ∧ w ∈ target.inputIds ∧
    source.values[v]? = some value ∧ target.values[w]? = some image ∧ image.name = value.name ∧
    image.spec = value.spec
  nodes : ∃ kept : List Node, kept.Sublist source.nodes ∧
    (∀ node, node ∈ kept ↔ node ∈ source.nodes ∧ LiveNode source node) ∧
    List.Forall₂ (Copied mapping) kept target.nodes
  constants : ∀ v tensor, source.constants[v]? = some (some tensor) →
    ((∃ w, Mapped mapping v w ∧ target.constants[w]? = some (some tensor)) ↔
      v ∈ source.outputIds ∨ ∃ node ∈ source.nodes, LiveNode source node ∧ v ∈ node.inputs)
  /-- Every value of the new graph stands for one of the old, an input for an input, a
  constant for a constant. -/
  values : ∀ w image, target.values[w]? = some image → ∃ v value, Mapped mapping v w ∧
    source.values[v]? = some value ∧ image.kind = value.kind ∧ image.name = value.name ∧
    image.spec = value.spec
  live : ∀ v, LiveValue source v → ∃ w, Mapped mapping v w ∧ w < target.values.length
  injective : ∀ v v' w, Mapped mapping v w → Mapped mapping v' w → v = v'
  dropped : ∀ v < source.values.length, v ∉ source.inputIds → ¬ LiveValue source v →
    mapping[v]? = some none

theorem filterMap_range {β : Type} (bs : List β) :
    ((List.range bs.length).filterMap fun i => bs[i]?) = bs := by
  induction bs using List.reverseRecOn with
  | nil => rfl
  | append_singleton bs b ih =>
    rw [List.length_append, List.length_singleton, List.range_succ, List.filterMap_append]
    have hbefore : (List.range bs.length).filterMap (fun i => (bs ++ [b])[i]?) =
        (List.range bs.length).filterMap fun i => bs[i]? := by
      refine List.filterMap_congr fun i hmem => ?_
      rw [List.getElem?_append_left (List.mem_range.1 hmem)]
    rw [hbefore, ih]
    simp

/-- The nodes that have an image. -/
def keptNodes (g : Graph α) (actions : List (Action α)) : List Node :=
  (emitted actions).filterMap fun p => g.nodes[p]?

/-- The kept nodes stand in their old order. -/
theorem keptNodes_sublist {g : Graph α} {actions : List (Action α)}
    (hcomplete : actions.length = g.nodes.length) : (keptNodes g actions).Sublist g.nodes := by
  have hsublist : (emitted actions).Sublist (List.range g.nodes.length) := by
    unfold emitted
    rw [hcomplete]
    exact List.filter_sublist
  have := hsublist.filterMap fun p => g.nodes[p]?
  rwa [filterMap_range] at this

theorem mem_keptNodes {g : Graph α} {actions : List (Action α)} {node : Node} :
    node ∈ keptNodes g actions ↔ ∃ p ∈ emitted actions, g.nodes[p]? = some node := by
  unfold keptNodes
  rw [List.mem_filterMap]

/-- The new nodes are the kept ones, renamed. -/
theorem keptNodes_images {g : Graph α} {actions : List (Action α)} {ps : List NodeId}
    {mapping : List (Option ValueId)} {images : List Node}
    (h : List.Forall₂ (NodeImage g actions mapping) ps images)
    (hplain : ∀ p ∈ ps, ∀ node, g.nodes[p]? = some node →
      actions[p]? = some (.emit node.op node.inputs node.attributes)) :
    List.Forall₂ (Copied mapping) (ps.filterMap fun p => g.nodes[p]?) images := by
  induction h with
  | nil => exact .nil
  | cons hhead _ ih =>
    obtain ⟨hfirst, hrest⟩ := List.forall_mem_cons.1 hplain
    obtain ⟨node, inputs, hfound, haction, hname, hins, houts⟩ := hhead
    rw [hfirst node hfound] at haction
    injection Option.some.inj haction with hop hreads hattributes
    rw [← hreads] at hins
    rw [List.filterMap_cons_some hfound]
    exact .cons ⟨hname, hop.symm, hattributes.symm, hins, houts⟩ (ih hrest)

namespace DeadCodeEliminationPass

variable {source target : Model α} {actions : List (Action α)} {mapping : List (Option ValueId)}

theorem LiveNode_of_emitted {g : Graph α} {p : NodeId} (hcopies : CopiesLive g actions)
    (hmem : p ∈ emitted actions) {node : Node} (hfound : g.nodes[p]? = some node) :
    LiveNode g node := by
  obtain ⟨op, inputs, attributes, haction⟩ := mem_emitted.1 hmem
  by_contra hdead
  rw [(hcopies p node hfound).2 hdead] at haction
  cases haction

/-- A value that is mapped is an input or live. -/
theorem live_of_mapped
    (h : Rewritten source target actions (LiveValue source.graph.tables) mapping)
    (hcopies : CopiesLive source.graph.tables actions) {v w : ValueId}
    (hmapped : Mapped mapping v w) :
    v ∈ source.graph.tables.inputIds ∨ LiveValue source.graph.tables v := by
  have hwf := source.graph.wf
  obtain ⟨value, image, hfound, -, -, -, hstands⟩ := h.rewrites.image v w hmapped
  cases hstands with
  | input hkind => exact .inl ((hwf.inputs_mem v).2 ⟨value, hfound, hkind⟩)
  | constant hkind => exact .inr (h.rewrites.constants v w value hmapped hfound hkind)
  | node p op inputs attributes hproducer haction =>
    obtain ⟨node, hthere, houtputs⟩ := node_of_producer hwf hfound hproducer
    obtain ⟨u, hmem, hlive⟩ :=
      LiveNode_of_emitted hcopies (mem_emitted.2 ⟨op, inputs, attributes, haction⟩) hthere
    rw [houtputs, List.mem_singleton] at hmem
    exact .inr (hmem ▸ hlive)
  | folded p tensor hproducer haction =>
    obtain ⟨node, hthere, -⟩ := node_of_producer hwf hfound hproducer
    rcases Classical.em (LiveNode source.graph.tables node) with hlive | hdead
    · rw [(hcopies p node hthere).1 hlive] at haction
      cases haction
    · rw [(hcopies p node hthere).2 hdead] at haction
      cases haction

/-- A live value has an image. -/
theorem mapped_of_live
    (h : Rewritten source target actions (LiveValue source.graph.tables) mapping)
    (hcopies : CopiesLive source.graph.tables actions) {v : ValueId}
    (hlive : LiveValue source.graph.tables v) : ∃ w, Mapped mapping v w := by
  have hwf := source.graph.wf
  rcases hlive.cases_output_or_read with hmem | ⟨node, hmem, hlive_node, hread⟩
  · obtain ⟨output, hknown, rfl⟩ :=
      List.mem_map.1 ((source.outputs_perm.mem_iff).2 hmem)
    obtain ⟨i, hhere⟩ := List.getElem?_of_mem hknown
    obtain ⟨image, -, -, hmapped⟩ := forall₂_left h.outputs hhere
    exact ⟨image.2, hmapped⟩
  · obtain ⟨p, hfound⟩ := List.getElem?_of_mem hmem
    have haction := (hcopies p node hfound).1 hlive_node
    obtain ⟨i, hhere⟩ := List.getElem?_of_mem (mem_emitted.2 ⟨_, _, _, haction⟩)
    obtain ⟨image, -, node', inputs, hfound', haction', -, hins, -⟩ :=
      forall₂_left h.rewrites.nodes hhere
    rw [haction] at haction'
    injection Option.some.inj haction' with _ hreads _
    rw [← hreads] at hins
    obtain ⟨j, hthere⟩ := List.getElem?_of_mem hread
    obtain ⟨w, -, hmapped⟩ := forall₂_left hins hthere
    exact ⟨w, hmapped⟩

/-- Dead code elimination folds nothing. -/
theorem no_folds {g : Graph α} (hcomplete : actions.length = g.nodes.length)
    (hcopies : CopiesLive g actions) (p : NodeId) (tensor : Tensor α) :
    actions[p]? ≠ some (.fold tensor) := by
  intro haction
  have hinside := (List.getElem?_eq_some_iff.1 haction).1
  rw [hcomplete] at hinside
  have hthere := List.getElem?_eq_getElem hinside
  rcases Classical.em (LiveNode g g.nodes[p]) with hlive | hdead
  · rw [(hcopies p _ hthere).1 hlive] at haction
    cases haction
  · rw [(hcopies p _ hthere).2 hdead] at haction
    cases haction

/-- The rewritten model keeps exactly what is live. -/
theorem keepsLive
    (h : Rewritten source target actions (LiveValue source.graph.tables) mapping)
    (hcopies : CopiesLive source.graph.tables actions) :
    KeepsLive source.graph.tables target.graph.tables mapping := by
  have hwf := source.graph.wf
  have hnot_input {v : ValueId} {tensor : Tensor α}
      (hconstant : source.graph.tables.constants[v]? = some (some tensor)) :
      v ∉ source.graph.tables.inputIds := by
    intro hmem
    obtain ⟨value, hfound, hkind⟩ := kind_of_constant hwf hconstant
    obtain ⟨value', hfound', hkind'⟩ := (hwf.inputs_mem v).1 hmem
    rw [hfound] at hfound'
    cases hfound'
    rw [hkind] at hkind'
    cases hkind'
  refine ⟨fun v hmem => ?_, ⟨keptNodes source.graph.tables actions, keptNodes_sublist h.complete,
    fun node => ?_, ?_⟩, fun v tensor hconstant => ?_, fun w image hthere => ?_, fun v hlive => ?_,
    h.rewrites.injective, fun v hinside hunregistered hdead => ?_⟩
  -- the inputs are kept
  · obtain ⟨i, hhere⟩ := List.getElem?_of_mem hmem
    obtain ⟨w, hadded, hmapped⟩ := forall₂_left h.rewrites.inputIds hhere
    obtain ⟨value, image, hfound, hthere, -, hname, hspec, -⟩ :=
      h.rewrites.copied hwf (no_folds h.complete hcopies) hmapped
    exact ⟨w, value, image, hmapped, List.mem_of_getElem? hadded, hfound, hthere, hname, hspec⟩
  -- the nodes that are kept are the live ones, in order
  · rw [mem_keptNodes]
    constructor
    · rintro ⟨p, hmem, hfound⟩
      exact ⟨List.mem_of_getElem? hfound, LiveNode_of_emitted hcopies hmem hfound⟩
    · rintro ⟨hmem, hlive⟩
      obtain ⟨p, hfound⟩ := List.getElem?_of_mem hmem
      exact ⟨p, mem_emitted.2 ⟨_, _, _, (hcopies p node hfound).1 hlive⟩, hfound⟩
  · exact keptNodes_images h.rewrites.nodes fun p hmem node hfound =>
      (hcopies p node hfound).1 (LiveNode_of_emitted hcopies hmem hfound)
  -- a constant is kept if and only if it is an output or read by a live node
  · constructor
    · rintro ⟨w, hmapped, -⟩
      exact ((live_of_mapped h hcopies hmapped).resolve_left
        (hnot_input hconstant)).cases_output_or_read
    · intro hused
      have hlive : LiveValue source.graph.tables v := by
        rcases hused with hmem | ⟨node, hmem, hlive, hread⟩
        · exact .output hmem
        · exact hlive.input hmem hread
      obtain ⟨w, hmapped⟩ := mapped_of_live h hcopies hlive
      obtain ⟨value, image, hfound, -, -, -, -, hsame⟩ :=
        h.rewrites.copied hwf (no_folds h.complete hcopies) hmapped
      obtain ⟨value', hfound', hkind⟩ := kind_of_constant hwf hconstant
      rw [hfound] at hfound'
      cases hfound'
      exact ⟨w, hmapped, (hsame hkind).trans hconstant⟩
  -- every value of the target comes from a value of the source
  · obtain ⟨v, hmapped⟩ := h.rewrites.surjective w (List.getElem?_eq_some_iff.1 hthere).1
    obtain ⟨value, image', hfound, hthere', hkind, hname, hspec, -⟩ :=
      h.rewrites.copied hwf (no_folds h.complete hcopies) hmapped
    rw [hthere] at hthere'
    cases hthere'
    exact ⟨v, value, hmapped, hfound, hkind, hname, hspec⟩
  -- every live value is kept
  · obtain ⟨w, hmapped⟩ := mapped_of_live h hcopies hlive
    exact ⟨w, hmapped, h.rewrites.lt hmapped⟩
  -- a value that is neither live nor an input is dropped
  · have hbound : v < mapping.length := by rwa [h.rewrites.length]
    rw [List.getElem?_eq_getElem hbound]
    cases hentry : mapping[v] with
    | none => rfl
    | some w =>
      have hmapped : Mapped mapping v w := by
        unfold Mapped
        rw [List.getElem?_eq_getElem hbound, hentry]
      exact absurd (live_of_mapped h hcopies hmapped) (not_or.2 ⟨hunregistered, hdead⟩)

/-- A node or a constant that is not live. -/
def Dead (g : Graph α) : Prop :=
  (∃ node ∈ g.nodes, ¬ LiveNode g node) ∨
    ∃ v value, g.values[v]? = some value ∧ value.kind = .constant ∧ ¬ LiveValue g v

/-- No node is dropped iff every node is live. -/
theorem nodes_length_eq
    (h : Rewritten source target actions (LiveValue source.graph.tables) mapping)
    (hcopies : CopiesLive source.graph.tables actions) :
    source.graph.tables.nodes.length = target.graph.tables.nodes.length ↔
      ∀ node ∈ source.graph.tables.nodes, LiveNode source.graph.tables node := by
  rw [← h.rewrites.nodes.length_eq, ← h.complete]
  constructor
  · intro hall node hmem
    have hemits := List.length_filter_eq_length_iff.1 (by
      show (emitted actions).length = (List.range actions.length).length
      rw [← hall, List.length_range])
    obtain ⟨p, hfound⟩ := List.getElem?_of_mem hmem
    have hinside : p < actions.length := by
      rw [h.complete]
      exact (List.getElem?_eq_some_iff.1 hfound).1
    refine LiveNode_of_emitted hcopies (List.mem_filter.2 ⟨List.mem_range.2 hinside, ?_⟩) hfound
    exact hemits p (List.mem_range.2 hinside)
  · intro hall
    have hemits : (emitted actions).length = (List.range actions.length).length := by
      refine List.length_filter_eq_length_iff.2 fun p hmem => ?_
      have hinside := List.mem_range.1 hmem
      rw [h.complete] at hinside
      have hfound := List.getElem?_eq_getElem hinside
      rw [(hcopies p _ hfound).1 (hall _ (List.mem_of_getElem? hfound))]
      rfl
    rw [hemits, List.length_range]

/-- No value is dropped iff every value has an image. -/
theorem values_length_eq {wanted : ValueId → Prop}
    (h : Rewritten source target actions wanted mapping) :
    source.graph.tables.values.length = target.graph.tables.values.length ↔
      ∀ v < source.graph.tables.values.length, ∃ w, Mapped mapping v w := by
  rw [h.rewrites.count, ← h.rewrites.length, eq_comm, List.countP_eq_length]
  constructor
  · intro hall v hinside
    obtain ⟨w, hsome_w⟩ := Option.isSome_iff_exists.1 (hall _ (List.getElem_mem hinside))
    exact ⟨w, by unfold Mapped; rw [List.getElem?_eq_getElem hinside, hsome_w]⟩
  · intro hall entry hmem
    obtain ⟨v, hinside, rfl⟩ := List.mem_iff_getElem.1 hmem
    obtain ⟨w, hmapped⟩ := hall v hinside
    unfold Mapped at hmapped
    rw [List.getElem?_eq_getElem hinside] at hmapped
    rw [Option.some.inj hmapped]
    rfl

/-- The sizes differ exactly if something was dropped. -/
theorem changed_iff
    (h : Rewritten source target actions (LiveValue source.graph.tables) mapping)
    (hcopies : CopiesLive source.graph.tables actions) :
    (statistics source.graph.tables target.graph.tables).changed = true ↔
      Dead source.graph.tables := by
  have hwf := source.graph.wf
  have hsizes : (statistics source.graph.tables target.graph.tables).changed = true ↔
      ¬ (source.graph.tables.nodes.length = target.graph.tables.nodes.length ∧
        source.graph.tables.values.length = target.graph.tables.values.length) := by
    simp [statistics, imp_iff_not_or]
  rw [hsizes, nodes_length_eq h hcopies, values_length_eq h]
  constructor
  · intro hdiffer
    by_contra hnone
    have hall (node : Node) (hmem : node ∈ source.graph.tables.nodes) :
        LiveNode source.graph.tables node :=
      Classical.byContradiction fun hdead => hnone (.inl ⟨node, hmem, hdead⟩)
    refine hdiffer ⟨hall, fun v hinside => ?_⟩
    have hfound := List.getElem?_eq_getElem hinside
    have hmetadata := hwf.metadata v _ hfound
    unfold Graph.MetadataOk at hmetadata
    cases hkind : source.graph.tables.values[v].kind with
    | input =>
      obtain ⟨i, hhere⟩ := List.getElem?_of_mem ((hwf.inputs_mem v).2 ⟨_, hfound, hkind⟩)
      obtain ⟨w, -, hmapped⟩ := forall₂_left h.rewrites.inputIds hhere
      exact ⟨w, hmapped⟩
    | constant =>
      exact mapped_of_live h hcopies
        (Classical.byContradiction fun hdead => hnone (.inr ⟨v, _, hfound, hkind, hdead⟩))
    | intermediate =>
      rw [hkind] at hmetadata
      obtain ⟨-, p, node, -, hthere, houtputs⟩ := hmetadata
      obtain ⟨w, hmem, hlive⟩ := hall node (List.mem_of_getElem? hthere)
      rw [houtputs, List.mem_singleton] at hmem
      exact mapped_of_live h hcopies (hmem ▸ hlive)
  · rintro (⟨node, hmem, hdead⟩ | ⟨v, value, hfound, hkind, hdead⟩) ⟨hnodes, hvalues⟩
    · exact hdead (hnodes node hmem)
    · obtain ⟨w, hmapped⟩ := hvalues v (List.getElem?_eq_some_iff.1 hfound).1
      exact hdead (h.rewrites.constants v w value hmapped hfound hkind)

end DeadCodeEliminationPass

/-- Dead code elimination returns, keeps exactly what is live, and reports a change
exactly when a node or a constant was dropped. -/
theorem dead_code_elimination (model : Model α) :
    ∃ result statistics, DeadCodeEliminationPass.run model = .ok result ∧
      result.passStatistics = [statistics] ∧
      KeepsLive model.graph.tables result.model.graph.tables result.valueMapping ∧
      (statistics.changed = true ↔
        (∃ node ∈ model.graph.tables.nodes, ¬ LiveNode model.graph.tables node) ∨
          ∃ v value, model.graph.tables.values[v]? = some value ∧ value.kind = .constant ∧
            ¬ LiveValue model.graph.tables v) := by
  obtain ⟨optimized, mapping, actions, hrun, hrewritten, hcopies⟩ :=
    DeadCodeEliminationPass.run_ok model
  exact ⟨_, _, hrun, rfl, DeadCodeEliminationPass.keepsLive hrewritten hcopies,
    DeadCodeEliminationPass.changed_iff hrewritten hcopies⟩

end TinyInfer.Optimizer
