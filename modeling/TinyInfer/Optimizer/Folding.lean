import TinyInfer.Optimizer.Preservation

/-!
# Constant folding

The pass knows the constants and what it has folded. A node that it does not fold reads
a value that stays unknown, so nothing in the result can be folded (`noFold_of_run`), and
of a graph where nothing can be folded the result is a copy (`run_of_noFold`).

Main definitions: `Unknown`, `Folds`, `FoldInv`.
-/

namespace TinyInfer.Optimizer.ConstantFoldingPass

open Backend (CpuBackend.supports)

variable {α : Type} {execute : Graph α → ValueId → Except Exn (Tensor α)} {model : Model α}

theorem supports_all (op : OpType) : CpuBackend.supports op = true := by
  cases op <;> rfl

/-- The value of `v` is not known, whatever is folded later. -/
def Unknown (g : Graph α) (actions : List (Action α)) (v : ValueId) : Prop :=
  ∃ value, g.values[v]? = some value ∧ value.kind ≠ .constant ∧
    ∀ q, value.producer = some q → q ∈ emitted actions

theorem Unknown.concat {g : Graph α} {actions : List (Action α)} {v : ValueId}
    (h : Unknown g actions v) (action : Action α) : Unknown g (actions ++ [action]) v := by
  obtain ⟨value, hfound, hkind, hemits⟩ := h
  refine ⟨value, hfound, hkind, fun q hproducer => ?_⟩
  rw [emitted_concat]
  exact List.mem_append_left _ (hemits q hproducer)

/-- What becomes of a node: its output is folded, or the node is copied and reads a value
that is not known. -/
def FoldsNode (g : Graph α) (actions : List (Action α)) (p : NodeId) (node : Node) : Prop :=
  (∃ tensor, actions[p]? = some (.fold tensor)) ∨
    (actions[p]? = some (.emit node.op node.inputs node.attributes) ∧
      ∃ v ∈ node.inputs, Unknown g actions v)

theorem FoldsNode.concat {g : Graph α} {actions : List (Action α)} {p : NodeId} {node : Node}
    (h : FoldsNode g actions p node) (action : Action α) :
    FoldsNode g (actions ++ [action]) p node := by
  rcases h with ⟨tensor, hfolded⟩ | ⟨hcopied, v, hread, hunknown⟩
  · exact .inl ⟨tensor, Graph.getElem?_append_of_some hfolded⟩
  · exact .inr ⟨Graph.getElem?_append_of_some hcopied, v, hread, hunknown.concat action⟩

/-- What becomes of the first nodes. -/
def Folds (g : Graph α) (actions : List (Action α)) : Prop :=
  ∀ (p : NodeId) (node : Node), p < actions.length → g.nodes[p]? = some node →
    FoldsNode g actions p node

/-- No node goes. -/
def KeepsAll (g : Graph α) (actions : List (Action α)) : Prop :=
  ∀ (p : NodeId) (node : Node), p < actions.length → g.nodes[p]? = some node →
    ∃ action, actions[p]? = some action ∧ action.keeps = true

theorem Folds.keeps {g : Graph α} {actions : List (Action α)} (h : Folds g actions) :
    KeepsAll g actions := by
  intro p node hinside hfound
  rcases h p node hinside hfound with ⟨tensor, haction⟩ | ⟨haction, -⟩
  · exact ⟨_, haction, rfl⟩
  · exact ⟨_, haction, rfl⟩

/-- One more node decided extends the folding by it. -/
theorem Folds.concat {g : Graph α} {actions : List (Action α)} (h : Folds g actions) {node : Node}
    (hfound : g.nodes[actions.length]? = some node) {action : Action α}
    (hlast : FoldsNode g (actions ++ [action]) actions.length node) :
    Folds g (actions ++ [action]) := by
  intro p other hinside hthere
  rw [List.length_append, List.length_singleton] at hinside
  rcases Nat.lt_succ_iff_lt_or_eq.1 hinside with hold | rfl
  · exact (h p other hold hthere).concat action
  · rw [hfound] at hthere
    cases hthere
    exact hlast

/-- The state of the loop after the first nodes. -/
structure FoldInv (model : Model α) (actions : List (Action α)) (f : Folding α) : Prop where
  opened : Open model.graph.tables model.graph.tables.inputIds actions Anything f.rewriter
  folds : Folds model.graph.tables actions
  constants : ∀ v value, model.graph.tables.values[v]? = some value → value.kind = .constant →
    (f.known v).isSome = true
  folded : ∀ (p : NodeId) (node : Node) (tensor : Tensor α),
    model.graph.tables.nodes[p]? = some node →
    actions[p]? = some (.fold tensor) → ∀ v ∈ node.outputs, (f.known v).isSome = true
  spec : ∀ v value tensor, f.known v = some tensor → model.graph.tables.values[v]? = some value →
    tensor.spec = value.spec

/-- What a node reads is mapped, or a constant. -/
theorem available {actions : List (Action α)}
    (hkeeps : KeepsAll model.graph.tables actions) {v : ValueId} {value : GraphValue}
    (hfound : model.graph.tables.values[v]? = some value) (holder : ∀ q, value.producer = some q →
      q < actions.length) :
    Available model.graph.tables actions Anything v := by
  refine ⟨value, hfound, fun _ => trivial, fun q hproducer => ?_⟩
  obtain ⟨before, hthere, -⟩ := node_of_producer model.graph.wf hfound hproducer
  exact hkeeps q before (holder q hproducer) hthere

/-- A round that copies the node. -/
theorem step_copy (execute : Graph α → ValueId → Except Exn (Tensor α))
    {actions : List (Action α)} {f : Folding α}
    (hopened : Open model.graph.tables model.graph.tables.inputIds actions Anything f.rewriter)
    (hkeeps : KeepsAll model.graph.tables actions) {node : Node}
    (hfound : model.graph.tables.nodes[actions.length]? = some node)
    (hunknown : foldable f.known node = false) :
    ∃ r, step execute model f actions.length = .ok { f with rewriter := r } ∧
      Open model.graph.tables model.graph.tables.inputIds
        (actions ++ [.emit node.op node.inputs node.attributes]) Anything r := by
  have hreads : ∀ v ∈ node.inputs, Available model.graph.tables actions Anything v := by
    intro v hread
    obtain ⟨value, hthere, holder⟩ := (model.graph.wf.node _ node hfound).inputs v hread
    exact available hkeeps hthere holder
  obtain ⟨q, r, hcopied, hnext⟩ := GraphRewriter.copyNode_ok hopened hfound hreads
  refine ⟨r, bind_ok.2 ⟨node, ?_, ?_⟩, hnext⟩
  · unfold Graph.node
    rw [hfound]
  · rw [if_neg (by rw [hunknown]; exact Bool.false_ne_true)]
    exact bind_ok.2 ⟨_, hcopied, rfl⟩

/-- A node that is not foldable reads a value that is not known. -/
theorem unknown_input {actions : List (Action α)} {f : Folding α} (h : FoldInv model actions f)
    {node : Node} (hfound : model.graph.tables.nodes[actions.length]? = some node)
    (hunknown : foldable f.known node = false) :
    ∃ v ∈ node.inputs, Unknown model.graph.tables actions v := by
  have hwf := model.graph.wf
  obtain ⟨out, -, -, houtputs, -⟩ := (hwf.node _ node hfound).output
  have hsome_unknown : ¬ ∀ v ∈ node.inputs, (f.known v).isSome = true := by
    intro hall
    unfold foldable at hunknown
    rw [houtputs, supports_all, List.all_eq_true.2 hall] at hunknown
    cases hunknown
  push Not at hsome_unknown
  obtain ⟨v, hread, hnone⟩ := hsome_unknown
  obtain ⟨value, hthere, holder⟩ := (hwf.node _ node hfound).inputs v hread
  refine ⟨v, hread, value, hthere, fun hkind => hnone (h.constants v value hthere hkind),
    fun q hproducer => ?_⟩
  obtain ⟨before, hhere, houtputs'⟩ := node_of_producer hwf hthere hproducer
  rcases h.folds q before (holder q hproducer) hhere with ⟨tensor, hfolded⟩ | ⟨hcopied, -⟩
  · refine absurd (h.folded q before tensor hhere hfolded v ?_) hnone
    rw [houtputs']
    exact List.mem_singleton_self v
  · exact mem_emitted.2 ⟨_, _, _, hcopied⟩

/-- A tensor that `replaceWithConstant` accepts has the spec of the value. -/
theorem spec_of_replace {r r' : GraphRewriter α} {id w : ValueId} {tensor : Tensor α}
    {value : GraphValue} (hfound : model.graph.tables.values[id]? = some value)
    (h : r.replaceWithConstant model id tensor = .ok (w, r')) : tensor.spec = value.spec := by
  obtain ⟨-, h⟩ := check_ok.1 h
  obtain ⟨value', hfound', h⟩ := bind_ok.1 h
  obtain ⟨-, h⟩ := check_ok.1 h
  obtain ⟨hsame, -⟩ := check_ok.1 h
  rw [Graph.value_ok, hfound] at hfound'
  cases hfound'
  exact beq_iff_eq.1 (require_ok.1 hsame)

/-- One round of the loop over the nodes, if it returns. -/
theorem step_inv {actions : List (Action α)} {f f' : Folding α} (h : FoldInv model actions f)
    {node : Node} (hfound : model.graph.tables.nodes[actions.length]? = some node)
    (hrun : step execute model f actions.length = .ok f') :
    ∃ action, FoldInv model (actions ++ [action]) f' := by
  have hwf := model.graph.wf
  cases hknown : foldable f.known node with
  -- the node is copied, as one of its inputs is not known
  | false =>
    obtain ⟨r, hrun', hnext⟩ := step_copy execute h.opened h.folds.keeps hfound hknown
    rw [hrun] at hrun'
    cases hrun'
    obtain ⟨v, hread, hunknown⟩ := unknown_input h hfound hknown
    have hlast : (actions ++ [.emit node.op node.inputs node.attributes])[actions.length]? =
        some (.emit node.op node.inputs node.attributes) := Graph.getElem?_snoc.2 (.inr ⟨rfl, rfl⟩)
    refine ⟨_, hnext, h.folds.concat hfound (.inr ⟨hlast, v, hread, hunknown.concat _⟩),
      h.constants, ?_, h.spec⟩
    intro p other tensor hthere hacted
    rcases Graph.getElem?_snoc.1 hacted with hacted | ⟨-, heq⟩
    · exact h.folded p other tensor hthere hacted
    · cases heq
  -- the node is folded, as every input is known
  | true =>
    obtain ⟨node', hfound', hrun⟩ := bind_ok.1 hrun
    have hnode_eq : node' = node := by
      unfold Graph.node at hfound'
      rw [hfound] at hfound'
      cases hfound'
      rfl
    subst hnode_eq
    rw [if_pos hknown] at hrun
    obtain ⟨tensor, -, hrun⟩ := bind_ok.1 hrun
    obtain ⟨⟨w, r⟩, hreplaced, hrun⟩ := bind_ok.1 hrun
    cases hrun
    obtain ⟨out, value, -, houtputs, hthere, -⟩ := (hwf.node _ node' hfound).output
    rw [houtputs, List.headD_cons] at hreplaced ⊢
    obtain ⟨w', r', hreplaced', hnext⟩ :=
      GraphRewriter.replaceWithConstant_ok h.opened hfound houtputs hthere
      (spec_of_replace hthere hreplaced)
    rw [hreplaced] at hreplaced'
    cases hreplaced'
    have hlast : (actions ++ [.fold tensor])[actions.length]? = some (.fold tensor) :=
      Graph.getElem?_snoc.2 (.inr ⟨rfl, rfl⟩)
    -- what was known stays known
    have hstill {v : ValueId} (h : (f.known v).isSome = true) :
        (Function.update f.known out (some tensor) v).isSome = true := by
      by_cases hsame : v = out
      · rw [hsame, Function.update_self]
        rfl
      · rwa [Function.update_of_ne hsame]
    refine ⟨.fold tensor, hnext, h.folds.concat hfound (.inl ⟨tensor, hlast⟩), ?_, ?_, ?_⟩
    · exact fun v value hthere hkind => hstill (h.constants v value hthere hkind)
    -- a folded node has all its outputs known
    · intro p other tensor' hthere hacted v hmem
      rcases Graph.getElem?_snoc.1 hacted with hacted | ⟨rfl, heq⟩
      · exact hstill (h.folded p other tensor' hthere hacted v hmem)
      · rw [hfound] at hthere
        cases hthere
        rw [houtputs, List.mem_singleton] at hmem
        rw [hmem]
        show (Function.update f.known out (some tensor) out).isSome = true
        rw [Function.update_self]
        rfl
    -- the known constants have the specs of the values they stand for
    · intro v value' tensor' heq hthere'
      have heq : Function.update f.known out (some tensor) v = some tensor' := heq
      by_cases hsame : v = out
      · subst hsame
        rw [Function.update_self] at heq
        cases heq
        rw [hthere] at hthere'
        cases hthere'
        exact spec_of_replace hthere hreplaced
      · rw [Function.update_of_ne hsame] at heq
        exact h.spec v value' tensor' heq hthere'

/-- The first state of the loop. -/
theorem FoldInv.start {r : GraphRewriter α}
    (hopened : Open model.graph.tables model.graph.tables.inputIds [] Anything r) :
    FoldInv model [] { rewriter := r,
                       known := fun id => (model.graph.tables.constants[id]?).join } := by
  refine ⟨hopened, fun _ _ hless => absurd hless (Nat.not_lt_zero _),
    fun v value hfound hkind => ?_, fun p node tensor _ hacted =>
      (by cases hacted), fun v value tensor heq hfound => ?_⟩
  · exact (isConstant_eq model.graph.wf hfound).2 hkind
  · have hconstant : model.graph.tables.constants[v]? = some (some tensor) :=
      Option.join_eq_some_iff.1 heq
    obtain ⟨value', hfound', hkind⟩ := kind_of_constant model.graph.wf hconstant
    rw [hfound] at hfound'
    cases hfound'
    have hmetadata := model.graph.wf.metadata v value hfound
    unfold Graph.MetadataOk at hmetadata
    rw [hkind] at hmetadata
    obtain ⟨-, tensor', hconstant', hspec⟩ := hmetadata
    rw [hconstant] at hconstant'
    cases hconstant'
    exact hspec

/-! ## The run -/

/-- A loop over `0, …, n - 1` that returns has kept an invariant that its rounds keep. -/
theorem foldlM_range_inv {σ : Type} {f : σ → Nat → Except Exn σ} {P : Nat → σ → Prop}
    {n : Nat} {a b : σ} (hrun : (List.range n).foldlM f a = .ok b) (hstart : P 0 a)
    (hstep : ∀ k < n, ∀ a b, P k a → f a k = .ok b → P (k + 1) b) : P n b := by
  induction n generalizing b with
  | zero =>
    cases hrun
    exact hstart
  | succ n ih =>
    rw [List.range_succ, List.foldlM_append] at hrun
    obtain ⟨c, hbefore, hlast⟩ := bind_ok.1 hrun
    obtain ⟨d, hlast, heq⟩ := bind_ok.1 hlast
    cases heq
    exact hstep n (Nat.lt_succ_self n) c _
      (ih hbefore fun k hless => hstep k (Nat.lt_succ_of_lt hless)) hlast

/-- The outputs have images once every node is processed. -/
theorem outputs_available {actions : List (Action α)} (hkeeps : KeepsAll model.graph.tables actions)
    (hcomplete : actions.length = model.graph.tables.nodes.length) :
    ∀ v ∈ model.graph.tables.outputIds, Available model.graph.tables actions Anything v := by
  intro v hmem
  have hfound := List.getElem?_eq_getElem (model.graph.wf.outputs_lt v hmem)
  refine available hkeeps hfound fun q hproducer => ?_
  obtain ⟨node, hthere, -⟩ := node_of_producer model.graph.wf hfound hproducer
  rw [hcomplete]
  exact (List.getElem?_eq_some_iff.1 hthere).1

/-- What a run that returns has done. -/
theorem rewritten_of_run {result : OptimizationResult α} (h : run execute model = .ok result) :
    ∃ actions, Rewritten model result.model actions Anything result.valueMapping ∧
      Folds model.graph.tables actions := by
  obtain ⟨r₀, hstarted, h⟩ := bind_ok.1 h
  obtain ⟨order, hordered, h⟩ := bind_ok.1 h
  obtain ⟨f, hloop, h⟩ := bind_ok.1 h
  obtain ⟨r₂, hcopied, h⟩ := bind_ok.1 h
  obtain ⟨optimized, hfinished, h⟩ := bind_ok.1 h
  cases h
  obtain ⟨r, hstarted', hopened⟩ := GraphRewriter.start_ok model Anything
  rw [hstarted] at hstarted'
  cases hstarted'
  rw [model.order_eq] at hordered
  cases hordered
  obtain ⟨actions, hcomplete, hinv⟩ := foldlM_range_inv
    (P := fun k f => ∃ actions, actions.length = k ∧ FoldInv model actions f) hloop
    ⟨[], rfl, FoldInv.start hopened⟩ (by
      rintro k hless f f' ⟨actions, rfl, hinv⟩ hround
      obtain ⟨action, hnext⟩ := step_inv hinv (List.getElem?_eq_getElem hless) hround
      exact ⟨_, by rw [List.length_append, List.length_singleton], hnext⟩)
  obtain ⟨r₂', hcopied', hopened₂, hmapped, -⟩ :=
    GraphRewriter.copyMissing_ok hinv.opened (outputs_available hinv.folds.keeps hcomplete)
  rw [hcopied] at hcopied'
  cases hcopied'
  obtain ⟨optimized', hfinished', hrewritten⟩ := GraphRewriter.finish_ok hopened₂ hcomplete hmapped
  rw [hfinished] at hfinished'
  cases hfinished'
  exact ⟨actions, hrewritten, hinv.folds⟩

/-- Nothing in the result can be folded. -/
theorem noFold_of_run {result : OptimizationResult α} (h : run execute model = .ok result) :
    NoFold result.model.graph.tables := by
  obtain ⟨actions, hrewritten, hfolds⟩ := rewritten_of_run h
  intro image hmem
  obtain ⟨q, hhere⟩ := List.getElem?_of_mem hmem
  obtain ⟨p, node, ids, hfound, haction, hemitted⟩ := hrewritten.rewrites.image_emitted hhere
  have hinside : p < actions.length := (List.getElem?_eq_some_iff.1 haction).1
  rcases hfolds p node hinside hfound with ⟨tensor, hfolded⟩ | ⟨hcopied, v, hread, value, hthere,
    hkind, hemits⟩
  · rw [haction] at hfolded
    cases hfolded
  · rw [haction] at hcopied
    injection Option.some.inj hcopied with _ hids_eq _
    subst hids_eq
    obtain ⟨w, hmem', hmapped⟩ := mapped_of_mem hemitted.inputs hread
    refine ⟨w, hmem', ?_⟩
    obtain ⟨value', image', hthere', hfound', -, -, hstands⟩ :=
      hrewritten.rewrites.image v w hmapped
    rw [hthere] at hthere'
    cases hthere'
    have hother : image'.kind ≠ .constant := by
      cases hstands with
      | input _ hsame =>
        rw [hsame]
        decide
      | constant hconstant => exact absurd hconstant hkind
      | node p op ids attributes hproducer haction hsame =>
        rw [hsame]
        decide
      | folded p tensor hproducer haction =>
        obtain ⟨op, ids, attributes, haction'⟩ := mem_emitted.1 (hemits p hproducer)
        rw [haction] at haction'
        cases haction'
    rw [Bool.eq_false_iff]
    exact fun hconstant => hother ((isConstant_eq result.model.graph.wf hfound').1 hconstant)

/-- Every node is copied. -/
abbrev Copies (g : Graph α) (actions : List (Action α)) : Prop :=
  Follows g (fun _ node => .emit node.op node.inputs node.attributes) actions

theorem keepsAll_of_copies {g : Graph α} {actions : List (Action α)} (h : Copies g actions) :
    KeepsAll g actions := fun p node hinside hfound => ⟨_, h p node hinside hfound, rfl⟩

/-- Where nothing can be folded the pass copies the graph. -/
theorem run_of_noFold (execute : Graph α → ValueId → Except Exn (Tensor α))
    (hunfoldable : NoFold model.graph.tables) :
    ∃ optimized mapping actions,
      run execute model = .ok ⟨optimized, mapping,
        [sizes "ConstantFoldingPass" model.graph.tables optimized.graph.tables]⟩ ∧
      Rewritten model optimized actions Anything mapping ∧ Copies model.graph.tables actions := by
  let known (id : ValueId) : Option (Tensor α) := (model.graph.tables.constants[id]?).join
  obtain ⟨r₀, hstarted, hopened₀⟩ := GraphRewriter.start_ok model Anything
  obtain ⟨⟨r₁, known', folded⟩, hloop, actions, hcopies, hcomplete, hopened₁, hsame, hnone⟩ :=
    foldlM_range_ok (n := model.graph.tables.nodes.length) (f := step execute model)
      (a := { rewriter := r₀, known })
      (P := fun k f => ∃ actions, Copies model.graph.tables actions ∧ actions.length = k ∧
        Open model.graph.tables model.graph.tables.inputIds actions Anything f.rewriter ∧
        f.known = known ∧ f.folded = 0)
      ⟨[], fun _ _ hless _ => absurd hless (Nat.not_lt_zero _), rfl, hopened₀, rfl, rfl⟩ (by
        rintro k hless ⟨r, known', folded⟩ ⟨actions, hcopies, rfl, hopened, hsame, hnone⟩
        have hfound := List.getElem?_eq_getElem hless
        obtain ⟨v, hread, hother⟩ := hunfoldable _ (List.mem_of_getElem? hfound)
        have hunknown : foldable known' model.graph.tables.nodes[actions.length] = false := by
          have hsame : known' = known := hsame
          unfold foldable
          rw [hsame, Bool.and_eq_false_iff]
          refine .inr (List.all_eq_false.2 ⟨v, hread, ?_⟩)
          rw [Bool.not_eq_true]
          exact hother
        obtain ⟨r', hrun, hnext⟩ :=
          step_copy execute hopened (keepsAll_of_copies hcopies) hfound hunknown
        exact ⟨_, hrun, _, hcopies.concat hfound,
          by rw [List.length_append, List.length_singleton], hnext, hsame, hnone⟩)
  obtain ⟨r₂, hcopied, hopened₂, hmapped, -⟩ := GraphRewriter.copyMissing_ok hopened₁
    (outputs_available (keepsAll_of_copies hcopies) hcomplete)
  obtain ⟨optimized, hfinished, hrewritten⟩ := GraphRewriter.finish_ok hopened₂ hcomplete hmapped
  refine ⟨optimized, r₂.valueMapping, actions, ?_, hrewritten, hcopies⟩
  have hnone : folded = 0 := hnone
  subst hnone
  exact bind_ok.2 ⟨r₀, hstarted, bind_ok.2 ⟨_, model.order_eq, bind_ok.2 ⟨_, hloop,
    bind_ok.2 ⟨r₂, hcopied, bind_ok.2 ⟨optimized, hfinished, rfl⟩⟩⟩⟩⟩

end TinyInfer.Optimizer.ConstantFoldingPass
