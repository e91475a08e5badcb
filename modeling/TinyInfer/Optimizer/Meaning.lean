import TinyInfer.Graph.GraphMeaning
import TinyInfer.Optimizer.Fixpoint

/-!
# What a rewrite means

A rewrite preserves meaning if every solution of the source graph is, through the mapping, one of
the graph that it builds. It does where each action is right: what is emitted for a node computes
the value of the node, and what is folded is that value (`Rewritten.preserves`).

Main definitions: `Right`, `AllRight`, `Preserves`.
-/

namespace TinyInfer.Optimizer

open Ops

variable {F : Type} [KernelScalar F] [DecidableEq F]

/-- What becomes of a node has the value of the node, among the values of a solution. -/
def Right (env : ValueId → TensorValue F) (node : Node) : Action F → Prop
  | .remove => True
  | .emit op inputs attributes =>
    ∀ out ∈ node.outputs, eval op attributes (inputs.map env) = some (env out)
  | .fold tensor => ∀ out ∈ node.outputs, env out = tensor.contents

/-- Every action is right in every solution. -/
def AllRight (g : Graph F) (actions : List (Action F)) : Prop :=
  ∀ env, g.Solution env → ∀ (p : NodeId) (node : Node) (action : Action F),
    g.nodes[p]? = some node → actions[p]? = some action → Right env node action

/-- The values of the source are those of the target that they are mapped to. -/
def Preserves (source target : Graph F) (mapping : List (Option ValueId)) : Prop :=
  ∀ env, source.Solution env → ∃ env', target.Solution env' ∧ ∀ v w, Mapped mapping v w →
  env' w = env v

/-! ## One rewrite -/

/-- A copy of a node computes its value. -/
theorem right_copy {g : Graph F} {env : ValueId → TensorValue F}
    (hsolution : g.Solution env) {p : NodeId} {node : Node} (hwf : g.WellFormed)
    (hfound : g.nodes[p]? = some node) :
    Right env node (.emit node.op node.inputs node.attributes) := by
  obtain ⟨out, value, hdefines⟩ := hwf.defines hfound
  intro out' hmem
  have hholds :=
    hsolution.holds (Graph.equation node) (List.mem_map_of_mem (List.mem_of_getElem? hfound))
  obtain rfl : out' = out := by simpa [hdefines.outputs] using hmem
  unfold Lib.Equations.Equation.Holds Graph.equation at hholds
  dsimp only at hholds
  rwa [hdefines.outputs] at hholds

/-- One more right action extends the right ones. -/
theorem AllRight.concat {g : Graph F} {actions : List (Action F)}
    (h : AllRight g actions) {node : Node} (hfound : g.nodes[actions.length]? = some node)
    {action : Action F} (hlast : ∀ env, g.Solution env → Right env node action) :
    AllRight g (actions ++ [action]) := by
  intro env hsolution p other other' hthere hacted
  rcases Graph.getElem?_snoc.1 hacted with hacted | ⟨rfl, rfl⟩
  · exact h env hsolution p other other' hthere hacted
  · rw [hfound] at hthere
    cases hthere
    exact hlast env hsolution

omit [KernelScalar F] [DecidableEq F] in
/-- Mapped operands have the values of the old ones. -/
theorem map_env_images {mapping : List (Option ValueId)} {env env' : ValueId → TensorValue F}
    (hsame : ∀ v w, Mapped mapping v w → env' w = env v) {ids images : List ValueId}
    (h : List.Forall₂ (Mapped mapping) ids images) : images.map env' = ids.map env := by
  induction h with
  | nil => rfl
  | cons hhead _ ih => rw [List.map_cons, List.map_cons, ih, hsame _ _ hhead]

/-- The value of a value that stands for another. -/
noncomputable def pull (mapping : List (Option ValueId)) (env : ValueId → TensorValue F)
    (w : ValueId) :
    TensorValue F :=
  open Classical in
  if h : ∃ v, Mapped mapping v w then env h.choose else .tabulate ⟨[], .float32⟩ fun _ => 0

omit [DecidableEq F] in
/-- A pulled-back environment has the image's value. -/
theorem pull_mapped {mapping : List (Option ValueId)}
    (hinjective : ∀ v v' w, Mapped mapping v w → Mapped mapping v' w → v = v')
    (env : ValueId → TensorValue F) {v w : ValueId} (hmapped : Mapped mapping v w) :
    pull mapping env w = env v := by
  have hpreimage : ∃ v, Mapped mapping v w := ⟨v, hmapped⟩
  unfold pull
  rw [dif_pos hpreimage, hinjective _ _ _ hpreimage.choose_spec hmapped]

/-- A rewrite whose actions are right preserves meaning. -/
theorem Rewritten.preserves {source target : Model F} {actions : List (Action F)}
    {wanted : ValueId → Prop} {mapping : List (Option ValueId)}
    (h : Rewritten source target actions wanted mapping)
    (hright : AllRight source.graph.tables actions) :
    Preserves source.graph.tables target.graph.tables mapping := by
  intro env hsolution
  have hsame : ∀ v w, Mapped mapping v w → pull mapping env w = env v :=
    fun v w hmapped => pull_mapped h.rewrites.injective env hmapped
  refine ⟨pull mapping env, ⟨?_, ?_, ?_⟩, hsame⟩
  · intro w image hfound
    obtain ⟨v, hmapped⟩ := h.rewrites.surjective w (List.getElem?_eq_some_iff.1 hfound).1
    obtain ⟨value, image', hfound', hthere, -, hspec, -⟩ := h.rewrites.image v w hmapped
    rw [hfound] at hthere
    cases hthere
    rw [hsame v w hmapped, hsolution.typed v value hfound', hspec]
  · intro w tensor hconstant
    obtain ⟨image, hfound, hkind⟩ := kind_of_constant target.graph.wf hconstant
    obtain ⟨v, hmapped⟩ := h.rewrites.surjective w (List.getElem?_eq_some_iff.1 hfound).1
    obtain ⟨value, image', hfound', hthere, -, -, hstands⟩ := h.rewrites.image v w hmapped
    rw [hfound] at hthere
    cases hthere
    rw [hsame v w hmapped]
    cases hstands with
    | input _ hsame =>
      rw [hkind] at hsame
      cases hsame
    | constant _ _ hcopied => exact hsolution.constant v tensor (hcopied.symm.trans hconstant)
    | node _ _ _ _ _ _ hsame =>
      rw [hkind] at hsame
      cases hsame
    | folded p tensor' hproducer haction _ hfolded =>
      obtain ⟨node, hat, houtputs⟩ := node_of_producer source.graph.wf hfound' hproducer
      rw [hconstant] at hfolded
      cases hfolded
      exact hright env hsolution p node _ hat haction v
        (by rw [houtputs]; exact List.mem_singleton_self v)
  · intro e hmem
    obtain ⟨image, hmem', rfl⟩ := List.mem_map.1 hmem
    obtain ⟨q, hthere⟩ := List.getElem?_of_mem hmem'
    obtain ⟨p, node, ids, hfound, haction, hemitted⟩ := h.rewrites.image_emitted hthere
    obtain ⟨out, -, -, houtputs, -⟩ := (target.graph.wf.node q image hthere).output
    have hlast : out ∈ image.outputs := by
      rw [houtputs]
      exact List.mem_singleton_self out
    obtain ⟨v, hmem, hmapped⟩ := mem_of_mapped hemitted.outputs hlast
    have hcomputes := hright env hsolution p node _ hfound haction v hmem
    unfold Lib.Equations.Equation.Holds Graph.equation
    dsimp only
    rw [houtputs, map_env_images hsame hemitted.inputs, hcomputes, List.headD_cons,
      hsame v out hmapped]

/-! ## Sequences of rewrites -/

/-- The mapping through two passes. -/
def compose (first second : List (Option ValueId)) : List (Option ValueId) :=
  first.map fun mapped => mapped.bind fun id => (second[id]?).join

theorem mapped_compose {first second : List (Option ValueId)} {v w : ValueId} :
    Mapped (compose first second) v w ↔ ∃ u, Mapped first v u ∧ Mapped second u w := by
  unfold Mapped compose
  rw [List.getElem?_map]
  rcases first[v]? with _ | (_ | u)
  · simp
  · simp
  · simp [Option.join_eq_some_iff]

theorem Preserves.identity (g : Graph F) (count : Nat) : Preserves g g (identityMapping count) := by
  intro env hsolution
  refine ⟨env, hsolution, fun v w hmapped => ?_⟩
  obtain ⟨-, rfl⟩ := PassManager.mapped_identity.1 hmapped
  rfl

/-- Preservation composes. -/
theorem Preserves.compose {s t u : Graph F} {first second : List (Option ValueId)}
    (h : Preserves s t first) (h' : Preserves t u second) :
    Preserves s u (compose first second) := by
  intro env hsolution
  obtain ⟨env', hsolution', hsame⟩ := h env hsolution
  obtain ⟨env'', hsolution'', hsame'⟩ := h' env' hsolution'
  refine ⟨env'', hsolution'', fun v w hmapped => ?_⟩
  obtain ⟨x, hleft, hright⟩ := mapped_compose.1 hmapped
  rw [hsame' x w hright, hsame v x hleft]

end TinyInfer.Optimizer
