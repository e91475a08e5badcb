import TinyInfer.Backend.Cpu.KernelsExact
import TinyInfer.Optimizer.Meaning

/-!
# What a fusion means

The node that a pass emits for a pair of nodes computes what the pair computes, where sums
commute and a product with one changes nothing (`Laws`).

Main definitions: `Laws`, `Pattern.Exact`.
-/

namespace TinyInfer.Optimizer

open Ops

variable {F : Type} [KernelScalar F] [DecidableEq F]

/-- What the passes rely on in the arithmetic. -/
structure Laws (F : Type) [KernelScalar F] : Prop where
  add_comm : ∀ x y : F, x + y = y + x
  one_mul : ∀ x : F, 1 * x = x
  ofBits_one : (KernelScalar.ofBits FloatBits.one : F) = 1

/-- What a pattern emits for a head computes the value of the head. -/
def Pattern.Exact (P : Pattern F) : Prop :=
  ∀ (g : Graph F) (env : ValueId → TensorValue F), g.WellFormed → g.Solution env →
    ∀ (p : NodeId) (node : Node) (c : Candidate), g.nodes[p]? = some node →
    P.matched g node = some c →
      Right env node (.emit c.op c.inputs c.attributes)

/-! ## The specs that are inferred -/

omit [KernelScalar F] [DecidableEq F] in
theorem specs_env {g : Graph F} {env : ValueId → TensorValue F} (htyped : g.Typed env)
    {ids : List ValueId} {specs : List TensorSpec} (h : Specs g ids specs) :
    specs = (ids.map env).map (·.spec) := by
  unfold Specs at h
  induction h with
  | nil => rfl
  | cons hhead _ ih =>
    obtain ⟨value, hfound, rfl⟩ := Option.map_eq_some_iff.1 hhead
    rw [List.map_cons, List.map_cons, ← ih, htyped _ value hfound]

omit [KernelScalar F] [DecidableEq F] in
/-- What a node emits for a head has the spec of the output. -/
theorem Pattern.inferred (P : Pattern F) {g : Graph F} {env : ValueId → TensorValue F}
    (hwf : g.WellFormed) (htyped : g.Typed env) {p : NodeId} {node : Node} {c : Candidate}
    (hfound : g.nodes[p]? = some node) (hmatched : P.matched g node = some c) {out : ValueId}
    {value : GraphValue} (hdefines : g.Defines p node out value) :
    inferOutputSpecs c.op ((c.inputs.map env).map (·.spec)) c.attributes = .ok [value.spec] := by
  obtain ⟨out', value', specs, houtputs, hat, hread, inferred⟩ :=
    P.action_infers hwf hfound hmatched
  obtain rfl : out' = out := (List.cons.inj (houtputs.symm.trans hdefines.outputs)).1
  rw [hdefines.found] at hat
  cases hat
  rwa [← specs_env htyped hread]

/-! ## Products and sums -/

omit [DecidableEq F] in
/-- A value of the shape that it is broadcast to. -/
theorem broadcast_self {v : TensorValue F} {shape : Shape} (hsame : v.spec.shape = shape) {i : Nat}
    (hinside : i < Shape.count shape) : v.broadcast shape i = v.get i := by
  subst hsame
  unfold TensorValue.broadcast TensorValue.broadcastIndex
  rw [Nat.sub_self, List.drop_zero]
  have hcoords : Lib.RowMajor.Inside (Shape.dims v.spec.shape)
      (Lib.RowMajor.coordinates (Shape.dims v.spec.shape) i) :=
        Lib.RowMajor.inside_coordinates hinside
  have hkept : List.zipWith (fun extent c => if extent = 1 then 0 else c) (Shape.dims v.spec.shape)
      (Lib.RowMajor.coordinates (Shape.dims v.spec.shape) i) =
      Lib.RowMajor.coordinates (Shape.dims v.spec.shape) i := by
    generalize Lib.RowMajor.coordinates (Shape.dims v.spec.shape) i = cs at hcoords
    generalize Shape.dims v.spec.shape = dims at hcoords
    induction dims generalizing cs with
    | nil => cases cs <;> first | rfl | exact hcoords.elim
    | cons d dims ih =>
      cases cs with
      | nil => exact hcoords.elim
      | cons c cs =>
        rw [List.zipWith_cons_cons, ih cs hcoords.2]
        split
        · rename_i hone
          have hless : c < d := hcoords.1
          rw [show c = 0 by omega]
        · rfl
  rw [hkept, Lib.RowMajor.rank_coordinates hinside]

/-- A sum of a product and a bias is the element of a `Gemm`. -/
theorem gemm_of_add (hlaws : Laws F) {l r b : TensorValue F} {attributes : NodeAttributes}
    {product out : TensorSpec}
    (hmatMul : inferOutputSpecs .matMul [l.spec, r.spec] attributes = .ok [product])
    (hgemm : inferOutputSpecs .gemm [l.spec, r.spec, b.spec]
      MatMulAddCanonicalizationPass.canonicalAttributes =
      .ok [out]) {i : Nat} (hinside : i < Shape.count out.shape) :
    element .gemm MatMulAddCanonicalizationPass.canonicalAttributes [l, r, b] out.shape i =
      (TensorValue.tabulate product
        (element .matMul attributes [l, r] product.shape)).broadcast out.shape i +
        b.broadcast out.shape i := by
  obtain ⟨l', r', bias', product', a, a', htwo, -, hspecs, hleft, hright, hshapes⟩ :=
    Backend.Cuda.matrixShapes_of_inferred (by decide) hmatMul
  obtain ⟨l'', r'', bias'', out', b', b'', htwo', -, hspecs', hleft', hright', hshapes'⟩ :=
    Backend.Cuda.matrixShapes_of_inferred (by decide) hgemm
  cases htwo
  cases htwo'
  cases hspecs
  cases hspecs'
  have hknown := (inferOutputSpecs_checked hmatMul).2.2.1
  obtain rfl := validateAttributes_none rfl hknown
  -- Both have the rows of the first and the columns of the second operand.
  have hrows : a.1 = b'.1 := (List.cons.inj (hleft.symm.trans hleft')).1
  have hcolumns : a'.2 = b''.2 := (List.cons.inj (List.cons.inj (hright.symm.trans hright')).2).1
  have hsame : product.shape = out.shape := by
    rw [show product.shape = [a.1, a'.2] from hshapes.out,
      show out.shape = [b'.1, b''.2] from hshapes'.out, hrows, hcolumns]
  rw [broadcast_self (v := TensorValue.tabulate product _) hsame hinside,
    TensorValue.get_tabulate _ (hsame ▸ hinside), hsame]
  show epilogueOf (KernelScalar.ofBits FloatBits.one) (KernelScalar.ofBits FloatBits.one)
    (some (b.broadcast out.shape i)) false (productOf l r false false _ _) = _
  unfold epilogueOf
  dsimp only
  rw [hlaws.ofBits_one, hlaws.one_mul, hlaws.one_mul]
  rfl

/-- The other attributes stay. -/
theorem lookup_activate (attributes : NodeAttributes) {name : String}
    (hother : name ≠ "activation") :
    (GemmActivationFusionPass.activate attributes).lookup name = attributes.lookup name := by
  unfold GemmActivationFusionPass.activate
  rw [List.lookup_cons, beq_false_of_ne hother]
  dsimp only
  induction attributes with
  | nil => rfl
  | cons entry attributes ih =>
    obtain ⟨key, value⟩ := entry
    rw [List.lookup_cons, ← ih]
    by_cases hsame : key = "activation"
    · subst hsame
      rw [List.filter_cons_of_neg (by simp), beq_false_of_ne hother]
    · rw [List.filter_cons_of_pos (by simpa using hsame), List.lookup_cons]

theorem gemmOf_activate (attributes : NodeAttributes) (l r : TensorValue F)
    (bias : Option (TensorValue F)) (relu : Bool) (shape : Shape) (i : Nat) :
    gemmOf (GemmActivationFusionPass.activate attributes) l r bias relu shape i =
      gemmOf attributes l r bias relu shape i := by
  unfold gemmOf floatAttribute integerAttribute
  simp only [lookup_activate attributes (show "alpha" ≠ "activation" by decide),
    lookup_activate attributes (show "beta" ≠ "activation" by decide),
    lookup_activate attributes (show "transA" ≠ "activation" by decide),
    lookup_activate attributes (show "transB" ≠ "activation" by decide)]

/-- With an activation the product is always scaled. -/
theorem epilogueOf_relu (hlaws : Laws F) (alpha beta : F) (bias : Option F) (product : F) :
    epilogueOf alpha beta bias true product = maximum 0
      (epilogueOf alpha beta bias false product) := by
  unfold epilogueOf
  cases bias with
  | some b => rfl
  | none =>
    dsimp only
    by_cases hone : alpha = 1
    · subst hone
      rw [hlaws.one_mul, ite_self, ite_self]
      rfl
    · rw [if_pos (Or.inl hone), if_pos (Or.inl hone)]
      rfl

/-- The positive part of an element of a `Gemm`. -/
theorem fused_of_relu (hlaws : Laws F) (attributes : NodeAttributes) (l r : TensorValue F)
    (bias : Option (TensorValue F)) (shape : Shape) (i : Nat) :
    gemmOf (GemmActivationFusionPass.activate attributes) l r bias true shape i =
      maximum 0 (gemmOf attributes l r bias false shape i) := by
  rw [gemmOf_activate]
  exact epilogueOf_relu hlaws _ _ _ _

/-! ## The patterns -/

/-- The value of a node, and what it reads, in a solution. -/
theorem value_of_node {g : Graph F} {env : ValueId → TensorValue F} (hwf : g.WellFormed)
    (hsolution : g.Solution env) {p : NodeId} {node : Node} (hfound : g.nodes[p]? = some node) :
    ∃ out value, g.Defines p node out value ∧
      env out = .tabulate value.spec
        (element node.op node.attributes (node.inputs.map env) value.spec.shape) := by
  obtain ⟨out, value, hdefines⟩ := hwf.defines hfound
  exact ⟨out, value, hdefines, hsolution.node hfound hdefines⟩

/-- What is emitted is right if its elements are those of the node. -/
theorem Pattern.right_of_elements (P : Pattern F) {g : Graph F} {env : ValueId → TensorValue F}
    (hwf : g.WellFormed) (hsolution : g.Solution env) {p : NodeId} {node : Node} {c : Candidate}
    (hfound : g.nodes[p]? = some node) (hmatched : P.matched g node = some c)
    (helements : ∀ (spec : TensorSpec) (i : Nat),
      inferOutputSpecs c.op ((c.inputs.map env).map (·.spec)) c.attributes = .ok [spec] →
      inferOutputSpecs node.op ((node.inputs.map env).map (·.spec)) node.attributes = .ok [spec] →
      i < Shape.count spec.shape → element c.op c.attributes (c.inputs.map env) spec.shape i =
        element node.op node.attributes (node.inputs.map env) spec.shape i) :
    Right env node (.emit c.op c.inputs c.attributes) := by
  obtain ⟨out, value, hdefines, hcomputed⟩ := value_of_node hwf hsolution hfound
  have hinferred := P.inferred hwf hsolution.typed hfound hmatched hdefines
  intro out' hmem
  obtain rfl : out' = out := by simpa [hdefines.outputs] using hmem
  rw [eval_some hinferred, hcomputed]
  exact congrArg some (TensorValue.tabulate_congr fun i hinside =>
    helements value.spec i hinferred (hsolution.typed.inferred hdefines) hinside)

/-- A `Gemm` and its activation. -/
theorem GemmActivationFusionPass.exact (hlaws : Laws F) : Pattern.Exact (pattern : Pattern F) := by
  intro g env hwf hsolution p node c hfound hmatched
  obtain ⟨output, gemm, hop, hone, -, hproduced, -, hthere, houtputs, heq⟩ :=
    candidate_some (pattern.matched_some.1 hmatched).1
  obtain ⟨value, other, -, -, hat, hgemm_op⟩ := producerOf_eq_some.1 hproduced
  rw [hthere] at hat
  cases hat
  refine pattern.right_of_elements hwf hsolution hfound hmatched
    fun spec i hinferred hnode_inferred hinside => ?_
  obtain ⟨out, product, hdefines, hcomputed⟩ := value_of_node hwf hsolution hthere
  obtain rfl : output = out := (List.cons.inj (houtputs.symm.trans hdefines.outputs)).1
  have hgemm_inferred := hsolution.typed.inferred hdefines
  rw [hgemm_op] at hgemm_inferred hcomputed
  -- The two operands, and perhaps a bias.
  obtain ⟨l', r', bias', -, a, b, hthree, -⟩ :=
    Backend.Cuda.matrixShapes_of_inferred (by decide) hgemm_inferred
  obtain ⟨l, rest, hoperands, -, hmore⟩ := List.map_eq_cons_iff.1 hthree
  obtain ⟨r, bias, rfl, -, -⟩ := List.map_eq_cons_iff.1 hmore
  rw [hop, hone] at hnode_inferred
  obtain ⟨input, hsame, hspecs⟩ := inferUnary_ok (.inl rfl) hnode_inferred
  obtain rfl : spec = (env output).spec :=
    (List.cons.inj hspecs).1.trans (List.cons.inj hsame).1.symm
  have hproduct_spec : (env output).spec = product.spec := by
    rw [hcomputed]
    rfl
  rw [heq, hop, hone]
  dsimp only
  rw [hoperands] at hcomputed ⊢
  have helement_eq : (env output).get i =
      gemmOf gemm.attributes l r bias.head? false (env output).spec.shape i := by
    rw [hproduct_spec] at hinside ⊢
    rw [hcomputed]
    exact TensorValue.get_tabulate _ hinside
  refine (fused_of_relu hlaws gemm.attributes l r bias.head? _ i).trans ?_
  rw [← helement_eq]
  rfl

/-- The sum of a product and a bias, in either order. -/
theorem MatMulAddCanonicalizationPass.exact (hlaws : Laws F) :
    Pattern.Exact (pattern : Pattern F) := by
  intro g env hwf hsolution p node c hfound hmatched
  obtain ⟨index, product, bias, matmul, hop, htwo, -, hsearched, hhere, hthere, htwo', houtputs, -,
    hother, heq⟩ :=
    candidate_some (pattern.matched_some.1 hmatched).1
  obtain ⟨v, -, hproduced⟩ := (findProduct_some hsearched).resolve_left (by simp)
  obtain ⟨value, producer, -, -, hat, hmatmul_op⟩ := producerOf_eq_some.1 hproduced
  rw [hthere] at hat
  cases hat
  refine pattern.right_of_elements hwf hsolution hfound hmatched fun spec i hinferred _ hinside =>
    ?_
  obtain ⟨out, image, hdefines, hcomputed⟩ := value_of_node hwf hsolution hthere
  obtain rfl : product = out := (List.cons.inj (houtputs.symm.trans hdefines.outputs)).1
  have hmatmul_inferred := hsolution.typed.inferred hdefines
  rw [hmatmul_op] at hmatmul_inferred hcomputed
  obtain ⟨a, b, hoperands⟩ := List.length_eq_two.1 htwo'
  obtain ⟨x, y, hsummands⟩ := List.length_eq_two.1 htwo
  rw [hoperands] at hmatmul_inferred hcomputed
  rw [heq, hoperands] at hinferred
  rw [heq, hop, hoperands, hsummands]
  have hsum := gemm_of_add hlaws hmatmul_inferred hinferred hinside
  refine hsum.trans ?_
  have hbroadcast :
    (TensorValue.tabulate image.spec (element .matMul matmul.attributes [env a, env b]
      image.spec.shape)).broadcast spec.shape i = (env product).broadcast spec.shape i := by
    rw [hcomputed]
    rfl
  refine (congrArg (· + (env bias).broadcast spec.shape i) hbroadcast).trans ?_
  rw [hsummands] at hhere hother
  rcases Nat.lt_or_ge index 2 with hsmall | hlarge
  · obtain rfl | rfl : index = 0 ∨ index = 1 := by omega
    · cases hhere
      cases hother
      rfl
    · cases hhere
      cases hother
      exact hlaws.add_comm _ _
  · rw [List.getElem?_eq_none (by simpa using hlarge)] at hhere
    cases hhere

end TinyInfer.Optimizer
