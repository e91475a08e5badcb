import TinyInfer.Backend.Cpu.GemmExact
import TinyInfer.Backend.Cpu.NormalizationExact
import TinyInfer.Backend.Cuda.GemmDescriptor
import Mathlib.Algebra.Order.Ring.Rat
import Mathlib.Tactic.Positivity

/-!
# Every kernel computes what its operator means

Where shape inference accepts the specs of the operands, and the output has the spec that it
infers, the kernel of the operator does not throw, and stores the meaning of the operator in
the elements of the output (`kernel_ok`).

Main definitions:
- `Literals`: how the literals of a graph are read as scalars.
- `Call`: a call of a kernel, with the tensors that it reads and writes.
- `ExactFloat`: rationals as scalars.
-/

namespace TinyInfer

/-! ## What shape inference accepts -/

theorem inferOutputSpecs_float {op : OpType} {inputs specs : List TensorSpec}
    {attributes : NodeAttributes} (h : inferOutputSpecs op inputs attributes = .ok specs) :
    ∀ s ∈ inputs, s.dtype = .float32 := by
  unfold inferOutputSpecs at h
  obtain ⟨-, h⟩ := check_ok.1 h
  obtain ⟨-, h⟩ := check_ok.1 h
  obtain ⟨-, h⟩ := check_ok.1 h
  obtain ⟨hfloat, -⟩ := check_ok.1 h
  intro s hmem
  exact beq_iff_eq.1 (List.all_eq_true.1 (require_ok.1 hfloat) s hmem)

/-- A sum, a difference or a product of elements. -/
def OpType.isElementwise : OpType → Bool
  | .add | .subtract | .multiply => true
  | _ => false

/-- What an elementwise inference has established: an iterator over both operands. -/
theorem inferElementwise_ok {op : OpType} (helementwise : op.isElementwise = true)
    {inputs specs : List TensorSpec} {attributes : NodeAttributes}
    (h : inferOutputSpecs op inputs attributes = .ok specs) :
    ∃ (lhs rhs : TensorSpec) (left right : TensorLayout) (it : TensorIterator),
      inputs = [lhs, rhs] ∧
      specs = [⟨it.shape, lhs.dtype⟩] ∧ left.shape = lhs.shape ∧ right.shape = rhs.shape ∧
        TensorIterator.ofOperands [left, right] = .ok it := by
  obtain ⟨hfewest, hmost, -, out, rfl, hinferred⟩ := inferOutputSpecs_checked h
  have htwo : inputs.length = 2 := by
    cases op with
    | add | subtract | multiply => exact Nat.le_antisymm hmost hfewest
    | _ => cases helementwise
  obtain ⟨lhs, rhs, rfl⟩ := List.length_eq_two.1 htwo
  have hinferred : inferElementwise lhs rhs = .ok out := by
    cases op with
    | add | subtract | multiply => exact (check_ok.1 hinferred).2
    | _ => cases helementwise
  obtain ⟨left, hbuiltLeft, hinferred⟩ := bind_ok.1 hinferred
  obtain ⟨right, hbuiltRight, hinferred⟩ := bind_ok.1 hinferred
  obtain ⟨it, hmade, hinferred⟩ := bind_ok.1 hinferred
  cases hinferred
  obtain ⟨hadmits, rfl⟩ := TensorLayout.ofShape_ok.1 hbuiltLeft
  obtain ⟨hadmits', rfl⟩ := TensorLayout.ofShape_ok.1 hbuiltRight
  exact ⟨lhs, rhs, _, _, it, rfl, rfl, rfl, rfl, hmade⟩

/-- An inferred Gemm has transpose flags 0 or 1 and its left operand's element type. -/
theorem inferGemm_flags {lhs rhs out : TensorSpec} {bias : Option TensorSpec}
    {attributes : NodeAttributes} (h : inferGemm lhs rhs bias attributes = .ok out) :
    ((integerAttribute attributes "transA" 0 = 0 ∨ integerAttribute attributes "transA" 0 = 1) ∧
      (integerAttribute attributes "transB" 0 = 0 ∨ integerAttribute attributes "transB" 0 = 1)) ∧
      out.dtype = lhs.dtype := by
  unfold inferGemm at h
  obtain ⟨-, h⟩ := check_ok.1 h
  split at h
  · obtain ⟨hflags, h⟩ := check_ok.1 h
    have hflags := require_ok.1 hflags
    simp only [Bool.and_eq_true, Bool.or_eq_true, beq_iff_eq] at hflags
    obtain ⟨-, h⟩ := check_ok.1 h
    refine ⟨hflags, ?_⟩
    cases bias with
    | none =>
      cases h
      rfl
    | some bias =>
      obtain ⟨_, -, h⟩ := bind_ok.1 h
      obtain ⟨_, -, h⟩ := bind_ok.1 h
      obtain ⟨_, -, h⟩ := bind_ok.1 h
      obtain ⟨-, h⟩ := check_ok.1 h
      cases h
      rfl
  · cases h

theorem gemm_flags {op : OpType} (hgemm : op = .gemm ∨ op = .fusedGemmActivation)
    {lhs rhs out : TensorSpec} {bias : List TensorSpec} {attributes : NodeAttributes}
    (h : inferOutputSpecs op (lhs :: rhs :: bias) attributes = .ok [out]) :
    ((integerAttribute attributes "transA" 0 = 0 ∨ integerAttribute attributes "transA" 0 = 1) ∧
      (integerAttribute attributes "transB" 0 = 0 ∨ integerAttribute attributes "transB" 0 = 1)) ∧
      out.dtype = lhs.dtype := by
  obtain ⟨-, -, -, out', hspecs, hinferred⟩ := inferOutputSpecs_checked h
  obtain rfl : out = out' := (List.cons.inj hspecs).1
  rcases hgemm with rfl | rfl
  · exact inferGemm_flags hinferred
  · exact inferGemm_flags (check_ok.1 hinferred).2

theorem inferMatMul_dtype {lhs rhs out : TensorSpec} (h : inferMatMul lhs rhs = .ok out) :
    out.dtype = lhs.dtype := by
  unfold inferMatMul at h
  obtain ⟨-, h⟩ := check_ok.1 h
  split at h
  · obtain ⟨-, h⟩ := check_ok.1 h
    cases h
    rfl
  · cases h

/-- An inferred softmax has an axis inside the rank. -/
theorem inferSoftmax_axis {inputs specs : List TensorSpec} {attributes : NodeAttributes}
    (h : inferOutputSpecs .softmax inputs attributes = .ok specs) :
    ∃ (input : TensorSpec) (axis : Nat), inputs = [input] ∧ specs = [input] ∧
      axis < input.shape.length ∧
      ReductionIterator.normalize input.shape.length
        (integerAttribute attributes "axis" (-1)) = axis ∧
      input.shape.getD axis 0 ≠ 0 := by
  obtain ⟨hfewest, hmost, -, out, rfl, hinferred⟩ := inferOutputSpecs_checked h
  obtain ⟨input, rfl⟩ := List.length_eq_one_iff.1 (Nat.le_antisymm hmost hfewest)
  obtain ⟨-, hinferred⟩ := check_ok.1 hinferred
  obtain ⟨axis, hnormalized, hinferred⟩ := bind_ok.1 hinferred
  cases hinferred
  obtain ⟨hinside, hnormalized⟩ := check_ok.1 hnormalized
  obtain ⟨hnonempty, -⟩ := check_ok.1 hnormalized
  have hbounds := of_decide_eq_true (require_ok.1 hinside)
  refine ⟨out, (ReductionIterator.normalize out.shape.length
    (integerAttribute attributes "axis" (-1))).toNat, rfl, rfl, ?_, ?_, ?_⟩
  · exact (Int.toNat_lt hbounds.1).2 hbounds.2
  · exact (Int.toNat_of_nonneg hbounds.1).symm
  · exact of_decide_eq_true (require_ok.1 hnonempty)

/-- What a `LayerNorm` checks last is its epsilon. -/
theorem epsilon_ok {input out : TensorSpec} {attributes : NodeAttributes}
    (h : checkEpsilon input attributes = .ok out) : out = input ∧
      (floatAttribute attributes "epsilon" .defaultEpsilon).isFinite = true ∧
      (floatAttribute attributes "epsilon" .defaultEpsilon).isNegative = false := by
  unfold checkEpsilon at h
  unfold floatAttribute
  have hdefault : FloatBits.defaultEpsilon.isFinite = true ∧
    FloatBits.defaultEpsilon.isNegative = false := by
    decide
  -- An attribute of another type is not read, so the default stands
  generalize attributes.lookup "epsilon" = found at h ⊢
  rcases found with _ | value
  · exact ⟨(Except.ok.inj h).symm, hdefault⟩
  · cases value with
    | float value =>
      obtain ⟨hchecked, h⟩ := check_ok.1 h
      exact ⟨(Except.ok.inj h).symm, by simpa using require_ok.1 hchecked⟩
    | integer value => exact ⟨(Except.ok.inj h).symm, hdefault⟩
    | boolean value => exact ⟨(Except.ok.inj h).symm, hdefault⟩
    | string value => exact ⟨(Except.ok.inj h).symm, hdefault⟩
    | integers value => exact ⟨(Except.ok.inj h).symm, hdefault⟩

/-- What is accepted of a `LayerNorm`. -/
theorem inferLayerNorm_ok {input out : TensorSpec} {parameters : List TensorSpec}
    {attributes : NodeAttributes} (h : inferLayerNorm input parameters attributes = .ok out)
    (hmost : parameters.length ≤ 2) :
    out = input ∧ input.shape.getLastD 0 ≠ 0 ∧
      (∀ p ∈ parameters, p.shape = [input.shape.getLastD 0] ∧ p.dtype = input.dtype) ∧
      (floatAttribute attributes "epsilon" .defaultEpsilon).isFinite = true ∧
      (floatAttribute attributes "epsilon" .defaultEpsilon).isNegative = false := by
  unfold inferLayerNorm at h
  obtain ⟨hnonempty, h⟩ := check_ok.1 h
  have hwidth : input.shape.getLastD 0 ≠ 0 := by
    have hchecked := require_ok.1 hnonempty
    rw [Bool.and_eq_true, bne_iff_ne] at hchecked
    exact hchecked.2
  have hparameter {p : TensorSpec} {message : String}
    (hchecked : requireParameter input p message = .ok ()) :
      p.shape = [input.shape.getLastD 0] ∧ p.dtype = input.dtype := by
    have hsame := require_ok.1 hchecked
    rw [Bool.and_eq_true, beq_iff_eq, beq_iff_eq] at hsame
    exact hsame
  rcases parameters with _ | ⟨weight, _ | ⟨bias, rest⟩⟩
  · obtain ⟨hsame, hchecked⟩ := epsilon_ok h
    exact ⟨hsame, hwidth, fun p hmem => absurd hmem List.not_mem_nil, hchecked⟩
  · obtain ⟨hfirst, h⟩ := check_ok.1 h
    obtain ⟨hsame, hchecked⟩ := epsilon_ok h
    refine ⟨hsame, hwidth, fun p hmem => ?_, hchecked⟩
    rw [List.mem_singleton.1 hmem]
    exact hparameter hfirst
  · obtain rfl : rest = [] := List.eq_nil_of_length_eq_zero
      (Nat.le_zero.1 (Nat.le_of_add_le_add_right (b := 2) hmost))
    obtain ⟨hfirst, h⟩ := check_ok.1 h
    obtain ⟨hsecond, h⟩ := check_ok.1 h
    obtain ⟨hsame, hchecked⟩ := epsilon_ok h
    refine ⟨hsame, hwidth, fun p hmem => ?_, hchecked⟩
    rcases List.mem_cons.1 hmem with rfl | hmem
    · exact hparameter hfirst
    · rw [List.mem_singleton.1 hmem]
      exact hparameter hsecond

theorem gelu_approximate {inputs specs : List TensorSpec} {attributes : NodeAttributes}
    (h : inferOutputSpecs .gelu inputs attributes = .ok specs) :
    stringAttribute attributes "approximate" "tanh" = "none" ∨
      stringAttribute attributes "approximate" "tanh" = "tanh" := by
  obtain ⟨hfewest, hmost, -, out, rfl, hinferred⟩ := inferOutputSpecs_checked h
  obtain ⟨input, rfl⟩ := List.length_eq_one_iff.1 (Nat.le_antisymm hmost hfewest)
  unfold inferOperator at hinferred
  unfold stringAttribute
  split
  · rename_i value hfound
    rw [hfound] at hinferred
    simpa using require_ok.1 (check_ok.1 hinferred).1
  · exact .inr rfl

/-- An operator that keeps the spec of its only operand. -/
theorem inferUnary_ok {op : OpType} {inputs specs : List TensorSpec} {attributes : NodeAttributes}
    (hunary : op = .reLU ∨ op = .tanh ∨ op = .gelu)
    (h : inferOutputSpecs op inputs attributes = .ok specs) :
    ∃ input, inputs = [input] ∧ specs = [input] := by
  obtain ⟨hfewest, hmost, -, out, rfl, hinferred⟩ := inferOutputSpecs_checked h
  have hone : inputs.length = 1 := by
    rcases hunary with rfl | rfl | rfl <;> exact Nat.le_antisymm hmost hfewest
  obtain ⟨input, rfl⟩ := List.length_eq_one_iff.1 hone
  refine ⟨input, rfl, ?_⟩
  rcases hunary with rfl | rfl | rfl
  · cases hinferred
    rfl
  · cases hinferred
    rfl
  · unfold inferOperator at hinferred
    dsimp only at hinferred
    split at hinferred
    · obtain ⟨-, hinferred⟩ := check_ok.1 hinferred
      cases hinferred
      rfl
    · cases hinferred
      rfl

/-- Every operator yields float elements. -/
theorem inferOutputSpecs_dtype {op : OpType} {inputs : List TensorSpec} {spec : TensorSpec}
    {attributes : NodeAttributes} (h : inferOutputSpecs op inputs attributes = .ok [spec]) :
    spec.dtype = .float32 := by
  have hfloat := inferOutputSpecs_float h
  cases op with
  | add | subtract | multiply =>
    obtain ⟨lhs, rhs, _, _, it, rfl, hspecs, -⟩ := inferElementwise_ok rfl h
    rw [(List.cons.inj hspecs).1]
    exact hfloat lhs List.mem_cons_self
  | matMul =>
    obtain ⟨l, r, bias, out, a, b, rfl, -⟩ := Backend.Cuda.matrixShapes_of_inferred (by decide) h
    obtain ⟨-, hmost, -, out', hspecs, hinferred⟩ := inferOutputSpecs_checked h
    obtain rfl : spec = out' := (List.cons.inj hspecs).1
    obtain rfl : bias = [] := List.eq_nil_of_length_eq_zero (by simpa [operatorSchema] using hmost)
    exact (inferMatMul_dtype hinferred).trans (hfloat l List.mem_cons_self)
  | gemm =>
    obtain ⟨l, r, bias, out, a, b, rfl, -⟩ := Backend.Cuda.matrixShapes_of_inferred (by decide) h
    exact (gemm_flags (.inl rfl) h).2.trans (hfloat l List.mem_cons_self)
  | fusedGemmActivation =>
    obtain ⟨l, r, bias, out, a, b, rfl, -⟩ := Backend.Cuda.matrixShapes_of_inferred (by decide) h
    exact (gemm_flags (.inr rfl) h).2.trans (hfloat l List.mem_cons_self)
  | reLU =>
    obtain ⟨input, rfl, hspecs⟩ := inferUnary_ok (.inl rfl) h
    rw [(List.cons.inj hspecs).1]
    exact hfloat input List.mem_cons_self
  | tanh =>
    obtain ⟨input, rfl, hspecs⟩ := inferUnary_ok (.inr (.inl rfl)) h
    rw [(List.cons.inj hspecs).1]
    exact hfloat input List.mem_cons_self
  | gelu =>
    obtain ⟨input, rfl, hspecs⟩ := inferUnary_ok (.inr (.inr rfl)) h
    rw [(List.cons.inj hspecs).1]
    exact hfloat input List.mem_cons_self
  | softmax =>
    obtain ⟨input, axis, rfl, hspecs, -⟩ := inferSoftmax_axis h
    rw [(List.cons.inj hspecs).1]
    exact hfloat input List.mem_cons_self
  | layerNorm =>
    obtain ⟨hfewest, hmost, -, out, hspecs, hinferred⟩ := inferOutputSpecs_checked h
    obtain ⟨input, parameters, rfl⟩ := List.exists_cons_of_length_pos hfewest
    obtain ⟨rfl, -⟩ := inferLayerNorm_ok hinferred (Nat.le_of_succ_le_succ hmost)
    rw [(List.cons.inj hspecs).1]
    exact hfloat out List.mem_cons_self

namespace Ops

/-- The literals of a graph, as scalars. -/
structure Literals (F : Type) [KernelScalar F] : Prop where
  isFinite : ∀ x : FloatBits, Scalar.isFinite (KernelScalar.ofBits x : F) = x.isFinite
  negative : ∀ x : FloatBits, x.isFinite = true → (KernelScalar.ofBits x : F) < 0 →
    x.isNegative = true

variable {F : Type}

/-- A call of the kernel of an operator, with the tensors that it reads and writes. -/
structure Call (op : OpType) (attributes : NodeAttributes) (operands : List (Tensor F))
    (input : Nat → Except Exn (Tensor F)) (output : Tensor F) (spec : TensorSpec) : Prop where
  inferred : inferOutputSpecs op (operands.map Tensor.spec) attributes = .ok [spec]
  int64 : ∀ t ∈ operands, Shape.Int64 t.shape
  reads : ∀ (i : Nat) (t : Tensor F), operands[i]? = some t → input i = .ok t
  accepts : Accepts output spec

variable {op : OpType} {attributes : NodeAttributes} {operands : List (Tensor F)}
  {input : Nat → Except Exn (Tensor F)} {output : Tensor F} {spec : TensorSpec}

theorem Call.float (h : Call op attributes operands input output spec) :
    ∀ t ∈ operands, t.dtype = .float32 :=
  fun t hmem => inferOutputSpecs_float h.inferred t.spec (List.mem_map_of_mem hmem)

/-- The only operand. -/
theorem Call.single {s : TensorSpec} (h : Call op attributes operands input output spec)
    (hone : operands.map Tensor.spec = [s]) :
    ∃ t, operands = [t] ∧ t.spec = s ∧ input 0 = .ok t ∧ t.dtype = .float32 ∧
      Shape.Int64 t.shape := by
  obtain ⟨t, rest, rfl, rfl, hnone⟩ := List.map_eq_cons_iff.1 hone
  obtain rfl := List.map_eq_nil_iff.1 hnone
  exact ⟨t, rfl, rfl, h.reads 0 t rfl, h.float t List.mem_cons_self, h.int64 t List.mem_cons_self⟩

variable [KernelScalar F] [DecidableEq F] {simd : Cpu.Simd}

omit [DecidableEq F] in
/-- The operands an elementwise kernel gets, and what its runner does with them. -/
theorem elementwise_ok (helementwise : op.isElementwise = true)
    (h : Call op attributes operands input output spec) :
    ∃ lhs rhs, operands = [lhs, rhs] ∧ input 0 = .ok lhs ∧ input 1 = .ok rhs ∧
      ∀ operation : F → F → F, runBinaryKernelInto output lhs rhs operation =
        .ok (output.fill fun i =>
        operation (lhs.contents.broadcast spec.shape i) (rhs.contents.broadcast spec.shape i)) := by
  obtain ⟨l, r, left, right, it, htwo, hspecs, hleftShape, hrightShape, hmade⟩ :=
    inferElementwise_ok helementwise h.inferred
  obtain ⟨lhs, rest, rfl, rfl, hone⟩ := List.map_eq_cons_iff.1 htwo
  obtain ⟨rhs, rest, rfl, rfl, hnone⟩ := List.map_eq_cons_iff.1 hone
  obtain rfl := List.map_eq_nil_iff.1 hnone
  have hfloat := h.float lhs List.mem_cons_self
  have hfloat' := h.float rhs (List.mem_cons_of_mem _ List.mem_cons_self)
  have hshapes : [left, right].map TensorLayout.shape =
    [lhs.layout, rhs.layout].map TensorLayout.shape := by
    simp only [List.map_cons, List.map_nil, hleftShape, hrightShape]
    rfl
  obtain ⟨it', hmade', hshape⟩ := TensorIterator.ofOperands_shapes hmade hshapes
  obtain rfl : spec = ⟨it'.shape, .float32⟩ := by
    rw [(List.cons.inj hspecs).1, hshape, ← hfloat]
    rfl
  exact ⟨lhs, rhs, rfl, h.reads 0 lhs rfl, h.reads 1 rhs rfl, fun operation =>
    runBinaryKernelInto_ok hmade' hfloat hfloat' h.accepts operation⟩

omit [DecidableEq F] in
theorem unary_ok (hunary : op = .reLU ∨ op = .tanh ∨ op = .gelu)
    (h : Call op attributes operands input output spec) :
    ∃ t, operands = [t] ∧ input 0 = .ok t ∧ ∀ operation : F → F,
      runUnaryKernelInto output t operation =
        .ok (output.fill fun i => operation (t.contents.get i)) := by
  obtain ⟨s, hone, hspecs⟩ := inferUnary_ok hunary h.inferred
  obtain ⟨t, rfl, hsame, hread, hfloat, -⟩ := h.single hone
  obtain rfl : spec = t.spec := ((List.cons.inj hspecs).1).trans hsame.symm
  exact ⟨t, rfl, hread, fun operation => runUnaryKernelInto_ok hfloat h.accepts operation⟩

/-- The softmax kernel fills the output with the softmax of each group. -/
theorem softmax_ok (h : Call .softmax attributes operands input output spec) :
    kernel simd attributes output input operands.length .softmax =
      .ok (output.fill (element .softmax attributes
        (operands.map Tensor.contents) spec.shape)) := by
  obtain ⟨s, axis, hone, hspecs, hinside, hnormalized, hnonzero⟩ := inferSoftmax_axis h.inferred
  obtain ⟨t, rfl, rfl, hread, hfloat, hint64⟩ := h.single hone
  obtain rfl : spec = t.spec := (List.cons.inj hspecs).1
  have hpos : 0 < t.shape.getD axis 0 := by
    have hinside' : axis < t.shape.length := hinside
    have hnonneg : 0 ≤ t.shape.getD axis 0 := by
      rw [List.getD_eq_getElem?_getD, List.getElem?_eq_getElem hinside']
      exact t.layout.admits.nonneg _ (List.getElem_mem hinside')
    exact lt_of_le_of_ne hnonneg (Ne.symm hnonzero)
  have hfound : softmaxAxis attributes t.spec.shape.length = axis := by
    rw [softmaxAxis, hnormalized, Int.toNat_natCast]
  refine bind_ok.2 ⟨t, hread,
    (softmaxOut_fill hfloat hint64 hinside hnormalized hpos h.accepts).trans ?_⟩
  refine congrArg Except.ok (output.fill_congr fun i _ => ?_)
  show _ = softmaxOf (t.contents.group (softmaxAxis attributes t.spec.shape.length) i)
    (t.contents.get i)
  rw [hfound]

omit [DecidableEq F] in
/-- The epsilon of a `LayerNorm` is a finite scalar that is not negative. -/
theorem Literals.epsilon (hliterals : Literals F)
    (hfinite : (floatAttribute attributes "epsilon" .defaultEpsilon).isFinite = true)
    (hsign : (floatAttribute attributes "epsilon" .defaultEpsilon).isNegative = false) :
    Scalar.isFinite (KernelScalar.ofBits
      (floatAttribute attributes "epsilon" .defaultEpsilon) : F) = true ∧
      ¬ (KernelScalar.ofBits (floatAttribute attributes "epsilon" .defaultEpsilon) : F) < 0 := by
  refine ⟨(hliterals.isFinite _).trans hfinite, fun hless => ?_⟩
  have hnegative := hliterals.negative _ hfinite hless
  rw [hsign] at hnegative
  cases hnegative

/-- The normalization kernel fills the output with each row's normalization. -/
theorem layerNorm_ok (hliterals : Literals F)
    (h : Call .layerNorm attributes operands input output spec) :
    kernel simd attributes output input operands.length .layerNorm =
      .ok (output.fill (element .layerNorm attributes
        (operands.map Tensor.contents) spec.shape)) := by
  obtain ⟨hfewest, hmost, -, out, hspecs, hinferred⟩ := inferOutputSpecs_checked h.inferred
  obtain rfl : spec = out := (List.cons.inj hspecs).1
  obtain ⟨x, parameters, rfl⟩ := List.exists_cons_of_length_pos
    (show 0 < operands.length by rw [List.length_map] at hfewest; exact hfewest)
  have hfew : (parameters.map Tensor.spec).length ≤ 2 := by
    rw [List.length_map] at hmost ⊢
    exact Nat.le_of_succ_le_succ hmost
  obtain ⟨rfl, hwidth, hparameter, hfinite, hsign⟩ := inferLayerNorm_ok hinferred hfew
  have hfloat := h.float
  have hpos : 0 < x.shape.getLastD 0 := by
    refine lt_of_le_of_ne ?_ (Ne.symm hwidth)
    rcases List.eq_nil_or_concat x.shape with hempty | ⟨outer, last, heq⟩
    · rw [hempty]
      exact Int.le_refl 0
    · rw [List.concat_eq_append] at heq
      rw [heq, List.getLastD_concat]
      exact x.layout.admits.nonneg last (show last ∈ x.shape by rw [heq]; simp)
  have hchecked (p : Tensor F) (hmem : p ∈ parameters) :
    checkParameter (x.shape.getLastD 0) p = .ok () := by
    have hshape := (hparameter p.spec (List.mem_map_of_mem hmem)).1
    exact check_ok.2 ⟨requireF32_ok (hfloat p (List.mem_cons_of_mem _ hmem)) _,
      require_ok.2 (beq_iff_eq.2 hshape)⟩
  have hcomputed (weight bias : Option (Tensor F)) (hweights : ∀ p ∈ weight, p ∈ parameters)
      (hbiases : ∀ p ∈ bias, p ∈ parameters) :=
    layerNormImpl_fill (hfloat x List.mem_cons_self) (h.int64 x List.mem_cons_self) hpos
      (hliterals.epsilon hfinite hsign) (fun p hmem => hchecked p (hweights p hmem))
      (fun p hmem => hchecked p (hbiases p hmem)) h.accepts
  rcases parameters with _ | ⟨weight, _ | ⟨bias, rest⟩⟩
  · exact bind_ok.2 ⟨x, h.reads 0 x rfl, hcomputed none none (by simp) (by simp)⟩
  · refine bind_ok.2 ⟨x, h.reads 0 x rfl, bind_ok.2 ⟨weight, h.reads 1 weight rfl, ?_⟩⟩
    exact hcomputed (some weight) none (by simp) (by simp)
  · obtain rfl : rest = [] := List.eq_nil_of_length_eq_zero (by simpa using hfew)
    refine bind_ok.2 ⟨x, h.reads 0 x rfl, bind_ok.2 ⟨weight, h.reads 1 weight rfl,
      bind_ok.2 ⟨bias, h.reads 2 bias rfl, ?_⟩⟩⟩
    exact hcomputed (some weight) (some bias) (by simp) (by simp)

/-- The product kernel fills the output with the matrix product. -/
theorem matMul_ok (hcommutes : simd.rhsFirst → ∀ x y : F, x * y = y * x)
    (h : Call .matMul attributes operands input output spec) :
    kernel simd attributes output input operands.length .matMul =
      .ok (output.fill (element .matMul attributes (operands.map Tensor.contents) spec.shape)) := by
  obtain ⟨l, r, bias, out, a, b, htwo, hone, hspecs, hleft, hright, hshapes⟩ :=
    Backend.Cuda.matrixShapes_of_inferred (by decide) h.inferred
  obtain ⟨-, hmost, hknown, out', hspecs', hinferred⟩ := inferOutputSpecs_checked h.inferred
  obtain rfl : spec = out := (List.cons.inj hspecs).1
  obtain rfl : spec = out' := (List.cons.inj hspecs').1
  obtain rfl := validateAttributes_none rfl hknown
  obtain ⟨lhs, rest, rfl, rfl, hothers⟩ := List.map_eq_cons_iff.1 htwo
  obtain ⟨rhs, rest, rfl, rfl, rfl⟩ := List.map_eq_cons_iff.1 hothers
  obtain rfl : rest = [] := List.eq_nil_of_length_eq_zero (by simpa [operatorSchema] using hmost)
  have hfloat := h.float lhs List.mem_cons_self
  have hfloat' := h.float rhs (List.mem_cons_of_mem _ List.mem_cons_self)
  have hrank : lhs.rank = 2 := congrArg List.length hleft
  have hrank' : rhs.rank = 2 := congrArg List.length hright
  have hshape : spec = ⟨[a.1, b.2], .float32⟩ := by
    have hdtype : spec.dtype = .float32 := (inferMatMul_dtype hinferred).trans hfloat
    obtain ⟨s, dt⟩ := spec
    rw [show s = [a.1, b.2] from hshapes.out, show dt = .float32 from hdtype]
  subst hshape
  have hleft' : lhs.shape = [a.1, a.2] := hleft
  have hright' : rhs.shape = [b.1, b.2] := hright
  have hmultiply : Multiply lhs rhs a.1 b.2 := by
    refine ⟨by rw [hleft']; rfl, ?_, by rw [hright']; rfl⟩
    rw [hleft', hright']
    exact hshapes.inner
  refine bind_ok.2 ⟨lhs, h.reads 0 lhs rfl, bind_ok.2 ⟨rhs, h.reads 1 rhs rfl, ?_⟩⟩
  exact matmulOut_ok hcommutes (.self hfloat hrank (h.int64 lhs List.mem_cons_self))
    (.self hfloat' hrank' (h.int64 rhs (List.mem_cons_of_mem _ List.mem_cons_self)))
      hmultiply h.accepts

/-- Both operators that run `run_gemm`. -/
theorem executeGemm_ok (hcommutes : simd.rhsFirst → ∀ x y : F, x * y = y * x)
    (hgemm : op = .gemm ∨ op = .fusedGemmActivation)
    (h : Call op attributes operands input output spec) :
    ∃ lhs rhs bias, operands = lhs :: rhs :: bias ∧
      executeGemm simd attributes output input operands.length (op = .fusedGemmActivation) =
        .ok (output.fill (gemmOf attributes lhs.contents rhs.contents
          (bias.map Tensor.contents).head? (op = .fusedGemmActivation) spec.shape)) := by
  obtain ⟨l, r, biases, out, a, b, htwo, hone, hspecs, hleft, hright, hshapes⟩ :=
    Backend.Cuda.matrixShapes_of_inferred (by rcases hgemm with rfl | rfl <;> decide) h.inferred
  obtain rfl : spec = out := (List.cons.inj hspecs).1
  obtain ⟨lhs, rest, rfl, rfl, hothers⟩ := List.map_eq_cons_iff.1 htwo
  obtain ⟨rhs, bias, rfl, rfl, rfl⟩ := List.map_eq_cons_iff.1 hothers
  have hone : bias.length ≤ 1 := by simpa using hone
  obtain ⟨hflags, hdtype⟩ := gemm_flags hgemm h.inferred
  have hfloat := h.float
  refine ⟨lhs, rhs, bias, rfl, ?_⟩
  -- the inferred spec is that of the product
  have hshape : spec = ⟨[if transposed attributes "transA" then a.2 else a.1,
      if transposed attributes "transB" then b.1 else b.2], .float32⟩ := by
    have hdtype := hdtype.trans (hfloat lhs List.mem_cons_self)
    obtain ⟨s, dt⟩ := spec
    rw [show s = _ from hshapes.out, show dt = .float32 from hdtype]
  subst hshape
  have hleft' : lhs.shape = [a.1, a.2] := hleft
  have hright' : rhs.shape = [b.1, b.2] := hright
  -- the kernel reads a flag as the inference does
  have hflag (name : String) :
    (integerAttribute attributes name 0 != 0) = transposed attributes name := by
    unfold transposed
    by_cases hzero : integerAttribute attributes name 0 = 0
    · rw [hzero]
      rfl
    · rw [decide_eq_true hzero, bne_iff_ne]
      exact hzero
  have hgiven : GemmOperands lhs rhs bias.head? (integerAttribute attributes "transA" 0)
      (integerAttribute attributes "transB" 0) (if transposed attributes "transA" then a.2 else a.1)
      (if transposed attributes "transB" then b.1 else b.2) := {
    flags := hflags
    float := fun t hmem => hfloat t (by
      rcases List.mem_cons.1 hmem with rfl | hmem
      · exact List.mem_cons_self
      · rcases List.mem_cons.1 hmem with rfl | hmem
        · exact List.mem_cons_of_mem _ List.mem_cons_self
        · exact List.mem_cons_of_mem _ (List.mem_cons_of_mem _
            (List.mem_of_mem_head? (Option.mem_toList.1 hmem))))
    ranks := ⟨congrArg List.length hleft, congrArg List.length hright⟩
    int64 :=
      ⟨h.int64 lhs List.mem_cons_self, h.int64 rhs (List.mem_cons_of_mem _ List.mem_cons_self)⟩
    rows := by
      rw [hflag, hleft']
      cases transposed attributes "transA" <;> rfl
    inner := by
      have hinner := hshapes.inner
      rw [hflag, hflag, hleft', hright']
      revert hinner
      cases transposed attributes "transA" <;> cases transposed attributes "transB" <;> exact id
    columns := by
      rw [hflag, hright']
      cases transposed attributes "transB" <;> rfl
    fits := fun t hmem => hshapes.bias t.spec (List.mem_map_of_mem (List.mem_of_mem_head? hmem)) }
  -- the call computes the product, scaled, biased and rectified
  have hcomputed (relu : Bool) := runGemm_ok hcommutes
    (KernelScalar.ofBits (floatAttribute attributes "alpha" .one))
    (KernelScalar.ofBits (floatAttribute attributes "beta" .one)) relu hgiven h.accepts
  have hfused : ∀ relu : Bool, runGemm simd output lhs rhs bias.head?
      (KernelScalar.ofBits (floatAttribute attributes "alpha" .one))
      (KernelScalar.ofBits (floatAttribute attributes "beta" .one))
      (integerAttribute attributes "transA" 0) (integerAttribute attributes "transB" 0) relu =
        .ok (output.fill (gemmOf attributes lhs.contents rhs.contents
          (bias.map Tensor.contents).head? relu
          [if transposed attributes "transA" then a.2 else a.1,
            if transposed attributes "transB" then b.1 else b.2])) := by
    intro relu
    refine (hcomputed relu).trans (congrArg Except.ok (output.fill_congr fun i _ => ?_))
    unfold gemmOf
    rw [List.head?_map, Option.map_map]
    rfl
  -- both operators run the same call, the fused one with its rectifier
  have hran (relu : Bool) :
    executeGemm simd attributes output input (lhs :: rhs :: bias).length relu =
      runGemm simd output lhs rhs bias.head?
        (KernelScalar.ofBits (floatAttribute attributes "alpha" .one))
        (KernelScalar.ofBits (floatAttribute attributes "beta" .one))
        (integerAttribute attributes "transA" 0) (integerAttribute attributes "transB" 0) relu := by
    have hfirst := h.reads 0 lhs rfl
    have hsecond := h.reads 1 rhs rfl
    unfold executeGemm gemmReluOut gemmOut
    rcases bias with _ | ⟨t, _ | ⟨t', rest⟩⟩
    · rw [hfirst, hsecond]
      cases relu <;> rfl
    · rw [hfirst, hsecond, h.reads 2 t rfl]
      cases relu <;> rfl
    · simp at hone
  exact (hran _).trans (hfused _)

omit [KernelScalar F] [DecidableEq F] in
/-- The activation of a fused operator is there, and the one that the kernel knows. -/
theorem checkActivation_ok (h : Call op attributes operands input output spec) :
    checkActivation op attributes = .ok () := by
  unfold checkActivation
  split
  · rename_i hfused
    subst hfused
    obtain ⟨hfewest, -, -, out, -, hinferred⟩ := inferOutputSpecs_checked h.inferred
    obtain ⟨l, r, bias, htwo⟩ : ∃ l r bias, operands.map Tensor.spec = l :: r :: bias := by
      rcases hfound : operands.map Tensor.spec with _ | ⟨l, _ | ⟨r, bias⟩⟩
      · rw [hfound] at hfewest
        exact absurd hfewest (by decide)
      · rw [hfound] at hfewest
        exact absurd hfewest (by simp [operatorSchema])
      · exact ⟨l, r, bias, rfl⟩
    rw [htwo] at hinferred
    have hrelu := (check_ok.1 hinferred).1
    refine check_ok.2 ⟨require_ok.2 ?_, require_ok.2 (require_ok.1 hrelu)⟩
    by_contra hmissing
    rw [Option.not_isSome_iff_eq_none] at hmissing
    have hrelu := require_ok.1 hrelu
    rw [stringAttribute, hmissing] at hrelu
    exact absurd hrelu (by decide)
  · rfl

/-- The kernel of every operator stores the meaning of the operator. -/
theorem kernel_ok (hcommutes : simd.rhsFirst → ∀ x y : F, x * y = y * x) (hliterals : Literals F)
    (h : Call op attributes operands input output spec) :
    kernel simd attributes output input operands.length op =
      .ok (output.fill (element op attributes (operands.map Tensor.contents) spec.shape)) := by
  cases op with
  | add =>
    obtain ⟨lhs, rhs, rfl, hleft, hright, hstored⟩ := elementwise_ok rfl h
    exact bind_ok.2 ⟨lhs, hleft, bind_ok.2 ⟨rhs, hright, hstored _⟩⟩
  | subtract =>
    obtain ⟨lhs, rhs, rfl, hleft, hright, hstored⟩ := elementwise_ok rfl h
    exact bind_ok.2 ⟨lhs, hleft, bind_ok.2 ⟨rhs, hright, hstored _⟩⟩
  | multiply =>
    obtain ⟨lhs, rhs, rfl, hleft, hright, hstored⟩ := elementwise_ok rfl h
    exact bind_ok.2 ⟨lhs, hleft, bind_ok.2 ⟨rhs, hright, hstored _⟩⟩
  | matMul => exact matMul_ok hcommutes h
  | gemm =>
    obtain ⟨lhs, rhs, bias, rfl, hstored⟩ := executeGemm_ok hcommutes (.inl rfl) h
    exact hstored
  | fusedGemmActivation =>
    obtain ⟨lhs, rhs, bias, rfl, hstored⟩ := executeGemm_ok hcommutes (.inr rfl) h
    exact hstored
  | reLU =>
    obtain ⟨t, rfl, hread, hstored⟩ := unary_ok (.inl rfl) h
    exact bind_ok.2 ⟨t, hread, hstored _⟩
  | tanh =>
    obtain ⟨t, rfl, hread, hstored⟩ := unary_ok (.inr (.inl rfl)) h
    exact bind_ok.2 ⟨t, hread, hstored _⟩
  | gelu =>
    obtain ⟨t, rfl, hread, hstored⟩ := unary_ok (.inr (.inr rfl)) h
    refine bind_ok.2 ⟨t, hread, ?_⟩
    -- The kernel compares the mode with each of the two names.
    rcases gelu_approximate h.inferred with hmode | hmode
    · refine (if_pos hmode).trans
        ((hstored _).trans (congrArg Except.ok (output.fill_congr fun i _ => ?_)))
      exact (if_pos hmode).symm
    · have hother : stringAttribute attributes "approximate" "tanh" ≠ "none" := by
        rw [hmode]
        decide
      refine (if_neg hother).trans ((if_neg (not_not.2 hmode)).trans ((hstored _).trans
        (congrArg Except.ok (output.fill_congr fun i _ => ?_))))
      exact (if_neg hother).symm
  | softmax => exact softmax_ok h
  | layerNorm => exact layerNorm_ok hliterals h

/-- The result of a kernel is its output, in which the meaning of the operator is stored, and
nothing else. -/
theorem kernel_agrees (hcommutes : simd.rhsFirst → ∀ x y : F, x * y = y * x)
    (hliterals : Literals F) (h : Call op attributes operands input output spec) :
    checkActivation op attributes = .ok () ∧
      ∃ result, kernel simd attributes output input operands.length op = .ok result ∧
        result.layout = output.layout ∧ result.dtype = output.dtype ∧
        eval op attributes (operands.map Tensor.contents) = some result.contents ∧
        ∀ i ≥ output.numel, result.data i = output.data i := by
  refine ⟨checkActivation_ok h, _, kernel_ok hcommutes hliterals h, rfl, rfl, ?_,
    fun i hbeyond => ?_⟩
  · have hinferred : inferOutputSpecs op ((operands.map Tensor.contents).map (·.spec)) attributes =
      .ok [spec] := by
      rw [List.map_map]
      exact h.inferred
    rw [eval_some hinferred, Tensor.contents_fill h.accepts.contiguous, h.accepts.spec]
  · exact if_neg (Nat.not_lt.2 hbeyond)

/-! ## Exact arithmetic -/

/-- A rational, or what is not finite. -/
structure ExactFloat where
  value : Option ℚ
  deriving DecidableEq

namespace ExactFloat

/-- An operation on what is finite. -/
def lift (f : ℚ → ℚ → Option ℚ) (x y : ExactFloat) : ExactFloat :=
  ⟨x.value.bind fun x => y.value.bind (f x)⟩

/-- A function of which only some values are rational. -/
def table (values : List (ℚ × ℚ)) (x : ExactFloat) : ExactFloat :=
  ⟨x.value.bind fun x => values.lookup x⟩

/-- The magnitude of a finite float, in units of the least one. -/
def magnitude (x : FloatBits) : Nat :=
  let low := x.toNat % 2 ^ 31
  let exponent := low / 2 ^ 23
  if exponent = 0 then low % 2 ^ 23 else (2 ^ 23 + low % 2 ^ 23) * 2 ^ (exponent - 1)

def ofBits (x : FloatBits) : ExactFloat :=
  ⟨if x.isFinite then some ((if x.msb then -1 else 1) * (magnitude x / 2 ^ 149 : ℚ)) else none⟩

instance instKernelScalar : KernelScalar ExactFloat where
  zero := ⟨some 0⟩
  one := ⟨some 1⟩
  add := lift fun x y => some (x + y)
  sub := lift fun x y => some (x - y)
  mul := lift fun x y => some (x * y)
  div := lift fun x y => if y = 0 then none else some (x / y)
  lt x y := ∃ a ∈ x.value, ∃ b ∈ y.value, a < b
  ofNat n := ⟨some n⟩
  exp := table [(0, 1)]
  sqrt := table [(0, 0), (1, 1)]
  tanh := table [(0, 0)]
  erf := table [(0, 0)]
  isFinite x := x.value.isSome
  decidableLT x y := inferInstanceAs (Decidable (∃ a ∈ x.value, ∃ b ∈ y.value, a < b))
  ofBits := ofBits

theorem mul_comm (x y : ExactFloat) : x * y = y * x := by
  show lift _ x y = lift _ y x
  obtain ⟨_ | x⟩ := x <;> obtain ⟨_ | y⟩ := y
  · rfl
  · rfl
  · rfl
  · exact congrArg (fun v => ExactFloat.mk (some v)) (Rat.mul_comm x y)

theorem literals : Literals ExactFloat where
  isFinite := by
    intro x
    show (ofBits x).value.isSome = x.isFinite
    unfold ofBits
    cases x.isFinite <;> rfl
  negative := by
    intro x hfinite hless
    obtain ⟨a, hleft, b, hright, hless⟩ := hless
    cases hright
    change (if x.isFinite then _ else none : Option ℚ) = some a at hleft
    rw [if_pos hfinite] at hleft
    cases hleft
    by_contra hpositive
    rw [FloatBits.isNegative, Bool.and_eq_true, not_and_or, Bool.not_eq_true] at hpositive
    refine absurd hless (not_lt.2 ?_)
    rcases hpositive with hpositive | hzero
    · rw [hpositive]
      simp only [Bool.false_eq_true, if_false, one_mul]
      positivity
    · have hlow : x.toNat % 2 ^ 31 = 0 := by
        simp only [bne_iff_ne, not_not] at hzero
        have := congrArg BitVec.toNat hzero
        simpa [BitVec.extractLsb'_toNat] using this
      have : magnitude x = 0 := by
        unfold magnitude
        rw [hlow]
        rfl
      rw [this]
      simp

end ExactFloat

/-- A matrix of four elements. -/
def squareLayout (strides : Strides) (hrank_eq : strides.length = 2)
    (hstrides_nonneg : ∀ s ∈ strides, 0 ≤ s)
    (hspan_le : Lib.RowMajor.span [2, 2] (TensorLayout.strideNats strides) ≤ sizeMax) :
    TensorLayout where
  shape := [2, 2]
  strides := strides
  admits := by decide
  strides_nonneg := hstrides_nonneg
  rank_eq := hrank_eq
  span_le := hspan_le

/-- A matrix that is stored by columns. -/
def byColumns : Tensor ExactFloat where
  layout := squareLayout [1, 2] rfl (by decide) (by decide)
  dtype := .float32
  data := fun i => ⟨some i⟩
  bytes_le := by decide

/-- Space for a product. -/
def productSpace : Tensor ExactFloat where
  layout := squareLayout [2, 1] rfl (by decide) (by decide)
  dtype := .float32
  data := fun _ => ⟨none⟩
  bytes_le := by decide

/-- A product of two column-major matrices on NEON. -/
theorem kernel_agrees_columns :
    checkActivation .matMul [] = .ok () ∧
      ∃ result, kernel .neon [] productSpace (fun _ => .ok byColumns) 2 .matMul = .ok result ∧
        result.layout = productSpace.layout ∧ result.dtype = productSpace.dtype ∧
        eval .matMul [] [byColumns.contents, byColumns.contents] = some result.contents ∧
        ∀ i ≥ productSpace.numel, result.data i = productSpace.data i := by
  have hcall : Call .matMul [] [byColumns, byColumns] (fun _ => .ok byColumns) productSpace
    ⟨[2, 2], .float32⟩ := {
    inferred := rfl
    int64 := by decide
    reads := fun i t hat => by
      have hmem := List.mem_of_getElem? hat
      obtain rfl : t = byColumns := by simpa using hmem
      rfl
    accepts := ⟨rfl, rfl⟩ }
  exact kernel_agrees (fun _ => ExactFloat.mul_comm) ExactFloat.literals hcall

end Ops

end TinyInfer
