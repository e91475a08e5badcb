import TinyInfer.Backend.CapabilityOracle
import TinyInfer.Backend.Cpu.GemmFused
import TinyInfer.Backend.Cuda.OperatorContract
import TinyInfer.Lib.Blas

/-!
# The matrix product of the CUDA backend

A BLAS reads and writes matrices by columns. `make_gemm_descriptor` swaps the operands and
passes their row lengths as leading dimensions, so that the product comes out by rows
(`gemm_descriptor_exact`).

Main definitions: `Fits`, what the contract demands of a tensor; `MatrixQuery`, the shapes
of an accepted product; `Describes`, the descriptor without truncation; `productAt`, what
the epilogue finds where the product was to be written.
-/

namespace TinyInfer

/-! ## What shape inference accepts -/

/-- An inference that returns has checked the number of inputs and the attributes. -/
theorem inferOutputSpecs_checked {op : OpType} {inputs specs : List TensorSpec}
    {attributes : NodeAttributes} (h : inferOutputSpecs op inputs attributes = .ok specs) :
    (operatorSchema op).minimumInputs ≤ inputs.length ∧
      inputs.length ≤ (operatorSchema op).maximumInputs ∧
      validateAttributes (operatorSchema op) attributes = .ok () ∧
      ∃ out, specs = [out] ∧ inferOperator op inputs attributes = .ok out := by
  unfold inferOutputSpecs at h
  obtain ⟨hcounted, h⟩ := check_ok.1 h
  obtain ⟨-, h⟩ := check_ok.1 h
  obtain ⟨hknown, h⟩ := check_ok.1 h
  obtain ⟨-, h⟩ := check_ok.1 h
  obtain ⟨out, hinferred, h⟩ := bind_ok.1 h
  cases h
  have hcounts := require_ok.1 hcounted
  rw [Bool.and_eq_true, decide_eq_true_eq, decide_eq_true_eq] at hcounts
  exact ⟨hcounts.1, hcounts.2, hknown, out, rfl, hinferred⟩

/-- An operator without attributes has none. -/
theorem validateAttributes_none {schema : OperatorSchema} {attributes : NodeAttributes}
    (hnone : schema.attributes = []) (h : validateAttributes schema attributes = .ok ()) :
    attributes = [] := by
  cases attributes with
  | nil => rfl
  | cons entry attributes =>
    have hhead := forM_ok.1 (check_ok.1 h).1 entry List.mem_cons_self
    unfold validateAttribute at hhead
    rw [hnone] at hhead
    cases hhead

/-- `transA` or `transB` is set. -/
def transposed (attributes : NodeAttributes) (name : String) : Bool :=
  decide (integerAttribute attributes name 0 ≠ 0)

/-- The shapes of a product that shape inference accepts. -/
structure MatrixShapes (attributes : NodeAttributes) (a b : Int × Int) (bias : List TensorSpec)
    (out : Shape) : Prop where
  inner : (if transposed attributes "transA" then a.1 else a.2) =
    if transposed attributes "transB" then b.2 else b.1
  out : out = [if transposed attributes "transA" then a.2 else a.1,
    if transposed attributes "transB" then b.1 else b.2]
  bias : ∀ spec ∈ bias, BiasFits (if transposed attributes "transA" then a.2 else a.1)
    (if transposed attributes "transB" then b.1 else b.2) spec.shape

/-- An inferred product has two matrices whose inner extents agree. -/
theorem inferMatMul_ok {lhs rhs out : TensorSpec} (h : inferMatMul lhs rhs = .ok out) :
    ∃ a b : Int × Int, lhs.shape = [a.1, a.2] ∧ rhs.shape = [b.1, b.2] ∧
      MatrixShapes [] a b [] out.shape := by
  unfold inferMatMul at h
  obtain ⟨-, h⟩ := check_ok.1 h
  split at h
  · rename_i m k k' n hleft hright
    obtain ⟨hinner, h⟩ := check_ok.1 h
    cases h
    refine ⟨(m, k), (k', n), hleft, hright, ?_, rfl, fun _ hmem => absurd hmem List.not_mem_nil⟩
    exact beq_iff_eq.1 (require_ok.1 hinner)
  · cases h

theorem ite_beq_zero {α : Type} {n : Int} {x y : α} :
    (if (n == 0) = true then x else y) = if decide (n ≠ 0) = true then y else x := by
  by_cases hzero : n = 0
  · simp [hzero]
  · simp [hzero]

/-- An inferred Gemm has inner extents that agree under the flags, and a bias that fits. -/
theorem inferGemm_ok {lhs rhs out : TensorSpec} {bias : List TensorSpec}
    {attributes : NodeAttributes} (hatMostOne : bias.length ≤ 1)
    (h : inferGemm lhs rhs bias.head? attributes = .ok out) :
    ∃ a b : Int × Int, lhs.shape = [a.1, a.2] ∧ rhs.shape = [b.1, b.2] ∧
      MatrixShapes attributes a b bias out.shape := by
  unfold inferGemm at h
  obtain ⟨-, h⟩ := check_ok.1 h
  split at h
  · rename_i a₀ a₁ b₀ b₁ hleft hright
    obtain ⟨-, h⟩ := check_ok.1 h
    obtain ⟨hinner, h⟩ := check_ok.1 h
    have hsame := require_ok.1 hinner
    rw [beq_iff_eq] at hsame
    rw [ite_beq_zero, ite_beq_zero] at hsame
    refine ⟨(a₀, a₁), (b₀, b₁), hleft, hright, ?_⟩
    cases bias with
    | nil =>
      cases h
      refine ⟨hsame, ?_, fun _ hmem => absurd hmem List.not_mem_nil⟩
      rw [ite_beq_zero, ite_beq_zero]
      rfl
    | cons spec rest =>
      obtain rfl : rest = [] := List.length_eq_zero_iff.1 (by simpa using hatMostOne)
      obtain ⟨output, hbuilt, h⟩ := bind_ok.1 h
      obtain ⟨operand, hbuiltBias, h⟩ := bind_ok.1 h
      obtain ⟨iterator, hmade, h⟩ := bind_ok.1 h
      obtain ⟨hshape, h⟩ := check_ok.1 h
      cases h
      obtain ⟨hadmits, rfl⟩ := TensorLayout.ofShape_ok.1 hbuilt
      obtain ⟨hadmits', rfl⟩ := TensorLayout.ofShape_ok.1 hbuiltBias
      have hbroadcast := (TensorIterator.ofOperands_built hmade).broadcast
      rw [beq_iff_eq.1 (require_ok.1 hshape)] at hbroadcast
      have hfits := (TensorIterator.broadcastShape_bias rfl).1 hbroadcast
      rw [ite_beq_zero, ite_beq_zero] at hfits
      refine ⟨hsame, ?_, fun s hmem => ?_⟩
      · rw [ite_beq_zero, ite_beq_zero]
        rfl
      · rw [List.mem_singleton.1 hmem]
        exact hfits
  · cases h

/-! ## What the contract accepts -/

namespace Backend.Cuda

open CpuBackend (Accepts queryCapability)

/-- What the contract demands of a tensor. -/
structure Fits (value : TensorDescriptor) : Prop where
  admits : TensorLayout.Admits value.spec.shape
  float32 : value.spec.dtype = .float32
  rank_le : value.spec.shape.length ≤ 4
  count_le : Shape.count value.spec.shape ≤ Machine.int32Max
  dims_le : ∀ d ∈ value.spec.shape, d ≤ Machine.int32Max
  contiguous : ∀ strides, value.strides = some strides →
    strides = TensorLayout.contiguousStrides value.spec.shape

/-- A descriptor the CUDA check accepts fits its 32-bit arithmetic. -/
theorem checkDescriptor_none {value : TensorDescriptor} (h : checkDescriptor value = .ok none) :
    Fits value := by
  unfold checkDescriptor at h
  obtain ⟨layout, hbuilt, h⟩ := bind_ok.1 h
  obtain ⟨hadmits, rfl⟩ := TensorLayout.ofShape_ok.1 hbuilt
  split at h
  · cases h
  rename_i hfloat32
  split at h
  · cases h
  rename_i hrank
  split at h
  · cases h
  rename_i hcount
  split at h
  · cases h
  rename_i hdims
  obtain ⟨_, -, h⟩ := bind_ok.1 h
  refine ⟨hadmits, not_not.1 hfloat32, Nat.not_lt.1 hrank, Nat.not_lt.1 hcount, ?_, ?_⟩
  · simpa using hdims
  · intro strides hgiven
    simp only [hgiven] at h
    obtain ⟨layout, hbuilt, hchecked⟩ := bind_ok.1 h
    obtain ⟨-, hshape, hsame⟩ := TensorLayout.ofStrides_ok.1 hbuilt
    by_cases hcontiguous : layout.isContiguous = true
    · have hexpected : layout.strides = TensorLayout.contiguousStrides layout.shape := by
        simpa [TensorLayout.isContiguous] using hcontiguous
      rw [← hsame, hexpected, hshape]
    · rw [if_neg hcontiguous] at hchecked
      cases hchecked

/-- Each of the descriptors the CUDA check accepts fits its 32-bit arithmetic. -/
theorem checkDescriptors_none {values : List TensorDescriptor}
    (h : checkDescriptors values = .ok none) :
    ∀ value ∈ values, Fits value := by
  induction values with
  | nil => exact fun _ hmem => absurd hmem List.not_mem_nil
  | cons value values ih =>
    rw [checkDescriptors] at h
    obtain ⟨refusal, hchecked, h⟩ := bind_ok.1 h
    cases refusal with
    | some reason => cases h
    | none => exact List.forall_mem_cons.2 ⟨checkDescriptor_none hchecked, ih h⟩

/-- A supported query is one the CPU query accepts. -/
theorem accepts_of_supported {query : CapabilityQuery} {capability : NodeCapability}
    (hanswered : queryCapability query = .ok capability)
    (hsupported : capability.supported = true) :
    Accepts query := by
  have hcaught : ¬ CpuBackend.AxisUncaught query := by
    intro huncaught
    rw [CpuBackend.queryCapability_axis huncaught] at hanswered
    cases hanswered
  obtain ⟨capability', hanswered', haccepts⟩ := CpuBackend.queryCapability_ok hcaught
  rw [hanswered'] at hanswered
  cases hanswered
  exact haccepts.1 hsupported

/-- The queries that the contract accepts. -/
structure Contract (query : CapabilityQuery) : Prop where
  operator : initialOperator query.node.op = true
  cpu : Accepts { query with device := {} }
  inputs : ∀ value ∈ query.inputs, Fits value
  outputs : ∀ value ∈ query.outputs, Fits value

/-- A supported query meets the CUDA contract. -/
theorem contract_of_supported {query : CapabilityQuery} {capability : NodeCapability}
    (hanswered : validateOperatorContract query = .ok capability)
    (hsupported : capability.supported = true) : Contract query := by
  unfold validateOperatorContract at hanswered
  split at hanswered
  · cases hanswered
    cases hsupported
  split at hanswered
  · cases hanswered
    cases hsupported
  rename_i hoperator
  cases hchecked : checkContract query with
  | error e =>
    rw [hchecked] at hanswered
    cases e <;> cases hanswered <;> cases hsupported
  | ok result =>
    rw [hchecked] at hanswered
    cases hanswered
    unfold checkContract at hchecked
    obtain ⟨schema, hcpu, hchecked⟩ := bind_ok.1 hchecked
    split at hchecked
    · rename_i hrefused
      cases hchecked
      rw [hsupported] at hrefused
      cases hrefused
    · rename_i haccepted
      obtain ⟨refusal, hfits, hchecked⟩ := bind_ok.1 hchecked
      cases refusal with
      | some reason =>
        cases hchecked
        cases hsupported
      | none =>
        have hall := checkDescriptors_none hfits
        exact ⟨by simpa using hoperator, accepts_of_supported hcpu (by simpa using haccepted),
          fun value hmem => hall value (List.mem_append_left _ hmem),
          fun value hmem => hall value (List.mem_append_right _ hmem)⟩

/-- An accepted product, its operands and its bias. -/
structure MatrixQuery (query : CapabilityQuery) (a b : Int × Int) (bias : List TensorDescriptor) :
    Prop where
  inputs : ∃ lhs rhs, query.inputs = lhs :: rhs :: bias ∧ lhs.spec.shape = [a.1, a.2] ∧
    rhs.spec.shape = [b.1, b.2]
  one : bias.length ≤ 1
  fits : ∀ n ∈ [a.1, a.2, b.1, b.2], 0 ≤ n ∧ n ≤ Machine.int32Max
  output : ∃ out, query.outputs.map (·.spec) = [out] ∧
    MatrixShapes query.node.attributes a b (bias.map (·.spec)) out.shape

/-- A matrix operator takes two operands and at most a bias. -/
theorem inputs_length {op : OpType} (hmatrix : isMatrix op = true) :
    (operatorSchema op).minimumInputs = 2 ∧ (operatorSchema op).maximumInputs ≤ 3 := by
  cases op <;> first | exact ⟨rfl, by decide⟩ | exact absurd hmatrix (by decide)

/-- The shapes of an inferred matrix query, with the inner extents matched. -/
theorem matrixShapes_of_inferred {op : OpType} {inputs specs : List TensorSpec}
    {attributes : NodeAttributes} (hmatrix : isMatrix op = true)
    (h : inferOutputSpecs op inputs attributes = .ok specs) :
    ∃ lhs rhs bias out a b, inputs = lhs :: rhs :: bias ∧ bias.length ≤ 1 ∧ specs = [out] ∧
      lhs.shape = [a.1, a.2] ∧ rhs.shape = [b.1, b.2] ∧
        MatrixShapes attributes a b bias out.shape := by
  obtain ⟨hfewest, hmost, hknown, out, rfl, hinferred⟩ := inferOutputSpecs_checked h
  obtain ⟨htwo, hthree⟩ := inputs_length hmatrix
  rw [htwo] at hfewest
  obtain ⟨lhs, rhs, bias, rfl⟩ : ∃ lhs rhs bias, inputs = lhs :: rhs :: bias := by
    match inputs, hfewest with
    | lhs :: rhs :: bias, _ => exact ⟨lhs, rhs, bias, rfl⟩
  have hone : bias.length ≤ 1 := by
    have := Nat.le_trans hmost hthree
    rw [List.length_cons, List.length_cons] at this
    omega
  refine ⟨lhs, rhs, bias, out, ?_⟩
  cases op with
  | matMul =>
    obtain rfl : bias = [] := List.length_eq_zero_iff.1 (by simpa [operatorSchema] using hmost)
    obtain rfl := validateAttributes_none rfl hknown
    obtain ⟨a, b, hleft, hright, hshapes⟩ := inferMatMul_ok hinferred
    exact ⟨a, b, rfl, hone, rfl, hleft, hright, hshapes⟩
  | gemm =>
    obtain ⟨a, b, hleft, hright, hshapes⟩ := inferGemm_ok hone hinferred
    exact ⟨a, b, rfl, hone, rfl, hleft, hright, hshapes⟩
  | fusedGemmActivation =>
    obtain ⟨-, hinferred⟩ := check_ok.1 hinferred
    obtain ⟨a, b, hleft, hright, hshapes⟩ := inferGemm_ok hone hinferred
    exact ⟨a, b, rfl, hone, rfl, hleft, hright, hshapes⟩
  | _ => exact absurd hmatrix (by decide)

/-- A matrix query under the contract names its two operands and its bias. -/
theorem Contract.matrixQuery {query : CapabilityQuery} (h : Contract query)
    (hmatrix : isMatrix query.node.op = true) : ∃ a b bias, MatrixQuery query a b bias := by
  obtain ⟨lhs, rhs, bias, out, a, b, hinputs, hone, houtputs, hleft, hright, hshapes⟩ :=
    matrixShapes_of_inferred hmatrix h.cpu.inferred
  obtain ⟨l, rest, heq, rfl, hrestSpecs⟩ := List.map_eq_cons_iff.1 hinputs
  obtain ⟨r, biases, rfl, rfl, rfl⟩ := List.map_eq_cons_iff.1 hrestSpecs
  have hfitsLeft := h.inputs l (by rw [show query.inputs = _ from heq]; exact List.mem_cons_self)
  have hfitsRight := h.inputs r (by
    rw [show query.inputs = _ from heq]
    exact List.mem_cons_of_mem _ List.mem_cons_self)
  refine ⟨a, b, biases, ⟨l, r, heq, hleft, hright⟩, by simpa using hone, fun n hmem => ?_,
    ⟨out, houtputs, hshapes⟩⟩
  have hboth : n ∈ l.spec.shape ∨ n ∈ r.spec.shape := by
    rw [hleft, hright]
    simpa [or_assoc] using hmem
  rcases hboth with hmem | hmem
  · exact ⟨hfitsLeft.admits.nonneg n hmem, hfitsLeft.dims_le n hmem⟩
  · exact ⟨hfitsRight.admits.nonneg n hmem, hfitsRight.dims_le n hmem⟩

/-! ## The descriptor -/

theorem int32_of_le {n : Int} (hnonneg : 0 ≤ n) (hfits : n ≤ Machine.int32Max) : int32 n = n := by
  unfold Machine.int32Max at hfits
  exact Int.bmod_eq_of_le_mul_two (by omega) (by omega)

theorem int32_max {n : Int} (hfits : n ≤ Machine.int32Max) : int32 (max 1 n) = max 1 n := by
  have hone : (1 : Int) ≤ Machine.int32Max := by decide
  exact int32_of_le (by omega) (by omega)

/-- The descriptor of a product, with mathematical values throughout. -/
structure Describes (query : CapabilityQuery) (a b : Int × Int) (d : GemmDescriptor) : Prop where
  rows : d.rows = if transposed query.node.attributes "transA" then a.2 else a.1
  reduction : d.reduction = if transposed query.node.attributes "transA" then a.1 else a.2
  columns : d.columns = if transposed query.node.attributes "transB" then b.1 else b.2
  native : d.nativeM = d.columns ∧ d.nativeN = d.rows ∧ d.nativeK = d.reduction
  lda : d.lda = max 1 b.2
  ldb : d.ldb = max 1 a.2
  ldc : d.ldc = max 1 d.columns
  operands : d.leftInput = 1 ∧ d.rightInput = 0
  transposes : d.transposeLeft = transposed query.node.attributes "transB" ∧
    d.transposeRight = transposed query.node.attributes "transA"
  coefficients : d.productAlpha = FloatBits.one ∧ d.productBeta = 0 ∧
    d.epilogueAlpha = floatAttribute query.node.attributes "alpha" FloatBits.one ∧
    d.epilogueBeta = floatAttribute query.node.attributes "beta" FloatBits.one
  relu : d.relu = true ↔ query.node.op = .fusedGemmActivation
  bias : match query.inputs[2]? with
    | none => d.hasBias = false ∧ d.biasRows = 1 ∧ d.biasColumns = 1
    | some value => d.hasBias = true ∧
        ((value.spec.shape = [] ∧ d.biasRows = 1 ∧ d.biasColumns = 1) ∨
          (value.spec.shape = [d.biasColumns] ∧ d.biasRows = 1) ∨
          value.spec.shape = [d.biasRows, d.biasColumns])
  emptyOutput : d.work = .emptyOutput ↔ d.rows = 0 ∨ d.columns = 0
  zeroK : d.work = .zeroK ↔ ¬ (d.rows = 0 ∨ d.columns = 0) ∧ d.reduction = 0

theorem getD_pair (m n : Int) (second : Bool) :
    [m, n].getD (if second then 1 else 0) 0 = if second then n else m := by
  cases second <;> rfl

theorem getD_pair' (m n : Int) (first : Bool) :
    [m, n].getD (if first then 0 else 1) 0 = if first then m else n := by
  cases first <;> rfl

/-- The extents of a bias are not truncated. -/
theorem biasExtents_cases {m n : Int} {shape : Shape} (hfits : BiasFits m n shape)
    (hbounds : ∀ d ∈ shape, 0 ≤ d ∧ d ≤ Machine.int32Max) :
    (shape = [] ∧ biasExtents shape = (1, 1)) ∨
      (∃ c, shape = [c] ∧ biasExtents shape = (1, c)) ∨
      ∃ r c, shape = [r, c] ∧ biasExtents shape = (r, c) := by
  have hexact (d : Int) (hmem : d ∈ shape) : int32 d = d :=
    int32_of_le (hbounds d hmem).1 (hbounds d hmem).2
  match shape, hfits with
  | [], _ => exact .inl ⟨rfl, rfl⟩
  | [c], _ => exact .inr (.inl ⟨c, rfl, by rw [biasExtents, hexact c (by simp)]⟩)
  | [r, c], _ =>
    exact .inr (.inr ⟨r, c, rfl, by rw [biasExtents, hexact r (by simp), hexact c (by simp)]⟩)

section Work

variable {p q : Prop} [Decidable p] [Decidable q]

theorem work_emptyOutput :
    (if p then GemmWork.emptyOutput else if q then .zeroK else .matrixProduct) = .emptyOutput ↔
      p := by
  by_cases hp : p
  · simp [hp]
  · by_cases hq : q
    · simp [hp, hq]
    · simp [hp, hq]

theorem work_zeroK :
    (if p then GemmWork.emptyOutput else if q then .zeroK else .matrixProduct) = .zeroK ↔ ¬ p ∧
      q := by
  by_cases hp : p
  · simp [hp]
  · by_cases hq : q
    · simp [hp, hq]
    · simp [hp, hq]

end Work

/-- The descriptor made for a query says what the operands are. -/
theorem MatrixQuery.describes {query : CapabilityQuery} {a b : Int × Int}
    {bias : List TensorDescriptor} (hcontract : Contract query) (h : MatrixQuery query a b bias) :
    Describes query a b
      (gemmDescriptor query.node.op query.node.attributes (query.inputs.map (·.spec))) := by
  obtain ⟨lhs, rhs, hinputs, hleft, hright⟩ := h.inputs
  obtain ⟨out, -, hshapes⟩ := h.output
  have hfits := h.fits
  simp only [List.forall_mem_cons] at hfits
  obtain ⟨⟨ha₁, ha₁'⟩, ⟨ha₂, ha₂'⟩, ⟨hb₁, hb₁'⟩, ⟨hb₂, hb₂'⟩, -⟩ := hfits
  have hpick {m n : Int} (second : Bool) (hm : 0 ≤ m ∧ m ≤ Machine.int32Max)
      (hn : 0 ≤ n ∧ n ≤ Machine.int32Max) :
      int32 (if second then n else m) = if second then n else m := by
    cases second
    · exact int32_of_le hm.1 hm.2
    · exact int32_of_le hn.1 hn.2
  have hta : decide (integerAttribute query.node.attributes "transA" 0 ≠ 0) =
      transposed query.node.attributes "transA" := rfl
  have htb : decide (integerAttribute query.node.attributes "transB" 0 ≠ 0) =
      transposed query.node.attributes "transB" := rfl
  have hshapesEq : (query.inputs.map (·.spec)).map TensorSpec.shape =
      [a.1, a.2] :: [b.1, b.2] :: (bias.map (·.spec)).map TensorSpec.shape := by
    rw [hinputs, List.map_cons, List.map_cons, List.map_cons, List.map_cons, hleft, hright]
  have hcount : (query.inputs.map (·.spec)).length = bias.length + 2 := by
    rw [hinputs]
    simp
  unfold gemmDescriptor
  simp only [hshapesEq, hta, htb, List.getD_cons_zero, List.getD_cons_succ, getD_pair, getD_pair',
    hpick _ ⟨ha₁, ha₁'⟩ ⟨ha₂, ha₂'⟩, hpick _ ⟨ha₂, ha₂'⟩ ⟨ha₁, ha₁'⟩,
    hpick _ ⟨hb₂, hb₂'⟩ ⟨hb₁, hb₁'⟩, int32_max ha₂', int32_max hb₂', hcount]
  refine {
    rows := rfl, reduction := rfl, columns := rfl, native := ⟨rfl, rfl, rfl⟩, lda := rfl, ldb := rfl
    ldc := rfl, operands := ⟨rfl, rfl⟩, transposes := ⟨rfl, rfl⟩
    coefficients := ⟨rfl, rfl, rfl, rfl⟩, relu := by simp, bias := ?_, emptyOutput := ?_
    zeroK := ?_ }
  · rw [hinputs]
    cases bias with
    | nil => exact ⟨rfl, rfl, rfl⟩
    | cons value rest =>
      obtain rfl : rest = [] := List.length_eq_zero_iff.1 (by simpa using h.one)
      have hfits := hcontract.inputs value (by rw [hinputs]; simp)
      have hcases := biasExtents_cases (hshapes.bias value.spec (by simp)) fun d hmem =>
        ⟨hfits.admits.nonneg d hmem, hfits.dims_le d hmem⟩
      refine ⟨rfl, ?_⟩
      show (_ ∧ (biasExtents value.spec.shape).1 = 1 ∧ (biasExtents value.spec.shape).2 = 1) ∨
        (value.spec.shape = [(biasExtents value.spec.shape).2] ∧
          (biasExtents value.spec.shape).1 = 1) ∨
        value.spec.shape = [(biasExtents value.spec.shape).1, (biasExtents value.spec.shape).2]
      rcases hcases with ⟨hshape, hextents⟩ | ⟨c, hshape, hextents⟩ | ⟨r, c, hshape, hextents⟩
      · exact .inl ⟨hshape, by rw [hextents], by rw [hextents]⟩
      · exact .inr (.inl ⟨by rw [hextents]; exact hshape, by rw [hextents]⟩)
      · exact .inr (.inr (by rw [hextents]; exact hshape))
  · exact work_emptyOutput
  · exact work_zeroK

/-! ## The product -/

variable {R : Type} [CommSemiring R]

/-- `cublasSgemm` as `execute` calls it: `inputs` are the elements of the operands, and the
coefficients of the product are one and zero. -/
def sgemm (d : GemmDescriptor) (inputs : Nat → Nat → R) (out : Nat → R) : Nat → R :=
  Lib.Blas.gemm d.transposeLeft d.transposeRight d.nativeM.toNat d.nativeN.toNat d.nativeK.toNat
    1 (inputs d.leftInput) d.lda.toNat (inputs d.rightInput) d.ldb.toNat 0 out d.ldc.toNat

/-- What the epilogue finds where the product was to be written: there is no call where the
sum is empty. -/
def productAt (d : GemmDescriptor) (inputs : Nat → Nat → R) (out : Nat → R) (i : Nat) : R :=
  if d.work = .zeroK then 0 else (if d.work = .matrixProduct then sgemm d inputs out else out) i

/-- Element `(i, j)` of the product of the operands, which are stored by rows. -/
def rowProduct (query : CapabilityQuery) (a b : Int × Int) (inputs : Nat → Nat → R) (i j : Nat) :
    R :=
  ∑ k ∈ Finset.range (if transposed query.node.attributes "transA" then a.1 else a.2).toNat,
    Lib.Blas.row (transposed query.node.attributes "transA") a.2.toNat (inputs 0) i k *
      Lib.Blas.row (transposed query.node.attributes "transB") b.2.toNat (inputs 1) k j

/-- The product of an accepted query comes out by rows. -/
structure Multiplies (query : CapabilityQuery) (a b : Int × Int) (d : GemmDescriptor) : Prop where
  leading : Lib.Blas.LeadingDimensions d.transposeLeft d.transposeRight d.nativeM.toNat
    d.nativeN.toNat
    d.nativeK.toNat d.lda.toNat d.ldb.toNat d.ldc.toNat
  product : ∀ (R : Type) [CommSemiring R] (inputs : Nat → Nat → R) (out : Nat → R) (i j : Nat),
    i < d.rows.toNat → j < d.columns.toNat →
    sgemm d inputs out (i * d.columns.toNat + j) = rowProduct query a b inputs i j ∧
      productAt d inputs out (i * d.columns.toNat + j) = rowProduct query a b inputs i j

/-- With that descriptor the column-major product is the row-major one. -/
theorem Describes.multiplies {query : CapabilityQuery} {a b : Int × Int} {d : GemmDescriptor}
    (h : Describes query a b d)
    (hinner : (if transposed query.node.attributes "transA" then a.1 else a.2) =
      if transposed query.node.attributes "transB" then b.2 else b.1) :
    Multiplies query a b d := by
  obtain ⟨hm, hn, hk⟩ := h.native
  obtain ⟨hleft, hright⟩ := h.transposes
  have hlda : d.lda.toNat = max 1 b.2.toNat := by rw [h.lda]; omega
  have hldb : d.ldb.toNat = max 1 a.2.toNat := by rw [h.ldb]; omega
  have hldc : d.ldc.toNat = max 1 d.columns.toNat := by rw [h.ldc]; omega
  constructor
  -- the leading dimensions are large enough
  · constructor
    · rw [hleft, hlda, hm, hk, h.columns, h.reduction, hinner]
      cases transposed query.node.attributes "transB"
      · exact Nat.le_refl _
      · exact Nat.le_refl _
    · rw [hright, hldb, hn, hk, h.rows, h.reduction]
      cases transposed query.node.attributes "transA"
      · exact Nat.le_refl _
      · exact Nat.le_refl _
    · rw [hldc, hm]
  -- the element that the call stores
  · intro R _ inputs out i j hi hj
    have hcolumns : d.ldc.toNat = d.columns.toNat := by omega
    have hcalled : sgemm d inputs out (i * d.columns.toNat + j) =
      rowProduct query a b inputs i j := by
      unfold sgemm
      rw [hm, hn, Lib.Blas.gemm_row hi hj hcolumns, h.operands.1, h.operands.2, hleft, hright,
        hk, hlda, hldb, h.reduction]
      refine Finset.sum_congr rfl fun l hl => ?_
      have hl := Finset.mem_range.1 hl
      -- a row of length zero has no element, so neither length is replaced by one
      have hleft : max 1 a.2.toNat = a.2.toNat := by
        rw [h.rows] at hi
        cases hflipped : transposed query.node.attributes "transA" with
        | false =>
          simp only [hflipped, Bool.false_eq_true, if_false] at hl
          omega
        | true =>
          simp only [hflipped, if_true] at hi
          omega
      have hright : max 1 b.2.toNat = b.2.toNat := by
        rw [h.columns] at hj
        cases hflipped : transposed query.node.attributes "transB" with
        | false =>
          simp only [hflipped, Bool.false_eq_true, if_false] at hj
          omega
        | true =>
          rw [hinner] at hl
          simp only [hflipped, if_true] at hl
          omega
      rw [hleft, hright]
    refine ⟨hcalled, ?_⟩
    unfold productAt
    -- the two kinds of work that have outputs
    by_cases hempty : d.work = .zeroK
    · rw [if_pos hempty, rowProduct, ← h.reduction, (h.zeroK.1 hempty).2, Int.toNat_zero,
        Finset.range_zero, Finset.sum_empty]
    · have hwork : d.work = .matrixProduct := by
        have hnonempty : d.work ≠ .emptyOutput := fun hemptyOutput => by
          rcases h.emptyOutput.1 hemptyOutput with hrows | hcolumns
          · omega
          · omega
        cases hkind : d.work with
        | emptyOutput => exact absurd hkind hnonempty
        | zeroK => exact absurd hkind hempty
        | matrixProduct => rfl
      rw [if_neg hempty, if_pos hwork, hcalled]

/-- **The CUDA matrix product.** The call that `make_gemm_descriptor` prepares writes the
product of the operands by rows, within the bounds of the routine, and no field is truncated. -/
theorem gemm_descriptor_exact {query : CapabilityQuery} {d : GemmDescriptor}
    (hprepared : makeGemmDescriptor query = .ok d) :
    ∃ a b bias, MatrixQuery query a b bias ∧ Describes query a b d ∧ Multiplies query a b d := by
  unfold makeGemmDescriptor at hprepared
  obtain ⟨capability, hanswered, hprepared⟩ := bind_ok.1 hprepared
  obtain ⟨hsupported, hprepared⟩ := check_ok.1 hprepared
  obtain ⟨hmatrix, hprepared⟩ := check_ok.1 hprepared
  cases hprepared
  have hcontract := contract_of_supported hanswered (require_ok.1 hsupported)
  obtain ⟨a, b, bias, hshapes⟩ := hcontract.matrixQuery (require_ok.1 hmatrix)
  have hdescribes := hshapes.describes hcontract
  obtain ⟨out, -, hinferred⟩ := hshapes.output
  exact ⟨a, b, bias, hshapes, hdescribes, hdescribes.multiplies hinferred.inner⟩

/-- The transpose of a 3 by 2 matrix times a 3 by 4 matrix, plus one row. -/
def transposedGemm : CapabilityQuery where
  device := { kind := .cuda }
  node := {
    id := 0, name := "gemm", op := .gemm, inputs := [0, 1, 2], outputs := [3]
    attributes := [("transA", .integer 1)] }
  inputs := [{ spec := { shape := [3, 2] } }, { spec := { shape := [3, 4] } },
    { spec := { shape := [4] } }]
  outputs := [{ spec := { shape := [2, 4] } }]

def transposedGemmDescriptor : GemmDescriptor where
  rows := 2
  columns := 4
  reduction := 3
  nativeM := 4
  nativeN := 2
  nativeK := 3
  lda := 4
  ldb := 2
  ldc := 4
  transposeRight := true
  hasBias := true
  biasColumns := 4
  work := .matrixProduct

/-- A Gemm with a transposed operand and a bias. -/
theorem gemm_descriptor_exact_transposed :
    ∃ a b bias, MatrixQuery transposedGemm a b bias ∧
      Describes transposedGemm a b transposedGemmDescriptor ∧
      Multiplies transposedGemm a b transposedGemmDescriptor :=
  gemm_descriptor_exact (by rfl)

end Backend.Cuda

end TinyInfer
