import TinyInfer.Backend.Capability

/-!
# The answers of the CPU backend

`queryCapability` catches what the schema throws, with one exception: an axis of
`Softmax` that is out of range is reported by a `std::out_of_range`, which no handler
catches. `AxisUncaught` are the queries that get that far; for all others there is an
answer, and it is the right one (`capability_oracle`).

Main definitions: `Handled`, `CpuBackend.Accepts`, `CpuBackend.AxisUncaught`.
-/

namespace TinyInfer

/-- The exceptions with a handler in `query_capability`. -/
def Handled : Exn → Prop
  | .invalidArgument _ | .overflowError _ => True
  | _ => False

/-! ## Layouts -/

namespace TensorLayout

theorem raises_checkedMultiply (lhs rhs : Nat) (message : String) :
    Raises Handled (checkedMultiply lhs rhs message) := by
  unfold checkedMultiply
  split
  · exact raises_error trivial
  · exact raises_ok

theorem raises_checkedAdd (lhs rhs : Nat) (message : String) :
    Raises Handled (checkedAdd lhs rhs message) := by
  unfold checkedAdd
  split
  · exact raises_error trivial
  · exact raises_ok

/-- Counting the elements throws only what the query catches. -/
theorem raises_checkedNumel (shape : Shape) : Raises Handled (checkedNumel shape) := by
  have hloop (shape : List Int) (result : Nat) : Raises Handled (multiplyDims shape result) := by
    induction shape generalizing result with
    | nil => exact raises_ok
    | cons d shape ih => exact (raises_checkedMultiply _ _ _).bind fun _ _ => ih _
  unfold checkedNumel
  split
  · exact raises_ok
  · exact hloop _ _

theorem raises_makeContiguousStrides (shape : Shape) :
    Raises Handled (makeContiguousStrides shape) := by
  have hloop (shape : Shape) : Raises Handled (contiguousLoop shape) := by
    induction shape with
    | nil => exact raises_ok
    | cons d shape ih =>
      refine ih.bind fun p _ => ?_
      obtain ⟨strides, running⟩ := p
      dsimp only
      split
      · exact raises_error trivial
      · exact (raises_checkedMultiply _ _ _).bind fun _ _ => raises_ok
  cases shape with
  | nil => exact raises_ok
  | cons d inner =>
    refine (hloop inner).bind fun p _ => ?_
    obtain ⟨strides, running⟩ := p
    dsimp only
    split
    · exact raises_error trivial
    · exact raises_ok

/-- Computing the storage span throws only what the query catches. -/
theorem raises_checkedStorageSpan (shape : Shape) (strides : Strides) :
    Raises Handled (checkedStorageSpan shape strides) := by
  have hloop (dims : List (Int × Int)) (maximum : Nat) :
    Raises Handled (spanLoop dims maximum) := by
    induction dims generalizing maximum with
    | nil => exact raises_ok
    | cons p dims ih =>
      exact (raises_checkedMultiply _ _ _).bind fun _ _ =>
        (raises_checkedAdd _ _ _).bind fun _ _ => ih _
  unfold checkedStorageSpan
  split
  · exact raises_ok
  split
  · exact raises_ok
  · exact (hloop _ _).bind fun _ _ => raises_checkedAdd _ _ _

theorem raises_ofShape (shape : Shape) : Raises Handled (ofShape shape) := by
  have hchecks : Raises Handled (checkShape shape) :=
    Raises.bind (raises_require trivial) fun _ _ => (raises_checkedNumel shape).bind fun _ _ =>
      raises_makeContiguousStrides shape
  unfold ofShape
  split
  · rename_i e hfailed
    exact raises_error (hchecks e hfailed)
  · exact raises_ok

theorem raises_ofStrides (shape : Shape) (strides : Strides) :
    Raises Handled (ofStrides shape strides) := by
  have hchecks : Raises Handled (checkStrides shape strides) :=
    Raises.bind (raises_require trivial) fun _ _ => (raises_require trivial).bind fun _ _ =>
      (raises_require trivial).bind fun _ _ => (raises_checkedNumel shape).bind fun _ _ =>
        (raises_checkedStorageSpan shape strides).bind fun _ _ =>
          (raises_makeContiguousStrides shape).bind fun _ _ => raises_ok
  unfold ofStrides
  split
  · rename_i e hfailed
    exact raises_error (hchecks e hfailed)
  · exact raises_ok

end TensorLayout

/-! ## Broadcasting -/

/-- Building the iterator throws only what the query catches. -/
theorem TensorIterator.raises_ofOperands (operands : List TensorLayout) :
    Raises Handled (TensorIterator.ofOperands operands) := by
  have htail (result operand : Shape) : Raises Handled (broadcastTail result operand) := by
    induction result generalizing operand with
    | nil => exact raises_ok
    | cons r result ih =>
      cases operand with
      | nil => exact raises_ok
      | cons o operand =>
        refine Raises.bind ?_ fun _ _ => (ih operand).bind fun _ _ => raises_ok
        unfold broadcastExtent
        split
        · exact raises_ok
        split
        · exact raises_error trivial
        · exact raises_ok
  have hstrides (dims : List (Int × Int)) (output : Shape) :
      Raises Handled (broadcastStridesTail dims output) := by
    induction dims generalizing output with
    | nil => exact raises_ok
    | cons p dims ih =>
      cases output with
      | nil => exact raises_ok
      | cons o output =>
        refine Raises.bind ?_ fun _ _ => (ih output).bind fun _ _ => raises_ok
        unfold broadcastStride
        split
        · exact raises_ok
        split
        · exact raises_error trivial
        · exact raises_ok
  unfold TensorIterator.ofOperands broadcastShape
  refine (raises_require trivial).bind fun _ _ => Raises.bind ?_ fun _ _ =>
    (TensorLayout.raises_ofShape _).bind fun _ _ => Raises.bind ?_ fun _ _ => raises_ok
  · exact Raises.foldlM (fun operand _ result => (htail _ _).bind fun _ _ => raises_ok) _
  · exact Raises.mapM fun operand _ => (hstrides _ _).bind fun _ _ => raises_ok

/-! ## The schema -/

theorem raises_validateSpec (spec : TensorSpec) : Raises Handled (validateSpec spec) :=
  (TensorLayout.raises_ofShape _).bind fun _ _ =>
    (TensorLayout.raises_checkedMultiply _ _ _).bind fun _ _ => raises_ok

theorem raises_validateAttributes (schema : OperatorSchema) (attributes : NodeAttributes) :
    Raises Handled (validateAttributes schema attributes) := by
  refine (Raises.forM fun entry _ => ?_).bind fun _ _ => raises_require trivial
  unfold validateAttribute
  split
  · exact raises_error trivial
  · exact raises_require trivial

theorem raises_inferElementwise (lhs rhs : TensorSpec) :
    Raises Handled (inferElementwise lhs rhs) :=
  (TensorLayout.raises_ofShape _).bind fun _ _ => (TensorLayout.raises_ofShape _).bind fun _ _ =>
    (TensorIterator.raises_ofOperands _).bind fun _ _ => raises_ok

theorem raises_inferMatMul (lhs rhs : TensorSpec) : Raises Handled (inferMatMul lhs rhs) := by
  refine (raises_require trivial).bind fun _ _ => ?_
  split
  · exact (raises_require trivial).bind fun _ _ => raises_ok
  · exact raises_error trivial

/-- Inferring a Gemm throws only what the query catches. -/
theorem raises_inferGemm (lhs rhs : TensorSpec) (bias : Option TensorSpec)
    (attributes : NodeAttributes) : Raises Handled (inferGemm lhs rhs bias attributes) := by
  refine (raises_require trivial).bind fun _ _ => ?_
  split
  · refine (raises_require trivial).bind fun _ _ => (raises_require trivial).bind fun _ _ => ?_
    cases bias with
    | none => exact raises_ok
    | some bias =>
      exact (TensorLayout.raises_ofShape _).bind fun _ _ =>
        (TensorLayout.raises_ofShape _).bind fun _ _ =>
          (TensorIterator.raises_ofOperands _).bind fun _ _ =>
            (raises_require trivial).bind fun _ _ => raises_ok
  · exact raises_error trivial

/-- The last check of `inferLayerNorm`. -/
def checkEpsilon (input : TensorSpec) (attributes : NodeAttributes) : Except Exn TensorSpec :=
  match attributes.lookup "epsilon" with
  | some (.float epsilon) => do
    require (epsilon.isFinite && !epsilon.isNegative)
      (.invalidArgument "LayerNorm epsilon must be finite and non-negative")
    .ok input
  | _ => do
    Except.ok ()
    .ok input

/-- Inferring a normalization throws only what the query catches. -/
theorem raises_inferLayerNorm (input : TensorSpec) (parameters : List TensorSpec)
    (attributes : NodeAttributes) :
    Raises Handled (inferLayerNorm input parameters attributes) := by
  refine (raises_require trivial).bind fun _ _ => ?_
  have hepsilon : Raises Handled (checkEpsilon input attributes) := by
    unfold checkEpsilon
    split
    · exact (raises_require trivial).bind fun _ _ => raises_ok
    · exact raises_ok
  cases parameters with
  | nil => exact raises_ok.bind fun (_ : Unit) _ => hepsilon
  | cons weight rest =>
    refine (raises_require trivial).bind fun _ _ => ?_
    split
    · exact (raises_require trivial).bind fun _ _ => hepsilon
    · exact raises_ok.bind fun (_ : Unit) _ => hepsilon

/-! ## An axis that is out of range -/

/-- The inputs and attributes of a `Softmax` that pass all checks before the one on the
range of the axis, and the axis is out of range. -/
structure AxisOutOfRange (inputs : List TensorSpec) (attributes : NodeAttributes) : Prop where
  input : ∃ spec, inputs = [spec] ∧ spec.Valid ∧ spec.dtype = .float32 ∧ spec.shape ≠ [] ∧
    (integerAttribute attributes "axis" (-1) < -(spec.shape.length : Int) ∨
      (spec.shape.length : Int) ≤ integerAttribute attributes "axis" (-1))
  attributes : ∀ entry ∈ attributes, entry.1 = "axis" ∧ ∃ axis, entry.2 = .integer axis

def axisError : Exn := .outOfRange "Softmax axis is out of range"

/-- Softmax accepts no attribute but an integer `axis`. -/
theorem validateAttributes_softmax {attributes : NodeAttributes} :
    validateAttributes (operatorSchema .softmax) attributes = .ok () ↔
      ∀ entry ∈ attributes, entry.1 = "axis" ∧ ∃ axis, entry.2 = .integer axis := by
  have hentry (e : String × AttributeValue) :
    validateAttribute (operatorSchema .softmax) e = .ok () ↔
      e.1 = "axis" ∧ ∃ axis, e.2 = .integer axis := by
    obtain ⟨name, value⟩ := e
    unfold validateAttribute
    by_cases hknown : name = "axis"
    · subst hknown
      cases value <;> simp [operatorSchema, require, attributeType]
    · simp [operatorSchema, hknown, Ne.symm hknown]
  unfold validateAttributes
  rw [check_ok, forM_ok, require_ok]
  simp only [hentry]
  simp [operatorSchema]

/-- Normalizing the axis throws what the query catches, unless the axis is outside the rank. -/
theorem normalizedAxis_error {input : TensorSpec} {attributes : NodeAttributes} {e : Exn}
    (h : normalizedAxis input attributes = .error e) :
    Handled e ∨ (e = axisError ∧
      (integerAttribute attributes "axis" (-1) < -(input.shape.length : Int) ∨
        (input.shape.length : Int) ≤ integerAttribute attributes "axis" (-1))) := by
  unfold normalizedAxis at h
  rcases bind_error.1 h with hrange | ⟨_, -, h⟩
  · refine .inr ?_
    obtain ⟨houtside, rfl⟩ := require_error.1 hrange
    refine ⟨rfl, ?_⟩
    rw [decide_eq_false_iff_not] at houtside
    split at houtside <;> omega
  · exact .inl (((raises_require trivial).bind fun _ _ => raises_ok) e h)

/-- An axis outside the rank throws `std::out_of_range`. -/
theorem normalizedAxis_outOfRange {input : TensorSpec} {attributes : NodeAttributes}
    (houtside : integerAttribute attributes "axis" (-1) < -(input.shape.length : Int) ∨
      (input.shape.length : Int) ≤ integerAttribute attributes "axis" (-1)) :
    normalizedAxis input attributes = .error axisError := by
  unfold normalizedAxis
  refine bind_error.2 (.inl (require_error.2 ⟨?_, rfl⟩))
  rw [decide_eq_false_iff_not]
  split <;> omega

/-- The number of inputs of an operator leaves no case without a rule. -/
theorem inferOperator_error {op : OpType} {inputs : List TensorSpec} {attributes : NodeAttributes}
    {e : Exn} (hfewest : (operatorSchema op).minimumInputs ≤ inputs.length)
    (hmost : inputs.length ≤ (operatorSchema op).maximumInputs)
    (h : inferOperator op inputs attributes = .error e) :
    Handled e ∨ (e = axisError ∧ op = .softmax ∧ ∃ spec, inputs = [spec] ∧ spec.shape ≠ [] ∧
      (integerAttribute attributes "axis" (-1) < -(spec.shape.length : Int) ∨
        (spec.shape.length : Int) ≤ integerAttribute attributes "axis" (-1))) := by
  have helementwise (lhs rhs : TensorSpec) : Raises Handled (do
      require (lhs.dtype == rhs.dtype) (.invalidArgument "Elementwise input dtypes must match")
      inferElementwise lhs rhs) :=
    (raises_require trivial).bind fun _ _ => raises_inferElementwise lhs rhs
  cases op with
  | add | multiply | subtract =>
    obtain ⟨lhs, rhs, rfl⟩ := List.length_eq_two.1 (Nat.le_antisymm hmost hfewest)
    exact .inl (helementwise lhs rhs e h)
  | matMul =>
    obtain ⟨lhs, rhs, rfl⟩ := List.length_eq_two.1 (Nat.le_antisymm hmost hfewest)
    exact .inl (raises_inferMatMul lhs rhs e h)
  | gemm =>
    match inputs, hfewest with
    | lhs :: rhs :: bias, _ => exact .inl (raises_inferGemm lhs rhs bias.head? attributes e h)
  | fusedGemmActivation =>
    match inputs, hfewest with
    | lhs :: rhs :: bias, _ =>
      exact .inl (((raises_require trivial).bind fun _ _ =>
        raises_inferGemm lhs rhs bias.head? attributes) e h)
  | reLU | tanh =>
    obtain ⟨input, rfl⟩ := List.length_eq_one_iff.1 (Nat.le_antisymm hmost hfewest)
    cases h
  | gelu =>
    obtain ⟨input, rfl⟩ := List.length_eq_one_iff.1 (Nat.le_antisymm hmost hfewest)
    unfold inferOperator at h
    dsimp only at h
    split at h
    · exact .inl (((raises_require trivial).bind fun _ _ => raises_ok) e h)
    · cases h
  | softmax =>
    obtain ⟨input, rfl⟩ := List.length_eq_one_iff.1 (Nat.le_antisymm hmost hfewest)
    rcases bind_error.1 h with h | ⟨_, hnonempty, h⟩
    · exact .inl (raises_require trivial e h)
    · rcases bind_error.1 h with h | ⟨_, -, h⟩
      · rcases normalizedAxis_error h with handled | ⟨rfl, houtside⟩
        · exact .inl handled
        · exact .inr ⟨rfl, rfl, input, rfl, by simpa using require_ok.1 hnonempty, houtside⟩
      · cases h
  | layerNorm =>
    match inputs, hfewest with
    | input :: parameters, _ => exact .inl (raises_inferLayerNorm input parameters attributes e h)

/-- Only an axis that is out of range makes the schema throw what has no handler. -/
theorem inferOutputSpecs_error {op : OpType} {inputs : List TensorSpec}
    {attributes : NodeAttributes} {e : Exn} (h : inferOutputSpecs op inputs attributes = .error e) :
    Handled e ∨ (e = axisError ∧ op = .softmax ∧ AxisOutOfRange inputs attributes) := by
  unfold inferOutputSpecs at h
  rcases bind_error.1 h with h | ⟨_, hcounted, h⟩
  · exact .inl (raises_require trivial e h)
  rcases bind_error.1 h with h | ⟨_, hvalid, h⟩
  · exact .inl (Raises.forM (fun spec _ => raises_validateSpec spec) e h)
  rcases bind_error.1 h with h | ⟨_, hknown, h⟩
  · exact .inl (raises_validateAttributes _ _ e h)
  rcases bind_error.1 h with h | ⟨_, hfloat, h⟩
  · exact .inl (raises_require trivial e h)
  rcases bind_error.1 h with h | ⟨_, -, h⟩
  · have hcounts := require_ok.1 hcounted
    rw [Bool.and_eq_true, decide_eq_true_eq, decide_eq_true_eq] at hcounts
    rcases inferOperator_error hcounts.1 hcounts.2 h with handled | ⟨rfl, rfl, spec, rfl,
      hnonempty, houtside⟩
    · exact .inl handled
    · refine .inr ⟨rfl, rfl, ⟨spec, rfl, ?_, ?_, hnonempty, houtside⟩, ?_⟩
      · exact validateSpec_ok.1 (forM_ok.1 hvalid spec List.mem_cons_self)
      · simpa using require_ok.1 hfloat
      · exact validateAttributes_softmax.1 hknown
  · cases h

/-- On an axis out of range the inference throws, whatever else is asked. -/
theorem inferOutputSpecs_axis {inputs : List TensorSpec} {attributes : NodeAttributes}
    (h : AxisOutOfRange inputs attributes) :
    inferOutputSpecs .softmax inputs attributes = .error axisError := by
  obtain ⟨⟨spec, rfl, hvalid, hfloat, hnonempty, houtside⟩, hknown⟩ := h
  have hpassed : inferOperator .softmax [spec] attributes = .error axisError := by
    show (require (!spec.shape.isEmpty) _ >>= _) = _
    rw [show require (!spec.shape.isEmpty)
      (.invalidArgument "Softmax expects rank >= 1") = .ok () from
      require_ok.2 (by simpa using hnonempty)]
    show (normalizedAxis spec attributes >>= _) = _
    rw [normalizedAxis_outOfRange houtside]
    rfl
  unfold inferOutputSpecs
  refine bind_error.2 (.inr ⟨(), require_ok.2 rfl, bind_error.2 (.inr ⟨(), ?_, bind_error.2
    (.inr ⟨(), validateAttributes_softmax.2 hknown, bind_error.2 (.inr ⟨(), ?_, bind_error.2
      (.inl hpassed)⟩)⟩)⟩)⟩)
  · exact forM_ok.2 fun s hmem => by
      rw [List.mem_singleton.1 hmem]
      exact validateSpec_ok.2 hvalid
  · exact require_ok.2 (by simpa using hfloat)

/-! ## The answers -/

namespace Backend.CpuBackend

open TensorLayout (AdmitsStrides)

/-- The queries for which the CPU has a kernel. The strides of an output are those of
`TensorLayout(shape)`, which has to exist. -/
structure Accepts (query : CapabilityQuery) : Prop where
  device : query.device = {}
  kernel : supports query.node.op = true
  inputs : query.node.inputs.length = query.inputs.length
  outputs : query.node.outputs.length = query.outputs.length
  layouts : ∀ d ∈ query.inputs, ∀ strides, d.strides = some strides →
    AdmitsStrides d.spec.shape strides
  inferred : inferOutputSpecs query.node.op (query.inputs.map (·.spec)) query.node.attributes =
    .ok (query.outputs.map (·.spec))
  contiguous : ∀ d ∈ query.outputs, ∀ strides, d.strides = some strides →
    ∃ layout, TensorLayout.ofShape d.spec.shape = .ok layout ∧ layout.strides = strides

/-- A `Softmax` that passes every check up to the one on the range of its axis, which
fails. -/
structure AxisUncaught (query : CapabilityQuery) : Prop where
  device : query.device = {}
  op : query.node.op = .softmax
  inputs : query.node.inputs.length = query.inputs.length
  outputs : query.node.outputs.length = query.outputs.length
  layouts : ∀ d ∈ query.inputs, ∀ strides, d.strides = some strides →
    AdmitsStrides d.spec.shape strides
  axis : AxisOutOfRange (query.inputs.map (·.spec)) query.node.attributes

/-- An input descriptor is accepted iff its strides are admissible and its bytes fit. -/
theorem checkInput_ok {descriptor : TensorDescriptor} :
    checkInput descriptor = .ok () ↔ ∀ strides, descriptor.strides = some strides →
      AdmitsStrides descriptor.spec.shape strides ∧
        Shape.count descriptor.spec.shape * descriptor.spec.dtype.size ≤ sizeMax := by
  unfold checkInput
  cases hgiven : descriptor.strides with
  | none => exact ⟨fun _ strides h => (by cases h), fun _ => rfl⟩
  | some strides =>
    constructor
    · rintro h _ ⟨⟩
      obtain ⟨layout, hbuilt, h⟩ := bind_ok.1 h
      obtain ⟨bytes, hcounted, -⟩ := bind_ok.1 h
      obtain ⟨hadmits, hshape, -⟩ := TensorLayout.ofStrides_ok.1 hbuilt
      have hfits := ((layout.sizeBytes_ok).1 hcounted).1
      rw [TensorLayout.numel, hshape] at hfits
      exact ⟨hadmits, hfits⟩
    · intro h
      obtain ⟨hadmits, hfits⟩ := h strides rfl
      let layout : TensorLayout :=
        ⟨descriptor.spec.shape, strides, hadmits.toAdmits, hadmits.strides_nonneg, hadmits.rank_eq,
          hadmits.span_le⟩
      exact bind_ok.2 ⟨layout, TensorLayout.ofStrides_ok.2 ⟨hadmits, rfl, rfl⟩,
        bind_ok.2 ⟨_, layout.sizeBytes_ok.2 ⟨hfits, rfl⟩, rfl⟩⟩

theorem raises_checkInput (descriptor : TensorDescriptor) :
    Raises Handled (checkInput descriptor) := by
  unfold checkInput
  split
  · exact raises_ok
  · exact (TensorLayout.raises_ofStrides _ _).bind fun _ _ =>
      (TensorLayout.raises_checkedMultiply _ _ _).bind fun _ _ => raises_ok

/-- The check of the outputs throws only what the query catches. -/
theorem raises_checkOutputs (specs : List TensorSpec) (outputs : List TensorDescriptor) :
    Raises Handled (checkOutputs specs outputs) := by
  induction specs generalizing outputs with
  | nil => cases outputs <;> exact raises_ok
  | cons spec specs ih =>
    cases outputs with
    | nil => exact raises_ok
    | cons output outputs =>
      rw [checkOutputs]
      split
      · exact raises_ok
      split
      · exact ih outputs
      · refine (TensorLayout.raises_ofStrides _ _).bind fun layout _ => ?_
        split
        · exact ih outputs
        · exact raises_ok

/-- The strides of a contiguous layout are the ones that the layout of the shape has. -/
theorem contiguous_iff {shape : Shape} {strides : Strides} :
    (∃ layout, TensorLayout.ofStrides shape strides = .ok layout ∧ layout.isContiguous = true) ↔
      ∃ layout, TensorLayout.ofShape shape = .ok layout ∧ layout.strides = strides := by
  constructor
  · rintro ⟨layout, hbuilt, hcontiguous⟩
    obtain ⟨hadmits, rfl, rfl⟩ := TensorLayout.ofStrides_ok.1 hbuilt
    refine ⟨_, TensorLayout.ofShape_ok.2 ⟨hadmits.toAdmits, rfl⟩, ?_⟩
    have hsame : layout.strides = TensorLayout.contiguousStrides layout.shape := by
      simpa [TensorLayout.isContiguous] using hcontiguous
    exact hsame.symm
  · rintro ⟨layout, hbuilt, rfl⟩
    obtain ⟨hadmits, rfl⟩ := TensorLayout.ofShape_ok.1 hbuilt
    let layout := TensorLayout.contiguous shape hadmits
    refine ⟨layout, TensorLayout.ofStrides_ok.2 ⟨⟨hadmits, layout.strides_nonneg, layout.rank_eq,
      layout.span_le⟩, rfl, rfl⟩, ?_⟩
    simp [TensorLayout.isContiguous, layout, TensorLayout.contiguous]

/-- The outputs are accepted iff they have the inferred specs and admissible strides. -/
theorem checkOutputs_none {specs : List TensorSpec} {outputs : List TensorDescriptor}
    (hlength : specs.length = outputs.length) :
    checkOutputs specs outputs = .ok none ↔ specs = outputs.map (·.spec) ∧
      ∀ d ∈ outputs, ∀ strides, d.strides = some strides →
        ∃ layout, TensorLayout.ofShape d.spec.shape = .ok layout ∧ layout.strides = strides := by
  induction specs generalizing outputs with
  | nil =>
    cases outputs with
    | nil => exact ⟨fun _ => ⟨rfl, fun _ hmem => absurd hmem List.not_mem_nil⟩, fun _ => rfl⟩
    | cons output outputs => cases hlength
  | cons spec specs ih =>
    cases outputs with
    | nil => cases hlength
    | cons output outputs =>
      have htail := ih (by simpa using hlength)
      rw [checkOutputs, List.map_cons, List.cons.injEq, List.forall_mem_cons]
      by_cases hsame : spec = output.spec
      · subst hsame
        rw [if_neg (not_not.2 rfl)]
        cases hgiven : output.strides with
        | none =>
          simp only [htail]
          constructor
          · rintro ⟨hspecs, hrest⟩
            exact ⟨⟨trivial, hspecs⟩, fun _ h => (by cases h), hrest⟩
          · rintro ⟨⟨-, hspecs⟩, -, hrest⟩
            exact ⟨hspecs, hrest⟩
        | some strides =>
          simp only [Option.some.injEq, forall_eq']
          rw [← contiguous_iff, bind_ok]
          constructor
          · rintro ⟨layout, hbuilt, h⟩
            split at h
            · rename_i hcontiguous
              obtain ⟨hspecs, hrest⟩ := htail.1 h
              exact ⟨⟨trivial, hspecs⟩, ⟨layout, hbuilt, hcontiguous⟩, hrest⟩
            · cases h
          · rintro ⟨⟨-, hspecs⟩, ⟨layout, hbuilt, hcontiguous⟩, hrest⟩
            exact ⟨layout, hbuilt, by rw [if_pos hcontiguous]; exact htail.2 ⟨hspecs, hrest⟩⟩
      · rw [if_pos hsame]
        exact ⟨fun h => (by cases h), fun ⟨⟨h, _⟩, _⟩ => absurd h hsame⟩

/-- An inference that returns was given valid specs. -/
theorem valid_of_inferOutputSpecs {op : OpType} {inputs specs : List TensorSpec}
    {attributes : NodeAttributes} (h : inferOutputSpecs op inputs attributes = .ok specs) :
    ∀ spec ∈ inputs, spec.Valid := by
  unfold inferOutputSpecs at h
  obtain ⟨-, h⟩ := check_ok.1 h
  obtain ⟨hvalid, -⟩ := check_ok.1 h
  exact fun spec hmem => validateSpec_ok.1 (forM_ok.1 hvalid spec hmem)

/-- The schema accepts iff the inputs, the inferred specs and the outputs do. -/
theorem checkSchema_none {query : CapabilityQuery} :
    checkSchema query = .ok none ↔
      (∀ d ∈ query.inputs, ∀ strides, d.strides = some strides →
        AdmitsStrides d.spec.shape strides) ∧
      inferOutputSpecs query.node.op (query.inputs.map (·.spec)) query.node.attributes =
        .ok (query.outputs.map (·.spec)) ∧
      ∀ d ∈ query.outputs, ∀ strides, d.strides = some strides →
        ∃ layout, TensorLayout.ofShape d.spec.shape = .ok layout ∧ layout.strides = strides := by
  unfold checkSchema
  rw [check_ok, forM_ok]
  constructor
  · rintro ⟨hinputs, h⟩
    obtain ⟨specs, hinferred, h⟩ := bind_ok.1 h
    split at h
    · cases h
    · rename_i hlength
      obtain ⟨rfl, hcontiguous⟩ := (checkOutputs_none (not_not.1 hlength)).1 h
      exact ⟨fun d hmem strides hgiven => (checkInput_ok.1 (hinputs d hmem) strides hgiven).1,
        hinferred, hcontiguous⟩
  · rintro ⟨hlayouts, hinferred, hcontiguous⟩
    refine ⟨fun d hmem => checkInput_ok.2
      fun strides hgiven => ⟨hlayouts d hmem strides hgiven, ?_⟩, bind_ok.2 ⟨_, hinferred, ?_⟩⟩
    · exact (valid_of_inferOutputSpecs hinferred d.spec (List.mem_map_of_mem hmem)).2
    · rw [if_neg (by simp)]
      exact (checkOutputs_none (by simp)).2 ⟨rfl, hcontiguous⟩

/-- What the schema throws is handled, or is the softmax axis. -/
theorem checkSchema_error {query : CapabilityQuery} {e : Exn} (h : checkSchema query = .error e) :
    Handled e ∨ (query.node.op = .softmax ∧
      (∀ d ∈ query.inputs, ∀ strides, d.strides = some strides →
        AdmitsStrides d.spec.shape strides) ∧
      AxisOutOfRange (query.inputs.map (·.spec)) query.node.attributes) := by
  unfold checkSchema at h
  rcases bind_error.1 h with h | ⟨_, hinputs, h⟩
  · exact .inl (Raises.forM (fun d _ => raises_checkInput d) e h)
  rcases bind_error.1 h with h | ⟨specs, -, h⟩
  · rcases inferOutputSpecs_error h with handled | ⟨-, hop, haxis⟩
    · exact .inl handled
    · refine .inr ⟨hop, fun d hmem strides hgiven => ?_, haxis⟩
      exact (checkInput_ok.1 (forM_ok.1 hinputs d hmem) strides hgiven).1
  · split at h
    · cases h
    · exact .inl (raises_checkOutputs _ _ e h)

/-- What has no handler leaves `query_capability`. -/
theorem queryCapability_axis {query : CapabilityQuery} (h : AxisUncaught query) :
    queryCapability query = .error axisError := by
  have hschema : checkSchema query = .error axisError := by
    refine bind_error.2 (.inr ⟨(), forM_ok.2 fun d hmem => checkInput_ok.2 fun strides hgiven =>
      ⟨h.layouts d hmem strides hgiven, ?_⟩, bind_error.2 (.inl ?_)⟩)
    · obtain ⟨spec, hinputs, hvalid, -⟩ := h.axis.input
      have honly := List.mem_map_of_mem (f := TensorDescriptor.spec) hmem
      rw [hinputs, List.mem_singleton] at honly
      rw [honly]
      exact hvalid.2
    · rw [h.op]
      exact inferOutputSpecs_axis h.axis
  unfold queryCapability
  rw [if_neg (not_not.2 h.device), h.op, if_neg (by decide), if_neg (by simp [h.inputs, h.outputs]),
    hschema]
  rfl

/-- Without an uncaught axis the query answers, and says yes exactly to what it accepts. -/
theorem queryCapability_ok {query : CapabilityQuery} (hcaught : ¬ AxisUncaught query) :
    ∃ capability, queryCapability query = .ok capability ∧
      (capability.supported = true ↔ Accepts query) := by
  unfold queryCapability
  by_cases hdevice : query.device = {}
  swap
  · rw [if_pos hdevice]
    exact ⟨_, rfl, fun h => (by cases h), fun h => absurd h.device hdevice⟩
  rw [if_neg (not_not.2 hdevice)]
  by_cases hkernel : supports query.node.op = true
  swap
  · rw [if_pos (by simpa using hkernel)]
    exact ⟨_, rfl, fun h => (by cases h), fun h => absurd h.kernel hkernel⟩
  rw [if_neg (by simpa using hkernel)]
  by_cases harity : query.node.inputs.length = query.inputs.length ∧
      query.node.outputs.length = query.outputs.length
  swap
  · rw [if_pos (by rwa [← not_and_or])]
    exact ⟨_, rfl, fun h => (by cases h), fun h => absurd ⟨h.inputs, h.outputs⟩ harity⟩
  rw [if_neg (by rwa [← not_and_or, not_not])]
  have haccepts : checkSchema query = .ok none ↔ Accepts query := by
    rw [checkSchema_none]
    exact ⟨fun ⟨hlayouts, hinferred, hcontiguous⟩ =>
        ⟨hdevice, hkernel, harity.1, harity.2, hlayouts, hinferred, hcontiguous⟩,
      fun h => ⟨h.layouts, h.inferred, h.contiguous⟩⟩
  rw [← haccepts]
  -- Every outcome of the `try` block is an answer.
  cases houtcome : checkSchema query with
  | ok refusal =>
    cases refusal with
    | none => exact ⟨_, rfl, fun _ => rfl, fun _ => rfl⟩
    | some reason => exact ⟨_, rfl, fun h => (by cases h), fun h => (by cases h)⟩
  | error e =>
    rcases checkSchema_error houtcome with handled | ⟨hop, hlayouts, haxis⟩
    · cases e with
      | invalidArgument what => exact ⟨_, rfl, fun h => (by cases h), fun h => (by cases h)⟩
      | overflowError what => exact ⟨_, rfl, fun h => (by cases h), fun h => (by cases h)⟩
      | logicError what => exact handled.elim
      | outOfRange what => exact handled.elim
      | runtimeError what => exact handled.elim
    · exact absurd ⟨hdevice, hop, harity.1, harity.2, hlayouts, haxis⟩ hcaught

/-- **The capability oracle.** `query_capability` answers, and answers `supported` for
exactly the queries that the CPU accepts, unless an axis is out of range. -/
theorem capability_oracle (query : CapabilityQuery) :
    (∃ capability, queryCapability query = .ok capability ∧
      (capability.supported = true ↔ Accepts query)) ↔ ¬ AxisUncaught query := by
  constructor
  · rintro ⟨capability, hanswered, -⟩ huncaught
    rw [queryCapability_axis huncaught] at hanswered
    cases hanswered
  · exact queryCapability_ok

/-- The softmax of one number along its second axis. -/
def secondAxis : CapabilityQuery where
  device := {}
  node := {
    id := 0, name := "softmax", op := .softmax, inputs := [0], outputs := [1]
    attributes := [("axis", .integer 1)] }
  inputs := [{ spec := { shape := [1] } }]
  outputs := [{ spec := { shape := [1] } }]

/-- A softmax over axis 1 of a vector gets no answer at all. -/
theorem secondAxis_throws : ¬ ∃ capability, queryCapability secondAxis = .ok capability := by
  have hthrown : queryCapability secondAxis = .error axisError := by rfl
  rw [hthrown]
  rintro ⟨capability, ⟨⟩⟩

end Backend.CpuBackend

end TinyInfer
