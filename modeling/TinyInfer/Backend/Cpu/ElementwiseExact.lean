import TinyInfer.Backend.Cpu.OperatorMeaning

/-!
# The elementwise kernels compute what their operators mean

Whether a `TensorIterator` can be built depends on the shapes of its operands only
(`ofOperands_shapes`), so that a kernel accepts strided operands where shape inference
accepted their shapes. `runUnaryKernelInto_ok` and `runBinaryKernelInto_ok` say what the two
loops store, on the fast path and off it.
-/

namespace TinyInfer

open Lib.RowMajor

namespace TensorIterator

/-! ## Iterators over strided operands -/

/-- Whether strides can be broadcast depends on the shape only. -/
theorem broadcastStridesTail_shape {operand : Shape} {strides strides' result : Strides}
    {output : Shape} (hwidth : strides.length = operand.length)
    (hwidth' : strides'.length = operand.length)
    (h : broadcastStridesTail (operand.zip strides) output = .ok result) :
    ∃ result', broadcastStridesTail (operand.zip strides') output = .ok result' := by
  induction operand generalizing strides strides' output result with
  | nil => exact ⟨[], by cases output <;> rfl⟩
  | cons extent operand ih =>
    obtain ⟨stride, strides, rfl⟩ := List.exists_of_length_succ strides hwidth
    obtain ⟨stride', strides', rfl⟩ := List.exists_of_length_succ strides' hwidth'
    cases output with
    | nil => exact ⟨[], rfl⟩
    | cons out output =>
      rw [List.zip_cons_cons, broadcastStridesTail] at h
      obtain ⟨head, hfirst, h⟩ := bind_ok.1 h
      obtain ⟨rest, htail, -⟩ := bind_ok.1 h
      obtain ⟨rest', htail'⟩ := ih (Nat.succ.inj hwidth) (Nat.succ.inj hwidth') htail
      have hfirst' : ∃ head', broadcastStride extent stride' out = .ok head' := by
        unfold broadcastStride at hfirst ⊢
        by_cases hsame : extent = out
        · exact ⟨stride', if_pos hsame⟩
        · rw [if_neg hsame] at hfirst ⊢
          by_cases hone : extent ≠ 1
          · rw [if_pos hone] at hfirst
            cases hfirst
          · exact ⟨0, if_neg hone⟩
      obtain ⟨head', hfirst'⟩ := hfirst'
      exact ⟨_, bind_ok.2 ⟨head', hfirst', bind_ok.2 ⟨rest', htail', rfl⟩⟩⟩

/-- Two layouts of one shape broadcast alike. -/
theorem broadcastStrides_shape {layout layout' : TensorLayout} {shape : Shape} {result : Strides}
    (hsame : layout.shape = layout'.shape) (h : broadcastStrides layout shape = .ok result) :
    ∃ result', broadcastStrides layout' shape = .ok result' := by
  unfold broadcastStrides TensorLayout.rank at h ⊢
  obtain ⟨tail, heq, -⟩ := bind_ok.1 h
  rw [← hsame]
  obtain ⟨tail', heq'⟩ := broadcastStridesTail_shape layout.rank_eq
    (show layout'.strides.length = layout.shape.length by rw [hsame, layout'.rank_eq]) heq
  exact ⟨_, bind_ok.2 ⟨tail', heq', rfl⟩⟩

/-- An iterator depends on the strides of its operands only in its offsets. -/
theorem ofOperands_shapes {operands operands' : List TensorLayout} {it : TensorIterator}
    (hmade : ofOperands operands = .ok it)
    (hsame : operands.map TensorLayout.shape = operands'.map TensorLayout.shape) :
    ∃ it', ofOperands operands' = .ok it' ∧ it'.shape = it.shape := by
  have hbuilt := ofOperands_built hmade
  have hranks (ls : List TensorLayout) :
      ls.map TensorLayout.rank = (ls.map TensorLayout.shape).map List.length := by
    rw [List.map_map]
    rfl
  have hbroadcast : broadcastShape operands' = .ok it.shape := by
    rw [← hbuilt.broadcast]
    unfold broadcastShape
    rw [hranks, hranks, hsame]
  have hstrides : ∀ {ls ls' : List TensorLayout} {ss : List Strides},
      List.Forall₂ (fun layout s => broadcastStrides layout it.shape = .ok s) ls ss →
      ls.map TensorLayout.shape = ls'.map TensorLayout.shape →
      ∃ ss', List.Forall₂ (fun layout s => broadcastStrides layout it.shape = .ok s) ls' ss' := by
    intro ls ls' ss hall
    induction hall generalizing ls' with
    | nil =>
      intro hsame
      rw [List.map_nil, eq_comm, List.map_eq_nil_iff] at hsame
      exact ⟨[], hsame ▸ .nil⟩
    | cons hhead _ ih =>
      intro hsame
      rw [List.map_cons, eq_comm] at hsame
      obtain ⟨layout', rest, rfl, hshape, hothers⟩ := List.map_eq_cons_iff.1 hsame
      obtain ⟨s, hfirst⟩ := broadcastStrides_shape hshape.symm hhead
      obtain ⟨ss', hothers⟩ := ih hothers.symm
      exact ⟨s :: ss', .cons hfirst hothers⟩
  obtain ⟨ss', hall⟩ := hstrides hbuilt.strides hsame
  have hnonempty : operands' ≠ [] := by
    rintro rfl
    rw [List.map_nil, List.map_eq_nil_iff] at hsame
    subst hsame
    cases hmade
  refine ⟨_, check_ok.2 ⟨require_ok.2 (by simpa using hnonempty),
    bind_ok.2 ⟨_, hbroadcast,
      bind_ok.2 ⟨_, TensorLayout.ofShape_ok.2 ⟨hbuilt.admits, rfl⟩,
        bind_ok.2 ⟨ss', mapM_ok.2 hall, rfl⟩⟩⟩⟩, rfl⟩

theorem broadcastTail_ones (shape : Shape) :
    broadcastTail (List.replicate shape.length 1) shape = .ok shape := by
  induction shape with
  | nil => rfl
  | cons extent shape ih =>
    rw [List.length_cons, List.replicate_succ, broadcastTail]
    exact bind_ok.2 ⟨extent, rfl, bind_ok.2 ⟨shape, ih, rfl⟩⟩

theorem broadcastStridesTail_self {operand : Shape} {strides : Strides}
    (hwidth : strides.length = operand.length) :
    broadcastStridesTail (operand.zip strides) operand = .ok strides := by
  induction operand generalizing strides with
  | nil =>
    rw [List.length_eq_zero_iff.1 hwidth]
    rfl
  | cons extent operand ih =>
    obtain ⟨stride, strides, rfl⟩ := List.exists_of_length_succ strides hwidth
    rw [List.zip_cons_cons, broadcastStridesTail]
    exact bind_ok.2 ⟨stride, if_pos rfl, bind_ok.2 ⟨strides, ih (Nat.succ.inj hwidth), rfl⟩⟩

/-- One operand is visited in its own shape. -/
theorem ofOperands_one (layout : TensorLayout) :
    ∃ it, ofOperands [layout] = .ok it ∧ it.shape = layout.shape := by
  have hbroadcast : broadcastShape [layout] = .ok layout.shape := by
    unfold broadcastShape
    rw [List.map_singleton, List.map_singleton, List.foldl_cons, List.foldl_nil, Nat.zero_max,
      List.foldlM_cons]
    refine bind_ok.2 ⟨layout.shape, ?_, rfl⟩
    unfold broadcastInto TensorLayout.rank
    dsimp only
    rw [List.length_replicate, Nat.sub_self, List.drop_zero]
    exact bind_ok.2 ⟨_, broadcastTail_ones _, rfl⟩
  have hstrides : broadcastStrides layout layout.shape = .ok layout.strides := by
    unfold broadcastStrides TensorLayout.rank
    dsimp only
    rw [Nat.sub_self, List.drop_zero]
    exact bind_ok.2 ⟨_, broadcastStridesTail_self layout.rank_eq, rfl⟩
  exact ⟨_, bind_ok.2 ⟨(), rfl, bind_ok.2 ⟨_, hbroadcast, bind_ok.2 ⟨_,
    TensorLayout.ofShape_ok.2 ⟨layout.admits, rfl⟩, bind_ok.2 ⟨[layout.strides],
      mapM_ok.2 (.cons hstrides .nil), rfl⟩⟩⟩⟩, rfl⟩

/-- The offset of an operand on the fast path. -/
theorem naiveOffset_fast {operands : List TensorLayout} {it : TensorIterator}
    (hmade : ofOperands operands = .ok it) (hfast : it.hasContiguousFastPath = true) {p : Nat}
    {layout : TensorLayout} (hfound : operands[p]? = some layout) {i : Nat}
    (hinside : i < it.numel) :
    naiveOffset layout it.shape i = i := by
  have hbuilt := ofOperands_built hmade
  have hexact := operandOffset_exact hmade
  obtain ⟨s, hhere⟩ := hbuilt.of_layout hfound
  have hflag : it.operandIsContiguous p = .ok true := by
    have hlength : p < it.contiguousOperands.length := by
      rw [hbuilt.contiguous, List.length_map]
      exact (List.getElem?_eq_some_iff.1 hhere).1
    unfold operandIsContiguous
    rw [List.getElem?_eq_getElem hlength]
    exact congrArg Except.ok (List.all_eq_true.1 hfast _ (List.getElem_mem hlength))
  have hoffset := (hexact.offset p layout hfound i hinside).1
  rw [hexact.contiguous p hflag i hinside] at hoffset
  exact (Except.ok.inj hoffset).symm

end TensorIterator

/-- A value that is broadcast to its own shape. -/
theorem TensorValue.broadcastIndex_self {shape : Shape} {i : Nat}
    (hinside : i < Shape.count shape) :
    broadcastIndex shape shape i = i := by
  have hkept : ∀ {dims coords : List Nat}, Inside dims coords →
      List.zipWith (fun extent c => if extent = 1 then 0 else c) dims coords = coords := by
    intro dims
    induction dims with
    | nil =>
      intro coords h
      cases coords with
      | nil => rfl
      | cons => exact h.elim
    | cons d dims ih =>
      intro coords h
      cases coords with
      | nil => exact h.elim
      | cons c coords =>
        rw [List.zipWith_cons_cons, ih h.2]
        by_cases hone : d = 1
        · have hless := h.1
          rw [if_pos hone, show c = 0 by omega]
        · rw [if_neg hone]
  unfold broadcastIndex
  rw [Nat.sub_self, List.drop_zero, hkept (inside_coordinates hinside), rank_coordinates hinside]

namespace Ops

open TensorIterator

/-! ## The loops -/

variable {F : Type} [KernelScalar F]

omit [KernelScalar F] in
/-- A loop that stores an element each has stored all of them. -/
theorem storeEach_ok {n : Nat} {value : Nat → Except Exn F} {f : Nat → F}
    (heach : ∀ i < n, value i = .ok (f i)) (data : Nat → F) :
    storeEach n value data = .ok fun i => if i < n then f i else data i := by
  induction n with
  | zero => exact congrArg Except.ok (funext fun i => (if_neg (Nat.not_lt_zero i)).symm)
  | succ n ih =>
    have hbefore := ih fun i hless => heach i (Nat.lt_succ_of_lt hless)
    unfold storeEach at hbefore ⊢
    rw [List.range_succ, List.foldlM_append]
    refine bind_ok.2 ⟨_, hbefore, ?_⟩
    rw [List.foldlM_cons]
    refine bind_ok.2 ⟨_, bind_ok.2 ⟨_, heach n (Nat.lt_succ_self n), rfl⟩, ?_⟩
    refine congrArg Except.ok (funext fun i => ?_)
    by_cases hsame : i = n
    · subst hsame
      rw [Function.update_self, if_pos (Nat.lt_succ_self i)]
    · rw [Function.update_of_ne hsame]
      by_cases hless : i < n
      · rw [if_pos hless, if_pos (Nat.lt_succ_of_lt hless)]
      · rw [if_neg hless, if_neg (by omega)]

/-- The outputs that the kernels accept for a spec. -/
structure Accepts (output : Tensor F) (spec : TensorSpec) : Prop where
  spec : output.spec = spec
  contiguous : output.isContiguous = true

variable {output : Tensor F}

omit [KernelScalar F] in
theorem Accepts.shape {spec : TensorSpec} (h : Accepts output spec) : output.shape = spec.shape :=
  congrArg TensorSpec.shape h.spec

omit [KernelScalar F] in
theorem Accepts.dtype {spec : TensorSpec} (h : Accepts output spec) : output.dtype = spec.dtype :=
  congrArg TensorSpec.dtype h.spec

omit [KernelScalar F] in
/-- A tensor whose elements the loop of a kernel has stored. -/
theorem setData_fill {n : Nat} {value : Nat → Except Exn F} {f : Nat → F}
    (hcount : n = output.numel) (heach : ∀ i < n, value i = .ok (f i)) :
    (do .ok (output.setData (← storeEach n value output.data))) = Except.ok (output.fill f) := by
  refine bind_ok.2 ⟨_, storeEach_ok heach output.data, ?_⟩
  rw [hcount]
  rfl

/-- A unary kernel fills the output with the operation at every element. -/
theorem runUnaryKernelInto_ok {input : Tensor F} (hfloat : input.dtype = .float32)
    (haccepts : Accepts output input.spec) (operation : F → F) :
    runUnaryKernelInto output input operation =
      .ok (output.fill fun i => operation (input.contents.get i)) := by
  obtain ⟨it, hmade, hshape⟩ := ofOperands_one input.layout
  have hbuilt := ofOperands_built hmade
  have hsame : output.shape = it.shape := haccepts.shape.trans hshape.symm
  have hcount : it.numel = output.numel := by
    rw [hbuilt.numel, ← hsame]
    rfl
  have hfloat' : output.dtype = .float32 := haccepts.dtype.trans hfloat
  have helement (i : Nat) (hinside : i < it.numel) :
      it.operandOffset 0 i = .ok (naiveOffset input.layout it.shape i) ∧
        input.data (naiveOffset input.layout it.shape i) = input.contents.get i := by
    refine ⟨(hbuilt.operandOffset (p := 0) rfl hinside).1, ?_⟩
    rw [← hbuilt.broadcast_contents (p := 0) rfl hinside, TensorValue.broadcast, hshape]
    refine congrArg input.contents.get (TensorValue.broadcastIndex_self ?_)
    rw [hbuilt.numel, hshape] at hinside
    exact hinside
  refine check_ok.2 ⟨require_ok.2 (beq_iff_eq.2 hfloat),
    check_ok.2 ⟨require_ok.2 (beq_iff_eq.2 hfloat'),
      bind_ok.2 ⟨it, hmade, check_ok.2
        ⟨require_ok.2 (by rw [hsame, haccepts.contiguous, beq_self_eq_true]; rfl),
          bind_ok.2 ⟨_, floats_ok hfloat, bind_ok.2 ⟨_, floats_ok hfloat', ?_⟩⟩⟩⟩⟩⟩
  by_cases hfast : it.hasContiguousFastPath = true
  · rw [if_pos hfast]
    refine setData_fill hcount fun i hinside => ?_
    rw [← (helement i hinside).2, naiveOffset_fast hmade hfast (p := 0) rfl hinside]
  · rw [if_neg hfast]
    refine setData_fill hcount fun i hinside => ?_
    exact bind_ok.2 ⟨_, (helement i hinside).1, by rw [(helement i hinside).2]⟩

/-- A binary kernel fills the output with the operation on the broadcast operands. -/
theorem runBinaryKernelInto_ok {lhs rhs : Tensor F} {it : TensorIterator}
    (hmade : ofOperands [lhs.layout, rhs.layout] = .ok it) (hfloat : lhs.dtype = .float32)
    (hfloat' : rhs.dtype = .float32) (haccepts : Accepts output ⟨it.shape, .float32⟩)
    (operation : F → F → F) :
    runBinaryKernelInto output lhs rhs operation = .ok (output.fill fun i =>
      operation (lhs.contents.broadcast it.shape i) (rhs.contents.broadcast it.shape i)) := by
  have hbuilt := ofOperands_built hmade
  have hsame : output.shape = it.shape := haccepts.shape
  have hcount : it.numel = output.numel := by
    rw [hbuilt.numel, ← hsame]
    rfl
  have hleft (i : Nat) (hinside : i < it.numel) := hbuilt.operandOffset (p := 0) rfl hinside
  have hright (i : Nat) (hinside : i < it.numel) := hbuilt.operandOffset (p := 1) rfl hinside
  refine check_ok.2 ⟨require_ok.2 (beq_iff_eq.2 hfloat),
    check_ok.2 ⟨require_ok.2 (beq_iff_eq.2 hfloat'),
      check_ok.2 ⟨require_ok.2 (beq_iff_eq.2 haccepts.dtype),
        bind_ok.2 ⟨it, hmade, check_ok.2 ⟨require_ok.2
      (by rw [hsame, haccepts.contiguous, beq_self_eq_true]; rfl), bind_ok.2 ⟨_, floats_ok hfloat,
        bind_ok.2 ⟨_, floats_ok hfloat', bind_ok.2 ⟨_, floats_ok haccepts.dtype, ?_⟩⟩⟩⟩⟩⟩⟩⟩
  by_cases hfast : it.hasContiguousFastPath = true
  · rw [if_pos hfast]
    refine setData_fill hcount fun i hinside => ?_
    rw [hbuilt.broadcast_contents (p := 0) rfl hinside,
      hbuilt.broadcast_contents (p := 1) rfl hinside,
      naiveOffset_fast hmade hfast (p := 0) rfl hinside,
      naiveOffset_fast hmade hfast (p := 1) rfl hinside]
  · rw [if_neg hfast]
    refine setData_fill hcount fun i hinside => ?_
    refine bind_ok.2 ⟨_, (hleft i hinside).1, bind_ok.2 ⟨_, (hright i hinside).1, ?_⟩⟩
    rw [hbuilt.broadcast_contents (p := 0) rfl hinside,
      hbuilt.broadcast_contents (p := 1) rfl hinside]

end Ops

end TinyInfer
