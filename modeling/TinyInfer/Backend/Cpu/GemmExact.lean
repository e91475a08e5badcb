import TinyInfer.Backend.Cpu.ElementwiseExact
import TinyInfer.Backend.Cpu.GemmFused

/-!
# The matrix kernels compute what their operators mean

`run_gemm` transposes a copy of an operand, and multiplies strided matrices with the packed
kernel; its epilogue reads the bias through an iterator. `matmulOut_ok` and `runGemm_ok` say
what is stored, of operands with any strides.

Main definitions:
- `Operand`: a tensor that presents a matrix, or its transpose.
-/

namespace TinyInfer

open Lib.RowMajor

/-! ## Copies and transposes -/

namespace TensorLayout

/-- The transpose of a row-major matrix has a layout. -/
theorem transposed_contiguous {m n : Int} (hadmits : Admits [m, n]) (hint64 : m ≤ int64Max) :
    ∃ layout, (contiguous [m, n] hadmits).transposed 0 1 = .ok layout ∧ layout.shape = [n, m] ∧
      layout.strides = [1, (n.toNat : Int)] := by
  have hm : 0 ≤ m := hadmits.nonneg m List.mem_cons_self
  have hn : 0 ≤ n := hadmits.nonneg n (List.mem_cons_of_mem _ List.mem_cons_self)
  have hcount : m.toNat * n.toNat ≤ sizeMax := by
    simpa [Shape.count, Shape.dims] using hadmits.count_le
  have hstrides : swapped (contiguous [m, n] hadmits).strides 0 1 = [1, (n.toNat : Int)] := by
    simp [swapped, contiguous, contiguousStrides, Shape.dims, Lib.RowMajor.contiguousStrides]
  have hspan : span (Shape.dims [n, m]) (strideNats [1, (n.toNat : Int)]) ≤ sizeMax := by
    unfold Lib.RowMajor.span
    split
    · exact Nat.zero_le _
    · rename_i hnonzero
      have hpos : 0 < m.toNat ∧ 0 < n.toNat := by
        simp only [Shape.dims, List.map_cons, List.map_nil, List.mem_cons,
          List.not_mem_nil, or_false, not_or] at hnonzero
        omega
      obtain ⟨a, ha⟩ := Nat.exists_eq_add_of_le' hpos.1
      obtain ⟨b, hb⟩ := Nat.exists_eq_add_of_le' hpos.2
      rw [ha, hb] at hcount
      simp only [Shape.dims, strideNats, List.map_cons, List.map_nil, dot, ha, hb,
        Int.toNat_natCast, Int.toNat_one]
      calc _ = (a + 1) * (b + 1) := by
            simp only [Nat.add_sub_cancel]
            ring
        _ ≤ sizeMax := hcount
  have hadmitted : AdmitsStrides [n, m] [1, (n.toNat : Int)] := {
    nonneg := by simp [hm, hn]
    count_le := by simpa [Shape.count, Shape.dims, Nat.mul_comm] using hcount
    fits := by
      refine ⟨?_, by decide, trivial⟩
      simp only [List.map_cons, List.map_nil, List.prod_cons, List.prod_nil, Nat.mul_one]
      omega
    strides_nonneg := by simp
    rank_eq := rfl
    span_le := hspan }
  refine ⟨⟨[n, m], [1, (n.toNat : Int)], hadmitted.toAdmits, hadmitted.strides_nonneg,
    hadmitted.rank_eq, hadmitted.span_le⟩, check_ok.2 ⟨rfl, ?_⟩, rfl, rfl⟩
  rw [hstrides]
  exact ofStrides_ok.2 ⟨hadmitted, rfl, rfl⟩

end TensorLayout

namespace Ops

variable {F : Type} [KernelScalar F]

theorem ofSpec_ok {spec : TensorSpec} (hvalid : spec.Valid) :
    ∃ fresh : Tensor F, ofSpec spec = .ok fresh ∧ fresh.layout = .contiguous spec.shape hvalid.1 ∧
      fresh.dtype = spec.dtype := by
  unfold ofSpec
  rw [TensorLayout.ofShape_ok.2 ⟨hvalid.1, rfl⟩]
  exact ⟨_, dif_pos hvalid.2, rfl, rfl⟩

omit [KernelScalar F] in
/-- A fresh tensor accepts the elements of its spec. -/
theorem accepts_fresh {spec : TensorSpec} {fresh : Tensor F}
    {hadmits : TensorLayout.Admits spec.shape}
    (hlayout : fresh.layout = .contiguous spec.shape hadmits) (hdtype : fresh.dtype = spec.dtype) :
    Accepts fresh spec where
  spec := by
    unfold Tensor.spec Tensor.shape
    rw [hlayout, hdtype]
    rfl
  contiguous := by
    unfold Tensor.isContiguous TensorLayout.isContiguous
    rw [hlayout]
    exact beq_self_eq_true _

/-- A copy holds the same elements, in row-major order. -/
theorem copy_ok (t : Tensor F) :
    ∃ fresh, copy t = .ok (fresh.fill t.logicalElement) ∧ Accepts fresh t.spec ∧
      fresh.layout = .contiguous t.shape t.layout.admits := by
  obtain ⟨fresh, hmade, hlayout, hdtype⟩ := ofSpec_ok (F := F) t.spec_valid
  have hnumel : fresh.numel = t.numel := by
    unfold Tensor.numel
    rw [hlayout]
    rfl
  refine ⟨fresh, bind_ok.2 ⟨fresh, hmade, ?_⟩, accepts_fresh hlayout hdtype, hlayout⟩
  refine setData_fill rfl fun i hinside => ?_
  obtain ⟨offset, hstored, helement⟩ := t.logicalElement_eq (hnumel ▸ hinside)
  exact bind_ok.2 ⟨offset, hstored, by rw [helement]⟩

omit [KernelScalar F] in
theorem transpose_ok {t : Tensor F} {i j : Nat} {layout : TensorLayout}
    (h : t.layout.transposed i j = .ok layout) :
    ∃ t', transpose t i j = .ok t' ∧ t'.layout = layout ∧ t'.dtype = t.dtype ∧
      t'.data = t.data := by
  unfold transpose
  split
  · rename_i hfailed
    rw [h] at hfailed
    cases hfailed
  · rename_i hdone
    rw [h] at hdone
    cases hdone
    exact ⟨_, rfl, rfl, rfl, rfl⟩

/-! ## Operands -/

/-- A tensor that presents a matrix, or its transpose. -/
structure Operand (v : TensorValue F) (trans : Bool) (t : Tensor F) : Prop where
  float : t.dtype = .float32
  rank : t.rank = 2
  rows : t.shape.getD 0 0 = v.spec.shape.getD (if trans then 1 else 0) 0
  columns : t.shape.getD 1 0 = v.spec.shape.getD (if trans then 0 else 1) 0
  int64 : Shape.Int64 t.shape
  element : ∀ i < t.extent 0, ∀ j < t.extent 1, t.element i j = v.entry trans i j

variable {t : Tensor F}

theorem Operand.self (hfloat : t.dtype = .float32) (hrank : t.rank = 2)
    (hint64 : Shape.Int64 t.shape) :
    Operand t.contents false t where
  float := hfloat
  rank := hrank
  rows := rfl
  columns := rfl
  int64 := hint64
  element := by
    intro i hi j hj
    obtain ⟨hstored, hinside⟩ := t.logicalElement_matrix hrank hi hj
    exact hstored.symm.trans (t.get_contents hinside).symm

/-- A transposed copy presents the transpose. -/
theorem Operand.transposed (hfloat : t.dtype = .float32) (hrank : t.rank = 2)
    (hint64 : Shape.Int64 t.shape) :
    ∃ t', (do transpose (← copy t) 0 1) = .ok t' ∧ Operand t.contents true t' := by
  obtain ⟨m, n, hshape⟩ := List.length_eq_two.1 (show t.shape.length = 2 from hrank)
  obtain ⟨fresh, hcopied, haccepts, hlayout⟩ := copy_ok t
  have hadmits : TensorLayout.Admits [m, n] := hshape ▸ t.layout.admits
  have hsmall : m ≤ int64Max := hint64 m (by rw [hshape]; exact List.mem_cons_self)
  obtain ⟨turned, hdone, hturnedShape, hturnedStrides⟩ :=
    TensorLayout.transposed_contiguous hadmits hsmall
  have hlayout' : (fresh.fill t.logicalElement).layout = .contiguous [m, n] hadmits := by
    rw [Tensor.layout_fill, hlayout]
    simp only [hshape]
  have hturns : (fresh.fill t.logicalElement).layout.transposed 0 1 = .ok turned := by
    rw [hlayout']
    exact hdone
  obtain ⟨t', transposed, hlayout_eq, hdtype_eq, hdata_eq⟩ := transpose_ok hturns
  have hshape' : t'.shape = [n, m] := by rw [Tensor.shape, hlayout_eq, hturnedShape]
  have hstrides' : t'.strides = [1, (n.toNat : Int)] := by
    rw [Tensor.strides, hlayout_eq, hturnedStrides]
  have hextents : t'.extent 0 = t.extent 1 ∧ t'.extent 1 = t.extent 0 := by
    simp only [Tensor.extent, hshape', hshape]
    exact ⟨rfl, rfl⟩
  refine ⟨t', bind_ok.2 ⟨_, hcopied, transposed⟩, ?_⟩
  refine ⟨hdtype_eq.trans (haccepts.dtype.trans hfloat), congrArg List.length hshape',
    ?_, ?_, ?_, ?_⟩
  · rw [hshape', Tensor.spec_contents, Tensor.spec, hshape]
    rfl
  · rw [hshape', Tensor.spec_contents, Tensor.spec, hshape]
    rfl
  · intro d hmem
    rw [hshape'] at hmem
    rw [hshape] at hint64
    exact hint64 d (by simpa [or_comm] using hmem)
  · intro i hi j hj
    rw [hextents.1] at hi
    rw [hextents.2] at hj
    obtain ⟨-, hinside⟩ := t.logicalElement_matrix hrank hj hi
    have hcolumns : t.extent 1 = n.toNat := by simp [Tensor.extent, hshape]
    have hnumel : fresh.numel = t.numel := congrArg Shape.count haccepts.shape
    have hplace : i * t'.stride 0 + j * t'.stride 1 = j * t.extent 1 + i := by
      simp only [Tensor.stride, hstrides', hcolumns, List.getD_cons_zero, List.getD_cons_succ,
        Int.toNat_one, Int.toNat_natCast]
      omega
    rw [Tensor.element, hplace, hdata_eq]
    exact (if_pos (hnumel ▸ hinside)).trans (t.get_contents hinside).symm

/-- Each operand of a Gemm is the matrix or its transposed view, by the flag. -/
theorem gemmOperand_ok (trans : Int) (hfloat : t.dtype = .float32) (hrank : t.rank = 2)
    (hint64 : Shape.Int64 t.shape) :
    ∃ t', gemmOperand trans t = .ok t' ∧ Operand t.contents (trans != 0) t' := by
  unfold gemmOperand
  by_cases hset : trans ≠ 0
  · rw [if_pos hset, show (trans != 0) = true from bne_iff_ne.2 hset]
    exact Operand.transposed hfloat hrank hint64
  · rw [if_neg hset, show (trans != 0) = false from by simpa using hset]
    exact ⟨t, rfl, Operand.self hfloat hrank hint64⟩

/-! ## The kernels -/

variable [DecidableEq F] {simd : Cpu.Simd} {output lhs rhs : Tensor F} {a b : TensorValue F}
  {transA transB : Bool} {m n : Int}

/-- The shape of the product of two operands. -/
structure Multiply (lhs rhs : Tensor F) (m n : Int) : Prop where
  rows : m = lhs.shape.getD 0 0
  inner : lhs.shape.getD 1 0 = rhs.shape.getD 0 0
  columns : n = rhs.shape.getD 1 0

omit [KernelScalar F] [DecidableEq F] in
/-- The elements of an output of rank two. -/
theorem Accepts.numel (haccepts : Accepts output ⟨[m, n], .float32⟩) :
    output.numel = m.toNat * n.toNat := by
  have numel : output.numel = Shape.count [m, n] := congrArg Shape.count haccepts.shape
  rw [numel]
  simp [Shape.count, Shape.dims]

/-- The product kernel fills the output with the matrix product. -/
theorem matmulOut_ok (hcommutes : simd.rhsFirst → ∀ x y : F, x * y = y * x)
    (hleft : Operand a transA lhs) (hright : Operand b transB rhs) (hshapes : Multiply lhs rhs m n)
    (haccepts : Accepts output ⟨[m, n], .float32⟩) :
    matmulOut simd output lhs rhs =
      .ok (output.fill fun i => productOf a b transA transB (i / n.toNat) (i % n.toNat)) := by
  have hrows : output.extent 0 = lhs.extent 0 := by
    simp [Tensor.extent, haccepts.shape, hshapes.rows]
  have hcolumns : output.extent 1 = rhs.extent 1 := by
    simp [Tensor.extent, haccepts.shape, hshapes.columns]
  have hinner : lhs.extent 1 = rhs.extent 0 := congrArg Int.toNat hshapes.inner
  have hoperands : Cpu.Operands lhs rhs output := {
    lhs_float := hleft.float
    rhs_float := hright.float
    output_float := haccepts.dtype
    lhs_rank := hleft.rank
    rhs_rank := hright.rank
    output_rank := congrArg List.length haccepts.shape
    inner_eq := hinner
    rows_eq := hrows
    columns_eq := hcolumns
    contiguous := haccepts.contiguous }
  have hholds : Cpu.Holds rhs false rhs := ⟨hright.float, hright.rank, rfl, rfl, fun _ _ _ _ => rfl⟩
  have hwidth : rhs.extent 1 = n.toNat := congrArg Int.toNat hshapes.columns.symm
  refine check_ok.2 ⟨require_ok.2 (by rw [hleft.float, hright.float]; rfl), check_ok.2 ⟨require_ok.2
    (by rw [hleft.rank, hright.rank]; rfl),
    check_ok.2 ⟨require_ok.2 (beq_iff_eq.2 hshapes.inner), ?_⟩⟩⟩
  refine (Cpu.matmulPackedSimd_eq hcommutes hoperands hholds rfl hleft.int64 hright.int64).trans
    (congrArg Except.ok (output.fill_congr fun i hinside => ?_))
  rw [hoperands.numel] at hinside
  obtain ⟨hr, hc⟩ := Cpu.inside_iff i |>.2 hinside
  rw [hwidth] at hr hc ⊢
  have hterms : (if transA then a.rows else a.columns) = lhs.extent 1 := by
    have hsame := congrArg Int.toNat hleft.columns.symm
    cases transA <;> exact hsame
  unfold Cpu.dot productOf
  rw [hterms]
  refine List.foldl_ext _ _ 0 fun sum k hmem => ?_
  have hk := List.mem_range.1 hmem
  rw [hleft.element _ hr k hk, hright.element k (hinner ▸ hk) _ (hwidth ▸ hc)]

omit [KernelScalar F] [DecidableEq F] in
/-- A loop over the elements that a tensor holds. -/
theorem setData_forRange (g : Nat → F) (f : Nat → F → F) :
    (output.fill g).setData (Lib.Pointwise.forRange 0 output.numel
      (fun j data => Function.update data j (f j (data j))) (output.fill g).data) =
      output.fill fun j => f j (g j) := by
  refine congrArg output.setData
    (((Cpu.acts_elements output.numel f).run _).trans (funext fun j => ?_))
  dsimp only
  split
  · rename_i hinside
    exact congrArg (f j) (if_pos hinside)
  · rename_i houtside
    exact if_neg houtside

/-- The unfused epilogue scales, adds the bias and rectifies every element. -/
theorem applyGemmEpilogue_ok {bias : Option (Tensor F)} (alpha beta : F) (relu : Bool)
    (haccepts : Accepts output ⟨[m, n], .float32⟩) (hfloat : ∀ t ∈ bias, t.dtype = .float32)
    (hfits : ∀ t ∈ bias, BiasFits m n t.shape) (product : Nat → F) :
    applyGemmEpilogue (output.fill product) bias alpha beta relu = .ok (output.fill fun i =>
      epilogueOf alpha beta (bias.map fun t => t.contents.broadcast [m, n] i) relu
        (product i)) := by
  refine bind_ok.2 ⟨_, floats_ok (t := output.fill product) haccepts.dtype, ?_⟩
  cases bias with
  | none =>
    dsimp only
    split
    · rename_i hscaled
      refine congrArg Except.ok ((setData_forRange product fun _ value =>
        if relu then maxZero (alpha * value) else alpha * value).trans ?_)
      simp only [epilogueOf, Option.map_none, if_pos hscaled]
    · rename_i hunscaled
      refine congrArg Except.ok (output.fill_congr fun i _ => ?_)
      have hplain : relu = false := by simpa using (not_or.1 hunscaled).2
      simp only [epilogueOf, Option.map_none, if_neg hunscaled]
      rw [hplain]
      rfl
  | some t =>
    have houtputShape : output.layout.shape = [m, n] := haccepts.shape
    obtain ⟨it, hmade, hshape⟩ := TensorIterator.ofOperands_bias houtputShape (hfits t rfl)
    have hbuilt := TensorIterator.ofOperands_built hmade
    have hcount : it.numel = output.numel := by
      rw [hbuilt.numel, hshape, haccepts.numel]
      simp [Shape.count, Shape.dims]
    have hfound (i : Nat) (hmem : i ∈ List.range it.numel) :
        it.operandOffset 1 i = .ok (TensorIterator.naiveOffset t.layout [m, n] i) := by
      rw [← hshape]
      exact (hbuilt.operandOffset (p := 1) rfl (List.mem_range.1 hmem)).1
    refine bind_ok.2 ⟨it, hmade,
      check_ok.2 ⟨require_ok.2 ?_,
        bind_ok.2 ⟨_, floats_ok (hfloat t rfl),
          bind_ok.2 ⟨_, Cpu.applyBias_ok hfound, congrArg Except.ok ?_⟩⟩⟩⟩
    · exact beq_iff_eq.2 (hshape.trans haccepts.shape.symm)
    · rw [hcount, ← Cpu.forRange_eq_foldl]
      refine (setData_forRange product fun i value =>
        let sum := alpha * value + beta * t.data (TensorIterator.naiveOffset t.layout [m, n] i)
        if relu then maxZero sum else sum).trans (output.fill_congr fun i hinside => ?_)
      have hheld := hbuilt.broadcast_contents (p := 1) (t := t) rfl (hcount ▸ hinside)
      rw [hshape] at hheld
      simp only [epilogueOf, Option.map_some, hheld]

theorem validateTranspose_ok {value : Int} {name : String} :
    validateTranspose value name = .ok () ↔ value = 0 ∨ value = 1 := by
  unfold validateTranspose
  rw [require_ok, Bool.or_eq_true, beq_iff_eq, beq_iff_eq]

/-- What `run_gemm` is given. -/
structure GemmOperands (lhs rhs : Tensor F) (bias : Option (Tensor F))
    (transA transB : Int) (m n : Int) :
    Prop where
  flags : (transA = 0 ∨ transA = 1) ∧ (transB = 0 ∨ transB = 1)
  float : ∀ t ∈ lhs :: rhs :: bias.toList, t.dtype = .float32
  ranks : lhs.rank = 2 ∧ rhs.rank = 2
  int64 : Shape.Int64 lhs.shape ∧ Shape.Int64 rhs.shape
  rows : m = lhs.shape.getD (if transA != 0 then 1 else 0) 0
  inner : lhs.shape.getD (if transA != 0 then 0 else 1) 0 =
    rhs.shape.getD (if transB != 0 then 1 else 0) 0
  columns : n = rhs.shape.getD (if transB != 0 then 0 else 1) 0
  fits : ∀ t ∈ bias, BiasFits m n t.shape

/-- A Gemm call fills the output with the scaled, biased and rectified product. -/
theorem runGemm_ok (hcommutes : simd.rhsFirst → ∀ x y : F, x * y = y * x) {bias : Option (Tensor F)}
    (alpha beta : F) {transA transB : Int} (relu : Bool)
    (h : GemmOperands lhs rhs bias transA transB m n)
    (haccepts : Accepts output ⟨[m, n], .float32⟩) :
    runGemm simd output lhs rhs bias alpha beta transA transB relu = .ok (output.fill fun i =>
      epilogueOf alpha beta (bias.map fun t => t.contents.broadcast [m, n] i) relu
        (productOf lhs.contents rhs.contents (transA != 0) (transB != 0) (i / n.toNat)
          (i % n.toNat))) := by
  have hfloat := List.forall_mem_cons.1 h.float
  have hfloat' := List.forall_mem_cons.1 hfloat.2
  obtain ⟨l, hleftMade, hleft⟩ := gemmOperand_ok transA hfloat.1 h.ranks.1 h.int64.1
  obtain ⟨r, hrightMade, hright⟩ := gemmOperand_ok transB hfloat'.1 h.ranks.2 h.int64.2
  have hshapes : Multiply l r m n := {
    rows := h.rows.trans hleft.rows.symm
    inner := hleft.columns.trans (h.inner.trans hright.rows.symm)
    columns := h.columns.trans hright.columns.symm }
  refine check_ok.2 ⟨validateTranspose_ok.2 h.flags.1, check_ok.2 ⟨validateTranspose_ok.2 h.flags.2,
    bind_ok.2 ⟨l, hleftMade, bind_ok.2
      ⟨r, hrightMade, bind_ok.2 ⟨_, matmulOut_ok hcommutes hleft hright hshapes haccepts, ?_⟩⟩⟩⟩⟩
  exact applyGemmEpilogue_ok alpha beta relu haccepts
    (fun t hmem => hfloat'.2 t (Option.mem_toList.2 hmem)) h.fits _

end Ops

end TinyInfer
