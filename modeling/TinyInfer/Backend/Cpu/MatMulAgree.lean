import TinyInfer.Backend.Cpu.MatMulBlocks

/-!
# The kernels of the matrix product agree

Each kernel stores the same left-to-right fold `dot` in every element of the output,
whatever the blocks and the vectors are (`matmul_agree`). The vectors of Neon multiply
with the right factor first, which the scalars do not.
-/

namespace TinyInfer.Cpu

open Lib.Pointwise

/-! ## The scalar kernels -/

section

variable {α : Type} [Zero α] [Add α] [Mul α]

/-- `0 + lhs(row, 0) * rhs(0, column) + ..`, from left to right. -/
def dot (lhs rhs : Tensor α) (row column : Nat) : α :=
  (List.range (lhs.extent 1)).foldl (fun sum k => sum + lhs.element row k * rhs.element k column) 0

/-- The product, in the elements of the output. -/
def product (lhs rhs output : Tensor α) : Tensor α :=
  output.setData fun j =>
    if j < output.numel then dot lhs rhs (j / rhs.extent 1) (j % rhs.extent 1) else output.data j

/-- What `validate_matmul` checks. -/
structure Operands (lhs rhs output : Tensor α) : Prop where
  lhs_float : lhs.dtype = .float32
  rhs_float : rhs.dtype = .float32
  output_float : output.dtype = .float32
  lhs_rank : lhs.rank = 2
  rhs_rank : rhs.rank = 2
  output_rank : output.rank = 2
  inner_eq : lhs.extent 1 = rhs.extent 0
  rows_eq : output.extent 0 = lhs.extent 0
  columns_eq : output.extent 1 = rhs.extent 1
  contiguous : output.isContiguous = true

variable {lhs rhs output : Tensor α} {blockSize : MatMulBlockSize}

omit [Zero α] [Add α] [Mul α] in
theorem validateMatmul_ok : validateMatmul lhs rhs output = .ok () ↔ Operands lhs rhs output := by
  unfold validateMatmul
  simp only [check_ok, require_ok, Bool.and_eq_true, beq_iff_eq]
  constructor
  · rintro ⟨⟨⟨ha, hb⟩, hc⟩, ⟨⟨hd, he⟩, hf⟩, hg, ⟨h, hi⟩, hj⟩
    exact ⟨ha, hb, hc, hd, he, hf, hg, h, hi, hj⟩
  · rintro ⟨ha, hb, hc, hd, he, hf, hg, h, hi, hj⟩
    exact ⟨⟨⟨ha, hb⟩, hc⟩, ⟨⟨hd, he⟩, hf⟩, hg, ⟨h, hi⟩, hj⟩

omit [Zero α] [Add α] [Mul α] in
theorem Operands.numel (h : Operands lhs rhs output) :
    output.numel = lhs.extent 0 * rhs.extent 1 := by
  rw [Tensor.numel_matrix h.output_rank, h.rows_eq, h.columns_eq]

theorem forRange_eq_foldl {σ : Type} (n : Nat) (body : Nat → σ → σ) (s : σ) :
    forRange 0 n body s = (List.range n).foldl (fun s i => body i s) s := by
  rw [forRange, Nat.sub_zero, List.range_eq_range']

/-- The elements of the output have been replaced by those of the product. -/
theorem product_eq (h : Operands lhs rhs output) {data : Nat → α}
    (houtside : ∀ j, ¬ j < output.numel → data j = output.data j) {T : (Nat → α) → Nat → α}
    {φ : Nat → α → α} (hacts : Acts T (fun j => j < lhs.extent 0 * rhs.extent 1) φ)
    (hinside : ∀ j, j < output.numel →
      φ j (data j) = dot lhs rhs (j / rhs.extent 1) (j % rhs.extent 1)) :
    output.setData (T data) = product lhs rhs output := by
  refine congrArg output.setData ((hacts.run data).trans (funext fun j => ?_))
  rw [← h.numel]
  split
  · rename_i hless
    exact hinside j hless
  · rename_i hless
    exact houtside j hless

theorem matmulStrided_eq (h : Operands lhs rhs output) :
    matmulStrided lhs rhs output = .ok (product lhs rhs output) := by
  refine check_ok.2 ⟨validateMatmul_ok.2 h, congrArg Except.ok ?_⟩
  refine product_eq h (fun _ _ => rfl) (acts_matrix fun row column _ => forRange 0 (lhs.extent 1)
    (fun k sum => sum + lhs.element row k * rhs.element k column) 0) fun j _ => ?_
  rw [forRange_eq_foldl]
  rfl

/-- The reference kernel computes the product. -/
theorem matmulReference_eq (h : Operands lhs rhs output) :
    matmulReference lhs rhs output = .ok (product lhs rhs output) := by
  have hsums (row column : Nat) (hr : row < lhs.extent 0) (hc : column < rhs.extent 1) :
      (List.range (lhs.extent 1)).foldlM (fun (sum : α) (k : Nat) => do
        .ok (sum + (← lhs.atIndices [row, k]) * (← rhs.atIndices [k, column]))) 0 =
      .ok (dot lhs rhs row column) := by
    refine foldlM_ok (fun sum k => sum + lhs.element row k * rhs.element k column)
      (fun k hmem sum => ?_) 0
    have hk := List.mem_range.1 hmem
    rw [Tensor.atIndices_matrix h.lhs_float h.lhs_rank hr hk,
      Tensor.atIndices_matrix h.rhs_float h.rhs_rank (h.inner_eq ▸ hk) hc]
    rfl
  have hstores (row column : Nat) (hr : row < lhs.extent 0) (hc : column < rhs.extent 1)
      (data : Nat → α) :
        storeAt output (row * rhs.extent 1 + column) (dot lhs rhs row column) data =
        .ok (Function.update data (row * rhs.extent 1 + column) (dot lhs rhs row column)) := by
    refine check_ok.2 ⟨require_ok.2 (decide_eq_true ?_), rfl⟩
    obtain ⟨hrow_eq, hcolumn_eq⟩ := (cell_iff row hc _).1 rfl
    rw [h.numel, ← inside_iff, hrow_eq, hcolumn_eq]
    exact ⟨hr, hc⟩
  have hrounds : (List.range (lhs.extent 0)).foldlM (fun data (row : Nat) =>
      (List.range (rhs.extent 1)).foldlM (fun data (column : Nat) => do
        let sum ← (List.range (lhs.extent 1)).foldlM (fun (sum : α) (k : Nat) => do
          .ok (sum + (← lhs.atIndices [row, k]) * (← rhs.atIndices [k, column]))) 0
        storeAt output (row * rhs.extent 1 + column) sum data) data) output.data =
      .ok ((List.range (lhs.extent 0)).foldl (fun data row => (List.range (rhs.extent 1)).foldl
        (fun data column => Function.update data (row * rhs.extent 1 + column)
          (dot lhs rhs row column))
          data) output.data) := by
    refine foldlM_ok _ (fun row hr data => foldlM_ok _ (fun column hc data => ?_) data) _
    rw [hsums row column (List.mem_range.1 hr) (List.mem_range.1 hc)]
    exact hstores row column (List.mem_range.1 hr) (List.mem_range.1 hc) data
  refine check_ok.2 ⟨validateMatmul_ok.2 h, bind_ok.2 ⟨_, hrounds, congrArg Except.ok ?_⟩⟩
  simp only [← forRange_eq_foldl]
  exact product_eq h (fun _ _ => rfl) (acts_matrix fun row column _ => dot lhs rhs row column)
    fun j _ => rfl

/-- The blocked kernel computes the product for any positive block size. -/
theorem matmulBlocked_eq (h : Operands lhs rhs output) (hpositive : blockSize.check = .ok ())
    (hlhs64 : Shape.Int64 lhs.shape) (hrhs64 : Shape.Int64 rhs.shape) :
    matmulBlocked lhs rhs output blockSize = .ok (product lhs rhs output) := by
  have hsize : 0 < blockSize.columns := by
    have := require_ok.1 hpositive
    simp at this
    omega
  refine check_ok.2 ⟨validateMatmul_ok.2 h, check_ok.2 ⟨hpositive, congrArg Except.ok ?_⟩⟩
  refine product_eq h (fun j houtside => if_neg houtside) (acts_blocks hpositive
    (Tensor.extent_le hlhs64 0) (Tensor.extent_le hrhs64 1) (Tensor.extent_le hlhs64 1)
    (f := fun a b j v => forRange a b (fun k sum =>
      sum + lhs.element (j / rhs.extent 1) k * rhs.element k (j % rhs.extent 1)) v) ?_ ?_ ?_) ?_
  · intro q a b row _ _ _
    refine (Acts.forRange_same fun k _ _ => acts_columns (Nat.min_le_right ..) fun column sum =>
      sum + lhs.element row k * rhs.element k column).congr (block_cells hsize) ?_
    rintro j v ⟨-, rfl⟩
    rfl
  · intro a b c j v hab hbc _
    exact forRange_append hab.le hbc.le ..
  · intro _ j v
    rfl
  · intro j hinside
    show forRange _ _ _ (if _ then _ else _) = _
    rw [forRange_eq_foldl, if_pos hinside]
    rfl

end

/-! ## The packed kernel -/

section

variable {α : Type} [Zero α] [One α] [Add α] [Mul α] [LT α] [DecidableLT α] [DecidableEq α]
  {lhs rhs output t : Tensor α} {simd : Simd} {blockSize : MatMulBlockSize} {transpose : Bool}

/-- `PackedMatMulRhs` holds the elements of the operand, or of its transpose. -/
structure Packs (t : Tensor α) (transpose : Bool) (packed : PackedMatMulRhs α) : Prop where
  inner : packed.inner = t.extent (if transpose then 1 else 0)
  columns : packed.columns = t.extent (if transpose then 0 else 1)
  element : ∀ k < packed.inner, ∀ column < packed.columns, packed.element k column =
    if transpose then t.element column k else t.element k column

omit [One α] [Add α] [Mul α] [LT α] [DecidableLT α] [DecidableEq α] in
/-- Each packed element is stored once, at its row-major place. -/
theorem stored_element (source : Nat → Nat → α) {inner columns k column : Nat} (hk : k < inner)
    (hc : column < columns) :
    forRange 0 inner (fun i => forRange 0 columns fun column data =>
      Function.update data (i * columns + column) (source i column)) (fun _ => (0 : α))
        (k * columns + column) =
      source k column := by
  obtain ⟨hrow_eq, hcolumn_eq⟩ := (cell_iff k hc _).1 rfl
  have hinside : k * columns + column < inner * columns := by
    rw [← inside_iff, hrow_eq, hcolumn_eq]
    exact ⟨hk, hc⟩
  refine ((acts_matrix (fun i column _ => source i column) (fun _ => 0) _).1 hinside).trans ?_
  show source (_ / columns) (_ % columns) = _
  rw [hrow_eq, hcolumn_eq]

omit [One α] [Add α] [Mul α] [LT α] [DecidableLT α] [DecidableEq α] in
/-- A float matrix can always be packed. -/
theorem pack_ok (hfloat : t.dtype = .float32) (hrank : t.rank = 2) (transpose : Bool) :
    ∃ packed, PackedMatMulRhs.pack t transpose = .ok packed ∧ Packs t transpose packed := by
  refine ⟨_, check_ok.2 ⟨require_ok.2 (by rw [hfloat, hrank]; rfl), rfl⟩, rfl, rfl, ?_⟩
  intro k hk column hc
  refine (stored_element (fun k column => t.data (k * t.stride (if transpose then 1 else 0) +
    column * t.stride (if transpose then 0 else 1))) hk hc).trans ?_
  cases transpose with
  | false => rfl
  | true => exact congrArg t.data (Nat.add_comm ..)

/-- The vectors add the same products as the scalars do, if these commute where it matters. -/
theorem packedDot_eq {packed : PackedMatMulRhs α}
    (hcommutes : simd.rhsFirst → ∀ x y : α, x * y = y * x) (hinner : lhs.extent 1 = packed.inner)
    {row column : Nat} (hterm : ∀ k < packed.inner,
      packed.element k column = rhs.element k column) :
    packedDot simd blockSize lhs packed row column = dot lhs rhs row column := by
  have hproducts (b e : Nat) (x y : α) : Cpu.term simd b e column x y = x * y := by
    unfold Cpu.term Simd.product
    split_ifs with _ hfirst
    · exact hcommutes hfirst y x
    · rfl
    · rfl
  unfold packedDot blockStep packedStep dot
  rw [← forRange_eq_foldl, hinner]
  simp only [hproducts]
  exact forRange_congr (fun k sum _ hless => by rw [hterm k hless]) 0

/-- The right operand, or its transpose. -/
structure Holds (t : Tensor α) (transpose : Bool) (rhs : Tensor α) : Prop where
  float : t.dtype = .float32
  rank : t.rank = 2
  inner : t.extent (if transpose then 1 else 0) = rhs.extent 0
  columns : t.extent (if transpose then 0 else 1) = rhs.extent 1
  element : ∀ k < rhs.extent 0, ∀ column < rhs.extent 1,
    (if transpose then t.element column k else t.element k column) = rhs.element k column

/-- The packed kernel computes the product for any lanes and any block size. -/
theorem matmulPackedSimd_eq (hcommutes : simd.rhsFirst → ∀ x y : α, x * y = y * x)
    (h : Operands lhs rhs output) (hholds : Holds t transpose rhs)
    (hpositive : blockSize.check = .ok ()) (hlhs64 : Shape.Int64 lhs.shape)
    (hrhs64 : Shape.Int64 rhs.shape) :
    (do matmulPackedSimd simd lhs (← PackedMatMulRhs.pack t transpose) output blockSize) =
      .ok (product lhs rhs output) := by
  obtain ⟨packed, hmade, hpacks⟩ := pack_ok hholds.float hholds.rank transpose
  have hinner : packed.inner = rhs.extent 0 := hpacks.inner.trans hholds.inner
  have hcolumns : packed.columns = rhs.extent 1 := hpacks.columns.trans hholds.columns
  have hoperands : PackedOperands lhs packed output :=
    ⟨h.lhs_float, h.output_float, h.lhs_rank, h.output_rank,
      h.inner_eq.trans hinner.symm, h.rows_eq, h.columns_eq.trans hcolumns.symm, h.contiguous⟩
  have hran : runPacked simd none lhs packed output blockSize = _ :=
    runPacked_eq (fun e hunfused => by cases hunfused) hoperands hpositive hlhs64
      (hcolumns ▸ Tensor.extent_le hrhs64 1)
      fun hfused => by cases hfused
  refine bind_ok.2 ⟨packed, hmade,
    hran.trans (congrArg (fun data => Except.ok (output.setData data)) ?_)⟩
  funext j
  rw [hcolumns]
  split
  · rename_i hinside
    rw [h.numel] at hinside
    obtain ⟨-, hcolumn_lt⟩ := inside_iff j |>.2 hinside
    refine packedDot_eq hcommutes hoperands.inner_eq fun k hless => ?_
    rw [hpacks.element k hless _ (hcolumns ▸ hcolumn_lt)]
    exact hholds.element k (hinner ▸ hless) _ hcolumn_lt
  · rfl

/-- All kernels compute the product. -/
structure Agree (simd : Simd) (lhs rhs output : Tensor α) (blockSize : MatMulBlockSize)
    (result : Tensor α) : Prop where
  element : ∀ row < lhs.extent 0, ∀ column < rhs.extent 1,
    result.data (row * rhs.extent 1 + column) = dot lhs rhs row column
  reference : matmulReference lhs rhs output = .ok result
  strided : matmulStrided lhs rhs output = .ok result
  blocked : matmulBlocked lhs rhs output blockSize = .ok result
  packedSimd : ∀ (t : Tensor α) (transpose : Bool), Holds t transpose rhs →
    (do matmulPackedSimd simd lhs (← PackedMatMulRhs.pack t transpose) output blockSize) =
      .ok result

/-- All four kernels compute the same product. -/
theorem matmul_agree (simd : Simd) (hcommutes : simd.rhsFirst → ∀ x y : α, x * y = y * x)
    (hvalid : validateMatmul lhs rhs output = .ok ()) (hpositive : blockSize.check = .ok ())
    (hlhs64 : Shape.Int64 lhs.shape) (hrhs64 : Shape.Int64 rhs.shape) :
    Agree simd lhs rhs output blockSize (product lhs rhs output) := by
  have h := validateMatmul_ok.1 hvalid
  refine ⟨fun row hr column hc => ?_, matmulReference_eq h, matmulStrided_eq h,
    matmulBlocked_eq h hpositive hlhs64 hrhs64,
    fun t transpose hholds => matmulPackedSimd_eq hcommutes h hholds hpositive hlhs64 hrhs64⟩
  obtain ⟨hrow_eq, hcolumn_eq⟩ := (cell_iff row hc _).1 rfl
  have hinside : row * rhs.extent 1 + column < output.numel := by
    rw [h.numel, ← inside_iff, hrow_eq, hcolumn_eq]
    exact ⟨hr, hc⟩
  refine (if_pos hinside).trans ?_
  rw [hrow_eq, hcolumn_eq]

end

/-- A contiguous matrix. -/
def matrix {α : Type} (rows columns : Int) (data : Nat → α)
    (hadmits : TensorLayout.Admits [rows, columns] := by decide)
    (hbytes_le : (TensorLayout.contiguous [rows, columns] hadmits).numel * 4 ≤ sizeMax := by
      decide) :
    Tensor α :=
  ⟨.contiguous [rows, columns] hadmits, .float32, data, hbytes_le⟩

/-- A vector of four columns and two columns more, in blocks that divide neither the columns nor
the terms of a product -/
theorem matmul_agree_blocks : ∃ result, Agree .neon (matrix 2 3 Int.ofNat) (matrix 3 6 Int.ofNat)
    (matrix 2 6 Int.ofNat) { rows := 1, columns := 5, inner := 2 } result ∧
      result.data 7 = 3 * 1 + 4 * 7 + 5 * 13 := by
  have hagree : Agree .neon (matrix 2 3 Int.ofNat) (matrix 3 6 Int.ofNat) (matrix 2 6 Int.ofNat)
      { rows := 1, columns := 5, inner := 2 } _ :=
    matmul_agree .neon (fun _ => Int.mul_comm) rfl rfl (by decide) (by decide)
  exact ⟨_, hagree, hagree.element 1 (by decide) 1 (by decide)⟩

/-- Words, whose product is not commutative. -/
structure Word where
  letters : List Nat
  deriving DecidableEq, Repr

instance : Zero Word := ⟨⟨[0]⟩⟩

instance : One Word := ⟨⟨[]⟩⟩

instance : Add Word := ⟨fun x y => ⟨x.letters ++ 0 :: y.letters⟩⟩

instance : Mul Word := ⟨fun x y => ⟨x.letters ++ y.letters⟩⟩

instance : LT Word := ⟨fun _ _ => False⟩

instance : DecidableLT Word := fun _ _ => inferInstanceAs (Decidable False)

/-- The vectors of Neon multiply the other way round. -/
theorem matmul_agree_neon : ¬ ∃ result, Agree .neon (matrix 1 1 fun _ => Word.mk [2])
    (matrix 1 4 fun _ => Word.mk [3]) (matrix 1 4 fun _ => 0) {} result := by
  rintro ⟨result, hagree⟩
  have hvectors := hagree.packedSimd (matrix 1 4 fun _ => Word.mk [3]) false
    ⟨rfl, rfl, rfl, rfl, fun _ _ _ _ => rfl⟩
  have hscalars : result.data 0 = ⟨[0, 0, 2, 3]⟩ := hagree.element 0 (by decide) 0 (by decide)
  have hlane : result.data 0 = ⟨[0, 0, 3, 2]⟩ :=
    (Except.ok.inj (congrArg (Except.map fun t : Tensor Word => t.data 0) hvectors)).symm
  cases hlane.symm.trans hscalars

end TinyInfer.Cpu
