import TinyInfer.Backend.Cpu.MatMulKernel

/-!
# The loops of the matrix product

What the blocks, the vectors and the scalars after them do to each element of the output.

- `acts_blocks`: the four outer loops of the blocked kernels visit every element once for
  each block of the inner dimension, and these blocks in order.
- `acts_packedColumns`: the vectors and the scalars after them cover a block of columns.
- `runPacked_eq`: what `run_packed` computes for each element, where `packedDot` is the sum
  before the epilogue.
-/

namespace TinyInfer

open Lib.Pointwise

section

variable {α : Type} {t : Tensor α}

/-- An element of a matrix. -/
def Tensor.element (t : Tensor α) (i j : Nat) : α := t.data (i * t.stride 0 + j * t.stride 1)

theorem Tensor.extent_le (hint64 : Shape.Int64 t.shape) (d : Nat) : t.extent d < 2 ^ 63 := by
  unfold Tensor.extent
  rw [List.getD_eq_getElem?_getD]
  cases hfound : t.shape[d]? with
  | none => decide
  | some extent =>
    have := hint64 extent (List.mem_of_getElem? hfound)
    unfold int64Max at this
    simp only [Option.getD_some]
    omega

/-- A matrix has two extents and two strides. -/
theorem Tensor.matrix (hrank : t.rank = 2) :
    Shape.dims t.shape = [t.extent 0, t.extent 1] ∧
      TensorLayout.strideNats t.strides = [t.stride 0, t.stride 1] := by
  obtain ⟨m, n, hshape⟩ := List.length_eq_two.1 (show t.shape.length = 2 from hrank)
  obtain ⟨a, b, hstrides⟩ := List.length_eq_two.1
    (show t.strides.length = 2 from t.layout.rank_eq.trans hrank)
  simp [Tensor.extent, Tensor.stride, hshape, hstrides, Shape.dims, TensorLayout.strideNats]

theorem Tensor.numel_matrix (hrank : t.rank = 2) : t.numel = t.extent 0 * t.extent 1 := by
  rw [Tensor.numel, TensorLayout.numel, Shape.count, show t.layout.shape = t.shape from rfl,
    (Tensor.matrix hrank).1, List.prod_cons, List.prod_cons, List.prod_nil, Nat.mul_one]

/-- `at` reads an element of a matrix. -/
theorem Tensor.atIndices_matrix (hfloat : t.dtype = .float32) (hrank : t.rank = 2) {i j : Nat}
    (hi : i < t.extent 0) (hj : j < t.extent 1) : t.atIndices [i, j] = .ok (t.element i j) := by
  obtain ⟨hextents, hstrides⟩ := Tensor.matrix hrank
  have hinside : Lib.RowMajor.Inside t.layout.dims [i, j] := by
    rw [show t.layout.dims = _ from hextents]
    exact ⟨hi, hj, trivial⟩
  have hfloats : t.floats = .ok t.data := check_ok.2 ⟨require_ok.2 (by rw [hfloat]; rfl), rfl⟩
  refine bind_ok.2 ⟨t.data, hfloats, bind_ok.2 ⟨_, TensorLayout.offset_eq _ hinside, ?_⟩⟩
  rw [show TensorLayout.strideNats t.layout.strides = _ from hstrides]
  rfl

end

namespace Cpu

/-! ## The cells of a matrix -/

section

variable {α : Type} {rows columns row : Nat}

/-- The address of an element. -/
theorem cell_iff (row : Nat) {column : Nat} (h : column < columns) (j : Nat) :
    j = row * columns + column ↔ j / columns = row ∧ j % columns = column := by
  have hpos : 0 < columns := by omega
  constructor
  · rintro rfl
    rw [Nat.add_comm, Nat.add_mul_div_right _ _ hpos, Nat.div_eq_of_lt h, Nat.zero_add,
      Nat.add_mul_mod_self_right, Nat.mod_eq_of_lt h]
    exact ⟨rfl, rfl⟩
  · rintro ⟨rfl, rfl⟩
    rw [Nat.mul_comm, Nat.div_add_mod]

theorem inside_iff (j : Nat) : j / columns < rows ∧ j % columns < columns ↔ j < rows * columns := by
  rcases Nat.eq_zero_or_pos columns with rfl | hpos
  · simp
  · rw [Nat.div_lt_iff_lt_mul hpos]
    exact and_iff_left (Nat.mod_lt _ hpos)

/-- A loop over the columns of a row. -/
theorem acts_columns {a b : Nat} (hle : b ≤ columns) (f : Nat → α → α) :
    Acts (fun data => forRange a b (fun column data =>
        Function.update data (row * columns + column)
          (f column (data (row * columns + column)))) data)
      (fun j => j / columns = row ∧ a ≤ j % columns ∧ j % columns < b) fun j v =>
        f (j % columns) v := by
  refine Acts.forRange (· % columns) fun column _ hless => ?_
  refine (Acts.update _ (f column)).congr (cell_iff _ (by omega)) ?_
  rintro j v ⟨-, rfl⟩
  rfl

/-- A loop over the elements of a matrix. -/
theorem acts_matrix (f : Nat → Nat → α → α) :
    Acts (fun data => forRange 0 rows (fun row => forRange 0 columns fun column data =>
        Function.update data (row * columns + column)
          (f row column (data (row * columns + column)))) data)
      (fun j => j < rows * columns) fun j v => f (j / columns) (j % columns) v := by
  have heach (row : Nat) : 0 ≤ row → row < rows →
    Acts (fun data => forRange 0 columns (fun column data =>
      Function.update data (row * columns + column) (f row column (data (row * columns + column))))
        data)
      (fun j => j % columns < columns ∧ j / columns = row) fun j v =>
        f (j / columns) (j % columns) v := by
    intro _ _
    refine (acts_columns le_rfl (f row)).congr (fun j => by omega) ?_
    rintro j v ⟨-, rfl⟩
    rfl
  refine (Acts.forRange (· / columns) heach).cells fun j => ?_
  rw [← inside_iff, and_comm]
  exact and_congr_left fun _ => and_iff_right (Nat.zero_le _)

variable {blockSize : MatMulBlockSize} {inner : Nat} {f : Nat → Nat → Nat → α → α}
  {body : Nat → Nat → Nat → Nat → Nat → (Nat → α) → Nat → α}

/-- The four outer loops of a blocked kernel, over a body that adds a block of the inner
dimension to a block of a row. -/
theorem acts_blocks (hpositive : blockSize.check = .ok ()) (hrows_lt : rows < 2 ^ 63)
    (hcolumns_lt : columns < 2 ^ 63) (hinner_lt : inner < 2 ^ 63)
    (heach : ∀ q a b row, q * blockSize.columns < columns → a < b → b ≤ inner →
      Acts (body (q * blockSize.columns) (min ((q + 1) * blockSize.columns) columns) a b row)
        (fun j => (j % columns / blockSize.columns = q ∧ j % columns < columns) ∧ j / columns = row)
        (f a b))
    (hjoin : ∀ a b c j v, a < b → b < c → c ≤ inner → f b c j (f a b j v) = f a c j v)
    (hempty : inner = 0 → ∀ j v, f 0 0 j v = v) :
    Acts (fun data => blocks blockSize.rows rows (fun rowBlock rowEnd =>
        blocks blockSize.columns columns fun columnBlock columnEnd =>
          blocks blockSize.inner inner fun innerBlock innerEnd =>
            forRange rowBlock rowEnd fun row =>
              body columnBlock columnEnd innerBlock innerEnd row) data)
      (fun j => j < rows * columns) (f 0 inner) := by
  have hsizes : blockSize.rows ≠ 0 ∧ blockSize.columns ≠ 0 ∧ blockSize.inner ≠ 0 := by
    simpa [and_assoc] using require_ok.1 hpositive
  -- One block of columns of the rows from `a` to `b`, for the whole inner dimension.
  have hinnerLoop (q a b : Nat) (hmore : q * blockSize.columns < columns) :
      Acts (fun data => blocks blockSize.inner inner (fun innerBlock innerEnd =>
          forRange a b fun row => body (q * blockSize.columns)
            (min ((q + 1) * blockSize.columns) columns)
            innerBlock innerEnd row) data)
        (fun j => (j % columns / blockSize.columns = q ∧ j % columns < columns) ∧
          a ≤ j / columns ∧ j / columns < b) (f 0 inner) := by
    rcases Nat.eq_zero_or_pos inner with rfl | hpos
    · intro data j
      exact ⟨fun _ => (hempty rfl j _).symm, fun _ => rfl⟩
    · exact Acts.forBlocks_same (Nat.pos_of_ne_zero hsizes.2.2) blockSize.inner_lt (by omega)
        (fun x y hless hle => Acts.forRange (· / columns) fun row _ _ =>
          heach q x y row hmore hless hle)
        hjoin hpos
  have hcolumnLoop (a b : Nat) :
      Acts (fun data => blocks blockSize.columns columns (fun columnBlock columnEnd =>
          blocks blockSize.inner inner fun innerBlock innerEnd =>
            forRange a b fun row => body columnBlock columnEnd innerBlock innerEnd row) data)
        (fun j => (a ≤ j / columns ∧ j / columns < b) ∧ j % columns < columns) (f 0 inner) :=
    Acts.forBlocks (Nat.pos_of_ne_zero hsizes.2.1) blockSize.columns_lt (by omega) (· % columns)
      fun q hmore => (hinnerLoop q a b hmore).cells fun j => and_comm
  have hblock (q j : Nat) (hpos : 0 < blockSize.rows) :
      (q * blockSize.rows ≤ j / columns ∧ j / columns < min ((q + 1) * blockSize.rows) rows) ∧
          j % columns < columns ↔
        j % columns < columns ∧ j / columns / blockSize.rows = q ∧ j / columns < rows := by
    rw [and_comm, Nat.div_eq_iff hpos, Nat.succ_mul]
    refine and_congr_right fun _ => ?_
    generalize j / columns = row
    omega
  refine Acts.cells (S := fun j => j % columns < columns ∧ j / columns < rows) ?_ fun j => ?_
  · exact Acts.forBlocks (Nat.pos_of_ne_zero hsizes.1) blockSize.rows_lt (by omega) (· / columns)
      fun q _ =>
        (hcolumnLoop (q * blockSize.rows) (min ((q + 1) * blockSize.rows) rows)).cells fun j =>
        hblock q j (Nat.pos_of_ne_zero hsizes.1)
  · rw [← inside_iff, and_comm]

/-- The cells of a block of a row. -/
theorem block_cells {size q : Nat} (hpos : 0 < size) (j : Nat) :
    j / columns = row ∧ q * size ≤ j % columns ∧ j % columns < min ((q + 1) * size) columns ↔
      (j % columns / size = q ∧ j % columns < columns) ∧ j / columns = row := by
  rw [and_comm, Nat.div_eq_iff hpos, Nat.succ_mul]
  refine and_congr_left fun _ => ?_
  generalize j % columns = column
  omega

/-- A loop over vector registers is a loop in each lane. -/
theorem forRange_lanes [Add α] {a b : Nat} (f : Nat → Nat → α) (accumulator : Lanes α)
    (lane : Nat) :
    forRange a b (fun k (accumulator : Lanes α) => fun lane => accumulator lane + f k lane)
      accumulator lane = forRange a b (fun k sum => sum + f k lane) (accumulator lane) := by
  unfold forRange
  induction List.range' a (b - a) generalizing accumulator with
  | nil => rfl
  | cons k rest ih => rw [List.foldl_cons, List.foldl_cons, ih]

end

/-! ## The operands of the packed kernel -/

section

variable {α : Type} {lhs output : Tensor α} {rhs : PackedMatMulRhs α}

/-- What `validate_packed_matmul` checks. -/
structure PackedOperands (lhs : Tensor α) (rhs : PackedMatMulRhs α) (output : Tensor α) : Prop where
  lhs_float : lhs.dtype = .float32
  output_float : output.dtype = .float32
  lhs_rank : lhs.rank = 2
  output_rank : output.rank = 2
  inner_eq : lhs.extent 1 = rhs.inner
  rows_eq : output.extent 0 = lhs.extent 0
  columns_eq : output.extent 1 = rhs.columns
  contiguous : output.isContiguous = true

/-- The packed kernels accept exactly matching float matrices. -/
theorem validatePackedMatmul_ok :
    validatePackedMatmul lhs rhs output = .ok () ↔ PackedOperands lhs rhs output := by
  unfold validatePackedMatmul
  simp only [check_ok, require_ok, Bool.and_eq_true, beq_iff_eq]
  constructor
  · rintro ⟨⟨ha, hb⟩, ⟨hc, hd⟩, he, ⟨hf, hg⟩, h⟩
    exact ⟨ha, hb, hc, hd, he, hf, hg, h⟩
  · rintro ⟨ha, hb, hc, hd, he, hf, hg, h⟩
    exact ⟨⟨ha, hb⟩, ⟨hc, hd⟩, he, ⟨hf, hg⟩, h⟩

theorem PackedOperands.numel (h : PackedOperands lhs rhs output) :
    output.numel = lhs.extent 0 * rhs.columns := by
  rw [Tensor.numel_matrix h.output_rank, h.rows_eq, h.columns_eq]

end

/-! ## The vectors of a row -/

section

variable {α : Type} [Zero α] [One α] [Add α] [Mul α] [LT α] [DecidableLT α] [DecidableEq α]

/-- `finishLanes`, for one lane. -/
def GemmEpilogue.finishLane (epilogue : GemmEpilogue α) (value : α) (row column : Nat) : α :=
  let value := if epilogue.alpha ≠ 1 ∨ epilogue.relu then value * epilogue.alpha else value
  let value :=
    if epilogue.layout ≠ .none then
      value + epilogue.biasData
        (row * epilogue.rowStride + if epilogue.columnStride = 0 then 0 else column)
    else value
  if epilogue.relu then maxZero value else value

theorem GemmEpilogue.finishLanes_apply (epilogue : GemmEpilogue α) (accumulator : Lanes α)
    (row column lane : Nat) : epilogue.finishLanes accumulator row column lane =
      epilogue.finishLane (accumulator lane) row (column + lane) := by
  unfold finishLanes finishLane maxZero
  split_ifs <;> simp only [set1, loadu, Nat.add_zero, Nat.add_assoc] <;> rfl

/-- An element of the packed right operand. -/
def PackedMatMulRhs.element (rhs : PackedMatMulRhs α) (k column : Nat) : α :=
  rhs.data (k * rhs.columns + column)

/-- Whether a column of a block belongs to a vector. -/
def tiled (simd : Simd) (columnBlock columnEnd column : Nat) : Bool :=
  simd.width > 1 && column < tilesEnd simd.width columnBlock columnEnd

/-- The product that is added for a column of a block. -/
def term (simd : Simd) (columnBlock columnEnd column : Nat) (lhs rhs : α) : α :=
  if tiled simd columnBlock columnEnd column then simd.product lhs rhs else lhs * rhs

/-- What `packedColumns` does to an element. -/
def packedStep (simd : Simd) (epilogue : Option (GemmEpilogue α)) (lhs : Tensor α)
    (rhs : PackedMatMulRhs α) (columnBlock columnEnd innerBlock innerEnd row column : Nat)
    (value : α) : α :=
  let sum := forRange innerBlock innerEnd (fun k sum =>
    sum + term simd columnBlock columnEnd column (lhs.element row k) (rhs.element k column)) value
  finishFinal epilogue (innerEnd == rhs.inner) sum row column

variable {simd : Simd} {epilogue : Option (GemmEpilogue α)} {lhs : Tensor α}
    {rhs : PackedMatMulRhs α}
  {columnBlock columnEnd innerBlock innerEnd row : Nat}

/-- One vector changes the cells of its lanes. -/
theorem acts_accumulateSimdDot
    (hlanes : ∀ e ∈ epilogue, ∀ v row column, e.finishLane v row column = e.finish v row column)
    {x : Nat} (hwide : simd.width > 1)
    (hinTile : x + simd.width ≤ tilesEnd simd.width columnBlock columnEnd)
    (hle : columnBlock ≤ columnEnd) (hinside : columnEnd ≤ rhs.columns) :
    Acts (accumulateSimdDot simd epilogue (row * rhs.columns) lhs.data (row * lhs.stride 0)
        (lhs.stride 1) rhs.data rhs.columns x innerBlock innerEnd row (innerEnd == rhs.inner))
      (fun j => j / rhs.columns = row ∧ x ≤ j % rhs.columns ∧ j % rhs.columns < x + simd.width)
      (fun j => packedStep simd epilogue lhs rhs columnBlock columnEnd innerBlock innerEnd
        (j / rhs.columns) (j % rhs.columns)) := by
  have hshort : x + simd.width ≤ rhs.columns := hinTile.trans ((tilesEnd_le _ hle).trans hinside)
  intro data j
  have haddress := Nat.div_add_mod j rhs.columns
  constructor
  · rintro ⟨rfl, hlower, hupper⟩
    obtain ⟨lane, hat⟩ := Nat.exists_eq_add_of_le hlower
    have hcell : j = j / rhs.columns * rhs.columns + x + lane := by
      rw [Nat.mul_comm, Nat.add_assoc, ← hat, haddress]
    have hisTiled : tiled simd columnBlock columnEnd (j % rhs.columns) = true := by
      simp only [tiled, decide_eq_true hwide, Bool.true_and, decide_eq_true_eq]
      omega
    have hright (k : Nat) : loadu rhs.data (k * rhs.columns + x) lane =
      rhs.element k (j % rhs.columns) := by
      rw [loadu, PackedMatMulRhs.element, hat, Nat.add_assoc]
    -- The lane of the sum, before the epilogue.
    have hsum : forRange innerBlock innerEnd (fun k (accumulator : Lanes α) =>
        let lhsVector := set1 (lhs.data (j / rhs.columns * lhs.stride 0 + k * lhs.stride 1))
        let rhsVector := loadu rhs.data (k * rhs.columns + x)
        fun lane => accumulator lane + simd.product (lhsVector lane) (rhsVector lane))
          (loadu data (j / rhs.columns * rhs.columns + x)) lane =
        forRange innerBlock innerEnd (fun k sum =>
          sum + term simd columnBlock columnEnd (j % rhs.columns)
          (lhs.element (j / rhs.columns) k) (rhs.element k (j % rhs.columns))) (data j) := by
      rw [forRange_lanes, loadu, ← hcell]
      simp only [hright, term, hisTiled, if_true]
      rfl
    unfold accumulateSimdDot storeu packedStep finishFinal
    rw [if_pos (by omega), show j - (j / rhs.columns * rhs.columns + x) = lane by omega]
    cases epilogue with
    | none => exact hsum
    | some e =>
      dsimp only at hsum ⊢
      split
      · rw [e.finishLanes_apply, hsum, hlanes e rfl, ← hat]
      · exact hsum
  · intro hother
    refine if_neg fun h => hother ?_
    have hrow_eq : j / rhs.columns = row := by
      rw [Nat.div_eq_iff (by omega)]
      omega
    rw [hrow_eq, Nat.mul_comm] at haddress
    exact ⟨hrow_eq, by omega, by omega⟩

/-- The columns after the vectors. -/
theorem acts_scalars (start : Nat) (hinside : columnEnd ≤ rhs.columns)
    (huntiled : ∀ column, start ≤ column → tiled simd columnBlock columnEnd column = false) :
    Acts (fun data => forRange start columnEnd (fun column data =>
        let sum := forRange innerBlock innerEnd (fun k sum =>
          sum + lhs.data (row * lhs.stride 0 + k * lhs.stride 1) *
            rhs.data (k * rhs.columns + column))
          (data (row * rhs.columns + column))
        Function.update data (row * rhs.columns + column)
          (finishFinal epilogue (innerEnd == rhs.inner) sum row column)) data)
      (fun j => j / rhs.columns = row ∧ start ≤ j % rhs.columns ∧ j % rhs.columns < columnEnd)
      (fun j => packedStep simd epilogue lhs rhs columnBlock columnEnd innerBlock innerEnd
        (j / rhs.columns) (j % rhs.columns)) := by
  refine (acts_columns hinside fun column value => finishFinal epilogue (innerEnd == rhs.inner)
    (forRange innerBlock innerEnd
      (fun k sum => sum + lhs.element row k * rhs.element k column) value)
      row column).congr (fun _ => Iff.rfl) ?_
  rintro j v ⟨rfl, hlower, -⟩
  simp only [packedStep, term, huntiled _ hlower, Bool.false_eq_true, if_false]

/-- The vectors, and the scalars after them, change every cell of a block of a row once. -/
theorem acts_packedColumns
    (hlanes : ∀ e ∈ epilogue, ∀ v row column, e.finishLane v row column = e.finish v row column)
    (hle : columnBlock ≤ columnEnd) (hinside : columnEnd ≤ rhs.columns) :
    Acts (packedColumns simd epilogue lhs rhs columnBlock columnEnd innerBlock innerEnd row)
      (fun j => j / rhs.columns = row ∧ columnBlock ≤ j % rhs.columns ∧ j % rhs.columns < columnEnd)
      (fun j => packedStep simd epilogue lhs rhs columnBlock columnEnd innerBlock innerEnd
        (j / rhs.columns) (j % rhs.columns)) := by
  unfold packedColumns
  by_cases hwide : simd.width > 1
  · have hend_le := tilesEnd_le simd.width hle
    have hle_end : columnBlock ≤ tilesEnd simd.width columnBlock columnEnd := Nat.le_add_right ..
    have huntiled (column : Nat) (hlower : tilesEnd simd.width columnBlock columnEnd ≤ column) :
        tiled simd columnBlock columnEnd column = false := by
      rw [tiled, decide_eq_false (Nat.not_lt.2 hlower), Bool.and_false]
    simp only [if_pos hwide, forTiles_snd (Nat.lt_of_succ_lt hwide) _ hle le_rfl]
    refine ((Acts.forTiles (by omega) (· % rhs.columns) hle le_rfl fun x _ hinTile =>
      acts_accumulateSimdDot hlanes hwide hinTile hle hinside).union
        (acts_scalars _ hinside huntiled) ?_).cells fun j => ?_
    · omega
    · rw [← and_or_left]
      refine and_congr_right fun _ => ?_
      omega
  · simp only [if_neg hwide]
    exact acts_scalars _ hinside fun column _ => by
      rw [tiled, decide_eq_false hwide, Bool.false_and]

/-! ## The packed kernel -/

variable {blockSize : MatMulBlockSize}

/-- `packedStep` in the block that the column belongs to. -/
def blockStep (simd : Simd) (blockSize : MatMulBlockSize) (epilogue : Option (GemmEpilogue α))
    (lhs : Tensor α) (rhs : PackedMatMulRhs α) (innerBlock innerEnd row column : Nat) (value : α) :
    α :=
  let block := column / blockSize.columns
  packedStep simd epilogue lhs rhs (block * blockSize.columns)
    (min ((block + 1) * blockSize.columns) rhs.columns) innerBlock innerEnd row column value

/-- The loops of `run_packed` change every element of the output once for each block. -/
theorem acts_runPacked (simd : Simd) (lhs : Tensor α)
    (hlanes : ∀ e ∈ epilogue, ∀ v row column, e.finishLane v row column = e.finish v row column)
    (hpositive : blockSize.check = .ok ()) {rows : Nat} (hrows_lt : rows < 2 ^ 63)
    (hcolumns_lt : rhs.columns < 2 ^ 63) (hinner_lt : rhs.inner < 2 ^ 63) (hpos : 0 < rhs.inner) :
    Acts (fun data => blocks blockSize.rows rows (fun rowBlock rowEnd =>
        blocks blockSize.columns rhs.columns fun columnBlock columnEnd =>
          blocks blockSize.inner rhs.inner fun innerBlock innerEnd =>
            forRange rowBlock rowEnd fun row =>
              packedColumns simd epilogue lhs rhs columnBlock columnEnd innerBlock innerEnd row)
                data)
      (fun j => j < rows * rhs.columns)
      (fun j => blockStep simd blockSize epilogue lhs rhs 0 rhs.inner (j / rhs.columns)
        (j % rhs.columns)) := by
  have hsize : 0 < blockSize.columns := by
    have := require_ok.1 hpositive
    simp at this
    omega
  refine acts_blocks hpositive hrows_lt hcolumns_lt hinner_lt (f := fun a b j =>
    blockStep simd blockSize epilogue lhs rhs a b (j / rhs.columns) (j % rhs.columns)) ?_ ?_ ?_
  · intro q a b row hmore hless hle
    have hbounded : q * blockSize.columns ≤ min ((q + 1) * blockSize.columns) rhs.columns := by
      rw [Nat.succ_mul]
      omega
    refine (acts_packedColumns hlanes hbounded (Nat.min_le_right ..)).congr (block_cells hsize) ?_
    rintro j v ⟨⟨rfl, -⟩, -⟩
    rfl
  · intro a b c j v hab hbc hc
    have hearly : (b == rhs.inner) = false := beq_eq_false_iff_ne.2 (by omega)
    have hskip (sum : α) (row column : Nat) : finishFinal epilogue false sum row column = sum := by
      cases epilogue <;> rfl
    simp only [blockStep, packedStep, hearly, hskip, forRange_append hab.le hbc.le]
  · intro hzero
    omega

/-- What `run_packed` computes for an element, before the epilogue. -/
def packedDot (simd : Simd) (blockSize : MatMulBlockSize) (lhs : Tensor α) (rhs : PackedMatMulRhs α)
    (row column : Nat) : α :=
  blockStep simd blockSize none lhs rhs 0 rhs.inner row column 0

theorem blockStep_eq (row column : Nat) :
    blockStep simd blockSize epilogue lhs rhs 0 rhs.inner row column 0 =
      finishFinal epilogue true (packedDot simd blockSize lhs rhs row column) row column := by
  simp only [packedDot, blockStep, packedStep, beq_self_eq_true]
  rfl

variable {output : Tensor α}

/-- `run_packed` with its epilogue, unless an extent is zero. -/
theorem runPacked_eq
    (hlanes : ∀ e ∈ epilogue, ∀ v row column, e.finishLane v row column = e.finish v row column)
    (hoperands : PackedOperands lhs rhs output) (hpositive : blockSize.check = .ok ())
    (hlhs64 : Shape.Int64 lhs.shape) (hcolumns_lt : rhs.columns < 2 ^ 63)
    (hnonzero : epilogue.isSome → lhs.extent 0 ≠ 0 ∧ rhs.inner ≠ 0 ∧ rhs.columns ≠ 0) :
    runPacked simd epilogue lhs rhs output blockSize = .ok (output.setData fun j =>
      if j < output.numel then
        finishFinal epilogue true
          (packedDot simd blockSize lhs rhs (j / rhs.columns) (j % rhs.columns)) (j / rhs.columns)
          (j % rhs.columns)
      else output.data j) := by
  have hnumel := hoperands.numel
  refine check_ok.2 ⟨validatePackedMatmul_ok.2 hoperands, check_ok.2 ⟨hpositive, ?_⟩⟩
  dsimp only
  by_cases hzero : lhs.extent 0 = 0 ∨ rhs.inner = 0 ∨ rhs.columns = 0
  · rw [if_pos hzero]
    cases epilogue with
    | some e =>
      have := hnonzero rfl
      omega
    | none =>
      refine congrArg (fun data => Except.ok (output.setData data)) (funext fun j => ?_)
      unfold fillZero
      split
      · rename_i hinside
        -- The output has elements, so the inner dimension is empty.
        have hempty : rhs.inner = 0 := by
          by_contra hmore
          rcases hzero with hzero | hzero | hzero
          · simp [hnumel, hzero] at hinside
          · exact hmore hzero
          · simp [hnumel, hzero] at hinside
        simp only [finishFinal, packedDot, blockStep, packedStep, hempty]
        rfl
      · rfl
  · rw [if_neg hzero]
    have hacts := acts_runPacked simd lhs hlanes hpositive (Tensor.extent_le hlhs64 0) hcolumns_lt
      (hoperands.inner_eq ▸ Tensor.extent_le hlhs64 1) (by omega)
    refine congrArg (fun data => Except.ok (output.setData data))
      ((hacts.run _).trans (funext fun j => ?_))
    rw [hnumel]
    show (if _ then _ else fillZero output j) = _
    unfold fillZero
    split
    · rename_i hinside
      rw [← blockStep_eq]
      congr 1
      exact if_pos (hnumel ▸ hinside)
    · rename_i houtside
      exact if_neg (hnumel ▸ houtside)

end

end Cpu

end TinyInfer
