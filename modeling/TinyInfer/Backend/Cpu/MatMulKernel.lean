import TinyInfer.Backend.Cpu.GemmEpilogue

/-!
# Matrix multiplication on the CPU (`backend/cpu/matmul_kernel.cpp`)

The four kernels over scalars whose operations are not interpreted: a fused multiply-add
is an addition of a product. `Simd` stands for the instruction set that the build chose.
`runPacked` has an epilogue where the source instantiates `run_packed<true>`.

The counters of the loops over blocks wrap around as `size_t` does. Addresses are natural
numbers, since those of the elements of a layout fit `size_t`.
-/

namespace TinyInfer.Cpu

open Lib.Pointwise

variable {α : Type} [Zero α] [One α] [Add α] [Mul α] [LT α] [DecidableLT α] [DecidableEq α]

def validateMatmul (lhs rhs output : Tensor α) : Except Exn Unit := do
  require (lhs.dtype == .float32 && rhs.dtype == .float32 && output.dtype == .float32)
    (.invalidArgument "CPU MatMul currently supports only float32 tensors")
  require (lhs.rank == 2 && rhs.rank == 2 && output.rank == 2)
    (.invalidArgument "CPU MatMul expects rank-2 tensors")
  require (lhs.extent 1 == rhs.extent 0)
    (.invalidArgument "CPU MatMul inner dimensions must match")
  require (output.extent 0 == lhs.extent 0 && output.extent 1 == rhs.extent 1)
    (.invalidArgument "CPU MatMul output shape is incorrect")
  require output.isContiguous (.invalidArgument "CPU MatMul output must be contiguous")

/-- `MatMulBlockSize`, of which each member is a `size_t`. -/
structure MatMulBlockSize where
  rows : Nat := 32
  columns : Nat := 32
  inner : Nat := 32
  rows_lt : rows < 2 ^ 64 := by decide
  columns_lt : columns < 2 ^ 64 := by decide
  inner_lt : inner < 2 ^ 64 := by decide

def MatMulBlockSize.check (blockSize : MatMulBlockSize) : Except Exn Unit :=
  require (!(blockSize.rows == 0 || blockSize.columns == 0 || blockSize.inner == 0))
    (.invalidArgument "CPU MatMul block dimensions must be positive")

structure PackedMatMulRhs (α : Type) where
  inner : Nat
  columns : Nat
  data : Nat → α

/-- `PackedMatMulRhs(rhs, transpose)` -/
def PackedMatMulRhs.pack (rhs : Tensor α) (transpose : Bool) : Except Exn (PackedMatMulRhs α) := do
  require (rhs.dtype == .float32 && rhs.rank == 2)
    (.invalidArgument "PackedMatMulRhs expects a rank-2 float32 tensor")
  let inner := rhs.extent (if transpose then 1 else 0)
  let columns := rhs.extent (if transpose then 0 else 1)
  let innerStride := rhs.stride (if transpose then 1 else 0)
  let columnStride := rhs.stride (if transpose then 0 else 1)
  .ok {
    inner, columns
    data := forRange 0 inner (fun i => forRange 0 columns fun column data =>
      Function.update data (i * columns + column)
        (rhs.data (i * innerStride + column * columnStride))) fun _ => 0 }

def validatePackedMatmul (lhs : Tensor α) (rhs : PackedMatMulRhs α) (output : Tensor α) :
    Except Exn Unit := do
  require (lhs.dtype == .float32 && output.dtype == .float32)
    (.invalidArgument "CPU packed MatMul supports only float32 tensors")
  require (lhs.rank == 2 && output.rank == 2)
    (.invalidArgument "CPU packed MatMul expects rank-2 tensors")
  require (lhs.extent 1 == rhs.inner)
    (.invalidArgument "CPU packed MatMul inner dimensions must match")
  require (output.extent 0 == lhs.extent 0 && output.extent 1 == rhs.columns)
    (.invalidArgument "CPU packed MatMul output shape is incorrect")
  require output.isContiguous (.invalidArgument "CPU packed MatMul output must be contiguous")

/-! ## The scalar kernels -/

/-- The store of `output.at(index)`. -/
def storeAt (output : Tensor α) (index : Nat) (value : α) (data : Nat → α) :
    Except Exn (Nat → α) := do
  require (index < output.numel) (.outOfRange "tensor index is out of range")
  .ok (Function.update data index value)

def matmulReference (lhs rhs output : Tensor α) : Except Exn (Tensor α) := do
  validateMatmul lhs rhs output
  let columns := rhs.extent 1
  let data ← (List.range (lhs.extent 0)).foldlM (fun data (row : Nat) =>
    (List.range columns).foldlM (fun data (column : Nat) => do
      let sum ← (List.range (lhs.extent 1)).foldlM (fun (sum : α) (k : Nat) => do
        .ok (sum + (← lhs.atIndices [row, k]) * (← rhs.atIndices [k, column]))) 0
      storeAt output (row * columns + column) sum data) data) output.data
  .ok (output.setData data)

def matmulStrided (lhs rhs output : Tensor α) : Except Exn (Tensor α) := do
  validateMatmul lhs rhs output
  let columns := rhs.extent 1
  .ok (output.setData (forRange 0 (lhs.extent 0) (fun row =>
    forRange 0 columns fun column data =>
      let sum := forRange 0 (lhs.extent 1) (fun k sum =>
        sum + lhs.data (row * lhs.stride 0 + k * lhs.stride 1) *
          rhs.data (k * rhs.stride 0 + column * rhs.stride 1)) 0
      Function.update data (row * columns + column) sum) output.data))

/-- `std::fill` of the elements of a tensor with zeros. -/
def fillZero (output : Tensor α) : Nat → α :=
  fun index => if index < output.numel then 0 else output.data index

/-- The loop over the blocks of a dimension. -/
def blocks {σ : Type} (size stop : Nat) (body : Nat → Nat → σ → σ) (s : σ) : σ :=
  forBlocks (2 ^ 64) size stop body stop 0 s

def matmulBlocked (lhs rhs output : Tensor α) (blockSize : MatMulBlockSize) :
    Except Exn (Tensor α) := do
  validateMatmul lhs rhs output
  blockSize.check
  let columns := rhs.extent 1
  .ok (output.setData
    (blocks blockSize.rows (lhs.extent 0) (fun rowBlock rowEnd =>
      blocks blockSize.columns columns fun columnBlock columnEnd =>
        blocks blockSize.inner (lhs.extent 1) fun innerBlock innerEnd =>
          forRange rowBlock rowEnd fun row =>
            forRange innerBlock innerEnd fun k =>
              let lhsValue := lhs.data (row * lhs.stride 0 + k * lhs.stride 1)
              forRange columnBlock columnEnd fun column data =>
                Function.update data (row * columns + column)
                  (data (row * columns + column) +
                    lhsValue * rhs.data (k * rhs.stride 0 + column * rhs.stride 1)))
      (fillZero output)))

/-! ## The vector kernel -/

/-- An instruction set: the lanes of a vector, and whether the right factor of a product
is the first operand of its instruction. -/
structure Simd where
  width : Nat
  rhsFirst : Bool
  deriving DecidableEq, Repr

namespace Simd

/-- `_mm256_fmadd_ps(lhs, rhs, accumulator)`, or its two halves -/
def avx2 : Simd := ⟨8, false⟩

/-- `_mm_mul_ps(lhs, rhs)` -/
def sse2 : Simd := ⟨4, false⟩

/-- `vfmaq_f32(accumulator, rhs, lhs)`, or `vmlaq_f32` -/
def neon : Simd := ⟨4, true⟩

/-- A build without vectors. -/
def scalar : Simd := ⟨1, false⟩

/-- The product of a lane. -/
def product (simd : Simd) (lhs rhs : α) : α := if simd.rhsFirst then rhs * lhs else lhs * rhs

end Simd

/-- A vector by its lanes. -/
abbrev Lanes (α : Type) := Nat → α

def set1 (value : α) : Lanes α := fun _ => value

def loadu (memory : Nat → α) (address : Nat) : Lanes α := fun lane => memory (address + lane)

def storeu (width : Nat) (memory : Nat → α) (address : Nat) (value : Lanes α) : Nat → α :=
  fun index => if address ≤ index ∧
  index < address + width then value (index - address) else memory index

/-- The part of `accumulate_simd_dot<true>` for the last block. -/
def GemmEpilogue.finishLanes (epilogue : GemmEpilogue α) (accumulator : Lanes α)
    (row column : Nat) :
    Lanes α :=
  let accumulator : Lanes α :=
    if epilogue.alpha ≠ 1 ∨ epilogue.relu then
      fun lane => accumulator lane * set1 epilogue.alpha lane
    else accumulator
  let accumulator : Lanes α :=
    if epilogue.layout ≠ .none then
      let bias := row * epilogue.rowStride
      let values :=
        if epilogue.columnStride = 0 then set1 (epilogue.biasData bias)
        else loadu epilogue.biasData (bias + column)
      fun lane => accumulator lane + values lane
    else accumulator
  if epilogue.relu then fun lane => if 0 < accumulator lane then accumulator lane else 0
  else accumulator

/-- `accumulate_simd_dot` with the addresses of `output_row` and `lhs_row`. -/
def accumulateSimdDot (simd : Simd) (epilogue : Option (GemmEpilogue α)) (outputRow : Nat)
    (lhs : Nat → α) (lhsRow lhsInnerStride : Nat) (packedRhs : Nat → α)
    (columns column innerBegin innerEnd row : Nat) (finalBlock : Bool) (output : Nat → α) :
    Nat → α :=
  let accumulator := forRange innerBegin innerEnd (fun k (accumulator : Lanes α) =>
    let lhsVector := set1 (lhs (lhsRow + k * lhsInnerStride))
    let rhsVector := loadu packedRhs (k * columns + column)
    fun lane => accumulator lane + simd.product (lhsVector lane) (rhsVector lane))
    (loadu output (outputRow + column))
  let accumulator := match epilogue with
    | some epilogue =>
      if finalBlock then epilogue.finishLanes accumulator row column else accumulator
    | none => accumulator
  storeu simd.width output (outputRow + column) accumulator

/-- The epilogue of `run_packed<true>` for a scalar column. -/
def finishFinal (epilogue : Option (GemmEpilogue α)) (finalBlock : Bool) (sum : α)
    (row column : Nat) : α :=
  match epilogue with
  | some epilogue => if finalBlock then epilogue.finish sum row column else sum
  | none => sum

/-- The two loops of `run_packed` over the columns of a block. -/
def packedColumns (simd : Simd) (epilogue : Option (GemmEpilogue α)) (lhs : Tensor α)
    (rhs : PackedMatMulRhs α) (columnBlock columnEnd innerBlock innerEnd row : Nat)
    (data : Nat → α) : Nat → α :=
  let lhsRow := row * lhs.stride 0
  let outputRow := row * rhs.columns
  let finalBlock := innerEnd == rhs.inner
  let tiles :=
    if simd.width > 1 then
      forTiles simd.width columnEnd (fun column =>
        accumulateSimdDot simd epilogue outputRow lhs.data lhsRow (lhs.stride 1)
          rhs.data rhs.columns
          column innerBlock innerEnd row finalBlock) (columnEnd - columnBlock) columnBlock data
    else (data, columnBlock)
  forRange tiles.2 columnEnd (fun column data =>
    let sum := forRange innerBlock innerEnd (fun k sum =>
      sum + lhs.data (lhsRow + k * lhs.stride 1) * rhs.data (k * rhs.columns + column))
      (data (outputRow + column))
    Function.update data (outputRow + column) (finishFinal epilogue finalBlock sum row column))
      tiles.1

/-- `run_packed` -/
def runPacked (simd : Simd) (epilogue : Option (GemmEpilogue α)) (lhs : Tensor α)
    (rhs : PackedMatMulRhs α) (output : Tensor α) (blockSize : MatMulBlockSize) :
    Except Exn (Tensor α) := do
  validatePackedMatmul lhs rhs output
  blockSize.check
  let rows := lhs.extent 0
  let filled := output.setData (fillZero output)
  if rows = 0 ∨ rhs.inner = 0 ∨ rhs.columns = 0 then
    match epilogue with
    | some epilogue => applyGemmEpilogue filled epilogue
    | none => .ok filled
  else
    .ok (filled.setData
      (blocks blockSize.rows rows (fun rowBlock rowEnd =>
        blocks blockSize.columns rhs.columns fun columnBlock columnEnd =>
          blocks blockSize.inner rhs.inner fun innerBlock innerEnd =>
            forRange rowBlock rowEnd fun row =>
              packedColumns simd epilogue lhs rhs columnBlock columnEnd innerBlock innerEnd row)
        filled.data))

def matmulPackedSimd (simd : Simd) (lhs : Tensor α) (rhs : PackedMatMulRhs α) (output : Tensor α)
    (blockSize : MatMulBlockSize) : Except Exn (Tensor α) :=
  runPacked simd none lhs rhs output blockSize

def matmulPackedGemm (simd : Simd) (lhs : Tensor α) (rhs : PackedMatMulRhs α) (output : Tensor α)
    (epilogue : GemmEpilogue α) (blockSize : MatMulBlockSize) : Except Exn (Tensor α) := do
  epilogue.validate output
  if epilogue.isIdentity then
    matmulPackedSimd simd lhs rhs output blockSize
  else if !epilogue.supportsFusion then
    applyGemmEpilogue (← matmulPackedSimd simd lhs rhs output blockSize) epilogue
  else runPacked simd (some epilogue) lhs rhs output blockSize

end TinyInfer.Cpu
