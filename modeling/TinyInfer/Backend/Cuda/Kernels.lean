import TinyInfer.Backend.Cuda.OperatorContract

/-!
# The kernels of the CUDA backend (`backend/cuda/kernels.cu`, `cuda_runtime.cpp`)

`setup` prepares the parameters of a kernel as `CudaDeviceRuntime::execute` does, and `launch`
runs its threads. Of a thread only the elements that it reads and writes are modelled
(`Accesses`). An `int` that overflows, a division by zero and an index outside of an array of
`Params` are `none`.
-/

namespace TinyInfer.Backend.Cuda

inductive Kernel where
  | add
  | relu
  | tanh
  | softmax
  | epilogue
  deriving DecidableEq, Repr

/-- The three arrays have four entries. -/
structure Params where
  count : Nat := 0
  rank : Nat := 0
  dims : List Nat := [0, 0, 0, 0]
  aStrides : List Nat := [0, 0, 0, 0]
  bStrides : List Nat := [0, 0, 0, 0]
  columns : Nat := 0
  biasRows : Nat := 1
  biasColumns : Nat := 1
  inner : Nat := 1
  axisSize : Nat := 1
  groups : Nat := 0
  zeroK : Bool := false
  hasBias : Bool := false
  relu : Bool := false
  alpha : FloatBits := FloatBits.one
  beta : FloatBits := FloatBits.one
  deriving DecidableEq, Repr

/-! ## The parameters -/

/-- An array of four entries that starts with `values`. -/
def array4 (values : List Nat) : Option (List Nat) :=
  if values.length ≤ 4 then some (values ++ List.replicate (4 - values.length) 0) else none

/-- The strides of a view. Where a query leaves them out, the runtime has yet to check that
they are contiguous. -/
def viewStrides (value : TensorDescriptor) : Strides :=
  value.strides.getD (TensorLayout.contiguousStrides value.spec.shape)

/-- The stride of an operand along one of its dimensions, as `broadcast` sets it. -/
def broadcastStride (dimension : Int × Int) : Option Nat :=
  if dimension.1 ≠ 1 then Machine.cast dimension.2 else some 0

/-- `broadcast`, for an output of `rank` dimensions. -/
def broadcast (rank : Nat) (view : TensorDescriptor) : Option (List Nat) := do
  let strides ← (view.spec.shape.zip (viewStrides view)).mapM broadcastStride
  array4 (List.replicate (rank - view.spec.shape.length) 0 ++ strides)

/-- The parameters of every kernel. -/
def baseParams (shape : Shape) : Option Params := do
  some {
    count := ← Machine.cast (Shape.count shape)
    rank := shape.length
    dims := ← array4 (← shape.mapM Machine.cast) }

def epilogueParams (p : Params) (d : GemmDescriptor) : Option Params := do
  some { p with
    columns := ← Machine.cast d.columns
    biasRows := ← Machine.cast d.biasRows
    biasColumns := ← Machine.cast d.biasColumns
    zeroK := d.work == .zeroK, hasBias := d.hasBias, relu := d.relu
    alpha := d.epilogueAlpha, beta := d.epilogueBeta }

def softmaxParams (p : Params) (attributes : NodeAttributes) : Option Params := do
  let axis := integerAttribute attributes "axis" (-1)
  let axis := if axis < 0 then axis + p.rank else axis
  if axis < 0 then none
  else
    let axisSize ← p.dims[axis.toNat]?
    let inner ← ((p.dims.take p.rank).drop (axis.toNat + 1)).foldlM
      (fun inner extent => Machine.int (inner * extent)) p.inner
    some { p with axisSize, inner, groups := ← Machine.div p.count axisSize }

/-- What `execute` prepares for a query with one output. -/
def setup (query : CapabilityQuery) : Option (Kernel × Params) := do
  match query.outputs with
  | [output] =>
    let p ← baseParams output.spec.shape
    if isMatrix query.node.op then
      match makeGemmDescriptor query with
      | .ok d => some (.epilogue, ← epilogueParams p d)
      | .error _ => none
    else
      match query.node.op, query.inputs with
      | .add, lhs :: rhs :: _ =>
        some (.add,
          { p with aStrides := ← broadcast p.rank lhs, bStrides := ← broadcast p.rank rhs })
      | .reLU, _ => some (.relu, p)
      | .tanh, _ => some (.tanh, p)
      | _, _ => some (.softmax, ← softmaxParams p query.node.attributes)
  | _ => none

/-! ## The threads -/

/-- The elements that a thread reads of each operand, and those that it writes. -/
structure Accesses where
  a : List Nat := []
  b : List Nat := []
  bias : List Nat := []
  output : List Nat := []
  writes : List Nat := []
  deriving DecidableEq, Repr

/-- The loop over the dimensions, innermost first: `ai` and `bi` at its end. -/
def addIndices (p : Params) : Nat → Nat → Nat → Nat → Option (Nat × Nat)
  | 0, _, ai, bi => some (ai, bi)
  | d + 1, remaining, ai, bi => do
    let coordinate ← Machine.mod remaining (← p.dims[d]?)
    let remaining ← Machine.div remaining (← p.dims[d]?)
    let ai ← Machine.int (ai + (← Machine.int (coordinate * (← p.aStrides[d]?))))
    let bi ← Machine.int (bi + (← Machine.int (coordinate * (← p.bStrides[d]?))))
    addIndices p d remaining ai bi

def biasIndex (p : Params) (i : Nat) : Option Nat := do
  let row ← Machine.div (← Machine.int i) p.columns
  let col ← Machine.mod (← Machine.int i) p.columns
  let first ← Machine.int ((if p.biasRows = 1 then 0 else row) * p.biasColumns)
  Machine.int (first + if p.biasColumns = 1 then 0 else col)

/-- Thread `i` of `elementwise`. -/
def elementwise (kind : Kernel) (p : Params) (i : Nat) : Option Accesses :=
  match kind with
  | .add => do
    let (ai, bi) ← addIndices p p.rank (← Machine.int i) 0 0
    some { a := [ai], b := [bi], writes := [i] }
  | .relu | .tanh => some { a := [i], writes := [i] }
  | _ => do
    let output := if p.zeroK then [] else [i]
    if p.hasBias then some { bias := [← biasIndex p i], output, writes := [i] }
    else some { output, writes := [i] }

/-- `base` of a group. -/
def softmaxBase (p : Params) (group : Nat) : Option Nat := do
  let group ← Machine.int group
  let outer ← Machine.int ((← Machine.div group p.inner) * p.axisSize)
  Machine.int ((← Machine.int (outer * p.inner)) + (← Machine.mod group p.inner))

/-- `base + j * p.inner` for each `j`. -/
def softmaxMembers (p : Params) (base : Nat) : Option (List Nat) :=
  (List.range p.axisSize).mapM fun j => do Machine.int (base + (← Machine.int (j * p.inner)))

/-- Thread `group` of `softmax`, with one round over the members for each of its loops. -/
def softmax (p : Params) (group : Nat) : Option Accesses := do
  let members ← softmaxMembers p (← softmaxBase p group)
  some { a := members ++ members ++ members, writes := members }

/-- The threads of a launch that are not beyond `count`. -/
def threads (count : Nat) : List Nat :=
  ((List.range ((count + 255) % 2 ^ 32 / 256)).flatMap fun block =>
    (List.range 256).map (block * 256 + ·)).filter (· < count)

def launch (kind : Kernel) (p : Params) : Option (List Accesses) :=
  if kind = .softmax then (threads p.groups).mapM (softmax p)
  else (threads p.count).mapM (elementwise kind p)

end TinyInfer.Backend.Cuda
