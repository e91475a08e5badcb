import TinyInfer.Lib.Footprint
import TinyInfer.MiniPrefix.KvAddressing

/-!
# The index arithmetic of the runners (`llama_runner.cu`, `llama_runner.cpp`, `model.cpp`)

`cudaAppend` and `cpuAppend` are the bodies of the two `append`s between prepare and commit,
as far as their indices go: every product and sum of type `int` or `std::size_t`, every launch
count, and every element that is read or written. What is computed with the elements is left
out; so are the products of the CPU, which belong to the tensor library. An `int` that overflows
and a division by zero are `none`.
-/

namespace TinyInfer.MiniPrefix

open Lib Lib.Footprint KVManager

namespace Llama

/-- `ModelConfig`, before it is validated. The integers are `int` in the code; `validate`
rejects every negative value. -/
structure ModelConfig (F : Type) where
  layers : Nat
  hidden : Nat
  intermediate : Nat
  heads : Nat
  kvHeads : Nat
  vocabulary : Nat
  context : Nat
  eos : Nat
  rmsEpsilon : F
  ropeTheta : F

namespace ModelConfig

variable {F : Type}

def validate [Scalar F] [LE F] [DecidableLE F] (c : ModelConfig F) : Except Exn Unit :=
  if c.layers < 1 ∨ c.layers > 128 ∨ c.hidden < 2 ∨ c.hidden > 8192 ∨ c.intermediate < 1 ∨
      c.intermediate > 65536 ∨ c.heads < 1 ∨ c.kvHeads < 1 ∨ c.hidden % c.heads ≠ 0 ∨
      c.heads % c.kvHeads ≠ 0 ∨ c.hidden / c.heads % 2 ≠ 0 ∨ c.hidden / c.heads > 256 ∨
      c.vocabulary < 2 ∨ c.vocabulary > 262144 ∨ c.context < 1 ∨ c.context > 131072 ∨
      c.eos ≥ c.vocabulary ∨ ¬ Scalar.isFinite c.rmsEpsilon ∨ c.rmsEpsilon ≤ Scalar.ofNat 0 ∨
      ¬ Scalar.isFinite c.ropeTheta ∨ c.ropeTheta ≤ Scalar.ofNat 1 then
    .error (.invalidArgument "unsupported/invalid Llama configuration")
  else .ok ()

def headDimension (c : ModelConfig F) : Option Nat := Machine.div c.hidden c.heads

def kvWidth (c : ModelConfig F) : Option Nat := do Machine.int (c.kvHeads * (← c.headDimension))

/-- The shapes that `ModelWeights::load` expects. -/
def matrixShape (c : ModelConfig F) : LlamaMatrix → Nat × Nat
  | .qProj _ | .oProj _ => (c.hidden, c.hidden)
  | .kProj _ | .vProj _ => (c.hidden, c.kvHeads * (c.hidden / c.heads))
  | .gateProj _ | .upProj _ => (c.hidden, c.intermediate)
  | .downProj _ => (c.intermediate, c.hidden)
  | .lmHead => (c.hidden, c.vocabulary)

end ModelConfig

end Llama

/-! ## Buffers -/

/-- What the two runners address. -/
inductive Buffer where
  | x | norm | q | k | v | attention | projection | gate | up | logits | tokens
  | keys | values
  /-- The device table of a sequence. -/
  | table
  | embedTokens
  | inputLayernorm (layer : Nat)
  | postAttentionLayernorm (layer : Nat)
  | finalNorm
  | matrix (m : LlamaMatrix)
  /-- The 256 floats that a block of threads shares. -/
  | shared
  /-- The normalized last row, the offsets of a layer and the scores of a row on the host. -/
  | last | offsets | scores (length : Nat)
  deriving DecidableEq, Repr

abbrev Trace := Option (List (Access Buffer))

/-- `Workspace`: the bytes of its allocations. -/
structure Workspace where
  x : Nat := 0
  norm : Nat := 0
  q : Nat := 0
  k : Nat := 0
  v : Nat := 0
  attention : Nat := 0
  projection : Nat := 0
  gate : Nat := 0
  up : Nat := 0
  logits : Nat := 0
  tokens : Nat := 0
  deriving DecidableEq, Repr

/-- `Allocation::ensure`: the bytes after it. -/
def ensureBytes (bytes size : Nat) : Nat := if size ≤ bytes then bytes else size

section Sizes

variable {F : Type} (c : Llama.ModelConfig F)

def Workspace.ensure (w : Workspace) (rows : Nat) : Option Workspace := do
  let hidden ← Machine.size ((← Machine.size (rows * c.hidden)) * 4)
  let kv ← Machine.size ((← Machine.size (rows * (← c.kvWidth))) * 4)
  let ff ← Machine.size ((← Machine.size (rows * c.intermediate)) * 4)
  some {
    x := ensureBytes w.x hidden, norm := ensureBytes w.norm hidden, q := ensureBytes w.q hidden
    k := ensureBytes w.k kv, v := ensureBytes w.v kv, attention := ensureBytes w.attention hidden
    projection := ensureBytes w.projection hidden
    gate := ensureBytes w.gate ff, up := ensureBytes w.up ff
    logits := ensureBytes w.logits (← Machine.size (c.vocabulary * 4))
    tokens := ensureBytes w.tokens (← Machine.size (rows * 4)) }

/-- The elements of the weights. -/
def weightElements : Buffer → Nat
  | .embedTokens => c.vocabulary * c.hidden
  | .inputLayernorm _ | .postAttentionLayernorm _ | .finalNorm => c.hidden
  | .matrix m => (c.matrixShape m).1 * (c.matrixShape m).2
  | _ => 0

/-- The elements of the buffers on the device; `kvElements` those of `keys_` and of `values_`,
`table` the entries of the device table. -/
def cudaElements (w : Workspace) (kvElements table : Nat) : Buffer → Nat
  | .x => w.x / 4
  | .norm => w.norm / 4
  | .q => w.q / 4
  | .k => w.k / 4
  | .v => w.v / 4
  | .attention => w.attention / 4
  | .projection => w.projection / 4
  | .gate => w.gate / 4
  | .up => w.up / 4
  | .logits => w.logits / 4
  | .tokens => w.tokens / 4
  | .keys | .values => kvElements
  | .table => table
  | .shared => 256
  | buffer => weightElements c buffer

/-- The elements of the tensors and vectors of an append of `n` tokens after `used` others. -/
def cpuElements (n used kvElements : Nat) : Buffer → Nat
  | .x | .norm | .q | .attention | .projection => n * c.hidden
  | .k | .v => n * (c.kvHeads * (c.hidden / c.heads))
  | .gate | .up => n * c.intermediate
  | .last => c.hidden
  | .logits => c.vocabulary
  | .tokens => n
  | .keys | .values => kvElements
  | .offsets => used + n
  | .scores length => length
  | buffer => weightElements c buffer

end Sizes

/-- The copy of a shared tail page, in both arrays. -/
def tailTrace (kv : KVManager) (append : KVManager.Append) : Trace :=
  match append.copy with
  | none => some []
  | some copy => do
    let region ← kv.sizeTailCopyRegion copy
    forEach region.rows fun row => do
      let source ← region.sizeRow region.source row
      let destination ← region.sizeRow region.destination row
      some [⟨.keys, source, region.width⟩, ⟨.keys, destination, region.width⟩,
        ⟨.values, source, region.width⟩, ⟨.values, destination, region.width⟩]

/-- `(row*heads+head)*dim+d` -/
def headElement (heads dim row head d : Nat) : Option Nat := do
  let headrow ← Machine.int ((← Machine.int (row * heads)) + head)
  Machine.int ((← Machine.int (headrow * dim)) + d)

/-! ## The kernels -/

namespace Cuda

/-- The threads of `<<<(count+255)/256,256>>>`, each with its `i`. -/
def launch (count : Nat) (kernel : Nat → Trace) : Trace := do
  let rounded ← Machine.int (count + 255)
  forEach (rounded / 256) fun block => forEach 256 fun thread => do
    kernel (← Machine.int (block * 256 + thread))

/-- `for(int d=lane;d<width;d+=256)`; the last value of `d` ends the loop. -/
def strided (lane width : Nat) (body : Nat → Trace) : Trace :=
  forEach ((width - lane + 255) / 256 + 1) fun j => do
    let d ← Machine.int (lane + j * 256)
    if d < width then body d else some []

/-- The sum over the lanes of a block. -/
def reduce (lane : Nat) : Trace :=
  each [128, 64, 32, 16, 8, 4, 2, 1] fun step =>
    if lane < step then some [.one .shared lane, .one .shared (lane + step)] else some []

def embeddingKernel (tokens : List TokenId) (rows width i : Nat) : Trace := do
  if i < (← Machine.int (rows * width)) then
    let row ← Machine.div i width
    let first ← Machine.size ((← Machine.cast (← tokens[row]?)) * width)
    let element ← Machine.size (first + (← Machine.mod i width))
    some [.one .x i, .one .tokens row, .one .embedTokens element]
  else some []

/-- `rms_kernel`, whose pointer `x` is to element `first`. -/
def rmsKernel (first : Nat) (weight : Buffer) (width row lane : Nat) : Trace :=
  inOrder [
    strided lane width fun d => do
      some [.one .x (first + (← Machine.int ((← Machine.int (row * width)) + d)))],
    some [.one .shared lane],
    reduce lane,
    some [.one .shared 0],
    strided lane width fun d => do
      let i ← Machine.int ((← Machine.int (row * width)) + d)
      some [.one .norm i, .one .x (first + i), .one weight d]]

def ropeKernel (buffer : Buffer) (count heads dim start i : Nat) : Trace := do
  if (← Machine.int ((← Machine.int (count * heads)) * (dim / 2))) ≤ i then some []
  else
    let d ← Machine.mod i (dim / 2)
    let headrow ← Machine.div i (dim / 2)
    let _ ← Machine.int (start + (← Machine.div headrow heads))
    let _ ← Machine.int (2 * d)
    let a ← Machine.int ((← Machine.int (headrow * dim)) + d)
    some [.one buffer a, .one buffer (← Machine.int (a + dim / 2))]

/-- `(std::size_t(table[token/block_tokens])*layers+layer)*block_tokens+token%block_tokens` -/
def slotRow (table : List Nat) (layer layers blockTokens token : Nat) : Option Nat := do
  let pages ← Machine.size ((← table[← Machine.div token blockTokens]?) * layers)
  let slots ← Machine.size ((← Machine.size (pages + layer)) * blockTokens)
  Machine.size (slots + (← Machine.mod token blockTokens))

def appendKernel (table : List Nat) (n width start layer layers blockTokens i : Nat) : Trace := do
  if i < (← Machine.int (n * width)) then
    let token ← Machine.int (start + (← Machine.div i width))
    let row ← slotRow table layer layers blockTokens token
    let offset ← Machine.size ((← Machine.size (row * width)) + (← Machine.mod i width))
    some [.one .table (token / blockTokens), .one .keys offset, .one .values offset, .one .k i,
      .one .v i]
  else some []

def attentionKernel (table : List Nat) (heads kvHeads dim start layer layers blockTokens : Nat)
    (row head lane : Nat) : Trace := do
  let kh ← Machine.div head (← Machine.div heads kvHeads)
  let length ← Machine.int ((← Machine.int (start + row)) + 1)
  let own (buffer : Buffer) : Trace :=
    if lane < dim then do some [.one buffer (← headElement heads dim row head lane)] else some []
  inOrder [
    own .q,
    forEach length fun t => do
      let slot ← slotRow table layer layers blockTokens t
      let group ← Machine.size ((← Machine.size (slot * kvHeads)) + kh)
      let offset ← Machine.size (group * dim)
      let cached (buffer : Buffer) : Trace :=
        if lane < dim then do some [.one buffer (← Machine.size (offset + lane))] else some []
      inOrder [
        some [.one .table (t / blockTokens)],
        cached .keys,
        some [.one .shared lane],
        reduce lane,
        some [.one .shared 0],
        cached .values],
    own .attention]

def addKernel (count i : Nat) : Trace :=
  if i < count then some [.one .x i, .one .projection i] else some []

def swigluKernel (count i : Nat) : Trace :=
  if i < count then some [.one .gate i, .one .up i] else some []

/-- `linear`: the matrices that `cublasSgemm` is given. -/
def linear (input : Buffer) (m : LlamaMatrix) (out : Buffer) (rows inner columns : Nat) : Trace :=
  some [⟨input, 0, rows * inner⟩, ⟨.matrix m, 0, inner * columns⟩, ⟨out, 0, rows * columns⟩]

/-! ## The append of the CUDA runner -/

section Append

variable {F : Type} (c : Llama.ModelConfig F)

/-- `rms_kernel<<<rows,256>>>` -/
def rms (first : Nat) (weight : Buffer) (rows : Nat) : Trace :=
  forEach rows fun row => forEach 256 fun lane => rmsKernel first weight c.hidden row lane

def add (n : Nat) : Trace := do
  let count ← Machine.int (n * c.hidden)
  launch count (addKernel count)

def swiglu (n : Nat) : Trace := do
  let count ← Machine.int (n * c.intermediate)
  launch count (swigluKernel count)

def embedding (tokens : List TokenId) (n : Nat) : Trace := do
  launch (← Machine.int (n * c.hidden)) (embeddingKernel tokens n c.hidden)

/-- The two launches of `rope_kernel`. -/
def rope (n used : Nat) : Trace := do
  let dim ← c.headDimension
  let elements ← Machine.int ((← Machine.int (n * c.heads)) * dim)
  let kvElements ← Machine.int (n * (← c.kvWidth))
  inOrder [
    launch (elements / 2) (ropeKernel .q n c.heads dim used),
    launch (kvElements / 2) (ropeKernel .k n c.kvHeads dim used)]

def store (table : List Nat) (blockTokens n used l : Nat) : Trace := do
  let width ← c.kvWidth
  launch (← Machine.int (n * width)) (appendKernel table n width used l c.layers blockTokens)

def attention (table : List Nat) (blockTokens n used l : Nat) : Trace := do
  let dim ← c.headDimension
  forEach n fun row => forEach c.heads fun head => forEach 256 fun lane =>
    attentionKernel table c.heads c.kvHeads dim used l c.layers blockTokens row head lane

/-- The products of a layer that write keys and values. -/
def kvLinear (n l : Nat) : Trace := do
  let width ← c.kvWidth
  inOrder [linear .norm (.kProj l) .k n c.hidden width, linear .norm (.vProj l) .v n c.hidden width]

/-- One layer. -/
def layer (table : List Nat) (blockTokens n used l : Nat) : Trace :=
  inOrder [
    rms c 0 (.inputLayernorm l) n,
    linear .norm (.qProj l) .q n c.hidden c.hidden,
    kvLinear c n l,
    rope c n used,
    store c table blockTokens n used l,
    attention c table blockTokens n used l,
    linear .attention (.oProj l) .projection n c.hidden c.hidden,
    add c n,
    rms c 0 (.postAttentionLayernorm l) n,
    linear .norm (.gateProj l) .gate n c.hidden c.intermediate,
    linear .norm (.upProj l) .up n c.hidden c.intermediate,
    swiglu c n,
    linear .gate (.downProj l) .projection n c.intermediate c.hidden,
    add c n]

/-- The norm of the last row, the product with the head, and the download. -/
def head (n : Nat) : Trace := do
  let first ← Machine.size ((n - 1) * c.hidden)
  inOrder [
    rms c first .finalNorm 1,
    linear .norm .lmHead .logits 1 c.hidden c.vocabulary,
    some [⟨.logits, 0, c.vocabulary⟩]]

/-- The upload of the entries of the block table from `first` on. -/
def uploadTrace (blocks : List Nat) (first : Nat) : Trace :=
  if blocks.length ≠ first then some [⟨.table, first, blocks.length - first⟩] else some []

/-- `CudaRunner::append`, once the transaction is prepared. `table` is the device table after
the upload of its entries. -/
def append (kv : KVManager) (append : KVManager.Append) (dirty : Bool) (table : List Nat) : Trace :=
  do
  let sequence := ((kv.sequences.find? append.id).getD {}).sequence
  let n ← Machine.int append.tokens.length
  let first :=
    if dirty then 0
    else if append.copy.isSome then append.originalBlocks - 1
    else append.originalBlocks
  inOrder [
    tailTrace kv append,
    uploadTrace sequence.blocks first,
    some [⟨.tokens, 0, n⟩],
    embedding c append.tokens n,
    forEach c.layers (layer c table kv.config.blockTokens n sequence.used),
    head c n]

end Append

end Cuda

/-! ## The append of the CPU runner -/

namespace Cpu

/-- `rms` of `rows` rows of `x`, from element `first` on. -/
def rms (first : Nat) (weight out : Buffer) (width rows : Nat) : Trace :=
  forEach rows fun r => forEach width fun d => do
    let i ← Machine.int64 ((← Machine.int64 (r * width)) + d)
    some [.one .x (first + i), .one weight d, .one out i]

def rope (buffer : Buffer) (rows heads dim start : Nat) : Trace :=
  forEach rows fun row => forEach heads fun h => forEach (dim / 2) fun d => do
    let _ ← Machine.int (start + row)
    let _ ← Machine.int (2 * d)
    let i ← headElement heads dim row h d
    some [.one buffer i, .one buffer (← Machine.int (i + dim / 2))]

section Append

variable {F : Type} (c : Llama.ModelConfig F)

/-- The rows of the embeddings, copied into `x`. -/
def embedding (tokens : List TokenId) (n : Nat) : Trace :=
  forEach n fun row => do
    let source ← Machine.size ((← Machine.cast (← tokens[row]?)) * c.hidden)
    some [⟨.embedTokens, source, c.hidden⟩, ⟨.x, ← Machine.int (row * c.hidden), c.hidden⟩]

/-- `kv_.offset(s,l,t)` -/
def offset (kv : KVManager) (blocks : List Nat) (l t : Nat) : Option Nat := do
  let block ← blocks[← Machine.div t kv.config.blockTokens]?
  kv.pool.sizeOffset kv.layers kv.width block l (← Machine.mod t kv.config.blockTokens)

/-- `std::vector<std::size_t> offsets(s.used+n)` and the loop that fills it. -/
def offsets (kv : KVManager) (blocks : List Nat) (n used l : Nat) : Trace := do
  forEach (← Machine.int (used + n)) fun t => do
    let _ ← offset kv blocks l t
    some [.one .offsets t]

/-- The keys and values of the new tokens, copied into their pages. -/
def store (kv : KVManager) (blocks : List Nat) (n used l : Nat) : Trace := do
  let width ← c.kvWidth
  forEach n fun row => do
    let t ← Machine.int (used + row)
    let offset ← offset kv blocks l t
    let first ← Machine.int (row * width)
    some [.one .offsets t, ⟨.k, first, width⟩, ⟨.keys, offset, width⟩, ⟨.v, first, width⟩,
      ⟨.values, offset, width⟩]

/-- The attention of one head of a row. -/
def attentionHead (kv : KVManager) (blocks : List Nat) (used l dim row h : Nat) : Trace := do
  let length ← Machine.int ((← Machine.int (used + row)) + 1)
  let kh ← Machine.div h (← Machine.div c.heads c.kvHeads)
  let group ← Machine.int (kh * dim)
  inOrder [
    forEach length fun t => do
      let offset ← Machine.size ((← offset kv blocks l t) + group)
      inOrder [
        some [.one .offsets t, .one (.scores length) t],
        forEach dim fun d => do
          some [.one .q (← headElement c.heads dim row h d),
            .one .keys (← Machine.size (offset + d))]],
    forEach dim fun d => do
      let i ← headElement c.heads dim row h d
      inOrder [
        forEach length fun t => do
          let offset ← Machine.size ((← offset kv blocks l t) + group)
          some [.one .offsets t, .one (.scores length) t,
            .one .values (← Machine.size (offset + d))],
        some [.one .attention i]]]

def attention (kv : KVManager) (blocks : List Nat) (n used l : Nat) : Trace := do
  let dim ← c.headDimension
  forEach n fun row => forEach c.heads fun h => attentionHead c kv blocks used l dim row h

/-- The two calls of `rope`. -/
def ropes (n used : Nat) : Trace := do
  let dim ← c.headDimension
  inOrder [rope .q n c.heads dim used, rope .k n c.kvHeads dim used]

/-- The loop over the elements of the gate. -/
def swiglu (n : Nat) : Trace :=
  forEach (n * c.intermediate) fun i => some [.one .gate i, .one .up i]

def layer (kv : KVManager) (blocks : List Nat) (n used l : Nat) : Trace :=
  inOrder [
    offsets kv blocks n used l,
    rms 0 (.inputLayernorm l) .norm c.hidden n,
    ropes c n used,
    store c kv blocks n used l,
    attention c kv blocks n used l,
    rms 0 (.postAttentionLayernorm l) .norm c.hidden n,
    swiglu c n]

/-- `CpuRunner::append`, once the transaction is prepared. The last row is `x.narrow(0,n-1,1)`. -/
def append (kv : KVManager) (append : KVManager.Append) : Trace := do
  let sequence := ((kv.sequences.find? append.id).getD {}).sequence
  let n ← Machine.int append.tokens.length
  inOrder [
    tailTrace kv append,
    embedding c append.tokens n,
    forEach c.layers (layer c kv sequence.blocks n sequence.used),
    rms ((n - 1) * c.hidden) .finalNorm .last c.hidden 1,
    some [⟨.logits, 0, c.vocabulary⟩]]

end Append

end Cpu

end TinyInfer.MiniPrefix
