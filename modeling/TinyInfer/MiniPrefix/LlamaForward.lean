import TinyInfer.MiniPrefix.KvRunner

/-!
# The CPU forward pass (`backend/cpu/llama_runner.cpp`)

Scalars are uninterpreted: `Scalar F` names the operations of `float`, and the
ordered dot product of `matmul_packed_simd` for one output row is the function
`LlamaWeights.dot`. A row of a tensor is a `Row F`; code that loops over the rows
of a tensor is a `map`.

`cpuBackend` is the computation of `CpuRunner` between prepare and commit. It
reads keys and values through `offsets` from the flat arrays of `CpuMemory`, and
writes the rows of the new tokens there, layer by layer.
-/

namespace TinyInfer.MiniPrefix

open Lib KVManager

/-- The operations of `float` the runner applies. -/
class Scalar (F : Type) extends Add F, Sub F, Mul F, Div F, Neg F where
  ofNat : Nat → F
  negInf : F
  sqrt : F → F
  exp : F → F
  cos : F → F
  sin : F → F
  pow : F → F → F
  max : F → F → F
  isFinite : F → Bool

/-- `ModelConfig`, as `validate` accepts it; the fields the runner uses. -/
structure LlamaConfig (F : Type) where
  layers : Nat
  hidden : Nat
  heads : Nat
  kvHeads : Nat
  vocabulary : Nat
  context : Nat
  rmsEpsilon : F
  ropeTheta : F
  heads_pos : 0 < heads
  kvHeads_pos : 0 < kvHeads
  hidden_mod : hidden % heads = 0
  heads_mod : heads % kvHeads = 0

namespace LlamaConfig

variable {F : Type} (c : LlamaConfig F)

def headDimension : Nat := c.hidden / c.heads

def kvWidth : Nat := c.kvHeads * c.headDimension

end LlamaConfig

/-- The matrices `linear` multiplies with; a number is a layer. -/
inductive LlamaMatrix where
  | qProj (layer : Nat)
  | kProj (layer : Nat)
  | vProj (layer : Nat)
  | oProj (layer : Nat)
  | gateProj (layer : Nat)
  | upProj (layer : Nat)
  | downProj (layer : Nat)
  | lmHead
  deriving DecidableEq, Repr

/-- One row of a tensor. -/
abbrev Row (F : Type) := Nat → F

structure LlamaWeights (F : Type) where
  config : LlamaConfig F
  embedTokens : Nat → Row F
  inputLayernorm : Nat → Row F
  postAttentionLayernorm : Nat → Row F
  norm : Row F
  /-- The element of a column in the product of a row with the matrix. -/
  dot : LlamaMatrix → Row F → Nat → F

/-- `keys_` and `values_`. -/
structure CpuMemory (F : Type) where
  keys : Nat → F
  values : Nat → F

section Rows

variable {F : Type} [Scalar F]

/-- `rms`, for one row. -/
def rms (width : Nat) (eps : F) (weight x : Row F) : Row F :=
  let sum := (List.range width).foldl (fun sum d => sum + x d * x d) (Scalar.ofNat 0)
  let scale := Scalar.ofNat 1 / Scalar.sqrt (sum / Scalar.ofNat width + eps)
  fun d => x d * scale * weight d

/-- `rope`, for the row at a position. -/
def rope (heads dim position : Nat) (theta : F) (x : Row F) : Row F :=
  (List.range heads).foldl (fun x h =>
    (List.range (dim / 2)).foldl (fun x d =>
      let angle := Scalar.ofNat position /
        Scalar.pow theta (Scalar.ofNat (2 * d) / Scalar.ofNat dim)
      let cs := Scalar.cos angle
      let sn := Scalar.sin angle
      let i := h * dim + d
      let j := i + dim / 2
      let a := x i
      let b := x j
      Function.update (Function.update x i (a * cs - b * sn)) j (b * cs + a * sn)) x) x

/-- The attention of one query row over `length` positions, whose key and value
rows are `key t` and `value t`. -/
def attention (c : LlamaConfig F) (length : Nat) (key value : Nat → Row F) (q : Row F) : Row F :=
  fun e =>
    if e < c.hidden then
      let dim := c.headDimension
      let h := e / dim
      let kh := h / (c.heads / c.kvHeads)
      let scores := (List.range length).map fun t =>
        (List.range dim).foldl (fun score d => score + q (h * dim + d) * key t (kh * dim + d))
          (Scalar.ofNat 0) / Scalar.sqrt (Scalar.ofNat dim)
      let maximum := scores.foldl Scalar.max Scalar.negInf
      let exps := scores.map fun score => Scalar.exp (score - maximum)
      let denominator := exps.foldl (· + ·) (Scalar.ofNat 0)
      (exps.zipIdx).foldl (fun total score =>
        total + score.1 / denominator * value score.2 (kh * dim + e % dim)) (Scalar.ofNat 0)
    else Scalar.ofNat 0

/-- `ops::add`, for one row. -/
def addRow (x y : Row F) : Row F := fun d => x d + y d

/-- The gate of the feed-forward network, for one row. -/
def gateRow (gate up : Row F) : Row F := fun i =>
  let a := gate i
  a / (Scalar.ofNat 1 + Scalar.exp (-a)) * up i

/-! ## Memory -/

/-- `std::copy_n` from a row into an array. -/
def copyRow (array : Nat → F) (offset count : Nat) (row : Row F) : Nat → F := fun i =>
  if offset ≤ i ∧ i < offset + count then row (i - offset) else array i

/-- The callback of `copy_shared_tail`, row after row, on one array. -/
def copyRegion (region : TailCopyRegion) (array : Nat → F) : Nat → F :=
  (List.range region.rows).foldl (fun array row =>
    copyRow array (region.destination + row * region.pitch) region.width
      fun i => array (region.source + row * region.pitch + i)) array

/-- The key and value rows of the new tokens go to their offsets. -/
def writeRows (width : Nat) : List Nat → List (Row F) → List (Row F) → CpuMemory F → CpuMemory F
  | offset :: offsets, k :: ks, v :: vs, memory =>
    writeRows width offsets ks vs
      { keys := copyRow memory.keys offset width k, values := copyRow memory.values offset width v }
  | _, _, _, memory => memory

/-! ## Layers -/

variable (w : LlamaWeights F)

/-- One layer after its keys and values are written: what is left is row by row. -/
def finishLayer (l : Nat) (context x : Row F) : Row F :=
  let c := w.config
  let x := addRow x (w.dot (.oProj l) context)
  let normalized := rms c.hidden c.rmsEpsilon (w.postAttentionLayernorm l) x
  let gate := w.dot (.gateProj l) normalized
  let up := w.dot (.upProj l) normalized
  addRow x (w.dot (.downProj l) (gateRow gate up))

/-- One layer over the rows of the new tokens; `offsets` are those of the layer. -/
def layer (l used : Nat) (offsets : List Nat) (x : List (Row F)) (memory : CpuMemory F) :
    List (Row F) × CpuMemory F :=
  let c := w.config
  let dim := c.headDimension
  let normalized := x.map (rms c.hidden c.rmsEpsilon (w.inputLayernorm l))
  let q := (normalized.map (w.dot (.qProj l))).mapIdx fun row =>
    rope c.heads dim (used + row) c.ropeTheta
  let k := (normalized.map (w.dot (.kProj l))).mapIdx fun row =>
    rope c.kvHeads dim (used + row) c.ropeTheta
  let v := normalized.map (w.dot (.vProj l))
  let memory := writeRows c.kvWidth (offsets.drop used) k v memory
  let contexts := q.mapIdx fun row =>
    attention c (used + row + 1) (fun t i => memory.keys (offsets.getD t 0 + i))
      fun t i => memory.values (offsets.getD t 0 + i)
  (List.zipWith (finishLayer w l) contexts x, memory)

/-- The loop over the layers; resolving an offset may throw. -/
def layersLoop (kv : KVManager) (sequence : PagedSequence) (n : Nat) :
    List Nat → List (Row F) → CpuMemory F → Except Exn (List (Row F)) × CpuMemory F
  | [], x, memory => (.ok x, memory)
  | l :: ls, x, memory =>
    match (List.range (sequence.used + n)).mapM (kv.offset sequence l) with
    | .error e => (.error e, memory)
    | .ok offsets =>
      let (x, memory) := layer w l sequence.used offsets x memory
      layersLoop kv sequence n ls x memory

/-- The head, on the last row. -/
def logitsOf (x : Row F) : List F :=
  let normalized := rms w.config.hidden w.config.rmsEpsilon w.norm x
  (List.range w.config.vocabulary).map (w.dot .lmHead normalized)

def cpuForward (kv : KVManager) (append : KVManager.Append) (memory : CpuMemory F) :
    Except Exn (List F) × CpuMemory F :=
  let sequence := ((kv.sequences.find? append.id).getD {}).sequence
  let x := append.tokens.map fun token => w.embedTokens token.toNat
  match layersLoop w kv sequence append.tokens.length (List.range w.config.layers) x memory with
  | (.error e, memory) => (.error e, memory)
  | (.ok x, memory) =>
    let logits := logitsOf w (x.getLastD (w.embedTokens 0))
    if logits.all Scalar.isFinite then (.ok logits, memory)
    else (.error (.runtimeError "nonfinite logits"), memory)

/-- `CpuRunner`. -/
def cpuBackend : KvBackend (CpuMemory F) F where
  config := { vocabulary := w.config.vocabulary, context := w.config.context }
  copyTail region memory :=
    { keys := copyRegion region memory.keys, values := copyRegion region memory.values }
  forward := cpuForward w

/-! ## The causal forward -/

/-- The hidden state of the last token of a history after some layers: it depends
on the tokens alone. -/
def causalHidden : Nat → List TokenId → Row F
  | 0, tokens => w.embedTokens (tokens.getLastD 0).toNat
  | l + 1, tokens =>
    let c := w.config
    let normal (tokens : List TokenId) : Row F :=
      rms c.hidden c.rmsEpsilon (w.inputLayernorm l) (causalHidden l tokens)
    let q := rope c.heads c.headDimension (tokens.length - 1) c.ropeTheta
      (w.dot (.qProj l) (normal tokens))
    let key (t : Nat) : Row F := rope c.kvHeads c.headDimension t c.ropeTheta
      (w.dot (.kProj l) (normal (tokens.take (t + 1))))
    let value (t : Nat) : Row F := w.dot (.vProj l) (normal (tokens.take (t + 1)))
    finishLayer w l (attention c tokens.length key value q) (causalHidden l tokens)

/-- The key row of the last token of a history. -/
def causalKey (l : Nat) (tokens : List TokenId) : Row F :=
  rope w.config.kvHeads w.config.headDimension (tokens.length - 1) w.config.ropeTheta
    (w.dot (.kProj l) (rms w.config.hidden w.config.rmsEpsilon (w.inputLayernorm l)
      (causalHidden w l tokens)))

def causalValue (l : Nat) (tokens : List TokenId) : Row F :=
  w.dot (.vProj l) (rms w.config.hidden w.config.rmsEpsilon (w.inputLayernorm l)
    (causalHidden w l tokens))

def causalLogits (tokens : List TokenId) : List F :=
  logitsOf w (causalHidden w w.config.layers tokens)

end Rows

end TinyInfer.MiniPrefix
