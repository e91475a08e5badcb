import TinyInfer.Core.Tensor
import TinyInfer.Lib.ByteReader
import TinyInfer.Lib.OrdMap
import Mathlib.Data.String.Basic

/-!
# The native model format (`miniprefix/src/model/model.cpp`, `tools/prepare_model.py`)

`load` reads a configuration and the tensors that it requires from the bytes of a file, and
`encode` is what `export_model` writes. The integers of a configuration are `int`, its
floats are their bits.

Main definitions: `ModelConfig`, `validate`, `expected`, `load`, `encode`.
-/

namespace TinyInfer.MiniPrefix.ModelFile

open Lib (Fault Reader ByteReader OrdMap)
open Lib.ByteReader (view demand lift times)
open Lib.Wire (Bytes littleEndian toLittleEndian text ofText)

structure ModelConfig where
  layers : Int := 0
  hidden : Int := 0
  intermediate : Int := 0
  heads : Int := 0
  kvHeads : Int := 0
  vocabulary : Int := 0
  context : Int := 0
  eos : Int := 0
  rmsEpsilon : FloatBits := 0
  ropeTheta : FloatBits := 0
  tied : Bool := true
  deriving DecidableEq, Repr

/-- `x <= 0` for a finite `x`: the sign is set, or it is a zero. -/
def nonpositive (x : FloatBits) : Bool := x.msb || x == 0

/-- `x <= 1` for a finite `x`: without a sign, floats are in the order of their bits. -/
def atMostOne (x : FloatBits) : Bool := x.msb || x.toNat ≤ FloatBits.one.toNat

namespace ModelConfig

variable (c : ModelConfig)

def headDimension : Int := c.hidden.tdiv c.heads

def kvWidth : Int := c.kvHeads * c.headDimension

def validate : Except Exn Unit :=
  if c.layers < 1 ∨ c.layers > 128 ∨ c.hidden < 2 ∨ c.hidden > 8192 ∨ c.intermediate < 1 ∨
      c.intermediate > 65536 ∨ c.heads < 1 ∨ c.kvHeads < 1 ∨ c.hidden.tmod c.heads ≠ 0 ∨
      c.heads.tmod c.kvHeads ≠ 0 ∨ (c.hidden.tdiv c.heads).tmod 2 ≠ 0 ∨
      c.hidden.tdiv c.heads > 256 ∨
      c.vocabulary < 2 ∨ c.vocabulary > 262144 ∨ c.context < 1 ∨ c.context > 131072 ∨
      c.eos < 0 ∨ c.eos ≥ c.vocabulary ∨ c.rmsEpsilon.isFinite = false ∨
      nonpositive c.rmsEpsilon = true ∨
      c.ropeTheta.isFinite = false ∨ atMostOne c.ropeTheta = true then
    .error (.invalidArgument "unsupported/invalid Llama configuration")
  else .ok ()

/-- The tensors of a layer, with their shapes. -/
def layerShapes (layer : Nat) : List (String × Shape) :=
  let p := "model.layers." ++ toString layer ++ "."
  [(p ++ "input_layernorm.weight", [c.hidden]),
    (p ++ "post_attention_layernorm.weight", [c.hidden]),
    (p ++ "self_attn.q_proj.weight", [c.hidden, c.hidden]),
    (p ++ "self_attn.k_proj.weight", [c.hidden, c.kvWidth]),
    (p ++ "self_attn.v_proj.weight", [c.hidden, c.kvWidth]),
    (p ++ "self_attn.o_proj.weight", [c.hidden, c.hidden]),
    (p ++ "mlp.gate_proj.weight", [c.hidden, c.intermediate]),
    (p ++ "mlp.up_proj.weight", [c.hidden, c.intermediate]),
    (p ++ "mlp.down_proj.weight", [c.intermediate, c.hidden])]

/-- All tensors with their shapes, in the order of the assignments to `expected`. -/
def shapes : List (String × Shape) :=
  [("model.embed_tokens.weight", [c.vocabulary, c.hidden]), ("model.norm.weight", [c.hidden])] ++
    (if c.tied then [] else [("lm_head.weight", [c.hidden, c.vocabulary])]) ++
    (List.range c.layers.toNat).flatMap c.layerShapes

/-- The map `expected` -/
def expected : OrdMap String Shape := c.shapes.foldl (fun m e => m.insert e.1 e.2) .empty

end ModelConfig

structure ModelWeights where
  config : ModelConfig
  tensors : OrdMap String (Tensor FloatBits)

/-! ## Reading -/

/-- `throw std::runtime_error` -/
def fail {α : Type} (what : String) : Reader Exn α := ByteReader.throw (.runtimeError what)

/-- `file.read`, which fails if so many bytes are not left. -/
def readBytes (size : Nat) (what : String) : Reader Exn Bytes := do
  demand size (.runtimeError what)
  view size

/-- `read<T>` of an unsigned type -/
def readUnsigned (size : Nat) : Reader Exn Nat := do
  let bs ← readBytes size "truncated model"
  pure (littleEndian bs)

/-- `read<std::int32_t>` -/
def readInt32 : Reader Exn Int := do
  let n ← readUnsigned 4
  pure (BitVec.ofNat 32 n).toInt

/-- `read<float>` -/
def readFloat : Reader Exn FloatBits := do
  let n ← readUnsigned 4
  pure (BitVec.ofNat 32 n)

/-- An exception of another part of the library. -/
def ofExcept {α : Type} : Except Exn α → Except (Fault Exn) α
  | .ok a => .ok a
  | .error e => .error (.throws e)

def readConfig : Reader Exn ModelConfig := do
  let layers ← readInt32
  let hidden ← readInt32
  let intermediate ← readInt32
  let heads ← readInt32
  let kvHeads ← readInt32
  let vocabulary ← readInt32
  let context ← readInt32
  let eos ← readInt32
  let rmsEpsilon ← readFloat
  let ropeTheta ← readFloat
  let tied ← readUnsigned 4
  if tied > 1 then fail "invalid tied flag" else do
  let c : ModelConfig :=
    { layers, hidden, intermediate, heads, kvHeads, vocabulary, context, eos, rmsEpsilon, ropeTheta,
      tied := tied != 0 }
  lift (ofExcept (c.validate.map fun _ => c))

/-- The loop over the dimensions of a tensor, whose product is of type `std::uint64_t`. -/
def readDims (name : String) : Shape → Shape → Nat → Reader Exn (Shape × Nat)
  | [], shape, elements => pure (shape, elements)
  | d :: dims, shape, elements => do
    let dim ← readInt32
    if dim ≠ d then fail ("tensor shape mismatch: " ++ name)
    else readDims name dims (shape ++ [dim]) (elements * (BitVec.ofInt 64 dim).toNat % 2 ^ 64)

/-- `tinyinfer::Tensor tensor(shape)` -/
def zeros (shape : Shape) : Except Exn (Tensor FloatBits) := do
  let layout ← TensorLayout.ofShape shape
  if hbytes_le : layout.numel * DataType.float32.size ≤ sizeMax then
    .ok { layout, dtype := .float32, data := fun _ => 0, bytes_le := hbytes_le }
  else .error (.overflowError "tensor byte size overflows size_t")

/-- The floats in these bytes. -/
def floatsOf : Bytes → List FloatBits
  | b₀ :: b₁ :: b₂ :: b₃ :: bs => BitVec.ofNat 32 (littleEndian [b₀, b₁, b₂, b₃]) :: floatsOf bs
  | _ => []

/-- What a tensor is after its data is read. -/
def fill (tensor : Tensor FloatBits) (content : Bytes) : Tensor FloatBits :=
  tensor.setData fun i => (floatsOf content).getD i 0

/-- A round of the loop over the tensors. -/
def readTensor (expected : OrdMap String Shape) (tensors : OrdMap String (Tensor FloatBits)) :
    Reader Exn (OrdMap String (Tensor FloatBits)) := do
  let length ← readUnsigned 4
  if length < 1 ∨ length > 256 then fail "invalid tensor name" else do
  let content ← readBytes length "truncated name"
  let name := text content
  match expected.find? name with
  | none => fail ("unknown/duplicate tensor: " ++ name)
  | some dims =>
    if tensors.contains name then fail ("unknown/duplicate tensor: " ++ name) else do
    let rank ← readUnsigned 4
    if rank ≠ dims.length then fail "tensor rank mismatch" else do
    let (shape, elements) ← readDims name dims [] 1
    let bytes ← readUnsigned 8
    if bytes ≠ elements * 4 % 2 ^ 64 then fail "invalid tensor bytes" else do
    -- `offset > file_bytes || bytes > file_bytes - offset`
    demand bytes (.runtimeError "invalid tensor bytes")
    let tensor ← lift (ofExcept (zeros shape))
    let data ← readBytes bytes "truncated tensor"
    let tensor := fill tensor data
    if (List.range tensor.numel).all (fun j => (tensor.logicalElement j).isFinite) = false then
      fail "nonfinite weights"
    else pure (tensors.insert name tensor)

/-- The bytes of `MPFX0001`. -/
def magic : Bytes := [77, 80, 70, 88, 48, 48, 48, 49]

def readModel : Reader Exn ModelWeights := do
  let start ← readBytes 8 "invalid model format"
  if start ≠ magic then fail "invalid model format" else do
  let config ← readConfig
  let count ← readUnsigned 4
  if count ≠ config.expected.size then fail "model tensor count mismatch" else do
  let tensors ← times (readTensor config.expected) count .empty
  pure { config, tensors }

/-- `ModelWeights::load`, where `file` are the bytes at `path`, if it can be opened. -/
def load (path : String) (file : Option Bytes) : Except (Fault Exn) ModelWeights :=
  match file with
  | none => .error (.throws (.runtimeError ("cannot open model: " ++ path)))
  | some bytes => do
    let (model, r) ← readModel { bytes }
    if r.current ≠ bytes.length then .error (.throws (.runtimeError "trailing model data"))
      else .ok model

/-! ## Writing -/

/-- A tensor of `export_model`: its values in row-major order. -/
structure NativeTensor where
  name : String
  shape : Shape
  values : List FloatBits
  deriving DecidableEq, Repr

/-- `struct.pack("<i", x)` -/
def packInt32 (x : Int) : Bytes := toLittleEndian 4 (BitVec.ofInt 32 x).toNat

def packFloat (x : FloatBits) : Bytes := toLittleEndian 4 x.toNat

def encodeTensor (t : NativeTensor) : Bytes :=
  toLittleEndian 4 (ofText t.name).length ++ ofText t.name ++ toLittleEndian 4 t.shape.length ++
    t.shape.flatMap packInt32 ++ toLittleEndian 8 (4 * t.values.length) ++
      t.values.flatMap packFloat

def encodeConfig (c : ModelConfig) : Bytes :=
  [c.layers, c.hidden, c.intermediate, c.heads, c.kvHeads, c.vocabulary, c.context,
    c.eos].flatMap packInt32 ++
    packFloat c.rmsEpsilon ++ packFloat c.ropeTheta ++ toLittleEndian 4 c.tied.toNat

def encode (c : ModelConfig) (tensors : List NativeTensor) : Bytes :=
  magic ++ encodeConfig c ++ toLittleEndian 4 tensors.length ++ tensors.flatMap encodeTensor

end TinyInfer.MiniPrefix.ModelFile
