import TinyInfer.Onnx.WireReader

/-!
# The protobuf parser (`model/onnx/protobuf_model_parser.cpp`)

Each message type has a loop over its records with a switch over the field number, which
`message` is; the switches are `tensorField`, `nodeField` and so on. A `std::string` is
the string of its bytes, `text`.

An element of a tensor is its bits, with zeros above those of a narrower type.

Main definitions: `parseTensor`, `decodeTensor`, `parseAttribute`, `parseModel`,
`decodeTensorProto`.
-/

namespace TinyInfer.Onnx

open Lib (Fault ByteReader)
open Lib.ByteReader (lift parse)
open Lib.Wire (Bytes text)
open WireReader (key varint fixed32 bytes skip)

abbrev ElementBits := BitVec 32

def invalidResult {α : Type} (what : String) : Parsed α := .error (.throws (invalidArgument what))

/-- An exception of another part of the library. -/
def ofExcept {α : Type} : Except Exn α → Parsed α
  | .ok a => .ok a
  | .error e => .error (.throws (.exn e))

/-- `*value` -/
def dereference {α : Type} : Option α → Parsed α
  | some a => .ok a
  | none => .error (.throws .emptyOptional)

/-- The loop over the records of a message. -/
def message {σ : Type} (switch : σ → Nat → Nat → WireRead σ) (s : σ) (content : Bytes) : Parsed σ :=
  parse (fun s => do
    let (field, wire) ← key
    switch s field wire) s content

/-- `read_packed_varints`, `read_packed_int32` and `read_packed_floats`: they append what
`read` reads. -/
def readPacked {α : Type} (read : WireRead α) (output : List α) (content : Bytes) :
    Parsed (List α) :=
  parse (fun output => do
    let a ← read
    pure (output ++ [a])) output content

/-- The cases of a repeated number, for itself or packed, which a conversion follows. -/
def repeatedVarint (convert : Nat → Int) (name : String) (output : List Int) (wire : Nat) :
    WireRead (List Int) :=
  if wire = 0 then do
    let n ← varint
    pure (output ++ [convert n])
  else if wire = 2 then do
    let packed ← bytes
    lift (readPacked (do
      let n ← varint
      pure (convert n)) output packed)
  else do
    requireWire wire 0 name
    pure output

def repeatedFloat (name : String) (output : List FloatBits) (wire : Nat) :
    WireRead (List FloatBits) :=
  if wire = 5 then do
    let n ← fixed32
    pure (output ++ [floatFromBits n])
  else if wire = 2 then do
    let packed ← bytes
    lift (readPacked (do
      let n ← fixed32
      pure (floatFromBits n)) output packed)
  else do
    requireWire wire 5 name
    pure output

/-! ## Tensors -/

/-- `data_type` -/
def dataType (value : Int) : Parsed DataType :=
  if value = 1 then .ok .float32
  else if value = 3 then .ok .int8
  else if value = 6 then .ok .int32
  else if value = 10 then .ok .float16
  else invalidResult "unsupported ONNX TensorProto data type"

structure ParsedTensor where
  shape : Shape := []
  dataType : Int := 0
  name : String := ""
  rawData : Bytes := []
  floatData : List FloatBits := []
  int32Data : List Int := []
  external : Bool := false
  deriving DecidableEq

def tensorField (tensor : ParsedTensor) (field wire : Nat) : WireRead ParsedTensor :=
  match field with
  | 1 => do
    let shape ← repeatedVarint signedVarint "TensorProto.dims" tensor.shape wire
    pure { tensor with shape }
  | 2 => do
    requireWire wire 0 "TensorProto.data_type"
    let n ← varint
    pure { tensor with dataType := signed32 n }
  | 4 => do
    let floatData ← repeatedFloat "TensorProto.float_data" tensor.floatData wire
    pure { tensor with floatData }
  | 5 => do
    let int32Data ← repeatedVarint signed32 "TensorProto.int32_data" tensor.int32Data wire
    pure { tensor with int32Data }
  | 8 => do
    requireWire wire 2 "TensorProto.name"
    let content ← bytes
    pure { tensor with name := text content }
  | 9 => do
    requireWire wire 2 "TensorProto.raw_data"
    let content ← bytes
    pure { tensor with rawData := content }
  | 13 => do
    requireWire wire 2 "TensorProto.external_data"
    let _ ← bytes
    pure { tensor with external := true }
  | 14 => do
    requireWire wire 0 "TensorProto.data_location"
    let n ← varint
    pure { tensor with external := n != 0 }
  | _ => do
    skip wire
    pure tensor

def parseTensor (content : Bytes) : Parsed ParsedTensor := message tensorField {} content

/-- `bytes[index]` of the raw data -/
def rawByte (raw : Bytes) (index : Nat) : Parsed UInt8 :=
  match raw[index]? with
  | some b => .ok b
  | none => .error .outside

/-- An element of the raw data. -/
def rawElement (dtype : DataType) (raw : Bytes) (i : Nat) : Parsed ElementBits :=
  match dtype with
  | .float32 | .int32 => do
    let b₀ ← rawByte raw (i * 4)
    let b₁ ← rawByte raw (i * 4 + 1)
    let b₂ ← rawByte raw (i * 4 + 2)
    let b₃ ← rawByte raw (i * 4 + 3)
    .ok (word32 b₀ b₁ b₂ b₃)
  | .float16 => do
    let b₀ ← rawByte raw (i * 2)
    let b₁ ← rawByte raw (i * 2 + 1)
    .ok ((b₀.toBitVec.setWidth 16 ||| (b₁.toBitVec.setWidth 16 <<< 8)).setWidth 32)
  | .int8 => do
    let b ← rawByte raw i
    .ok (b.toBitVec.setWidth 32)

/-- An element of `int32_data`. -/
def typedElement (dtype : DataType) (value : Int) : Parsed ElementBits :=
  match dtype with
  | .float16 =>
    if value < 0 ∨ value > 65535 then invalidResult "Float16 TensorProto value is out of range"
    else .ok ((BitVec.ofInt 16 value).setWidth 32)
  | .int8 =>
    if value < -128 ∨ value > 127 then invalidResult "Int8 TensorProto value is out of range"
    else .ok ((BitVec.ofInt 8 value).setWidth 32)
  | .int32 => .ok (BitVec.ofInt 32 value)
  | .float32 => .ok 0

/-- The elements of `decode_tensor`. -/
def payload (source : ParsedTensor) (dtype : DataType) (count : Nat) : Parsed (List ElementBits) :=
  if source.rawData ≠ [] then
    if source.rawData.length ≠ count * dtype.size then
      invalidResult "TensorProto raw_data size is inconsistent"
    else (List.range count).mapM (rawElement dtype source.rawData)
  else if dtype = .float32 then
    if source.floatData.length ≠ count then invalidResult
      "TensorProto float_data size is inconsistent"
    else .ok source.floatData
  else if source.int32Data.length ≠ count then
    invalidResult "TensorProto int32_data size is inconsistent"
  else source.int32Data.mapM (typedElement dtype)

def decodeTensor (source : ParsedTensor) : Parsed (Tensor ElementBits) :=
  if source.external then invalidResult "external ONNX tensor data is not supported"
  else do
    let dtype ← dataType source.dataType
    let layout ← ofExcept (TensorLayout.ofShape source.shape)
    if hbytes_le : layout.numel * dtype.size ≤ sizeMax then
      let elements ← payload source dtype layout.numel
      .ok { layout, dtype, data := fun i => elements.getD i 0, bytes_le := hbytes_le }
    else .error (.throws (.exn (.overflowError "tensor byte size overflows size_t")))

/-- `catch (const std::exception& error)`, where a tensor was decoded. -/
def asImportError {α : Type} (graphName valueName : String) : Parsed α → Parsed α
  | .error (.throws (.exn e)) => .error (.throws (.importError {
      stage := .tensorDecode, graphName, valueName, message := e.what }))
  | result => result

/-! ## Types of values -/

structure Dimension where
  value : Option Int := none
  symbolic : Bool := false

def dimensionField (dimension : Dimension) (field wire : Nat) : WireRead Dimension :=
  match field with
  | 1 => do
    requireWire wire 0 "Dimension.dim_value"
    let n ← varint
    pure { dimension with value := some (signedVarint n) }
  | 2 => do
    requireWire wire 2 "Dimension.dim_param"
    let _ ← bytes
    pure { dimension with symbolic := true }
  | _ => do
    skip wire
    pure dimension

/-- The part of `parse_shape` about one dimension. -/
def parseDimension (content : Bytes) : Parsed Int := do
  let dimension ← message dimensionField {} content
  match dimension.value with
  | none => invalidResult "dynamic ONNX dimensions are not supported"
  | some value =>
    if dimension.symbolic then invalidResult "dynamic ONNX dimensions are not supported"
      else .ok value

def shapeField (shape : Shape) (field wire : Nat) : WireRead Shape :=
  match field with
  | 1 => do
    requireWire wire 2 "TensorShapeProto.dim"
    let content ← bytes
    let value ← lift (parseDimension content)
    pure (shape ++ [value])
  | _ => do
    skip wire
    pure shape

def parseShape (content : Bytes) : Parsed Shape := message shapeField [] content

structure TensorType where
  dtype : Option DataType := none
  shape : Option Shape := none

def tensorTypeField (type : TensorType) (field wire : Nat) : WireRead TensorType :=
  match field with
  | 1 => do
    requireWire wire 0 "TypeProto.Tensor.elem_type"
    let n ← varint
    let dtype ← lift (dataType (signed32 n))
    pure { type with dtype := some dtype }
  | 2 => do
    requireWire wire 2 "TypeProto.Tensor.shape"
    let content ← bytes
    let shape ← lift (parseShape content)
    pure { type with shape := some shape }
  | _ => do
    skip wire
    pure type

/-- The part of `parse_type` about the tensor type. -/
def parseTensorType (content : Bytes) : Parsed TensorSpec := do
  let type ← message tensorTypeField {} content
  match type.dtype, type.shape with
  | some dtype, some shape => .ok { shape, dtype }
  | _, _ => invalidResult "incomplete ONNX tensor type"

def typeField (result : Option TensorSpec) (field wire : Nat) : WireRead (Option TensorSpec) :=
  match field with
  | 1 => do
    requireWire wire 2 "TypeProto.tensor_type"
    let content ← bytes
    let spec ← lift (parseTensorType content)
    pure (some spec)
  | _ => do
    skip wire
    pure result

def parseType (content : Bytes) : Parsed TensorSpec := do
  let result ← message typeField none content
  match result with
  | none => invalidResult "ONNX value is not a tensor type"
  | some spec => .ok spec

structure ValueInfoLocals where
  name : String := ""
  spec : Option TensorSpec := none

def valueInfoField (value : ValueInfoLocals) (field wire : Nat) : WireRead ValueInfoLocals :=
  match field with
  | 1 => do
    requireWire wire 2 "ValueInfoProto.name"
    let content ← bytes
    pure { value with name := text content }
  | 2 => do
    requireWire wire 2 "ValueInfoProto.type"
    let content ← bytes
    let spec ← lift (parseType content)
    pure { value with spec := some spec }
  | _ => do
    skip wire
    pure value

def parseValueInfo (content : Bytes) : Parsed ValueInfo := do
  let value ← message valueInfoField {} content
  match value.spec with
  | none => invalidResult "incomplete ONNX ValueInfoProto"
  | some spec =>
    if value.name = "" then invalidResult "incomplete ONNX ValueInfoProto"
    else .ok { name := value.name, spec }

/-! ## Nodes -/

/-- The locals of `parse_attribute`. -/
structure AttributeLocals where
  name : String := ""
  integer : Option Int := none
  floating : Option FloatBits := none
  string : Option String := none
  integers : List Int := []
  type : Int := 0

def attributeField (a : AttributeLocals) (field wire : Nat) : WireRead AttributeLocals :=
  match field with
  | 1 => do
    requireWire wire 2 "AttributeProto.name"
    let content ← bytes
    pure { a with name := text content }
  | 2 => do
    requireWire wire 5 "AttributeProto.f"
    let n ← fixed32
    pure { a with floating := some (floatFromBits n) }
  | 3 => do
    requireWire wire 0 "AttributeProto.i"
    let n ← varint
    pure { a with integer := some (signedVarint n) }
  | 4 => do
    requireWire wire 2 "AttributeProto.s"
    let content ← bytes
    pure { a with string := some (text content) }
  | 8 => do
    let integers ← repeatedVarint signedVarint "AttributeProto.ints" a.integers wire
    pure { a with integers }
  | 20 => do
    requireWire wire 0 "AttributeProto.type"
    let n ← varint
    pure { a with type := signed32 n }
  | _ => do
    skip wire
    pure a

/-- What `parse_attribute` returns after its loop. -/
def selectPayload (a : AttributeLocals) : Parsed (String × AttributeValue) :=
  if a.name = "" then invalidResult "ONNX attribute has no name"
  else if a.type = 1 ∨ (a.type = 0 ∧ a.floating.isSome) then do
    let value ← dereference a.floating
    .ok (a.name, .float value)
  else if a.type = 2 ∨ (a.type = 0 ∧ a.integer.isSome) then do
    let value ← dereference a.integer
    .ok (a.name, .integer value)
  else if a.type = 3 ∨ (a.type = 0 ∧ a.string.isSome) then do
    let value ← dereference a.string
    .ok (a.name, .string value)
  else if a.type = 7 ∨ (a.type = 0 ∧ a.integers ≠ []) then .ok (a.name, .integers a.integers)
  else invalidResult "unsupported ONNX attribute type"

def parseAttribute (content : Bytes) : Parsed (String × AttributeValue) := do
  let a ← message attributeField {} content
  selectPayload a

/-- `node.attributes.emplace` -/
def emplaceAttribute (node : NodeProto) (entry : String × AttributeValue) : Parsed NodeProto :=
  if (node.attributes.lookup entry.1).isSome then invalidResult "duplicate ONNX node attribute"
  else .ok { node with attributes := insertAttribute entry node.attributes }

def nodeField (node : NodeProto) (field wire : Nat) : WireRead NodeProto :=
  match field with
  | 1 => do
    requireWire wire 2 "NodeProto.input"
    let content ← bytes
    pure { node with inputs := node.inputs ++ [text content] }
  | 2 => do
    requireWire wire 2 "NodeProto.output"
    let content ← bytes
    pure { node with outputs := node.outputs ++ [text content] }
  | 3 => do
    requireWire wire 2 "NodeProto.name"
    let content ← bytes
    pure { node with name := text content }
  | 4 => do
    requireWire wire 2 "NodeProto.op_type"
    let content ← bytes
    pure { node with opType := text content }
  | 5 => do
    requireWire wire 2 "NodeProto.attribute"
    let content ← bytes
    let node ← lift (parseAttribute content >>= emplaceAttribute node)
    pure node
  | 7 => do
    requireWire wire 2 "NodeProto.domain"
    let content ← bytes
    pure { node with domain := text content }
  | _ => do
    skip wire
    pure node

def parseNode (content : Bytes) : Parsed NodeProto := do
  let node ← message nodeField { opType := "", inputs := [], outputs := [] } content
  if node.opType = "" then invalidResult "ONNX node has no op_type" else .ok node

/-! ## Graphs and models -/

/-- The case of an initializer. -/
def parseInitializer (graph : GraphProto ElementBits) (content : Bytes) :
    Parsed (Initializer ElementBits) := do
  let parsed ← parseTensor content
  if parsed.name = "" then invalidResult "ONNX initializer has no name"
  else do
    let value ← asImportError graph.name parsed.name (decodeTensor parsed)
    .ok { name := parsed.name, value }

def graphField (graph : GraphProto ElementBits) (field wire : Nat) :
    WireRead (GraphProto ElementBits) :=
  match field with
  | 1 => do
    requireWire wire 2 "GraphProto.node"
    let content ← bytes
    let node ← lift (parseNode content)
    pure { graph with nodes := graph.nodes ++ [node] }
  | 2 => do
    requireWire wire 2 "GraphProto.name"
    let content ← bytes
    pure { graph with name := text content }
  | 5 => do
    requireWire wire 2 "GraphProto.initializer"
    let content ← bytes
    let initializer ← lift (parseInitializer graph content)
    pure { graph with initializers := graph.initializers ++ [initializer] }
  | 11 => do
    requireWire wire 2 "GraphProto.input"
    let content ← bytes
    let value ← lift (parseValueInfo content)
    pure { graph with inputs := graph.inputs ++ [value] }
  | 12 => do
    requireWire wire 2 "GraphProto.output"
    let content ← bytes
    let value ← lift (parseValueInfo content)
    pure { graph with outputs := graph.outputs ++ [value] }
  | _ => do
    skip wire
    pure graph

def parseGraph (content : Bytes) : Parsed (GraphProto ElementBits) := message graphField {} content

structure Opset where
  domain : String := ""
  version : Int := 0

def opsetField (opset : Opset) (field wire : Nat) : WireRead Opset :=
  match field with
  | 1 => do
    requireWire wire 2 "OperatorSetIdProto.domain"
    let content ← bytes
    pure { opset with domain := text content }
  | 2 => do
    requireWire wire 0 "OperatorSetIdProto.version"
    let n ← varint
    pure { opset with version := signedVarint n }
  | _ => do
    skip wire
    pure opset

def parseOpset (content : Bytes) : Parsed Opset := message opsetField {} content

/-- The locals of `parse_model`; the graph is there when `has_graph` is set. -/
structure ModelLocals where
  opsetVersion : Int := 0
  graph : Option (GraphProto ElementBits) := none

def modelField (model : ModelLocals) (field wire : Nat) : WireRead ModelLocals :=
  match field with
  | 7 => do
    requireWire wire 2 "ModelProto.graph"
    let content ← bytes
    let graph ← lift (parseGraph content)
    pure { model with graph := some graph }
  | 8 => do
    requireWire wire 2 "ModelProto.opset_import"
    let content ← bytes
    let opset ← lift (parseOpset content)
    pure (if opset.domain = "" ∨
      opset.domain = "ai.onnx" then { model with opsetVersion := opset.version }
      else model)
  | _ => do
    skip wire
    pure model

/-- What `parse_model` returns after its loop. -/
def finishModel (model : ModelLocals) : Parsed (ModelProto ElementBits) :=
  match model.graph with
  | none => invalidResult "ONNX model has no graph"
  | some graph =>
    if model.opsetVersion = 0 then invalidResult "ONNX model has no default-domain opset"
    else .ok { opsetVersion := model.opsetVersion, graph }

def parseModel (content : Bytes) : Parsed (ModelProto ElementBits) := do
  let model ← message modelField {} content
  finishModel model

/-- `ProtobufModelParser::decode_tensor_proto` -/
def decodeTensorProto (serialized : Bytes) : Parsed (Tensor ElementBits) :=
  match parseTensor serialized with
  | .error fault => asImportError "" "" (.error fault)
  | .ok parsed => asImportError "" parsed.name (decodeTensor parsed)

end TinyInfer.Onnx
