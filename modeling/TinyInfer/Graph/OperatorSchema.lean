import TinyInfer.Core.TensorIterator
import Mathlib.Data.String.Basic

/-!
# Operators and their schemas (`graph/node.h`, `graph/value.h`, `ops/operator_schema.cpp`)

`inferOutputSpecs` is the shape inference of a node: the checks on the number of
inputs, the attributes and the shapes, and the spec of every output.

A float attribute is its 32 bits (`FloatBits`); the schema only asks whether one is
finite and negative.
-/

namespace TinyInfer

/-- `OpType` without its last constant `Count`, which counts the others: no graph holds it. -/
inductive OpType where
  | add
  | multiply
  | subtract
  | matMul
  | gemm
  | fusedGemmActivation
  | reLU
  | tanh
  | gelu
  | softmax
  | layerNorm
  deriving DecidableEq, Repr

/-- An IEEE 754 single. -/
abbrev FloatBits := BitVec 32

namespace FloatBits

/-- `std::isfinite` -/
def isFinite (x : FloatBits) : Bool := x.extractLsb' 23 8 != 255#8

/-- `x < 0.0F` for a finite `x`: the sign is set and it is no zero. -/
def isNegative (x : FloatBits) : Bool := x.msb && x.extractLsb' 0 31 != 0#31

/-- `1.0F` -/
def one : FloatBits := 0x3f800000#32

end FloatBits

inductive AttributeValue where
  | integer (value : Int)
  | float (value : FloatBits)
  | boolean (value : Bool)
  | string (value : String)
  | integers (value : List Int)
  deriving DecidableEq, Repr

/-- `std::map<std::string, AttributeValue>`: the entries in the order of an iteration -/
abbrev NodeAttributes := List (String × AttributeValue)

/-- `emplace` of a name that is not there, which goes where its order says. -/
def insertAttribute (entry : String × AttributeValue) (attributes : NodeAttributes) :
    NodeAttributes :=
  attributes.filter (·.1 < entry.1) ++ entry :: attributes.filter (entry.1 < ·.1)

/-- The names increase, as those of a map do. -/
def SortedAttributes (attributes : NodeAttributes) : Prop :=
  attributes.Pairwise fun a b => a.1 < b.1

/-- Inserting an attribute keeps the entries in key order. -/
theorem SortedAttributes.insert {attributes : NodeAttributes} (h : SortedAttributes attributes)
    (entry : String × AttributeValue) : SortedAttributes (insertAttribute entry attributes) := by
  unfold insertAttribute SortedAttributes
  rw [List.pairwise_append, List.pairwise_cons]
  have hbelow : ∀ a ∈ attributes.filter (·.1 < entry.1), a.1 < entry.1 := fun a hmem =>
    of_decide_eq_true (List.mem_filter.1 hmem).2
  have habove : ∀ a ∈ attributes.filter (entry.1 < ·.1), entry.1 < a.1 := fun a hmem =>
    of_decide_eq_true (List.mem_filter.1 hmem).2
  refine ⟨h.filter _, ⟨habove, h.filter _⟩, fun a ha b hb => ?_⟩
  rcases List.mem_cons.1 hb with rfl | hb
  · exact hbelow a ha
  · exact lt_trans (hbelow a ha) (habove b hb)

/-- The entries are the old ones and the new one. -/
theorem insertAttribute_perm {entry : String × AttributeValue} {attributes : NodeAttributes}
    (h : attributes.lookup entry.1 = none) :
    (insertAttribute entry attributes).Perm (entry :: attributes) := by
  have hnames : ∀ a ∈ attributes, a.1 ≠ entry.1 := by
    intro a hmem hname
    have hne := List.lookup_eq_none_iff.1 h a hmem
    rw [hname] at hne
    simp at hne
  have hrest : attributes.filter (entry.1 < ·.1) = attributes.filter fun a =>
    !(decide (a.1 < entry.1)) := by
    refine List.filter_congr fun a hmem => ?_
    have hne := hnames a hmem
    rcases lt_trichotomy a.1 entry.1 with hlt | heq | hgt
    · simp [hlt, not_lt_of_gt hlt]
    · exact absurd heq hne
    · simp [hgt, not_lt_of_gt hgt]
  unfold insertAttribute
  rw [hrest]
  exact List.perm_middle.trans ((List.filter_append_perm _ attributes).cons entry)

structure TensorSpec where
  shape : Shape
  dtype : DataType := .float32
  deriving DecidableEq, Repr

inductive AttributeType where
  | integer
  | float
  | boolean
  | string
  | integers
  deriving DecidableEq, Repr

structure AttributeSchema where
  name : String
  type : AttributeType
  required : Bool := false
  deriving Repr

structure OperatorSchema where
  name : String
  minimumInputs : Nat
  maximumInputs : Nat
  attributes : List AttributeSchema := []
  deriving Repr

def gemmAttributes : List AttributeSchema :=
  [⟨"alpha", .float, false⟩, ⟨"beta", .float, false⟩, ⟨"transA", .integer, false⟩,
    ⟨"transB", .integer, false⟩]

def operatorSchema : OpType → OperatorSchema
  | .add => { name := "Add", minimumInputs := 2, maximumInputs := 2 }
  | .multiply => { name := "Multiply", minimumInputs := 2, maximumInputs := 2 }
  | .subtract => { name := "Subtract", minimumInputs := 2, maximumInputs := 2 }
  | .matMul => { name := "MatMul", minimumInputs := 2, maximumInputs := 2 }
  | .gemm => {
      name := "Gemm", minimumInputs := 2, maximumInputs := 3
      attributes := gemmAttributes }
  | .fusedGemmActivation => {
      name := "FusedGemmActivation", minimumInputs := 2, maximumInputs := 3
      attributes := gemmAttributes ++ [⟨"activation", .string, true⟩] }
  | .reLU => { name := "ReLU", minimumInputs := 1, maximumInputs := 1 }
  | .tanh => { name := "Tanh", minimumInputs := 1, maximumInputs := 1 }
  | .gelu => {
      name := "GELU", minimumInputs := 1, maximumInputs := 1
      attributes := [⟨"approximate", .string, false⟩] }
  | .softmax => {
      name := "Softmax", minimumInputs := 1, maximumInputs := 1
      attributes := [⟨"axis", .integer, false⟩] }
  | .layerNorm => {
      name := "LayerNorm", minimumInputs := 1, maximumInputs := 3
      attributes := [⟨"epsilon", .float, false⟩] }

def attributeType : AttributeValue → AttributeType
  | .integer _ => .integer
  | .float _ => .float
  | .boolean _ => .boolean
  | .string _ => .string
  | .integers _ => .integers

/-- The first loop of `validate_attributes`: every attribute is known and of its type. -/
def validateAttribute (schema : OperatorSchema) (entry : String × AttributeValue) :
    Except Exn Unit :=
  match schema.attributes.find? (·.name == entry.1) with
  | none => .error (.invalidArgument (schema.name ++ " has an unknown attribute: " ++ entry.1))
  | some definition =>
    require (definition.type == attributeType entry.2)
      (.invalidArgument (schema.name ++ " attribute has the wrong type: " ++ entry.1))

def validateAttributes (schema : OperatorSchema) (attributes : NodeAttributes) :
    Except Exn Unit := do
  attributes.forM (validateAttribute schema)
  require (schema.attributes.all fun definition =>
      !definition.required || (attributes.lookup definition.name).isSome)
    (.invalidArgument (schema.name ++ " is missing a required attribute"))

def requireFloat32 (schema : OperatorSchema) (inputs : List TensorSpec) : Except Exn Unit :=
  require (inputs.all (·.dtype == .float32))
    (.invalidArgument (schema.name ++ " currently requires float32 inputs"))

/-- `Graph::validate_spec`: the shape has a layout and its bytes can be counted. -/
def validateSpec (spec : TensorSpec) : Except Exn Unit := do
  let layout ← TensorLayout.ofShape spec.shape
  let _ ← layout.sizeBytes spec.dtype
  .ok ()

/-- `std::get<std::int64_t>` of an attribute, or a default. -/
def integerAttribute (attributes : NodeAttributes) (name : String) (default : Int) : Int :=
  match attributes.lookup name with
  | some (.integer value) => value
  | _ => default

def floatAttribute (attributes : NodeAttributes) (name : String) (default : FloatBits) :
    FloatBits :=
  match attributes.lookup name with
  | some (.float value) => value
  | _ => default

def stringAttribute (attributes : NodeAttributes) (name : String) (default : String) : String :=
  match attributes.lookup name with
  | some (.string value) => value
  | _ => default

def inferElementwise (lhs rhs : TensorSpec) : Except Exn TensorSpec := do
  let iterator ← TensorIterator.ofOperands
    [← TensorLayout.ofShape lhs.shape, ← TensorLayout.ofShape rhs.shape]
  .ok ⟨iterator.shape, lhs.dtype⟩

/-- `axis`, counted from the end if negative, of a nonempty dimension. -/
def normalizedAxis (input : TensorSpec) (attributes : NodeAttributes) : Except Exn Int := do
  let axis := integerAttribute attributes "axis" (-1)
  let axis := if axis < 0 then axis + input.shape.length else axis
  require (0 ≤ axis ∧ axis < input.shape.length) (.outOfRange "Softmax axis is out of range")
  require (input.shape.getD axis.toNat 0 ≠ 0) (.invalidArgument "Softmax axis must not be empty")
  .ok axis

def inferMatMul (lhs rhs : TensorSpec) : Except Exn TensorSpec := do
  require (lhs.dtype == rhs.dtype) (.invalidArgument "MatMul input dtypes must match")
  match lhs.shape, rhs.shape with
  | [m, k], [k', n] =>
    require (k == k') (.invalidArgument "MatMul inner dimensions must match")
    .ok ⟨[m, n], lhs.dtype⟩
  | _, _ => .error (.invalidArgument "MatMul expects rank-2 inputs")

def inferGemm (lhs rhs : TensorSpec) (bias : Option TensorSpec) (attributes : NodeAttributes) :
    Except Exn TensorSpec := do
  require (lhs.dtype == rhs.dtype && bias.all (lhs.dtype == ·.dtype))
    (.invalidArgument "Gemm input dtypes must match")
  match lhs.shape, rhs.shape with
  | [a₀, a₁], [b₀, b₁] =>
    let transA := integerAttribute attributes "transA" 0
    let transB := integerAttribute attributes "transB" 0
    require ((transA == 0 || transA == 1) && (transB == 0 || transB == 1))
      (.invalidArgument "Gemm transpose attributes must be 0 or 1")
    let m := if transA == 0 then a₀ else a₁
    let kA := if transA == 0 then a₁ else a₀
    let kB := if transB == 0 then b₀ else b₁
    let n := if transB == 0 then b₁ else b₀
    require (kA == kB) (.invalidArgument "Gemm inner dimensions must match")
    match bias with
    | none => .ok ⟨[m, n], lhs.dtype⟩
    | some bias =>
      let iterator ← TensorIterator.ofOperands
        [← TensorLayout.ofShape [m, n], ← TensorLayout.ofShape bias.shape]
      require (iterator.shape == [m, n])
        (.invalidArgument "Gemm bias must broadcast to the output shape")
      .ok ⟨[m, n], lhs.dtype⟩
  | _, _ => .error (.invalidArgument "Gemm expects rank-2 A and B inputs")

/-- The check of one of the parameters of a `LayerNorm`. -/
def requireParameter (input parameter : TensorSpec) (message : String) : Except Exn Unit :=
  require (parameter.shape == [input.shape.getLastD 0] && parameter.dtype == input.dtype)
    (.invalidArgument message)

def inferLayerNorm (input : TensorSpec) (parameters : List TensorSpec)
    (attributes : NodeAttributes) : Except Exn TensorSpec := do
  require (!input.shape.isEmpty && input.shape.getLastD 0 != 0)
    (.invalidArgument "LayerNorm expects a non-empty final dimension")
  match parameters with
  | [] => .ok ()
  | weight :: rest =>
    requireParameter input weight "LayerNorm weight must match the final dimension"
    match rest with
    | [bias] => requireParameter input bias "LayerNorm bias must match the final dimension"
    | _ => .ok ()
  match attributes.lookup "epsilon" with
  | some (.float epsilon) =>
    require (epsilon.isFinite && !epsilon.isNegative)
      (.invalidArgument "LayerNorm epsilon must be finite and non-negative")
  | _ => .ok ()
  .ok input

/-- The rule of an operator, once the checks that all operators share have passed. -/
def inferOperator (op : OpType) (inputs : List TensorSpec) (attributes : NodeAttributes) :
    Except Exn TensorSpec :=
  match op, inputs with
  | .add, [lhs, rhs] | .multiply, [lhs, rhs] | .subtract, [lhs, rhs] => do
    require (lhs.dtype == rhs.dtype) (.invalidArgument "Elementwise input dtypes must match")
    inferElementwise lhs rhs
  | .matMul, [lhs, rhs] => inferMatMul lhs rhs
  | .gemm, lhs :: rhs :: bias => inferGemm lhs rhs bias.head? attributes
  | .fusedGemmActivation, lhs :: rhs :: bias => do
    require (stringAttribute attributes "activation" "" == "relu")
      (.invalidArgument "FusedGemmActivation currently supports only relu")
    inferGemm lhs rhs bias.head? attributes
  | .reLU, [input] | .tanh, [input] => .ok input
  | .gelu, [input] => do
    match attributes.lookup "approximate" with
    | some (.string value) =>
      require (value == "none" || value == "tanh")
        (.invalidArgument "GELU approximate must be 'none' or 'tanh'")
    | _ => .ok ()
    .ok input
  | .softmax, [input] => do
    require (!input.shape.isEmpty) (.invalidArgument "Softmax expects rank >= 1")
    let _ ← normalizedAxis input attributes
    .ok input
  | .layerNorm, input :: parameters => inferLayerNorm input parameters attributes
  | _, _ => .error (.logicError "operator shape inference is not implemented")

/-- Every operator has one output. -/
def inferOutputSpecs (op : OpType) (inputs : List TensorSpec) (attributes : NodeAttributes) :
    Except Exn (List TensorSpec) := do
  let schema := operatorSchema op
  require (schema.minimumInputs ≤ inputs.length && inputs.length ≤ schema.maximumInputs)
    (.invalidArgument (schema.name ++ " received the wrong number of inputs"))
  inputs.forM validateSpec
  validateAttributes schema attributes
  requireFloat32 schema inputs
  let output ← inferOperator op inputs attributes
  .ok [output]

/-- Shape inference yields one spec. -/
theorem inferOutputSpecs_ok {op : OpType} {inputs : List TensorSpec} {attributes : NodeAttributes}
    {specs : List TensorSpec} (h : inferOutputSpecs op inputs attributes = .ok specs) :
    ∃ spec, specs = [spec] := by
  unfold inferOutputSpecs at h
  obtain ⟨_, -, h⟩ := bind_ok.1 h
  obtain ⟨_, -, h⟩ := bind_ok.1 h
  obtain ⟨_, -, h⟩ := bind_ok.1 h
  obtain ⟨_, -, h⟩ := bind_ok.1 h
  obtain ⟨output, -, h⟩ := bind_ok.1 h
  cases h
  exact ⟨output, rfl⟩

end TinyInfer
