import TinyInfer.Lib.Grammar
import TinyInfer.Onnx.ModelMessages
import TinyInfer.Onnx.ProtobufAttributes

/-!
# The messages of a model

Which records of a model hold messages, and what is met in them. `parse_attribute` dereferences
an empty `std::optional` where an attribute declares a payload that it lacks; `parse_model` does
so where it comes to such an attribute, and nowhere else (`parseModel_empty`).

Main definitions: `modelGrammar`, `tensorGrammar`, `LacksPayload`.
-/

namespace TinyInfer.Onnx

open Lib (Fault)
open Lib.ByteReader (Fails Reads Steps fails_lift)
open Lib.Wire (Bytes Reading Grammar Record Seq Encodes EncodesKey EncodesBytes EncodesValue)

/-! ## Grammars -/

def tensorGrammar : Grammar := .message ({} : ParsedTensor) TensorStep fun
  | 1 | 5 => .varints
  | _ => .leaf

def dimensionGrammar : Grammar := .message ({} : Dimension) (fun _ => DimensionStep) fun _ => .leaf

def shapeGrammar : Grammar := .message ([] : Shape) ShapeStep fun
  | 1 => dimensionGrammar
  | _ => .leaf

def tensorTypeGrammar : Grammar := .message ({} : TensorType) TensorTypeStep fun
  | 2 => shapeGrammar
  | _ => .leaf

def typeGrammar : Grammar := .message (none : Option TensorSpec) TypeStep fun
  | 1 => tensorTypeGrammar
  | _ => .leaf

def valueInfoGrammar : Grammar := .message ({} : ValueInfoLocals) ValueInfoStep fun
  | 2 => typeGrammar
  | _ => .leaf

def attributeGrammar : Grammar := .message ({} : AttributeLocals) AttributeStep fun
  | 8 => .varints
  | _ => .leaf

def nodeGrammar : Grammar :=
  .message ({ opType := "", inputs := [], outputs := [] } : NodeProto) NodeStep fun
  | 5 => attributeGrammar
  | _ => .leaf

def graphGrammar : Grammar := .message ({} : GraphProto ElementBits) GraphStep fun
  | 1 => nodeGrammar
  | 5 => tensorGrammar
  | 11 | 12 => valueInfoGrammar
  | _ => .leaf

def opsetGrammar : Grammar := .message ({} : Opset) (fun _ => OpsetStep) fun _ => .leaf

def modelGrammar : Grammar := .message ({} : ModelLocals) ModelStep fun
  | 7 => graphGrammar
  | 8 => opsetGrammar
  | _ => .leaf

/-! ## Absent payloads -/

/-- A named attribute declares a float, an integer or a string, and has none. -/
def LacksPayload (content : Bytes) : Prop :=
  ∃ rs, ∃ h : AttributeValues, Seq (Encodes wrapping) content rs ∧ h.Of rs ∧ h.Lacks

theorem not_invalid_empty : ¬ Invalid (.throws .emptyOptional) := by
  rintro ⟨text, h⟩
  cases h

/-- The dereference of an empty `std::optional` in `parse_attribute` -/
theorem parseAttribute_empty {content : Bytes} :
    parseAttribute content = .error (.throws .emptyOptional) ↔ LacksPayload content := by
  constructor
  · intro hrun
    rcases bind_error.1 hrun with hloop | ⟨a, hloop, hselect⟩
    · exact absurd ((attribute_loop content).1 _ hloop) not_invalid_empty
    · obtain ⟨rs, h, hrecords, hvalues, rfl⟩ := message_attribute_ok.1 hloop
      rcases selectPayload_after h with ⟨value, -, -, hresult⟩ | ⟨hlacks, -⟩ | ⟨-, what, hresult⟩
      · rw [hresult] at hselect
        cases hselect
      · exact ⟨rs, h, hrecords, hvalues, hlacks⟩
      · rw [hresult] at hselect
        exact absurd (invalid_of_result hselect) not_invalid_empty
  · rintro ⟨rs, h, hrecords, hvalues, hlacks⟩
    have hloop := message_attribute_ok.2 ⟨rs, h, hrecords, hvalues, rfl⟩
    rcases selectPayload_after h with ⟨value, -, hthere, -⟩ | ⟨-, hresult⟩ | ⟨hother, -⟩
    · rw [hlacks.2.2] at hthere
      cases hthere
    · exact bind_error.2 (.inr ⟨_, hloop, hresult⟩)
    · exact absurd hlacks hother

/-- A field whose wire type is checked first fails only under that wire type. -/
theorem fails_requireWire {α : Type} {e : Fault ParserError} (he : ¬ Invalid e) {x : WireRead α}
    {Q : Bytes → Prop} (h : Fails e x Q) (wire expected : Nat) (name : String) :
    Fails e (do requireWire wire expected name; x) fun left => wire = expected ∧ Q left := by
  unfold requireWire
  by_cases hwire : wire = expected
  · rw [if_neg (not_not.2 hwire)]
    exact h.congr fun left => (and_iff_right hwire).symm
  · rw [if_pos hwire]
    exact ((Lib.ByteReader.reads_throw (E := Invalid) (invalid _)).fails he).congr fun left =>
      ⟨False.elim, fun hleft => absurd hleft.1 hwire⟩

/-- A field that is given by a nested message fails where the message does. -/
theorem fails_replacedField {σ : Type} {e : Fault ParserError} (he : ¬ Invalid e) (wire : Nat)
    (name : String) (h : Bytes → Parsed σ) :
    Fails e (do
      requireWire wire 2 name
      let content ← WireReader.bytes
      Lib.ByteReader.lift (h content))
      fun left => wire = 2 ∧ ∃ value rest content, left = value ++ rest ∧
        EncodesBytes wrapping value content ∧ h content = .error e :=
  fails_requireWire he (Fails.bind WireReader.reads_bytes he fun content => fails_lift (h content))
    wire 2 name

theorem fails_nestedField {σ β : Type} {e : Fault ParserError} (he : ¬ Invalid e) (wire : Nat)
    (name : String) (h : Bytes → Parsed β) (k : β → σ) :
    Fails e (do
      requireWire wire 2 name
      let content ← WireReader.bytes
      let b ← Lib.ByteReader.lift (h content)
      pure (k b))
      fun left => wire = 2 ∧ ∃ value rest content, left = value ++ rest ∧
        EncodesBytes wrapping value content ∧ h content = .error e :=
  fails_requireWire he
    (Fails.bind WireReader.reads_bytes he fun content => (fails_lift (h content)).map k) wire 2 name

/-- The fields of a message that hold no message do not fail in this way. -/
theorem fails_otherField {σ : Type} {e : Fault ParserError}
    {E : Fault ParserError → Prop} (he : ¬ E e) {x : WireRead σ} {P : Bytes → σ → Prop}
    (h : Reads E x P) {field number : Nat} (hfield : field ≠ number) (Q : Bytes → Prop) :
    Fails e x fun left => field = number ∧ Q left :=
  (h.fails he).congr fun _ => ⟨False.elim, fun hleft => absurd hleft.1 hfield⟩

/-- The bytes that are left begin with a length-delimited value, which is `Q`. -/
def Holds (Q : Bytes → Prop) (wire : Nat) (left : Bytes) : Prop :=
  wire = 2 ∧ ∃ value rest content, left = value ++ rest ∧
  EncodesBytes wrapping value content ∧ Q content

theorem holds_congr {Q Q' : Bytes → Prop} (h : ∀ content, Q content ↔ Q' content) (wire : Nat)
    (left : Bytes) : Holds Q wire left ↔ Holds Q' wire left :=
  and_congr_right fun _ => exists_congr fun _ => exists_congr fun _ => exists_congr fun content =>
    and_congr_right fun _ => and_congr_right fun _ => h content

/-- Only one field of a message fails in this way, so the message fails where the reader comes
to such a field whose content does. -/
theorem message_at {σ : Type} {e : Fault ParserError} (he : ¬ Invalid e)
    {E : Fault ParserError → Prop} (hle : ∀ e, Invalid e → E e)
    {switch : σ → Nat → Nat → WireRead σ} {step : Reading → σ → Record → σ → Prop}
    (hreads : ∀ s field wire, Reads E (switch s field wire) fun bs s' =>
      ∃ v, EncodesValue wrapping wire bs v ∧ step wrapping s ⟨field, v⟩ s')
    {nested : Nat → Grammar} {number : Nat} {path : List Nat} {Z : Bytes → Prop}
    (hfails : ∀ s field wire, Fails e (switch s field wire) fun left => field = number ∧
      Holds (fun c => ∃ inner, (nested number).At wrapping path c inner ∧ Z inner) wire left)
    (s : σ) (content : Bytes) :
    message switch s content = .error e ↔
      ∃ inner, (Grammar.message s step nested).At wrapping (number :: path) content inner ∧
        Z inner := by
  have hround (s : σ) := Fails.bind WireReader.reads_key he fun fw => hfails s fw.1 fw.2
  refine (Lib.ByteReader.parse_fails (reads_record hle hreads)
    (fun _ _ h => Encodes.deterministic.ne_nil h) hround s content).trans ?_
  constructor
  · rintro ⟨front, _, rs, s', rfl, -, hseq, hsteps, key, _, ⟨field, wire⟩, rfl, hkey, hfield, hwire,
      value, rest, c, rfl, hbytes, inner, hat, hinner⟩
    dsimp only at hfield hwire
    subst hfield hwire
    exact ⟨inner, ⟨front, key, value, rest, rs, s', c, rfl, hseq, hsteps, hkey, hbytes, hat⟩,
      hinner⟩
  · rintro ⟨inner, ⟨front, key, value, rest, rs, s', c, rfl, hseq, hsteps, hkey, hbytes, hat⟩,
      hinner⟩
    refine ⟨front, _, rs, s', rfl, fun hnone => ?_, hseq, hsteps, key, _, _, rfl, hkey, rfl, rfl,
      value, rest, c, rfl, hbytes, inner, hat, hinner⟩
    exact EncodesKey.deterministic.ne_nil hkey (List.append_eq_nil_iff.1 hnone).1

/-- What follows the loop of a message does not dereference. -/
theorem finish_fails {σ α : Type} {e : Fault ParserError} {x : Parsed σ} {f : σ → Parsed α}
    (hf : ∀ s, f s ≠ .error e) : (x >>= f) = .error e ↔ x = .error e := by
  rw [bind_error]
  exact ⟨fun h => h.resolve_right fun ⟨s, _, hrun⟩ => hf s hrun, .inl⟩

/-- A node dereferences the empty optional iff an attribute lacks its payload. -/
theorem parseNode_empty {content : Bytes} :
    parseNode content = .error (.throws .emptyOptional) ↔
      ∃ inner, nodeGrammar.At wrapping [5] content inner ∧ LacksPayload inner := by
  refine (finish_fails (f := finishNode) fun node hrun =>
    not_invalid_empty (finishNode_faults hrun)).trans ?_
  refine message_at not_invalid_empty (fun _ => ends_of_invalid) reads_nodeField
    (fun node field wire => ?_) _ content
  unfold nodeField
  split
  · exact fails_otherField not_invalid_empty
      (reads_bytesField (fun _ h => h) wire _ _) (by decide) _
  · exact fails_otherField not_invalid_empty
      (reads_bytesField (fun _ h => h) wire _ _) (by decide) _
  · exact fails_otherField not_invalid_empty
      (reads_bytesField (fun _ h => h) wire _ _) (by decide) _
  · exact fails_otherField not_invalid_empty
      (reads_bytesField (fun _ h => h) wire _ _) (by decide) _
  · -- The attribute is added to the node after it is parsed, which does not dereference.
    refine (fails_replacedField not_invalid_empty wire _
      (fun content => parseAttribute content >>= emplaceAttribute node)).congr fun left => ?_
    refine (holds_congr (fun c => ?_) wire left).trans (and_iff_right rfl).symm
    rw [finish_fails fun entry hrun => not_invalid_empty (emplaceAttribute_faults hrun),
      parseAttribute_empty]
    exact exists_eq_left'.symm
  · exact fails_otherField not_invalid_empty
      (reads_bytesField (fun _ h => h) wire _ _) (by decide) _
  · rename_i h5 _
    exact fails_otherField not_invalid_empty (reads_skipField (fun _ h => h) wire node) h5 _

theorem not_throws_empty : ¬ Throws (.throws .emptyOptional) := by
  rintro ⟨e, heq, he⟩
  cases heq
  exact he rfl

/-- A graph dereferences the empty optional iff an attribute of a node lacks its payload. -/
theorem parseGraph_empty {content : Bytes} :
    parseGraph content = .error (.throws .emptyOptional) ↔
      ∃ inner, graphGrammar.At wrapping [1, 5] content inner ∧ LacksPayload inner := by
  refine message_at not_invalid_empty (fun _ => ends_of_invalid) reads_graphField
    (fun graph field wire => ?_) _ content
  unfold graphField
  split
  · refine (fails_nestedField not_invalid_empty wire _ _ _).congr fun left => ?_
    exact (holds_congr (fun c => parseNode_empty) wire left).trans (and_iff_right rfl).symm
  · exact fails_otherField not_invalid_empty
      (reads_bytesField (fun _ h => h) wire _ _) (by decide) _
  · exact fails_otherField not_throws_empty (reads_nestedField (fun _ => throws_of_invalid) wire _
      (fun content => (parseInitializer_spec graph content).1)
      fun content => (parseInitializer_spec graph content).2) (by decide) _
  · exact fails_otherField not_invalid_empty (reads_nestedField (fun _ h => h) wire _
      (fun content => (parseValueInfo_spec content).1)
      fun content => (parseValueInfo_spec content).2) (by decide) _
  · exact fails_otherField not_invalid_empty (reads_nestedField (fun _ h => h) wire _
      (fun content => (parseValueInfo_spec content).1)
      fun content => (parseValueInfo_spec content).2) (by decide) _
  · rename_i h1 _ _ _ _
    exact fails_otherField not_invalid_empty (reads_skipField (fun _ h => h) wire graph) h1 _

/-- The parser dereferences an empty `std::optional` on precisely the bytes in which it comes to
an attribute without the payload that it declares. -/
theorem parseModel_empty {content : Bytes} :
    parseModel content = .error (.throws .emptyOptional) ↔
      ∃ inner, modelGrammar.At wrapping [7, 1, 5] content inner ∧ LacksPayload inner := by
  refine (finish_fails (f := finishModel) fun model hrun =>
    not_invalid_empty (finishModel_faults hrun)).trans ?_
  refine message_at not_invalid_empty (fun _ => ends_of_invalid) reads_modelField
    (fun model field wire => ?_) _ content
  unfold modelField
  split
  · refine (fails_nestedField not_invalid_empty wire _ _ _).congr fun left => ?_
    exact (holds_congr (fun c => parseGraph_empty) wire left).trans (and_iff_right rfl).symm
  · exact fails_otherField not_invalid_empty (reads_nestedField (fun _ h => h) wire _
      (fun content => (parseOpset_spec content).1)
      fun content => (parseOpset_spec content).2) (by decide) _
  · rename_i h7 _
    exact fails_otherField not_invalid_empty (reads_skipField (fun _ h => h) wire model) h7 _

end TinyInfer.Onnx
