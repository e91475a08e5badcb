import TinyInfer.Onnx.TensorDecoding

/-!
# Graphs and models (`parse_graph`, `parse_model`)

The rules of the outer messages. Every fault of theirs is an exception, or an empty
`std::optional` of an attribute: nothing outside the bytes is read, and every loop ends
(`parseModel_spec`, `decodeTensorProto_spec`).
-/

namespace TinyInfer.Onnx

open Lib (Fault)
open Lib.ByteReader (Reads Steps)
open Lib.Wire (Bytes Reading Record Value EncodesValue)

/-- Rewrapping an exception changes no result. -/
theorem asImportError_ok {α : Type} {graphName valueName : String} {x : Parsed α} {a : α} :
    asImportError graphName valueName x = .ok a ↔ x = .ok a := by
  unfold asImportError
  split
  · exact ⟨fun h => (by cases h), fun h => (by cases h)⟩
  · exact Iff.rfl

/-- What is thrown after the rewrapping is still an exception. -/
theorem asImportError_faults {α : Type} {graphName valueName : String} {x : Parsed α}
    (h : ∀ e, x = .error e → Throws e) {e : Fault ParserError}
    (hfailed : asImportError graphName valueName x = .error e) : Throws e := by
  unfold asImportError at hfailed
  split at hfailed
  · cases hfailed
    exact ⟨_, rfl, fun hempty => by cases hempty⟩
  · exact h e hfailed

theorem decodeTensor_throws {source : ParsedTensor} (e : Fault ParserError)
    (h : decodeTensor source = .error e) :
    Throws e := by
  obtain ⟨exn, rfl⟩ := decodeTensor_faults h
  exact ⟨_, rfl, fun hempty => by cases hempty⟩

/-- An initializer is read from exactly the bytes that say it, or an exception is thrown. -/
theorem parseInitializer_spec (graph : GraphProto ElementBits) (content : Bytes) :
    (∀ e, parseInitializer graph content = .error e → Throws e) ∧
    ∀ initializer, parseInitializer graph content = .ok initializer ↔
      InitializerOf wrapping content initializer := by
  obtain ⟨hparseFaults, hparseOk⟩ := parseTensor_spec content
  obtain ⟨hfaults, hok⟩ := finish_spec (E := Throws)
    ⟨fun e hfailed => throws_of_invalid (hparseFaults e hfailed), hparseOk⟩
    (f := fun parsed : ParsedTensor =>
      (if parsed.name = "" then invalidResult "ONNX initializer has no name"
      else do
        let value ← asImportError graph.name parsed.name (decodeTensor parsed)
        .ok { name := parsed.name, value } : Parsed (Initializer ElementBits)))
    (fun parsed e hfailed => by
      split at hfailed
      · exact throws_of_invalid (invalid_of_result hfailed)
      · rcases bind_error.1 hfailed with hfailed | ⟨value, -, hfailed⟩
        · exact asImportError_faults decodeTensor_throws hfailed
        · cases hfailed)
  refine ⟨hfaults, fun initializer => (hok initializer).trans ?_⟩
  refine exists_congr fun parsed => and_congr_right fun _ => ?_
  constructor
  · intro hresult
    split at hresult
    · cases hresult
    · rename_i hnamed
      obtain ⟨value, hdecoded, hresult⟩ := bind_ok.1 hresult
      cases hresult
      exact ⟨hnamed, rfl, asImportError_ok.1 hdecoded⟩
  · rintro ⟨hnamed, hsame, hdecoded⟩
    rw [if_neg hnamed]
    refine bind_ok.2 ⟨initializer.value, asImportError_ok.2 hdecoded, ?_⟩
    rw [← hsame]

/-- One field of a graph reads one value and takes one step of the message. -/
theorem reads_graphField (graph : GraphProto ElementBits) (field wire : Nat) :
    Reads Ends (graphField graph field wire) fun bs graph' =>
      ∃ v, EncodesValue wrapping wire bs v ∧ GraphStep wrapping graph ⟨field, v⟩ graph' := by
  have hvalueFaults (content : Bytes) (e : Fault ParserError)
    (hfailed : parseValueInfo content = .error e) :
      Ends e := ends_of_invalid ((parseValueInfo_spec content).1 e hfailed)
  unfold graphField
  split
  · exact reads_nestedField (fun _ => ends_of_invalid) wire _ (fun content =>
      (parseNode_spec content).1)
      fun content => (parseNode_spec content).2
  · exact reads_bytesField (fun _ => ends_of_invalid) wire _ _
  · exact reads_nestedField (fun _ => ends_of_invalid) wire _
      (fun content e hfailed => .inl ((parseInitializer_spec graph content).1 e hfailed))
      fun content => (parseInitializer_spec graph content).2
  · exact reads_nestedField (fun _ => ends_of_invalid) wire _ hvalueFaults
      fun content => (parseValueInfo_spec content).2
  · exact reads_nestedField (fun _ => ends_of_invalid) wire _ hvalueFaults
      fun content => (parseValueInfo_spec content).2
  · refine reads_other (fun _ => ends_of_invalid) (fun v graph' => ?_) wire
    unfold GraphStep
    split <;> first | contradiction | exact Iff.rfl

theorem parseGraph_spec (content : Bytes) :
    (∀ e, parseGraph content = .error e → Ends e) ∧
    ∀ graph, parseGraph content = .ok graph ↔ GraphOf wrapping content graph :=
  message_spec _ _ (fun _ => ends_of_invalid) reads_graphField _ content

/-- An operator set is read from exactly the bytes that say it, or the bytes are invalid. -/
theorem parseOpset_spec (content : Bytes) :
    (∀ e, parseOpset content = .error e → Invalid e) ∧
    ∀ opset, parseOpset content = .ok opset ↔ OpsetOf wrapping content opset := by
  refine message_spec _ _ (fun _ h => h) (fun opset field wire => ?_) _ content
  unfold opsetField
  split
  · exact reads_bytesField (fun _ h => h) wire _ _
  · exact reads_varintField (fun _ h => h) wire _ _
  · refine reads_other (fun _ h => h) (fun v opset' => ?_) wire
    unfold OpsetStep
    split <;> first | contradiction | exact Iff.rfl

/-- One field of a model reads one value and takes one step of the message. -/
theorem reads_modelField (model : ModelLocals) (field wire : Nat) :
    Reads Ends (modelField model field wire) fun bs model' =>
      ∃ v, EncodesValue wrapping wire bs v ∧ ModelStep wrapping model ⟨field, v⟩ model' := by
  unfold modelField
  split
  · exact reads_nestedField (fun _ => ends_of_invalid) wire _ (fun content =>
      (parseGraph_spec content).1)
      fun content => (parseGraph_spec content).2
  · exact reads_nestedField (fun _ => ends_of_invalid) wire _
      (fun content e hfailed => ends_of_invalid ((parseOpset_spec content).1 e hfailed))
      fun content => (parseOpset_spec content).2
  · refine reads_other (fun _ => ends_of_invalid) (fun v model' => ?_) wire
    unfold ModelStep
    split <;> first | contradiction | exact Iff.rfl

theorem finishModel_faults {model : ModelLocals} {e : Fault ParserError}
    (h : finishModel model = .error e) :
    Invalid e := by
  unfold finishModel at h
  split at h
  · exact invalid_of_result h
  · split at h
    · exact invalid_of_result h
    · cases h

/-- A model is read from exactly the bytes that say it. -/
theorem parseModel_spec (content : Bytes) :
    (∀ e, parseModel content = .error e → Ends e) ∧
    ∀ model, parseModel content = .ok model ↔ ModelOf wrapping content model := by
  have hloop :=
    message_spec modelField (ModelStep wrapping) (fun _ => ends_of_invalid)
      reads_modelField {} content
  obtain ⟨hfaults, hok⟩ := finish_spec hloop (f := finishModel) fun model e hfailed =>
    ends_of_invalid (finishModel_faults hfailed)
  refine ⟨hfaults, fun model => (hok model).trans ⟨?_, fun h => ⟨_, h.2, if_neg h.1⟩⟩⟩
  rintro ⟨⟨version, graph⟩, h, hresult⟩
  cases graph with
  | none => cases hresult
  | some graph =>
    unfold finishModel at hresult
    dsimp only at hresult
    split at hresult
    · cases hresult
    · rename_i hversioned
      cases hresult
      exact ⟨hversioned, h⟩

/-- The message of a tensor, and the tensor in it. -/
def TensorProtoOf (R : Reading) (content : Bytes) (t : Tensor ElementBits) : Prop :=
  ∃ parsed, TensorOf R content parsed ∧ decodeTensor parsed = .ok t

/-- An encoded tensor is read from exactly the bytes that say it, or an exception is thrown. -/
theorem decodeTensorProto_spec (content : Bytes) :
    (∀ e, decodeTensorProto content = .error e → Throws e) ∧
    ∀ t, decodeTensorProto content = .ok t ↔ TensorProtoOf wrapping content t := by
  obtain ⟨hparseFaults, hparseOk⟩ := parseTensor_spec content
  cases hresult : parseTensor content with
  | error fault =>
    have hrun : decodeTensorProto content = asImportError "" "" (.error fault) := by
      unfold decodeTensorProto
      rw [hresult]
    rw [hrun]
    constructor
    · refine fun e hfailed => asImportError_faults (fun e' heq => ?_) hfailed
      cases heq
      exact throws_of_invalid (hparseFaults _ hresult)
    · intro t
      rw [asImportError_ok]
      refine ⟨fun h => (by cases h), ?_⟩
      rintro ⟨parsed, h, -⟩
      rw [(hparseOk parsed).2 h] at hresult
      cases hresult
  | ok parsed =>
    rw [decodeTensorProto_of_parsed hresult]
    refine ⟨fun e hfailed => asImportError_faults decodeTensor_throws hfailed, fun t => ?_⟩
    rw [asImportError_ok]
    constructor
    · intro hdecoded
      exact ⟨parsed, (hparseOk parsed).1 hresult, hdecoded⟩
    · rintro ⟨parsed', h, hdecoded⟩
      rw [(hparseOk parsed').2 h] at hresult
      cases hresult
      exact hdecoded

end TinyInfer.Onnx
