import TinyInfer.Onnx.ModelGrammar

/-!
# Numbers that do not fit

`WireReader` keeps the low bits of field numbers and varints. Where all the keys and numbers
that it comes to have no other bits, and every attribute has the payload that it declares,
parsing is safe and takes the messages of the format; on all other bytes it does not
(`readsExactly_iff`).

Main definitions: `Agrees`, `Faithful`, `ReadsExactly`, `Readable`.
-/

namespace TinyInfer.Onnx

open Lib (Fault ByteReader)
open Lib.ByteReader (Reads Steps)
open Lib.Wire (Bytes Reading Grammar Record Value Seq Varint ReadVarint Encodes EncodesKey KeyPasses
  NumberPasses)

/-! ## What the numbers of a message decide -/

/-- What a message says under one reading it says under another one that agrees on all keys
and numbers in it. -/
structure Agrees {α : Type} (g : Grammar) (P : Reading → Bytes → α → Prop) : Prop where
  up : ∀ {R S : Reading} {content : Bytes} {a : α}, P R content a →
    g.Everywhere R (KeyPasses R S) (NumberPasses R S) content → P S content a

/-- The fields of a message agree, so it does. -/
theorem agrees_message {σ : Type} (start : σ) (step : Reading → σ → Record → σ → Prop)
    (nested : Nat → Grammar)
    (hfield : ∀ (R S : Reading) s r s', step R s r s' → (∀ inner, r.value = .bytes inner →
      (nested r.field).Everywhere R (KeyPasses R S) (NumberPasses R S) inner) → step S s r s') :
    Agrees (.message start step nested) fun R => MessageOf R (step R) start := by
  refine ⟨?_⟩
  rintro R S content s' ⟨rs, hrecords, hsteps⟩ hpasses
  obtain ⟨hrecords', hinner⟩ := hpasses.seq hrecords hsteps
  refine ⟨rs, hrecords', ?_⟩
  clear hrecords hrecords' hpasses
  -- The steps of `R` are steps of `S`, record by record.
  induction hsteps with
  | nil => exact .nil
  | cons hmove _ ih =>
    obtain ⟨hhead, htail⟩ := List.forall_mem_cons.1 hinner
    exact .cons (hfield R S _ _ _ hmove hhead) (ih htail)

/-- A repeated number agrees if the packed ones do. -/
theorem RepeatedVarint.up {R S : Reading} {convert : Nat → Int} {output output' : List Int}
    {v : Value} (h : RepeatedVarint R convert output v output')
    (hpasses : ∀ inner, v = .bytes inner →
      Grammar.varints.Everywhere R (KeyPasses R S) (NumberPasses R S) inner) :
    RepeatedVarint S convert output v output' := by
  rcases h with hsingle | ⟨content, ns, hvalue, hpacked, heq⟩
  · exact .inl hsingle
  · exact .inr ⟨content, ns, hvalue, (hpasses content hvalue).varints (fun _ h => h) hpacked, heq⟩

section Nested

variable {α β : Type} {g : Grammar} {P : Reading → Bytes → β → Prop} {Q : β → Prop} {v : Value}

/-- A field with a nested message agrees if the message does. -/
theorem Agrees.nested (h : Agrees g P) {R S : Reading}
    (hmove : ∃ content, v = .bytes content ∧ ∃ b, P R content b ∧ Q b)
    (hpasses : ∀ inner, v = .bytes inner →
      g.Everywhere R (KeyPasses R S) (NumberPasses R S) inner) :
    ∃ content, v = .bytes content ∧ ∃ b, P S content b ∧ Q b := by
  obtain ⟨content, hvalue, b, hinside, hb⟩ := hmove
  exact ⟨content, hvalue, b, h.up hinside (hpasses content hvalue), hb⟩

/-- The results of a message are some of its states. -/
theorem Agrees.comap {P : Reading → Bytes → α → Prop} (h : Agrees g P) (f : β → α) :
    Agrees g fun R content b => P R content (f b) :=
  ⟨fun hb => h.up hb⟩

/-- What remains of a message is checked after its loop. -/
theorem Agrees.and {P : Reading → Bytes → α → Prop} (h : Agrees g P) (Q : α → Prop) :
    Agrees g fun R content a => Q a ∧ P R content a :=
  ⟨fun ha hpasses => ⟨ha.1, h.up ha.2 hpasses⟩⟩

/-- What becomes of a message does not depend on the reading. -/
theorem Agrees.bind {P : Reading → Bytes → α → Prop} (h : Agrees g P) (Q : α → β → Prop) :
    Agrees g fun R content b => ∃ a, P R content a ∧ Q a b := by
  refine ⟨?_⟩
  rintro R S content b ⟨a, ha, hb⟩ hpasses
  exact ⟨a, h.up ha hpasses, hb⟩

end Nested

/-- A message without nested messages -/
theorem agrees_flat {σ : Type} (step : σ → Record → σ → Prop) (start : σ) :
    Agrees (.message start (fun _ => step) fun _ => .leaf) fun R => MessageOf R step start :=
  agrees_message start (fun _ => step) (fun _ => .leaf) fun _ _ _ _ _ hmove _ => hmove

/-! ## The messages of a model -/

theorem agrees_tensor : Agrees tensorGrammar TensorOf := by
  refine agrees_message _ _ _ fun R S tensor r tensor' hmove hpasses => ?_
  unfold TensorStep at hmove ⊢
  obtain ⟨field, v⟩ := r
  dsimp only at hmove hpasses ⊢
  split at hmove
  · obtain ⟨shape, h, heq⟩ := hmove
    exact ⟨shape, h.up hpasses, heq⟩
  · exact hmove
  · exact hmove
  · obtain ⟨int32Data, h, heq⟩ := hmove
    exact ⟨int32Data, h.up hpasses, heq⟩
  · exact hmove
  · exact hmove
  · exact hmove
  · exact hmove
  · exact hmove

theorem agrees_shape : Agrees shapeGrammar ShapeOf := by
  have hdimension : Agrees dimensionGrammar DimensionOf := (agrees_flat DimensionStep {}).comap _
  refine agrees_message _ _ _ fun R S shape r shape' hmove hpasses => ?_
  unfold ShapeStep at hmove ⊢
  obtain ⟨field, v⟩ := r
  dsimp only at hmove hpasses ⊢
  split at hmove
  · exact hdimension.nested hmove hpasses
  · exact hmove

theorem agrees_tensorType : Agrees tensorTypeGrammar TensorTypeOf := by
  refine (agrees_message _ _ _ fun R S type r type' hmove hpasses => ?_).comap _
  unfold TensorTypeStep at hmove ⊢
  obtain ⟨field, v⟩ := r
  dsimp only at hmove hpasses ⊢
  split at hmove
  · exact hmove
  · exact agrees_shape.nested hmove hpasses
  · exact hmove

theorem agrees_type : Agrees typeGrammar TypeOf := by
  refine (agrees_message _ _ _ fun R S result r result' hmove hpasses => ?_).comap _
  unfold TypeStep at hmove ⊢
  obtain ⟨field, v⟩ := r
  dsimp only at hmove hpasses ⊢
  split at hmove
  · exact agrees_tensorType.nested hmove hpasses
  · exact hmove

theorem agrees_valueInfo : Agrees valueInfoGrammar ValueInfoOf := by
  refine ((agrees_message _ _ _ fun R S info r info' hmove hpasses => ?_).comap _).and _
  unfold ValueInfoStep at hmove ⊢
  obtain ⟨field, v⟩ := r
  dsimp only at hmove hpasses ⊢
  split at hmove
  · exact hmove
  · exact agrees_type.nested hmove hpasses
  · exact hmove

theorem agrees_attribute : Agrees attributeGrammar AttributeOf := by
  refine (agrees_message _ _ _ fun R S a r a' hmove hpasses => ?_).bind _
  unfold AttributeStep at hmove ⊢
  obtain ⟨field, v⟩ := r
  dsimp only at hmove hpasses ⊢
  split at hmove
  · exact hmove
  · exact hmove
  · exact hmove
  · exact hmove
  · obtain ⟨integers, h, heq⟩ := hmove
    exact ⟨integers, h.up hpasses, heq⟩
  · exact hmove
  · exact hmove

theorem agrees_node : Agrees nodeGrammar NodeOf := by
  refine ((agrees_message _ _ _ fun R S node r node' hmove hpasses => ?_).comap _).and _
  unfold NodeStep at hmove ⊢
  obtain ⟨field, v⟩ := r
  dsimp only at hmove hpasses ⊢
  split at hmove
  · exact hmove
  · exact hmove
  · exact hmove
  · exact hmove
  · exact agrees_attribute.nested hmove hpasses
  · exact hmove
  · exact hmove

theorem agrees_initializer : Agrees tensorGrammar InitializerOf := agrees_tensor.bind _

theorem agrees_tensorProto : Agrees tensorGrammar TensorProtoOf := agrees_tensor.bind _

theorem agrees_graph : Agrees graphGrammar GraphOf := by
  refine agrees_message _ _ _ fun R S graph r graph' hmove hpasses => ?_
  unfold GraphStep at hmove ⊢
  obtain ⟨field, v⟩ := r
  dsimp only at hmove hpasses ⊢
  split at hmove
  · exact agrees_node.nested hmove hpasses
  · exact hmove
  · exact agrees_initializer.nested hmove hpasses
  · exact agrees_valueInfo.nested hmove hpasses
  · exact agrees_valueInfo.nested hmove hpasses
  · exact hmove

theorem agrees_opset : Agrees opsetGrammar OpsetOf := agrees_flat OpsetStep {}

theorem agrees_model : Agrees modelGrammar ModelOf := by
  refine ((agrees_message _ _ _ fun R S model r model' hmove hpasses => ?_).comap _).and _
  unfold ModelStep at hmove ⊢
  obtain ⟨field, v⟩ := r
  dsimp only at hmove hpasses ⊢
  split at hmove
  · exact agrees_graph.nested hmove hpasses
  · exact agrees_opset.nested hmove hpasses
  · exact hmove

/-! ## Keys and numbers -/

/-- What the reader takes from the bytes `rest`, if it returns, is what they say. -/
def Faithful {α : Type} (x : WireRead α) (P : Bytes → α → Prop) (rest : Bytes) : Prop :=
  ∀ (r : ByteReader) a r', r.Valid → r.left = rest → x r = .ok (a, r') →
    ∃ bs, rest = bs ++ r'.left ∧ P bs a

/-- A key of the format is taken from these bytes, or none. -/
def KeyFaithful : Bytes → Prop := Faithful WireReader.key (EncodesKey Reading.exact)

def NumberFaithful : Bytes → Prop := Faithful WireReader.varint (ReadVarint Reading.exact)

/-- The number of a key here is below `2 ^ 32`, so that its field number is below `2 ^ 29`; or
the field number is zero in 32 bits, which the reader refuses. -/
def KeyFits (rest : Bytes) : Prop := ∀ bs after n, rest = bs ++ after → Varint bs n →
  bs.length ≤ 10 → n < 2 ^ 32 ∨ n / 8 % 2 ^ 32 = 0

/-- The number here has 64 bits. -/
def NumberFits (rest : Bytes) : Prop := ∀ bs after n, rest = bs ++ after → Varint bs n →
  bs.length ≤ 10 → n < 2 ^ 64

/-- A reader with a specification takes what the bytes say, where all that its specification
finds in them is so. -/
theorem faithful_iff {α : Type} {E : Fault ParserError → Prop} {x : WireRead α}
    {P Q : Bytes → α → Prop} (h : Reads E x P) (rest : Bytes) :
    Faithful x Q rest ↔ ∀ bs after a, rest = bs ++ after → P bs a → Q bs a := by
  constructor
  · rintro hfaithful bs after a rfl ha
    let r : ByteReader := { bytes := bs ++ after }
    have hvalid : r.Valid := Nat.zero_le _
    have hrun := (h.ok r hvalid a (r.skip bs.length)).2 ⟨bs, after, rfl, ha, rfl⟩
    obtain ⟨bs', hsplit, hbs'⟩ := hfaithful r a _ hvalid rfl hrun
    rw [Lib.ByteReader.left_skip rfl] at hsplit
    exact List.append_cancel_right hsplit ▸ hbs'
  · rintro hall r a r' hvalid rfl hrun
    obtain ⟨bs, after, hsplit, ha, rfl⟩ := (h.ok r hvalid a r').1 hrun
    refine ⟨bs, ?_, hall bs after a hsplit ha⟩
    rw [Lib.ByteReader.left_skip hsplit]
    exact hsplit

/-- Narrowing a key does nothing iff the key fits. -/
theorem keyFaithful_iff_passes (rest : Bytes) :
    KeyFaithful rest ↔ KeyPasses wrapping Reading.exact rest :=
  faithful_iff WireReader.reads_key rest

/-- Narrowing a number does nothing iff the number fits. -/
theorem numberFaithful_iff_passes (rest : Bytes) :
    NumberFaithful rest ↔ NumberPasses wrapping Reading.exact rest :=
  faithful_iff WireReader.reads_varint rest

/-- A byte string is a varint of one number only. -/
theorem varint_unique {bs : Bytes} {n n' : Nat} (h : Varint bs n) (h' : Varint bs n') : n = n' :=
  (Varint.deterministic.unique h h' (congrArg (· ++ []) rfl)).2

/-- Read exactly, a varint has at most ten bytes and 64 bits. -/
theorem readVarint_exact_iff {bs : Bytes} {n : Nat} :
    ReadVarint Reading.exact bs n ↔ Varint bs n ∧ bs.length ≤ 10 ∧ n < 2 ^ 64 := by
  constructor
  · rintro ⟨hnumber, hshort, hread⟩
    unfold Reading.exact at hread
    dsimp only at hread
    split at hread
    · rename_i hsmall
      cases hread
      exact ⟨hnumber, hshort, hsmall⟩
    · cases hread
  · rintro ⟨hnumber, hshort, hsmall⟩
    exact ⟨hnumber, hshort, if_pos hsmall⟩

/-- `varint` takes the number here if it has no more than 64 bits, and drops the others if not. -/
theorem numberFaithful_iff (rest : Bytes) : NumberFaithful rest ↔ NumberFits rest := by
  rw [numberFaithful_iff_passes]
  constructor
  · intro h bs after n hsplit hnumber hshort
    have hexact := h bs after (n % 2 ^ 64) hsplit ⟨hnumber, hshort, rfl⟩
    obtain ⟨hnumber', -, hsmall⟩ := readVarint_exact_iff.1 hexact
    have hsame := varint_unique hnumber hnumber'
    rw [hsame]
    exact hsmall
  · rintro h bs after n' hsplit ⟨hnumber, hshort, hread⟩
    have hsmall := h bs after _ hsplit hnumber hshort
    cases hread
    rw [Nat.mod_eq_of_lt hsmall]
    exact readVarint_exact_iff.2 ⟨hnumber, hshort, hsmall⟩

/-- Read exactly, a key has a field number below `2 ^ 29`. -/
theorem encodesKey_exact {bs : Bytes} {n : Nat} {fw : Nat × Nat} (hnumber : Varint bs n)
    (h : EncodesKey Reading.exact bs fw) : n < 2 ^ 64 ∧ n / 8 < 2 ^ 29 := by
  obtain ⟨hread, hfield, -⟩ := h
  obtain ⟨hnumber', -, hsmall⟩ := readVarint_exact_iff.1 hread
  obtain rfl := varint_unique hnumber hnumber'
  unfold Reading.exact at hfield
  dsimp only at hfield
  split at hfield
  · rename_i hbits
    exact ⟨hsmall, hbits⟩
  · cases hfield

/-- `key` takes the field number here if it has no more than 29 bits; it throws if the low 32
bits of it are zero, and takes these for the field number if not. -/
theorem keyFaithful_iff (rest : Bytes) : KeyFaithful rest ↔ KeyFits rest := by
  rw [keyFaithful_iff_passes]
  have hlow (n : Nat) : n % 2 ^ 64 / 8 % 2 ^ 32 = n / 8 % 2 ^ 32 := by omega
  constructor
  · intro h bs after n hsplit hnumber hshort
    by_cases hzero : n / 8 % 2 ^ 32 = 0
    · exact .inr hzero
    · refine .inl ?_
      have hkey : EncodesKey wrapping bs (n % 2 ^ 64 / 8 % 2 ^ 32, n % 2 ^ 64 % 8) :=
        ⟨⟨hnumber, hshort, rfl⟩, rfl, by rwa [hlow]⟩
      obtain ⟨hsmall, hfield⟩ := encodesKey_exact hnumber (h bs after _ hsplit hkey)
      omega
  · rintro h bs after _ hsplit ⟨⟨hnumber, hshort, hread⟩, hfield, hnonzero⟩
    cases hread
    cases hfield
    rename_i n
    rw [hlow] at hnonzero ⊢
    rcases h bs after n hsplit hnumber hshort with hsmall | hzero
    · have hword : n % 2 ^ 64 = n := Nat.mod_eq_of_lt (by omega)
      have hbits : n / 8 % 2 ^ 32 = n / 8 := Nat.mod_eq_of_lt (by omega)
      rw [hbits] at hnonzero ⊢
      rw [hword]
      exact ⟨readVarint_exact_iff.2 ⟨hnumber, hshort, by omega⟩, if_pos (by omega), hnonzero⟩
    · exact absurd hzero hnonzero

/-! ## The reader on arbitrary bytes -/

/-- Both parsers end within the bytes, by a result or an exception. They take every key, number
and length for what it is or not at all, and accept precisely the messages of the format, each
record by its own field number and value. -/
structure ReadsExactly (bytes : Bytes) : Prop where
  modelSafe : ∀ e, parseModel bytes = .error e → Throws e
  tensorSafe : ∀ e, decodeTensorProto bytes = .error e → Throws e
  modelNumbers : modelGrammar.Everywhere wrapping KeyFaithful NumberFaithful bytes
  tensorNumbers : tensorGrammar.Everywhere wrapping KeyFaithful NumberFaithful bytes
  model : ∀ model, parseModel bytes = .ok model ↔ ModelOf Reading.exact bytes model
  tensor : ∀ t, decodeTensorProto bytes = .ok t ↔ TensorProtoOf Reading.exact bytes t

/-- No key or number that a parser comes to has bits that it drops, and no attribute of a node
lacks the payload that it declares. -/
structure Readable (bytes : Bytes) : Prop where
  modelNumbers : modelGrammar.Everywhere wrapping KeyFits NumberFits bytes
  tensorNumbers : tensorGrammar.Everywhere wrapping KeyFits NumberFits bytes
  payloads : ∀ content, modelGrammar.At wrapping [7, 1, 5] bytes content → ¬ LacksPayload content

/-- All numbers of a message are unchanged iff all of them fit. -/
theorem everywhere_faithful_iff (g : Grammar) (content : Bytes) :
    g.Everywhere wrapping KeyFaithful NumberFaithful content ↔
      g.Everywhere wrapping KeyFits NumberFits content :=
  ⟨fun h => h.mono (fun rest => (keyFaithful_iff rest).1) fun rest => (numberFaithful_iff rest).1,
    fun h => h.mono (fun rest => (keyFaithful_iff rest).2) fun rest => (numberFaithful_iff rest).2⟩

/-- What is read faithfully is what the format says. -/
theorem Agrees.exact_iff {α : Type} {g : Grammar} {P : Reading → Bytes → α → Prop} (h : Agrees g P)
    {content : Bytes} (hnumbers : g.Everywhere wrapping KeyFaithful NumberFaithful content)
    (a : α) :
    P wrapping content a ↔ P Reading.exact content a := by
  constructor
  · intro ha
    exact h.up ha (hnumbers.mono (fun rest => (keyFaithful_iff_passes rest).1)
      fun rest => (numberFaithful_iff_passes rest).1)
  · intro ha
    exact h.up ha (g.everywhere_of_le exact_le_wrapping content)

/-- The parser of models throws, or dereferences the empty payload of an attribute. -/
theorem modelSafe_iff (bytes : Bytes) : (∀ e, parseModel bytes = .error e → Throws e) ↔
    ∀ content, modelGrammar.At wrapping [7, 1, 5] bytes content → ¬ LacksPayload content := by
  constructor
  · intro hsafe content hat hlacks
    exact not_throws_empty (hsafe _ (parseModel_empty.2 ⟨content, hat, hlacks⟩))
  · intro hpayloads e hrun
    rcases (parseModel_spec bytes).1 e hrun with hthrows | rfl
    · exact hthrows
    · obtain ⟨content, hat, hlacks⟩ := parseModel_empty.1 hrun
      exact absurd hlacks (hpayloads content hat)

/-- The reader is safe and exact on precisely the bytes in which it drops no bits and no
attribute lacks its payload. -/
theorem readsExactly_iff (bytes : Bytes) : ReadsExactly bytes ↔ Readable bytes := by
  obtain ⟨htensorSafe, htensorOk⟩ := decodeTensorProto_spec bytes
  constructor
  · intro h
    exact {
      modelNumbers := (everywhere_faithful_iff _ _).1 h.modelNumbers
      tensorNumbers := (everywhere_faithful_iff _ _).1 h.tensorNumbers
      payloads := (modelSafe_iff bytes).1 h.modelSafe }
  · intro h
    have hmodel := (everywhere_faithful_iff _ _).2 h.modelNumbers
    have htensor := (everywhere_faithful_iff _ _).2 h.tensorNumbers
    exact {
      modelSafe := (modelSafe_iff bytes).2 h.payloads
      tensorSafe := htensorSafe
      modelNumbers := hmodel
      tensorNumbers := htensor
      model := fun model =>
        ((parseModel_spec bytes).2 model).trans (agrees_model.exact_iff hmodel model)
      tensor := fun t => (htensorOk t).trans (agrees_tensorProto.exact_iff htensor t) }

/-! ## Bytes that are not read exactly -/

/-- An empty graph under the field number `2 ^ 32 + 7`, and an opset -/
def wrappedModel : Bytes := [0xBA, 0x80, 0x80, 0x80, 0x80, 0x01, 0x00, 0x42, 0x02, 0x10, 0x0D]

/-- A node `R` with the attribute `a` of type `STRING`, which has no string -/
def emptyPayloadModel : Bytes :=
  [0x3A, 0x0D, 0x0A, 0x0B, 0x22, 0x01, 0x52, 0x2A, 0x06, 0x0A, 0x01, 0x61, 0xA0, 0x01, 0x03, 0x42,
    0x02, 0x10, 0x0D]

/-- The first model is accepted, its field taken for that of the graph. In the second one a
payload is dereferenced that is not there. -/
theorem not_readsExactly : ¬ ReadsExactly wrappedModel ∧ ¬ ReadsExactly emptyPayloadModel := by
  constructor
  · intro h
    have haccepted : parseModel wrappedModel = .ok { opsetVersion := 13, graph := {} } := rfl
    obtain ⟨-, rs, hrecords, -⟩ := (h.model _).1 haccepted
    generalize heq : wrappedModel = all at hrecords
    cases hrecords with
    | nil => cases heq
    | cons hhead _ =>
      obtain ⟨hkey, -⟩ := hhead
      rw [List.append_assoc] at heq
      have hnumber : Varint [0xBA, 0x80, 0x80, 0x80, 0x80, 0x01]
          (58 + 128 * (128 * (128 * (128 * (128 * 1))))) :=
        .more (by decide) (.more (by decide)
          (.more (by decide) (.more (by decide) (.more (by decide)
          (.last (by decide))))))
      obtain ⟨⟨hnumber', hshort, hread⟩, hfield, hnonzero⟩ := hkey
      obtain ⟨rfl, -⟩ := Varint.deterministic.unique hnumber hnumber'
        (show [0xBA, 0x80, 0x80, 0x80, 0x80, 0x01] ++ [0x00, 0x42, 0x02, 0x10, 0x0D] = _ from heq)
      have hbits := encodesKey_exact hnumber ⟨⟨hnumber', hshort, hread⟩, hfield, hnonzero⟩
      exact absurd hbits (by decide)
  · intro h
    have hempty : parseModel emptyPayloadModel = .error (.throws .emptyOptional) := rfl
    exact not_throws_empty (h.modelSafe _ hempty)

end TinyInfer.Onnx
