import TinyInfer.Core.Tensor
import TinyInfer.Onnx.ProtobufMessages

/-!
# Decoding tensors (`decode_tensor`)

The payload of a `TensorProto` is its raw data, or where that is empty its typed data.
`EncodesTensor` says which records stand for a tensor, and the decoder gives it back from
every sequence of them.

Main definitions: `TensorValues`, `EncodesTensor`, `payloadSize`.
-/

namespace TinyInfer.Onnx

open Lib (Fault)
open Lib.ByteReader (Steps)
open Lib.Wire (Bytes text Reading Record Value Seq ReadVarint Encodes EncodesFixed Repeats values
  values_cons repeats_cons
  littleEndian toLittleEndian)

/-! ## Elements -/

theorem rawByte_of_drop {raw bs rest : Bytes} {start : Nat}
    (hsplit : raw.drop start = bs ++ rest) {k : Nat} {b : UInt8} (hthere : bs[k]? = some b) :
    rawByte raw (start + k) = .ok b := by
  have hfound : raw[start + k]? = some b := by
    rw [← List.getElem?_drop, hsplit]
    exact (List.getElem?_append_left (List.getElem?_eq_some_iff.1 hthere).1).trans hthere
  unfold rawByte
  rw [hfound]

theorem word16 (b₀ b₁ : UInt8) :
    (b₀.toBitVec.setWidth 16 ||| (b₁.toBitVec.setWidth 16 <<< 8)).toNat = littleEndian
    [b₀, b₁] := by
  have hwide (b : UInt8) : (b.toBitVec.setWidth 16).toNat = b.toNat := by
    rw [BitVec.toNat_setWidth]
    exact Nat.mod_eq_of_lt (Nat.lt_trans b.toNat_lt (by decide))
  have := b₀.toNat_lt
  have := b₁.toNat_lt
  rw [toNat_or_shift (by rw [hwide]; omega) (by rw [hwide]; omega), hwide, hwide]
  simp only [littleEndian]
  omega

/-- An element is the number with the bytes in its place. -/
theorem rawElement_ok {dtype : DataType} {raw bs rest : Bytes} {i : Nat}
    (hsplit : raw.drop (i * dtype.size) = bs ++ rest) (hsize : bs.length = dtype.size) :
    rawElement dtype raw i = .ok (BitVec.ofNat 32 (littleEndian bs)) := by
  have hfour (hsplit : raw.drop (i * 4) = bs ++ rest) (hsize : bs.length = 4) :
      (do
        let b₀ ← rawByte raw (i * 4)
        let b₁ ← rawByte raw (i * 4 + 1)
        let b₂ ← rawByte raw (i * 4 + 2)
        let b₃ ← rawByte raw (i * 4 + 3)
        .ok (word32 b₀ b₁ b₂ b₃) :
          Parsed ElementBits) = .ok (BitVec.ofNat 32 (littleEndian bs)) := by
    obtain ⟨b₀, b₁, b₂, b₃, rfl⟩ : ∃ b₀ b₁ b₂ b₃, bs = [b₀, b₁, b₂, b₃] := by
      rcases bs with _ | ⟨b₀, _ | ⟨b₁, _ | ⟨b₂, _ | ⟨b₃, _ | _⟩⟩⟩⟩ <;>
        first | exact ⟨b₀, b₁, b₂, b₃, rfl⟩ | simp at hsize
    refine bind_ok.2 ⟨b₀, rawByte_of_drop (k := 0) hsplit rfl,
      bind_ok.2 ⟨b₁, rawByte_of_drop hsplit rfl,
        bind_ok.2 ⟨b₂, rawByte_of_drop hsplit rfl, bind_ok.2 ⟨b₃, rawByte_of_drop hsplit rfl, ?_⟩⟩⟩⟩
    rw [← toNat_word32, BitVec.ofNat_toNat, BitVec.setWidth_eq]
  cases dtype with
  | float32 => exact hfour hsplit hsize
  | int32 => exact hfour hsplit hsize
  | float16 =>
    obtain ⟨b₀, b₁, rfl⟩ : ∃ b₀ b₁, bs = [b₀, b₁] := by
      rcases bs with _ | ⟨b₀, _ | ⟨b₁, _ | _⟩⟩ <;>
        first | exact ⟨b₀, b₁, rfl⟩ | simp [DataType.size] at hsize
    refine bind_ok.2 ⟨b₀, rawByte_of_drop (k := 0) hsplit rfl,
      bind_ok.2 ⟨b₁, rawByte_of_drop hsplit rfl, ?_⟩⟩
    rw [← word16, BitVec.ofNat_toNat]
  | int8 =>
    obtain ⟨b, rfl⟩ : ∃ b, bs = [b] := by
      rcases bs with _ | ⟨b, _ | _⟩ <;> first | exact ⟨b, rfl⟩ | simp [DataType.size] at hsize
    rw [show i * DataType.int8.size = i from Nat.mul_one i] at hsplit
    refine bind_ok.2 ⟨b, rawByte_of_drop (k := 0) hsplit rfl, congrArg Except.ok ?_⟩
    rw [show littleEndian [b] = b.toBitVec.toNat from rfl, BitVec.ofNat_toNat]

/-- No element of the raw data is outside it. -/
theorem rawElement_inside {dtype : DataType} {raw : Bytes} {count i : Nat}
    (hsize : raw.length = count * dtype.size) (hinside : i < count) :
    ∃ e, rawElement dtype raw i = .ok e := by
  have hroom : (i + 1) * dtype.size ≤ raw.length := by
    rw [hsize]
    exact Nat.mul_le_mul_right _ hinside
  rw [Nat.succ_mul] at hroom
  refine ⟨_, rawElement_ok (List.take_append_drop dtype.size _).symm ?_⟩
  rw [List.length_take, List.length_drop]
  omega

theorem typedElement_faults {dtype : DataType} {value : Int} {e : Fault ParserError}
    (h : typedElement dtype value = .error e) : Invalid e := by
  unfold typedElement at h
  split at h
  · split at h
    · exact invalid_of_result h
    · cases h
  · split at h
    · exact invalid_of_result h
    · cases h
  · cases h
  · cases h

/-- What fails in a list of results. -/
theorem mapM_error {ε α β : Type} {f : α → Except ε β} {as : List α} {e : ε}
    (h : as.mapM f = .error e) :
    ∃ a ∈ as, f a = .error e := by
  induction as with
  | nil => cases h
  | cons a as ih =>
    rw [List.mapM_cons] at h
    rcases bind_error.1 h with h | ⟨b, -, h⟩
    · exact ⟨a, List.mem_cons_self, h⟩
    · rcases bind_error.1 h with h | ⟨bs, -, h⟩
      · obtain ⟨a', hmem, hfailed⟩ := ih h
        exact ⟨a', List.mem_cons_of_mem a hmem, hfailed⟩
      · cases h

/-- A payload fails only as an invalid argument. -/
theorem payload_faults {source : ParsedTensor} {dtype : DataType} {count : Nat}
    {e : Fault ParserError} (h : payload source dtype count = .error e) : Invalid e := by
  unfold payload at h
  split at h
  · split at h
    · exact invalid_of_result h
    · rename_i hsize
      obtain ⟨i, hmem, hfailed⟩ := mapM_error h
      obtain ⟨bits, hread⟩ := rawElement_inside (not_not.1 hsize) (List.mem_range.1 hmem)
      rw [hread] at hfailed
      cases hfailed
  · split at h
    · split at h
      · exact invalid_of_result h
      · cases h
    · split at h
      · exact invalid_of_result h
      · obtain ⟨value, -, hfailed⟩ := mapM_error h
        exact typedElement_faults hfailed

/-- `decode_tensor` throws exceptions of the library only. -/
theorem decodeTensor_faults {source : ParsedTensor} {e : Fault ParserError}
    (h : decodeTensor source = .error e) :
    ∃ exn, e = .throws (.exn exn) := by
  have hwrap {e : Fault ParserError} (h : Invalid e) : ∃ exn, e = .throws (.exn exn) := by
    obtain ⟨what, rfl⟩ := h
    exact ⟨_, rfl⟩
  unfold decodeTensor at h
  split at h
  · exact hwrap (invalid_of_result h)
  · rcases bind_error.1 h with h | ⟨dtype, -, h⟩
    · exact hwrap (invalid_of_dataType h)
    · rcases bind_error.1 h with h | ⟨layout, -, h⟩
      · cases hbuilt : TensorLayout.ofShape source.shape with
        | error exn =>
          rw [hbuilt] at h
          cases h
          exact ⟨exn, rfl⟩
        | ok layout =>
          rw [hbuilt] at h
          cases h
      · split at h
        · rcases bind_error.1 h with h | ⟨elements, -, h⟩
          · exact hwrap (payload_faults h)
          · cases h
        · cases h
          exact ⟨_, rfl⟩

/-! ## Encodings -/

/-- What the fields of a `TensorProto` hold. -/
structure TensorValues (rs : List Record) (dims types floats ints : List Nat) (raws : List Bytes) :
    Prop where
  dims : Repeats .varint (ReadVarint Reading.exact) (values 1 rs) dims
  types : values 2 rs = types.map .varint
  floats : Repeats .fixed32 (EncodesFixed 4) (values 4 rs) floats
  ints : Repeats .varint (ReadVarint Reading.exact) (values 5 rs) ints
  name : ∀ v ∈ values 8 rs, ∃ content, v = .bytes content
  raws : values 9 rs = raws.map .bytes
  /-- There is no external data. -/
  internal : values 13 rs = []
  location : ∀ v ∈ values 14 rs, v = .varint 0

/-- `data_type` of an element type -/
def typeCode : DataType → Nat
  | .float32 => 1
  | .int8 => 3
  | .int32 => 6
  | .float16 => 10

/-- The number that stands for an element in the typed data, sign-extended if it is signed. -/
def typedCode (dtype : DataType) (e : ElementBits) : Nat :=
  match dtype with
  | .float32 | .float16 => e.toNat
  | .int8 => ((e.setWidth 8).signExtend 64).toNat
  | .int32 => (e.signExtend 64).toNat

/-- The payload of a tensor: its elements are raw, or are typed. -/
inductive EncodesPayload (t : Tensor ElementBits) : List Nat → List Nat → List Bytes → Prop
  | raw : EncodesPayload t [] [] [t.elements.flatMap fun e => toLittleEndian t.dtype.size e.toNat]
  | floats (dtype : t.dtype = .float32) : EncodesPayload t (t.elements.map BitVec.toNat) [] []
  | ints (dtype : t.dtype ≠ .float32) : EncodesPayload t [] (t.elements.map (typedCode t.dtype)) []

/-- The records stand for a tensor. Those of fields without a meaning are arbitrary. -/
def EncodesTensor (t : Tensor ElementBits) (rs : List Record) : Prop :=
  ∃ floats ints raws, EncodesPayload t floats ints raws ∧
    TensorValues rs (t.shape.map Int.toNat) [typeCode t.dtype] floats ints raws

/-! ## What the parser makes of them -/

/-- The last value of a field counts, and repeated numbers are appended. -/
structure Parses (p p' : ParsedTensor) (dims types floats ints : List Nat) (raws : List Bytes) :
    Prop where
  shape : p'.shape = p.shape ++ dims.map signedVarint
  dataType : p'.dataType = (types.map signed32).getLastD p.dataType
  floatData : p'.floatData = p.floatData ++ floats.map floatFromBits
  int32Data : p'.int32Data = p.int32Data ++ ints.map signed32
  rawData : p'.rawData = raws.getLastD p.rawData
  external : p.external = false → p'.external = false

/-- The records of an encoding, packed or not, lead to the tensor they say. -/
theorem steps_tensor {rs : List Record} {dims types floats ints : List Nat} {raws : List Bytes}
    (h : TensorValues rs dims types floats ints raws) (p : ParsedTensor) :
    ∃ p', Steps (TensorStep wrapping) p rs p' ∧ Parses p p' dims types floats ints raws := by
  -- on the records, from the first: its values come before those of the rest
  induction rs generalizing p dims types floats ints raws with
  | nil =>
    obtain ⟨hdims, htypes, hfloats, hints, -, hraws, -, -⟩ := h
    cases hdims
    cases hfloats
    cases hints
    rw [List.map_eq_nil_iff.1 htypes.symm, List.map_eq_nil_iff.1 hraws.symm]
    exact ⟨p, .nil, by simp, rfl, by simp, by simp, rfl, id⟩
  | cons r rs ih =>
    obtain ⟨field, v⟩ := r
    obtain ⟨hdims, htypes, hfloats, hints, hname, hraws, hinternal, hlocation⟩ := h
    simp only [values_cons] at hdims htypes hfloats hints hname hraws hinternal hlocation
    obtain rfl | rfl | rfl | rfl | rfl | rfl | rfl | rfl | ⟨h1, h2, h4, h5, h8, h9, h13, h14⟩ :
        field = 1 ∨ field = 2 ∨ field = 4 ∨ field = 5 ∨ field = 8 ∨ field = 9 ∨
        field = 13 ∨ field = 14 ∨
          (field ≠ 1 ∧ field ≠ 2 ∧ field ≠ 4 ∧ field ≠ 5 ∧ field ≠ 8 ∧ field ≠ 9 ∧ field ≠ 13 ∧
            field ≠ 14) := by
      omega
    -- only the values of the field of the record change
    · simp only [if_pos, Nat.reduceEqDiff, if_false] at *
      obtain ⟨head, tail, rfl, hrest, hadds⟩ := repeats_cons.1 hdims
      obtain ⟨p', hsteps, hparses⟩ :=
        ih ⟨hrest, htypes, hfloats, hints, hname, hraws, hinternal, hlocation⟩
        { p with shape := p.shape ++ head.map signedVarint }
      refine ⟨p', .cons ⟨_, (repeatedVarint_iff.2 ⟨head, hadds, rfl⟩).mono exact_le_wrapping, rfl⟩
        hsteps, { hparses with shape := ?_ }⟩
      rw [hparses.shape, List.map_append, List.append_assoc]
    · simp only [if_pos, Nat.reduceEqDiff, if_false] at *
      obtain ⟨n, types, rfl, rfl, hrest⟩ := List.map_eq_cons_iff.1 htypes.symm
      obtain ⟨p', hsteps, hparses⟩ :=
        ih ⟨hdims, hrest.symm, hfloats, hints, hname, hraws, hinternal, hlocation⟩
        { p with dataType := signed32 n }
      refine ⟨p', .cons ⟨n, rfl, rfl⟩ hsteps, { hparses with dataType := ?_ }⟩
      rw [hparses.dataType, List.map_cons, List.getLastD_cons]
    · simp only [if_pos, Nat.reduceEqDiff, if_false] at *
      obtain ⟨head, tail, rfl, hrest, hadds⟩ := repeats_cons.1 hfloats
      obtain ⟨p', hsteps, hparses⟩ :=
        ih ⟨hdims, htypes, hrest, hints, hname, hraws, hinternal, hlocation⟩
        { p with floatData := p.floatData ++ head.map floatFromBits }
      refine ⟨p', .cons ⟨_, repeatedFloat_iff.2 ⟨head, hadds, rfl⟩, rfl⟩ hsteps,
        { hparses with floatData := ?_ }⟩
      rw [hparses.floatData, List.map_append, List.append_assoc]
    · simp only [if_pos, Nat.reduceEqDiff, if_false] at *
      obtain ⟨head, tail, rfl, hrest, hadds⟩ := repeats_cons.1 hints
      obtain ⟨p', hsteps, hparses⟩ :=
        ih ⟨hdims, htypes, hfloats, hrest, hname, hraws, hinternal, hlocation⟩
        { p with int32Data := p.int32Data ++ head.map signed32 }
      refine ⟨p', .cons ⟨_, (repeatedVarint_iff.2 ⟨head, hadds, rfl⟩).mono exact_le_wrapping, rfl⟩
        hsteps, { hparses with int32Data := ?_ }⟩
      rw [hparses.int32Data, List.map_append, List.append_assoc]
    · simp only [if_pos, Nat.reduceEqDiff, if_false] at *
      obtain ⟨⟨content, rfl⟩, hrest⟩ := List.forall_mem_cons.1 hname
      obtain ⟨p', hsteps, hparses⟩ :=
        ih ⟨hdims, htypes, hfloats, hints, hrest, hraws, hinternal, hlocation⟩
        { p with name := text content }
      exact ⟨p', .cons ⟨content, rfl, rfl⟩ hsteps, { hparses with }⟩
    · simp only [if_pos, Nat.reduceEqDiff, if_false] at *
      obtain ⟨content, raws, rfl, rfl, hrest⟩ := List.map_eq_cons_iff.1 hraws.symm
      obtain ⟨p', hsteps, hparses⟩ :=
        ih ⟨hdims, htypes, hfloats, hints, hname, hrest.symm, hinternal, hlocation⟩
        { p with rawData := content }
      refine ⟨p', .cons ⟨content, rfl, rfl⟩ hsteps, { hparses with rawData := ?_ }⟩
      rw [hparses.rawData, List.getLastD_cons]
    -- a string or an internal field is not among the encodings
    · rw [if_pos rfl] at hinternal
      cases hinternal
    · simp only [if_pos, Nat.reduceEqDiff, if_false] at *
      obtain ⟨rfl, hrest⟩ := List.forall_mem_cons.1 hlocation
      obtain ⟨p', hsteps, hparses⟩ :=
        ih ⟨hdims, htypes, hfloats, hints, hname, hraws, hinternal, hrest⟩
        { p with external := false }
      exact ⟨p', .cons ⟨0, rfl, rfl⟩ hsteps,
        { hparses with external := fun _ => hparses.external rfl }⟩
    -- the parser skips any other field
    · simp only [if_neg h1, if_neg h2, if_neg h4, if_neg h5, if_neg h8, if_neg h9, if_neg h13,
        if_neg h14] at *
      obtain ⟨p', hsteps, hparses⟩ :=
        ih ⟨hdims, htypes, hfloats, hints, hname, hraws, hinternal, hlocation⟩ p
      refine ⟨p', .cons ?_ hsteps, hparses⟩
      unfold TensorStep
      split <;> first | contradiction | rfl

/-! ## What the decoder makes of them -/

/-- The elements have no bits but those of their type. -/
def Narrow (t : Tensor ElementBits) : Prop := ∀ e ∈ t.elements, e.toNat < 256 ^ t.dtype.size

theorem signedVarint_dim {d : Int} (hnonneg : 0 ≤ d) (hfits : d ≤ int64Max) :
    signedVarint d.toNat = d := by
  unfold signedVarint
  have hsmall : d.toNat < 2 ^ 63 := by
    unfold int64Max at hfits
    omega
  rw [BitVec.toInt_ofNat', Int.bmod_eq_of_le_mul_two (by omega) (by omega),
    Int.toNat_of_nonneg hnonneg]

theorem dataType_typeCode (dtype : DataType) :
    dataType (signed32 (typeCode dtype)) = .ok dtype := by
  cases dtype <;> rfl

theorem rawData_length (size : Nat) (es : List ElementBits) :
    (es.flatMap fun e => toLittleEndian size e.toNat).length = es.length * size := by
  induction es with
  | nil => exact (Nat.zero_mul size).symm
  | cons e es ih =>
    rw [List.flatMap_cons, List.length_append, ih, Lib.Wire.length_toLittleEndian,
      List.length_cons, Nat.succ_mul, Nat.add_comm]

/-- The elements from the `before.length`-th on. -/
theorem rawElements_ok {dtype : DataType} (before : List ElementBits) {after : List ElementBits}
    (hnarrow : ∀ e ∈ after, e.toNat < 256 ^ dtype.size) :
    (List.range' before.length after.length).mapM
      (rawElement dtype ((before ++ after).flatMap fun e => toLittleEndian dtype.size e.toNat)) =
        .ok after := by
  induction after generalizing before with
  | nil => rfl
  | cons e after ih =>
    obtain ⟨hhead, htail⟩ := List.forall_mem_cons.1 hnarrow
    have hsplit : ((before ++ e :: after).flatMap fun e => toLittleEndian dtype.size e.toNat).drop
        (before.length * dtype.size) = toLittleEndian dtype.size e.toNat ++
          after.flatMap fun e => toLittleEndian dtype.size e.toNat := by
      rw [List.flatMap_append, List.flatMap_cons, ← rawData_length, List.drop_left]
    have helement := rawElement_ok hsplit (Lib.Wire.length_toLittleEndian _ _)
    rw [Lib.Wire.littleEndian_toLittleEndian, Nat.mod_eq_of_lt hhead, BitVec.ofNat_toNat,
      BitVec.setWidth_eq] at helement
    have hrest := ih (before ++ [e]) htail
    rw [List.length_append, List.length_singleton, List.append_assoc,
      List.singleton_append] at hrest
    rw [List.length_cons, List.range'_succ, List.mapM_cons, helement]
    exact bind_ok.2 ⟨e, rfl, bind_ok.2 ⟨after, hrest, rfl⟩⟩

/-- Sign extension keeps the low bits. -/
theorem signed32_signExtend {w : Nat} (hnarrow : w ≤ 32) (x : BitVec w) :
    signed32 (x.signExtend 64).toNat = x.toInt := by
  have hlow : (x.signExtend 64).setWidth 32 = x.signExtend 32 := by
    refine BitVec.eq_of_getElem_eq fun i hinside => ?_
    rw [BitVec.getElem_setWidth, BitVec.getLsbD_signExtend, BitVec.getElem_signExtend]
    simp [show i < 64 by omega, BitVec.getLsbD, BitVec.getElem_eq_testBit_toNat]
  rw [signed32, BitVec.ofNat_toNat, hlow, BitVec.toInt_signExtend_of_le hnarrow]

/-- An element of a typed field is read back. -/
theorem typedElement_ok {dtype : DataType} (htyped : dtype ≠ .float32) {e : ElementBits}
    (hnarrow : e.toNat < 256 ^ dtype.size) :
    typedElement dtype (signed32 (typedCode dtype e)) = .ok e := by
  cases dtype with
  | float32 => exact absurd rfl htyped
  | float16 =>
    have hsmall : e.toNat < 65536 := hnarrow
    have hvalue : signed32 e.toNat = e.toNat := by
      rw [signed32, BitVec.toInt_ofNat', Int.bmod_eq_of_le_mul_two (by omega) (by omega)]
    have hbits : (BitVec.ofInt 16 (e.toNat : Int)).setWidth 32 = e := by
      refine BitVec.eq_of_toNat_eq ?_
      rw [BitVec.ofInt_natCast, BitVec.toNat_setWidth, BitVec.toNat_ofNat]
      omega
    show typedElement .float16 (signed32 e.toNat) = _
    rw [hvalue]
    unfold typedElement
    rw [if_neg (by omega), hbits]
  | int8 =>
    have hsmall : e.toNat < 256 := hnarrow
    have hvalue : signed32 (typedCode .int8 e) = (e.setWidth 8).toInt :=
      signed32_signExtend (by decide) _
    have hleast : -128 ≤ (e.setWidth 8).toInt := BitVec.le_toInt (e.setWidth 8)
    have hgreatest : (e.setWidth 8).toInt < 128 := BitVec.toInt_lt
    have hbits : (BitVec.ofInt 8 (e.setWidth 8).toInt).setWidth 32 = e := by
      refine BitVec.eq_of_toNat_eq ?_
      rw [BitVec.ofInt_toInt, BitVec.toNat_setWidth, BitVec.toNat_setWidth]
      omega
    rw [hvalue]
    unfold typedElement
    dsimp only
    rw [if_neg (by omega), hbits]
  | int32 =>
    have hvalue : signed32 (typedCode .int32 e) = e.toInt := signed32_signExtend (by decide) _
    rw [hvalue]
    unfold typedElement
    rw [BitVec.ofInt_toInt]

/-- All elements of a typed field are read back. -/
theorem typedElements_ok {dtype : DataType} (htyped : dtype ≠ .float32) {es : List ElementBits}
    (hnarrow : ∀ e ∈ es, e.toNat < 256 ^ dtype.size) :
    ((es.map (typedCode dtype)).map signed32).mapM (typedElement dtype) = .ok es := by
  induction es with
  | nil => rfl
  | cons e es ih =>
    obtain ⟨hhead, htail⟩ := List.forall_mem_cons.1 hnarrow
    rw [List.map_cons, List.map_cons, List.mapM_cons, typedElement_ok htyped hhead]
    exact bind_ok.2 ⟨e, rfl, bind_ok.2 ⟨es, ih htail, rfl⟩⟩

theorem map_floatFromBits (es : List ElementBits) :
    (es.map BitVec.toNat).map floatFromBits = es := by
  induction es with
  | nil => rfl
  | cons e es ih =>
    rw [List.map_cons, List.map_cons, ih, floatFromBits, BitVec.ofNat_toNat, BitVec.setWidth_eq]

/-- Without raw data and typed data there are no elements. -/
theorem payload_empty {source : ParsedTensor} {dtype : DataType} (hraw : source.rawData = [])
    (hfloats : source.floatData = []) (hints : source.int32Data = []) :
    payload source dtype 0 = .ok [] := by
  unfold payload
  rw [if_neg (not_not.2 hraw), hfloats, hints]
  split
  · rfl
  · rfl

/-- Every encoding of a payload gives the elements back. -/
theorem payload_ok {t : Tensor ElementBits} (hnarrow : Narrow t) {floats ints : List Nat}
    {raws : List Bytes} (h : EncodesPayload t floats ints raws) {source : ParsedTensor}
    (hfloatData : source.floatData = floats.map floatFromBits)
    (hint32Data : source.int32Data = ints.map signed32)
    (hrawData : source.rawData = raws.getLastD []) :
    payload source t.dtype t.numel = .ok t.elements := by
  cases h with
  | raw =>
    rw [List.getLastD_cons, List.getLastD_nil] at hrawData
    have hlength := rawData_length t.dtype.size t.elements
    rw [Tensor.length_elements] at hlength
    by_cases hnone : t.numel = 0
    · have hempty : t.elements = [] := List.length_eq_zero_iff.1 ((t.length_elements).trans hnone)
      rw [hnone, hempty]
      rw [hempty] at hrawData
      exact payload_empty hrawData hfloatData hint32Data
    · have hsome : source.rawData ≠ [] := by
        intro hempty
        rw [← hrawData, hempty] at hlength
        have : 0 < t.dtype.size := by cases t.dtype <;> decide
        exact (Nat.mul_pos (Nat.pos_of_ne_zero hnone) this).ne hlength
      unfold payload
      rw [if_pos hsome, if_neg (not_not.2 (by rw [hrawData, hlength]))]
      have hall := rawElements_ok [] hnarrow
      rw [List.length_nil, Tensor.length_elements, ← List.range_eq_range'] at hall
      rw [hrawData]
      exact hall
  | floats hdtype =>
    have hnoRaw : source.rawData = [] := hrawData
    unfold payload
    rw [if_neg (not_not.2 hnoRaw), if_pos hdtype, hfloatData, map_floatFromBits,
      if_neg (not_not.2 (t.length_elements))]
  | ints hdtype =>
    have hnoRaw : source.rawData = [] := hrawData
    unfold payload
    rw [if_neg (not_not.2 hnoRaw), if_neg hdtype, hint32Data, typedElements_ok hdtype hnarrow,
      if_neg (not_not.2 (by rw [List.length_map, List.length_map, Tensor.length_elements]))]

/-- The decoder gives a tensor back whose fields a message holds. -/
theorem decodeTensor_ok {t : Tensor ElementBits} (hnarrow : Narrow t) (hint64 : t.shape.Int64)
    {floats ints : List Nat} {raws : List Bytes} (h : EncodesPayload t floats ints raws)
    {parsed : ParsedTensor} (hparses : Parses {} parsed (t.shape.map Int.toNat)
      [typeCode t.dtype] floats ints raws) :
    ∃ t', decodeTensor parsed = .ok t' ∧ t'.shape = t.shape ∧ t'.dtype = t.dtype ∧
      t'.isContiguous = true ∧
      t'.elements = t.elements := by
  have hshape : parsed.shape = t.shape := by
    rw [hparses.shape, List.map_map]
    show t.shape.map _ = _
    conv_rhs => rw [← List.map_id t.shape]
    refine List.map_congr_left fun d hmem => ?_
    exact signedVarint_dim (t.layout.admits.nonneg d hmem) (hint64 d hmem)
  have hbuilt : TensorLayout.ofShape parsed.shape = .ok (.contiguous t.shape t.layout.admits) := by
    rw [hshape]
    exact TensorLayout.ofShape_ok.2 ⟨t.layout.admits, rfl⟩
  have hread := payload_ok hnarrow h hparses.floatData hparses.int32Data hparses.rawData
  have htype : dataType parsed.dataType = .ok t.dtype := by
    rw [hparses.dataType]
    exact dataType_typeCode t.dtype
  refine ⟨⟨.contiguous t.shape t.layout.admits, t.dtype, fun i => t.elements.getD i 0, t.bytes_le⟩,
    ?_, rfl, rfl, ?_, ?_⟩
  · unfold decodeTensor
    rw [hparses.external rfl, if_neg Bool.false_ne_true, htype, hbuilt]
    exact (dif_pos t.bytes_le).trans (bind_ok.2 ⟨t.elements, hread, rfl⟩)
  · exact beq_self_eq_true _
  · exact Tensor.elements_contiguous rfl (fun i => rfl) (t.length_elements)

/-! ## Sizes -/

/-- The bytes or the elements of the payload that counts. -/
def payloadSize (source : ParsedTensor) (dtype : DataType) : Nat :=
  if source.rawData ≠ [] then source.rawData.length
  else if dtype = .float32 then source.floatData.length
  else source.int32Data.length

/-- As many as the shape requires. -/
def requiredSize (source : ParsedTensor) (dtype : DataType) (count : Nat) : Nat :=
  if source.rawData ≠ [] then count * dtype.size else count

/-- A payload is accepted only with the size the shape requires. -/
theorem payload_size {source : ParsedTensor} {dtype : DataType} {count : Nat}
    {es : List ElementBits} (h : payload source dtype count = .ok es) :
    payloadSize source dtype = requiredSize source dtype count := by
  unfold payload at h
  unfold payloadSize requiredSize
  split at h
  · rename_i hraw
    rw [if_pos hraw, if_pos hraw]
    split at h
    · cases h
    · rename_i hsize
      exact not_not.1 hsize
  · rename_i hraw
    rw [if_neg hraw, if_neg hraw]
    split at h
    · rename_i hfloat
      rw [if_pos hfloat]
      split at h
      · cases h
      · rename_i hsize
        exact not_not.1 hsize
    · rename_i hfloat
      rw [if_neg hfloat]
      split at h
      · cases h
      · rename_i hsize
        exact not_not.1 hsize

/-- A tensor is accepted only with the size its shape requires. -/
theorem decodeTensor_size {source : ParsedTensor} {t : Tensor ElementBits}
    (h : decodeTensor source = .ok t) :
    ∃ dtype layout, dataType source.dataType = .ok dtype ∧
      TensorLayout.ofShape source.shape = .ok layout ∧
      payloadSize source dtype = requiredSize source dtype layout.numel := by
  unfold decodeTensor at h
  split at h
  · cases h
  · obtain ⟨dtype, htype, h⟩ := bind_ok.1 h
    obtain ⟨layout, hbuilt, h⟩ := bind_ok.1 h
    split at h
    · obtain ⟨es, hread, -⟩ := bind_ok.1 h
      refine ⟨dtype, layout, htype, ?_, payload_size hread⟩
      cases hmade : TensorLayout.ofShape source.shape with
      | error exn =>
        rw [hmade] at hbuilt
        cases hbuilt
      | ok layout' =>
        rw [hmade] at hbuilt
        cases hbuilt
        rfl
    · cases h

theorem decodeTensorProto_of_parsed {bytes : Bytes} {parsed : ParsedTensor}
    (h : parseTensor bytes = .ok parsed) :
    decodeTensorProto bytes = asImportError "" parsed.name (decodeTensor parsed) := by
  unfold decodeTensorProto
  rw [h]

/-- Decoding inverts encoding: whatever the order of the fields, the packing of repeated
numbers and the unknown fields, the tensor comes back. A payload of another size is refused. -/
theorem decode_encode :
    (∀ (t : Tensor ElementBits) (bytes : Bytes) (rs : List Record), Narrow t → t.shape.Int64 →
      Seq (Encodes Reading.exact) bytes rs → EncodesTensor t rs →
      ∃ t', decodeTensorProto bytes = .ok t' ∧ t'.shape = t.shape ∧ t'.dtype = t.dtype ∧
        t'.isContiguous = true ∧
        t'.elements = t.elements) ∧
    ∀ (bytes : Bytes) (parsed : ParsedTensor), TensorOf wrapping bytes parsed →
      (∀ dtype layout, dataType parsed.dataType = .ok dtype →
        TensorLayout.ofShape parsed.shape = .ok layout →
        payloadSize parsed dtype ≠ requiredSize parsed dtype layout.numel) →
      ∃ diagnostic, decodeTensorProto bytes = .error (.throws (.importError diagnostic)) := by
  constructor
  · rintro t bytes rs hnarrow hint64 hencoded ⟨floats, ints, raws, hpayload, hfields⟩
    obtain ⟨parsed, hsteps, hparses⟩ := steps_tensor hfields {}
    have hparse : parseTensor bytes = .ok parsed := by
      refine ((parseTensor_spec bytes).2 parsed).2 ⟨rs, ?_, hsteps⟩
      exact hencoded.mono fun _ _ => Encodes.mono exact_le_wrapping
    obtain ⟨t', hdecoded, hsame⟩ := decodeTensor_ok hnarrow hint64 hpayload hparses
    refine ⟨t', ?_, hsame⟩
    rw [decodeTensorProto_of_parsed hparse, hdecoded]
    rfl
  · intro bytes parsed h hdiffers
    rw [decodeTensorProto_of_parsed (((parseTensor_spec bytes).2 parsed).2 h)]
    cases hresult : decodeTensor parsed with
    | ok t =>
      obtain ⟨dtype, layout, htype, hbuilt, hsize⟩ := decodeTensor_size hresult
      exact absurd hsize (hdiffers dtype layout htype hbuilt)
    | error e =>
      obtain ⟨exn, rfl⟩ := decodeTensor_faults hresult
      exact ⟨_, rfl⟩

/-- Two `int8` elements, the first of them negative. -/
def signedPair : Tensor ElementBits where
  layout := .contiguous [2] (by decide)
  dtype := .int8
  data i := if i = 0 then 0xFF else 5
  bytes_le := by decide

/-- Its elements one by one around an unknown field, and its type last. -/
def signedPairRecords : List Record :=
  [⟨1, .varint 2⟩, ⟨5, .varint (2 ^ 64 - 1)⟩, ⟨20, .fixed64 7⟩, ⟨5, .varint 5⟩, ⟨2, .varint 3⟩]

/-- Two signed bytes, the negative one as a ten-byte varint. -/
theorem decode_encode_signedPair :
    (∃ t', decodeTensorProto (signedPairRecords.flatMap Record.write) = .ok t' ∧ t'.shape = [2] ∧
      t'.dtype = .int8 ∧
      t'.isContiguous = true ∧ t'.elements = signedPair.elements) ∧
    ∃ diagnostic, decodeTensorProto (Record.write ⟨2, .varint 1⟩ ++ []) =
      .error (.throws (.importError diagnostic)) := by
  constructor
  · refine decode_encode.1 signedPair _ signedPairRecords ?_ (by decide)
      (Lib.Wire.seq_write (by decide))
      ⟨[], [2 ^ 64 - 1, 5], [], .ints (by decide), ?_⟩
    · have htwo : signedPair.elements = [0xFF, 5] := rfl
      have hbound : 256 ^ signedPair.dtype.size = 256 := rfl
      unfold Narrow
      rw [htwo, hbound]
      exact List.forall_mem_cons.2 ⟨by decide, List.forall_mem_singleton.2 (by decide)⟩
    · exact ⟨.single .nil, rfl, .nil, .single (.single .nil),
        fun v hmem => absurd hmem List.not_mem_nil, rfl, rfl, fun v hmem =>
          absurd hmem List.not_mem_nil⟩
  · refine decode_encode.2 _ { dataType := 1 } ⟨[⟨2, .varint 1⟩], ?_, .cons ⟨1, rfl, rfl⟩ .nil⟩ ?_
    · exact .cons (Encodes.mono exact_le_wrapping (Lib.Wire.encodes_write (by decide))) .nil
    · intro dtype layout htype hbuilt
      obtain rfl : DataType.float32 = dtype := Except.ok.inj htype
      obtain ⟨hadmits, rfl⟩ := TensorLayout.ofShape_ok.1 hbuilt
      exact Nat.zero_ne_one

end TinyInfer.Onnx
