import TinyInfer.Lib.ByteReader
import TinyInfer.Onnx.Importer
import Mathlib.Data.Nat.Bitwise

/-!
# The wire reader (`model/onnx/protobuf_model_parser.cpp`)

`WireReader` reads keys, numbers and ranges of bytes of a protobuf message. Field numbers
are narrowed to 32 bits and varints to 64, `wrapping`; under this reading it takes what
the wire format has (`reads_varint`, `reads_key`, `reads_bytes`, `reads_skip`).

Main definitions: `WireReader.varint`, `key`, `bytes`, `skip`, `wrapping`.
-/

namespace TinyInfer.Onnx

open Lib (Fault Reader ByteReader)
open Lib.ByteReader (Reads)
open Lib.Wire (Bytes Reading Varint ReadVarint EncodesKey EncodesBytes EncodesFixed
  EncodesValue littleEndian)

/-- How a parser ends without a result. -/
inductive ParserError where
  | exn (e : Exn)
  | importError (diagnostic : OnnxImportDiagnostic)
  /-- An `std::optional` without a value was dereferenced, which is undefined. -/
  | emptyOptional
  deriving DecidableEq, Repr

abbrev Parsed (α : Type) := Except (Fault ParserError) α

abbrev WireRead (α : Type) := Reader ParserError α

def invalidArgument (text : String) : ParserError := .exn (.invalidArgument text)

/-- The fault is an `std::invalid_argument`. -/
def Invalid (fault : Fault ParserError) : Prop := ∃ text, fault = .throws (invalidArgument text)

theorem invalid (text : String) : Invalid (.throws (invalidArgument text)) := ⟨text, rfl⟩

/-- What the reader makes of numbers: it keeps the low bits. -/
def wrapping : Reading where
  varint n := some (n % 2 ^ 64)
  field n := some (n % 2 ^ 32)

/-- What is read exactly is also what the reader reads. -/
theorem exact_le_wrapping : Reading.exact.Le wrapping where
  varint {n n'} h := by
    show some (n % 2 ^ 64) = some n'
    unfold Reading.exact at h
    dsimp only at h
    split at h
    · rename_i hsmall
      rw [Nat.mod_eq_of_lt hsmall]
      exact h
    · cases h
  field {n n'} h := by
    show some (n % 2 ^ 32) = some n'
    unfold Reading.exact at h
    dsimp only at h
    split at h
    · rename_i hsmall
      rw [Nat.mod_eq_of_lt (by omega)]
      exact h
    · cases h

/-- `static_cast<std::int32_t>` of a `std::uint64_t` -/
def signed32 (n : Nat) : Int := (BitVec.ofNat 32 n).toInt

/-- `signed_varint` -/
def signedVarint (n : Nat) : Int := (BitVec.ofNat 64 n).toInt

/-- `float_from_bits` -/
def floatFromBits (n : Nat) : FloatBits := BitVec.ofNat 32 n

/-- The bytes at `current_[0]` to `current_[3]` as a `std::uint32_t`. -/
def word32 (b₀ b₁ b₂ b₃ : UInt8) : BitVec 32 :=
  b₀.toBitVec.setWidth 32 ||| (b₁.toBitVec.setWidth 32 <<< 8) |||
    (b₂.toBitVec.setWidth 32 <<< 16) |||
    (b₃.toBitVec.setWidth 32 <<< 24)

namespace WireReader

open Lib.ByteReader (peek advance view demand throw)

def truncated : ParserError := invalidArgument "truncated protobuf message"

/-- `require(1)` and `*current_++` -/
def nextByte : WireRead UInt8 := do
  demand 1 truncated
  let byte ← peek 0
  advance 1
  pure byte

/-- The loop of `varint` over the values of `shift`. -/
def varintFrom : List Nat → BitVec 64 → WireRead (BitVec 64)
  | [], _ => throw (invalidArgument "protobuf varint is too long")
  | shift :: shifts, result => do
    let byte ← nextByte
    let result := result ||| ((byte &&& 0x7F).toBitVec.setWidth 64 <<< shift)
    if byte &&& 0x80 = 0 then pure result else varintFrom shifts result

/-- `for (unsigned shift = 0; shift < 64; shift += 7)` -/
def shifts : List Nat := [0, 7, 14, 21, 28, 35, 42, 49, 56, 63]

def varint : WireRead Nat := do
  let result ← varintFrom shifts 0
  pure result.toNat

/-- The field number and the wire type. -/
def key : WireRead (Nat × Nat) := do
  let value ← varint
  let field := ((BitVec.ofNat 64 value >>> 3).setWidth 32).toNat
  let wire := (BitVec.ofNat 64 value &&& 7).toNat
  if field = 0 then throw (invalidArgument "protobuf field number is zero") else pure (field, wire)

def fixed32 : WireRead Nat := do
  demand 4 truncated
  let b₀ ← peek 0
  let b₁ ← peek 1
  let b₂ ← peek 2
  let b₃ ← peek 3
  advance 4
  pure (word32 b₀ b₁ b₂ b₃).toNat

/-- The loop of `fixed64` over the indices from `index` on. -/
def fixed64From : Nat → Nat → BitVec 64 → WireRead (BitVec 64)
  | 0, _, value => pure value
  | rounds + 1, index, value => do
    let byte ← peek index
    fixed64From rounds (index + 1) (value ||| (byte.toBitVec.setWidth 64 <<< (index * 8)))

def fixed64 : WireRead Nat := do
  demand 8 truncated
  let value ← fixed64From 8 0 0
  advance 8
  pure value.toNat

/-- The view that it returns is the bytes in it. -/
def bytes : WireRead Bytes := do
  let length ← varint
  demand length (invalidArgument "protobuf length exceeds remaining data")
  view length

def skip (wire : Nat) : WireRead Unit :=
  match wire with
  | 0 => do
    let _ ← varint
    pure ()
  | 1 => do
    let _ ← fixed64
    pure ()
  | 2 => do
    let _ ← bytes
    pure ()
  | 5 => do
    let _ ← fixed32
    pure ()
  | _ => throw (invalidArgument "unsupported protobuf wire type")

end WireReader

def requireWire (actual expected : Nat) (field : String) : WireRead Unit :=
  if actual ≠ expected then ByteReader.throw
    (invalidArgument ("unexpected wire type for " ++ field)) else pure ()

/-! ## Bits -/

theorem low_bits (b : UInt8) : (b &&& 0x7F).toNat = b.toNat % 128 := by
  rw [UInt8.toNat_and]
  exact Nat.and_two_pow_sub_one_eq_mod b.toNat 7

theorem high_bit (b : UInt8) : b &&& 0x80 = 0 ↔ b.toNat < 128 := by
  have hless := b.toNat_lt
  have hbit : (b &&& 0x80).toNat = (b.toNat.testBit 7).toNat * 2 ^ 7 := by
    rw [UInt8.toNat_and]
    exact Nat.and_two_pow b.toNat 7
  rw [← UInt8.toNat_inj, hbit, Nat.testBit_eq_decide_div_mod_eq]
  show _ = 0 ↔ _
  by_cases hsmall : b.toNat < 128
  · simp [Nat.div_eq_of_lt hsmall, hsmall]
  · have hone : b.toNat / 128 = 1 := by omega
    simp [hone, hsmall]

/-- Bits above all bits of a word are added to it. -/
theorem toNat_or_shift {w : Nat} {x y : BitVec w} {i : Nat} (hlow : x.toNat < 2 ^ i)
    (hfits : y.toNat * 2 ^ i < 2 ^ w) : (x ||| (y <<< i)).toNat = x.toNat + 2 ^ i * y.toNat := by
  rw [BitVec.toNat_or, BitVec.toNat_shiftLeft, Nat.shiftLeft_eq, Nat.mod_eq_of_lt hfits,
    Nat.mul_comm y.toNat, Nat.or_comm, ← Nat.two_pow_add_eq_or_of_lt hlow, Nat.add_comm]

/-- Four bytes make the little-endian word. -/
theorem toNat_word32 (b₀ b₁ b₂ b₃ : UInt8) :
    (word32 b₀ b₁ b₂ b₃).toNat = littleEndian [b₀, b₁, b₂, b₃] := by
  have hwide (b : UInt8) : (b.toBitVec.setWidth 32).toNat = b.toNat := by
    rw [BitVec.toNat_setWidth]
    exact Nat.mod_eq_of_lt (Nat.lt_trans b.toNat_lt (by decide))
  have := b₀.toNat_lt
  have := b₁.toNat_lt
  have := b₂.toNat_lt
  have := b₃.toNat_lt
  have hone : (b₀.toBitVec.setWidth 32 ||| (b₁.toBitVec.setWidth 32 <<< 8)).toNat =
      b₀.toNat + 2 ^ 8 * b₁.toNat := by
    rw [toNat_or_shift (by rw [hwide]; omega) (by rw [hwide]; omega), hwide, hwide]
  have htwo : (b₀.toBitVec.setWidth 32 ||| (b₁.toBitVec.setWidth 32 <<< 8) |||
      (b₂.toBitVec.setWidth 32 <<< 16)).toNat = b₀.toNat + 2 ^ 8 * b₁.toNat + 2 ^ 16 *
        b₂.toNat := by
    rw [toNat_or_shift (by rw [hone]; omega) (by rw [hwide]; omega), hone, hwide]
  rw [word32, toNat_or_shift (by rw [htwo]; omega) (by rw [hwide]; omega), htwo, hwide]
  simp only [littleEndian]
  omega

/-- Bits above all bits of a word are added to it, modulo the size of the words. -/
theorem or_shift {result x : BitVec 64} {s : Nat} (hinside : s ≤ 64) (hlow : result.toNat < 2 ^ s) :
    result ||| (x <<< s) = BitVec.ofNat 64 (result.toNat + 2 ^ s * x.toNat) := by
  refine BitVec.eq_of_toNat_eq ?_
  have hsize : 2 ^ 64 = 2 ^ s * 2 ^ (64 - s) := by
    rw [← Nat.pow_add, Nat.add_sub_cancel' hinside]
  have hhigh : x.toNat * 2 ^ s % 2 ^ 64 = 2 ^ s * (x.toNat % 2 ^ (64 - s)) := by
    rw [Nat.mul_comm, hsize, Nat.mul_mod_mul_left]
  rw [BitVec.toNat_or, BitVec.toNat_shiftLeft, Nat.shiftLeft_eq, hhigh, Nat.or_comm,
    ← Nat.two_pow_add_eq_or_of_lt hlow, BitVec.toNat_ofNat, hsize, Nat.mod_mul,
    Nat.add_mul_mod_self_left, Nat.mod_eq_of_lt hlow, Nat.add_mul_div_left _ _ (Nat.two_pow_pos s),
    Nat.div_eq_of_lt hlow, Nat.zero_add, Nat.add_comm]

/-! ## What the reader takes -/

namespace WireReader

open Lib.ByteReader (Reads)

theorem reads_nextByte : Reads Invalid nextByte fun bs b => bs = [b] :=
  Lib.ByteReader.reads_next (invalid _)

/-- The rounds from the `k`-th on, with the bits of the earlier ones. -/
theorem reads_varintFrom (m : Nat) {k : Nat} (htotal : k + m = 10) (result : BitVec 64)
    (hlow : result.toNat < 2 ^ (7 * k)) :
    Reads Invalid (varintFrom ((List.range' k m).map (7 * ·)) result) fun bs v =>
      ∃ n, Varint bs n ∧ bs.length ≤ m ∧ v = BitVec.ofNat 64 (result.toNat + 2 ^ (7 * k) * n) := by
  induction m generalizing k result with
  -- no byte is left to read: ten were not enough
  | zero =>
    refine (Lib.ByteReader.reads_throw (invalid _)).congr fun bs v => ⟨False.elim, ?_⟩
    rintro ⟨n, hnumber, hshort, -⟩
    exact Varint.deterministic.ne_nil hnumber (List.length_eq_zero_iff.1 (Nat.le_zero.1 hshort))
  | succ m ih =>
    -- the bits of the next byte
    have hnext (b : UInt8) : result ||| ((b &&& 0x7F).toBitVec.setWidth 64 <<< (7 * k)) =
        BitVec.ofNat 64 (result.toNat + 2 ^ (7 * k) * (b.toNat % 128)) := by
      rw [or_shift (by omega) hlow]
      have hbits : ((b &&& 0x7F).toBitVec.setWidth 64).toNat = b.toNat % 128 := by
        rw [BitVec.toNat_setWidth, UInt8.toNat_toBitVec, low_bits]
        exact Nat.mod_eq_of_lt (Nat.lt_trans (Nat.mod_lt _ (by decide)) (by decide))
      rw [hbits]
    -- the number ends at this byte or goes on
    have hstep : 2 ^ (7 * (k + 1)) = 2 ^ (7 * k) * 128 := by
      rw [Nat.mul_succ, Nat.pow_add]
    have hbranch (b : UInt8) : Reads Invalid
        (if b &&& 0x80 = 0 then pure
          (BitVec.ofNat 64 (result.toNat + 2 ^ (7 * k) * (b.toNat % 128)))
          else varintFrom ((List.range' (k + 1) m).map (7 * ·))
            (BitVec.ofNat 64 (result.toNat + 2 ^ (7 * k) * (b.toNat % 128))))
        fun bs v => (b.toNat < 128 ∧ bs = [] ∧
          v = BitVec.ofNat 64 (result.toNat + 2 ^ (7 * k) * b.toNat)) ∨
          128 ≤ b.toNat ∧ ∃ n, Varint bs n ∧ bs.length ≤ m ∧
            v = BitVec.ofNat 64 (result.toNat + 2 ^ (7 * k) * (b.toNat - 128 + 128 * n)) := by
      have hless := b.toNat_lt
      by_cases hsmall : b.toNat < 128
      · rw [if_pos ((high_bit b).2 hsmall), Nat.mod_eq_of_lt hsmall]
        refine (Lib.ByteReader.reads_pure _).congr fun bs v => ?_
        exact ⟨fun h => .inl ⟨hsmall, h⟩,
          fun h => h.elim And.right fun hlarge => absurd hsmall (Nat.not_lt.2 hlarge.1)⟩
      · rw [if_neg (mt (high_bit b).1 hsmall), show b.toNat % 128 = b.toNat - 128 by omega]
        have hlow' : (BitVec.ofNat 64 (result.toNat + 2 ^ (7 * k) * (b.toNat - 128))).toNat <
            2 ^ (7 * (k + 1)) := by
          have hbound : result.toNat + 2 ^ (7 * k) * (b.toNat - 128) < 2 ^ (7 * k) * 128 := by
            have : 2 ^ (7 * k) * (b.toNat - 128) ≤ 2 ^ (7 * k) * 127 :=
              Nat.mul_le_mul_left _ (by omega)
            omega
          rw [BitVec.toNat_ofNat, hstep]
          exact Nat.lt_of_le_of_lt (Nat.mod_le _ _) hbound
        -- the rest of the number, by induction
        refine (ih (by omega) _ hlow').congr fun bs v => ?_
        have hvalue (n : Nat) : BitVec.ofNat 64
            ((BitVec.ofNat 64 (result.toNat + 2 ^ (7 * k) * (b.toNat - 128))).toNat +
              2 ^ (7 * (k + 1)) * n) =
              BitVec.ofNat 64 (result.toNat + 2 ^ (7 * k) * (b.toNat - 128 + 128 * n)) := by
          refine BitVec.eq_of_toNat_eq ?_
          rw [BitVec.toNat_ofNat, BitVec.toNat_ofNat, BitVec.toNat_ofNat, Nat.mod_add_mod,
            hstep, Nat.mul_add, Nat.mul_assoc, Nat.add_assoc]
        simp only [hvalue]
        exact ⟨fun h => .inr ⟨Nat.not_lt.1 hsmall, h⟩,
          fun h => h.elim (fun hfits => absurd hfits.1 hsmall) And.right⟩
    have hrun : varintFrom ((List.range' k (m + 1)).map (7 * ·)) result = nextByte >>= fun b =>
        if b &&& 0x80 = 0 then pure (BitVec.ofNat 64 (result.toNat + 2 ^ (7 * k) * (b.toNat % 128)))
        else varintFrom ((List.range' (k + 1) m).map (7 * ·))
          (BitVec.ofNat 64 (result.toNat + 2 ^ (7 * k) * (b.toNat % 128))) := by
      show (nextByte >>= fun b => _) = _
      simp only [← hnext]
    rw [hrun]
    refine (reads_nextByte.bind hbranch).congr fun bs v => ?_
    -- the bytes read are the first byte and the rest
    constructor
    · rintro ⟨b, _, tail, rfl, rfl, ⟨hsmall, rfl, rfl⟩ | ⟨hlarge, n, hnumber, hshort, rfl⟩⟩
      · exact ⟨b.toNat, .last hsmall, Nat.succ_le_succ (Nat.zero_le m), rfl⟩
      · exact ⟨_, .more hlarge hnumber, Nat.succ_le_succ hshort, rfl⟩
    · rintro ⟨n, hnumber, hshort, rfl⟩
      cases hnumber with
      | @last b hsmall => exact ⟨b, [b], [], rfl, rfl, .inl ⟨hsmall, rfl, rfl⟩⟩
      | @more b tail n hlarge hrest =>
        exact ⟨b, [b], tail, rfl, rfl, .inr ⟨hlarge, n, hrest, Nat.le_of_succ_le_succ hshort, rfl⟩⟩

/-- `varint` reads a varint and keeps its low 64 bits. -/
theorem reads_varint : Reads Invalid varint (ReadVarint wrapping) := by
  have hloop := (reads_varintFrom 10 (k := 0) rfl 0 (by decide)).map BitVec.toNat
  refine hloop.congr fun bs v => ?_
  have hvalue (n : Nat) : (BitVec.ofNat 64 ((0 : BitVec 64).toNat + 2 ^ (7 * 0) * n)).toNat =
    n % 2 ^ 64 := by
    rw [BitVec.toNat_ofNat]
    show (0 + 1 * n) % 2 ^ 64 = _
    rw [Nat.zero_add, Nat.one_mul]
  constructor
  · rintro ⟨_, ⟨n, hnumber, hshort, rfl⟩, rfl⟩
    exact ⟨hnumber, hshort, congrArg some (hvalue n).symm⟩
  · rintro ⟨hnumber, hshort, hread⟩
    refine ⟨_, ⟨_, hnumber, hshort, rfl⟩, ?_⟩
    rw [hvalue]
    exact (Option.some.inj hread).symm

/-- `key` reads a key and keeps the low 32 bits of its field number. -/
theorem reads_key : Reads Invalid key (EncodesKey wrapping) := by
  have hrun : key = varint >>= fun value => Lib.ByteReader.lift
      (if value % 2 ^ 64 / 8 % 2 ^ 32 = 0 then
        .error (.throws (invalidArgument "protobuf field number is zero"))
      else .ok (value % 2 ^ 64 / 8 % 2 ^ 32, value % 2 ^ 64 % 8)) := by
    unfold key
    refine congrArg (varint >>= ·) (funext fun value => ?_)
    have hfield : ((BitVec.ofNat 64 value >>> 3).setWidth 32).toNat =
      value % 2 ^ 64 / 8 % 2 ^ 32 := by
      rw [BitVec.toNat_setWidth, BitVec.toNat_ushiftRight, BitVec.toNat_ofNat,
        Nat.shiftRight_eq_div_pow]
    have hwire : (BitVec.ofNat 64 value &&& 7).toNat = value % 2 ^ 64 % 8 := by
      rw [BitVec.toNat_and, BitVec.toNat_ofNat]
      exact Nat.and_two_pow_sub_one_eq_mod _ 3
    dsimp only
    rw [hfield, hwire]
    split
    · rfl
    · rfl
  rw [hrun]
  refine (reads_varint.andThen fun value _ _ e hfailed => ?_).congr fun bs fw => ?_
  · split at hfailed
    · cases hfailed
      exact invalid _
    · cases hfailed
  · have hword {k : Nat} (h : ReadVarint wrapping bs k) : k % 2 ^ 64 = k := by
      obtain ⟨-, -, hread⟩ := h
      rw [← Option.some.inj hread, Nat.mod_mod]
    constructor
    · rintro ⟨k, hnumber, h⟩
      rw [hword hnumber] at h
      split at h
      · cases h
      · rename_i hnonzero
        cases h
        exact ⟨hnumber, rfl, hnonzero⟩
    · rintro ⟨hnumber, hread, hnonzero⟩
      rename_i k field
      refine ⟨k, hnumber, ?_⟩
      cases hread
      rw [hword hnumber, if_neg hnonzero]

/-- `fixed32` reads four bytes. -/
theorem reads_fixed32 : Reads Invalid fixed32 (EncodesFixed 4) := by
  refine Lib.ByteReader.reads_of_cases (fun _ _ _ _ _ _ h h' => h.unique h') fun r hvalid => ?_
  have hlength := r.length_left
  by_cases hshort : r.bytes.length - r.current < 4
  · refine .inl ⟨_, Lib.ByteReader.bind_error.2 (.inl (if_pos hshort)), invalid _, ?_⟩
    rintro bs rest _ hsplit ⟨hsize⟩
    rw [hsplit, List.length_append] at hlength
    omega
  · obtain ⟨b₀, b₁, b₂, b₃, rest, hall⟩ :
      ∃ b₀ b₁ b₂ b₃ rest, r.left = [b₀, b₁, b₂, b₃] ++ rest := by
      rcases heq : r.left with _ | ⟨b₀, _ | ⟨b₁, _ | ⟨b₂, _ | ⟨b₃, rest⟩⟩⟩⟩
      · rw [heq, List.length_nil] at hlength
        omega
      · rw [heq] at hlength
        simp only [List.length_cons, List.length_nil] at hlength
        omega
      · rw [heq] at hlength
        simp only [List.length_cons, List.length_nil] at hlength
        omega
      · rw [heq] at hlength
        simp only [List.length_cons, List.length_nil] at hlength
        omega
      · exact ⟨b₀, b₁, b₂, b₃, rest, rfl⟩
    have hat {i : Nat} {b : UInt8} (hthere : [b₀, b₁, b₂, b₃][i]? = some b) :
        (Lib.ByteReader.peek i : WireRead UInt8) r = .ok (b, r) :=
          Lib.ByteReader.peek_of_left hall hthere
    refine .inr ⟨_, rest, _, hall, ⟨rfl⟩, Lib.ByteReader.bind_ok.2 ⟨(), r, if_neg hshort,
      Lib.ByteReader.bind_ok.2 ⟨b₀, r, hat rfl, Lib.ByteReader.bind_ok.2 ⟨b₁, r, hat rfl,
        Lib.ByteReader.bind_ok.2 ⟨b₂, r, hat rfl, Lib.ByteReader.bind_ok.2 ⟨b₃, r, hat rfl,
          Lib.ByteReader.bind_ok.2 ⟨(), r.skip 4, rfl, ?_⟩⟩⟩⟩⟩⟩⟩
    rw [toNat_word32]
    rfl

/-- The rounds from `index` on, with the earlier bytes. -/
theorem fixed64From_ok {r : ByteReader} (before : Bytes) {bs rest : Bytes}
    (hsplit : r.left = before ++ bs ++ rest) (hsize : before.length + bs.length = 8)
    (value : BitVec 64) (hlow : value.toNat = littleEndian before) :
    fixed64From bs.length before.length value r =
      .ok (BitVec.ofNat 64 (littleEndian (before ++ bs)), r) := by
  induction bs generalizing before value with
  | nil =>
    rw [List.append_nil, ← hlow, BitVec.ofNat_toNat, BitVec.setWidth_eq]
    rfl
  | cons b bs ih =>
    rw [List.length_cons] at hsize
    have hthere : (before ++ b :: bs)[before.length]? = some b := by
      rw [List.getElem?_append_right (Nat.le_refl _), Nat.sub_self]
      rfl
    refine Lib.ByteReader.bind_ok.2 ⟨b, r, Lib.ByteReader.peek_of_left hsplit hthere, ?_⟩
    have hwide : (b.toBitVec.setWidth 64).toNat = b.toNat := by
      rw [BitVec.toNat_setWidth]
      exact Nat.mod_eq_of_lt (Nat.lt_trans b.toNat_lt (by decide))
    have hgrown : (value ||| (b.toBitVec.setWidth 64 <<< (before.length * 8))).toNat =
        littleEndian (before ++ [b]) := by
      have hpower : 2 ^ (before.length * 8) = 256 ^ before.length := by
        rw [Nat.mul_comm, Nat.pow_mul]
      have hfits : b.toNat * 2 ^ (before.length * 8) < 2 ^ 64 :=
        calc b.toNat * 2 ^ (before.length * 8)
            < 2 ^ 8 * 2 ^ (before.length * 8) :=
              Nat.mul_lt_mul_of_pos_right b.toNat_lt (Nat.two_pow_pos _)
          _ = 2 ^ (8 + before.length * 8) := (Nat.pow_add 2 8 _).symm
          _ ≤ 2 ^ 64 := Nat.pow_le_pow_right (by decide) (by omega)
      rw [toNat_or_shift (by rw [hlow, hpower]; exact Lib.Wire.littleEndian_lt before)
        (by rwa [hwide]), hwide, hlow, hpower, Lib.Wire.littleEndian_append]
      rfl
    have hnext := ih (before ++ [b]) (by simpa using hsplit)
      (by rw [List.length_append, List.length_singleton]; omega) _ hgrown
    rw [List.length_append, List.length_singleton] at hnext
    simpa using hnext

/-- `fixed64` reads eight bytes. -/
theorem reads_fixed64 : Reads Invalid fixed64 (EncodesFixed 8) := by
  refine Lib.ByteReader.reads_of_cases (fun _ _ _ _ _ _ h h' => h.unique h') fun r hvalid => ?_
  have hlength := r.length_left
  by_cases hshort : r.bytes.length - r.current < 8
  · refine .inl ⟨_, Lib.ByteReader.bind_error.2 (.inl (if_pos hshort)), invalid _, ?_⟩
    rintro bs rest _ hsplit ⟨hsize⟩
    rw [hsplit, List.length_append] at hlength
    omega
  · have hsize : (r.left.take 8).length = 8 := by
      rw [List.length_take]
      omega
    have hsplit := (List.take_append_drop 8 r.left).symm
    have hloop := fixed64From_ok [] (show r.left = [] ++ r.left.take 8 ++ r.left.drop 8 from hsplit)
      (by rw [hsize]; rfl) 0 rfl
    rw [hsize] at hloop
    refine .inr ⟨r.left.take 8, r.left.drop 8, _, hsplit, ⟨hsize⟩,
      Lib.ByteReader.bind_ok.2 ⟨(), r, if_neg hshort,
        Lib.ByteReader.bind_ok.2 ⟨_, r, hloop, Lib.ByteReader.bind_ok.2 ⟨(), r.skip 8, rfl, ?_⟩⟩⟩⟩
    have hsmall : littleEndian (r.left.take 8) < 2 ^ 64 := by
      have := Lib.Wire.littleEndian_lt (r.left.take 8)
      rwa [hsize] at this
    rw [List.nil_append, BitVec.toNat_ofNat, Nat.mod_eq_of_lt hsmall, hsize]
    rfl

theorem reads_bytes : Reads Invalid bytes (EncodesBytes wrapping) := by
  refine (reads_varint.bind fun n => Lib.ByteReader.reads_view (invalid _) n).congr
    fun bs content => ?_
  constructor
  · rintro ⟨n, length, _, rfl, hnumber, rfl, rfl⟩
    exact ⟨hnumber⟩
  · rintro ⟨hnumber⟩
    exact ⟨_, _, _, rfl, hnumber, rfl, rfl⟩

/-- An unknown field is skipped over exactly. -/
theorem reads_skip (wire : Nat) :
    Reads Invalid (skip wire) fun bs _ => ∃ v, EncodesValue wrapping wire bs v := by
  unfold skip
  split
  · refine (reads_varint.map fun _ => ()).congr fun bs u => ⟨fun ⟨n, h, _⟩ => ⟨_, .varint h⟩, ?_⟩
    rintro ⟨_, h⟩
    cases h with
    | varint h => exact ⟨_, h, rfl⟩
  · refine (reads_fixed64.map fun _ => ()).congr fun bs u => ⟨fun ⟨n, h, _⟩ => ⟨_, .fixed64 h⟩, ?_⟩
    rintro ⟨_, h⟩
    cases h with
    | fixed64 h => exact ⟨_, h, rfl⟩
  · refine (reads_bytes.map fun _ => ()).congr fun bs u => ⟨fun ⟨n, h, _⟩ => ⟨_, .bytes h⟩, ?_⟩
    rintro ⟨_, h⟩
    cases h with
    | bytes h => exact ⟨_, h, rfl⟩
  · refine (reads_fixed32.map fun _ => ()).congr fun bs u => ⟨fun ⟨n, h, _⟩ => ⟨_, .fixed32 h⟩, ?_⟩
    rintro ⟨_, h⟩
    cases h with
    | fixed32 h => exact ⟨_, h, rfl⟩
  · rename_i hother₀ hother₁ hother₂ hother₅
    refine (Lib.ByteReader.reads_throw (invalid _)).congr fun bs u => ⟨False.elim, ?_⟩
    rintro ⟨_, h⟩
    cases h with
    | varint => exact hother₀ rfl
    | fixed64 => exact hother₁ rfl
    | bytes => exact hother₂ rfl
    | fixed32 => exact hother₅ rfl

end WireReader

end TinyInfer.Onnx
