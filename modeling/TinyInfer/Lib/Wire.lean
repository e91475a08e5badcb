import Mathlib.Algebra.GroupWithZero.Nat
import Mathlib.Data.List.Basic
import Mathlib.Logic.Basic

/-!
# The protobuf wire format

The grammar of messages as relations between bytes and what they encode. A message is a
sequence of records, each a key and a value. A `Reading` says what a reader makes of the
number of a varint and of a field number: `Reading.exact` refuses what the format does
not allow.

Grammars are deterministic on prefixes (`Deterministic`), so that a string of bytes has
one sequence of records at most (`Seq.unique`).

Main definitions: `Varint`, `Reading`, `Record`, `Encodes`, `Seq`.
-/

namespace Lib.Wire

abbrev Bytes := List UInt8

/-! ## Sequences -/

/-- No two encodings begin the same string, and none is empty. -/
structure Deterministic {α : Type} (P : Bytes → α → Prop) : Prop where
  ne_nil : ∀ {bs a}, P bs a → bs ≠ []
  unique : ∀ {bs bs' a a' rest rest'}, P bs a → P bs' a' → bs ++ rest = bs' ++ rest' →
    bs = bs' ∧ a = a'

/-- One encoding after the other. -/
inductive Seq {α : Type} (P : Bytes → α → Prop) : Bytes → List α → Prop
  | nil : Seq P [] []
  | cons {bs rest : Bytes} {a : α} {as : List α} :
    P bs a → Seq P rest as → Seq P (bs ++ rest) (a :: as)

/-- Two sequences of encodings concatenate. -/
theorem Seq.append {α : Type} {P : Bytes → α → Prop} {bs bs' : Bytes} {as as' : List α}
    (h : Seq P bs as) (h' : Seq P bs' as') : Seq P (bs ++ bs') (as ++ as') := by
  induction h with
  | nil => exact h'
  | cons hhead _ ih =>
    rw [List.append_assoc]
    exact .cons hhead ih

theorem Seq.mono {α : Type} {P Q : Bytes → α → Prop} (hle : ∀ bs a, P bs a → Q bs a) {bs : Bytes}
    {as : List α} (h : Seq P bs as) : Seq Q bs as := by
  induction h with
  | nil => exact .nil
  | cons hhead _ ih => exact .cons (hle _ _ hhead) ih

/-! ## Numbers -/

/-- Groups of seven bits, least significant first, with the high bit in all bytes but the last. -/
inductive Varint : Bytes → Nat → Prop
  | last {b : UInt8} (small : b.toNat < 128) : Varint [b] b.toNat
  | more {b : UInt8} {bs : Bytes} {n : Nat} (large : 128 ≤ b.toNat) (rest : Varint bs n) :
      Varint (b :: bs) (b.toNat - 128 + 128 * n)

/-- The bytes decide where a varint ends and what it is. -/
theorem Varint.deterministic : Deterministic Varint where
  ne_nil h := by
    cases h with
    | last => exact List.cons_ne_nil _ _
    | more => exact List.cons_ne_nil _ _
  unique {bs bs' n n' rest rest'} h h' heq := by
    induction h generalizing bs' n' with
    | last hsmall =>
      cases h' with
      | last =>
        obtain ⟨rfl, -⟩ := List.cons.inj heq
        exact ⟨rfl, rfl⟩
      | more hlarge =>
        obtain ⟨rfl, -⟩ := List.cons.inj heq
        exact absurd hsmall (Nat.not_lt.2 hlarge)
    | more hlarge _ ih =>
      cases h' with
      | last hsmall =>
        obtain ⟨rfl, -⟩ := List.cons.inj heq
        exact absurd hsmall (Nat.not_lt.2 hlarge)
      | more _ htail =>
        obtain ⟨rfl, htails⟩ := List.cons.inj heq
        obtain ⟨rfl, rfl⟩ := ih htail htails
        exact ⟨rfl, rfl⟩

/-- The number with these bytes, least significant first. -/
def littleEndian : Bytes → Nat
  | [] => 0
  | b :: bs => b.toNat + 256 * littleEndian bs

theorem littleEndian_lt (bs : Bytes) : littleEndian bs < 256 ^ bs.length := by
  induction bs with
  | nil => exact Nat.one_pos
  | cons b bs ih =>
    have := b.toNat_lt
    rw [littleEndian, List.length_cons, Nat.pow_succ]
    omega

/-- The value of two byte strings is that of the low one plus the shifted high one. -/
theorem littleEndian_append (bs bs' : Bytes) :
    littleEndian (bs ++ bs') = littleEndian bs + 256 ^ bs.length * littleEndian bs' := by
  induction bs with
  | nil => simp [littleEndian]
  | cons b bs ih =>
    rw [List.cons_append, littleEndian, littleEndian, ih, List.length_cons,
      Nat.pow_succ', Nat.mul_add, Nat.mul_assoc, Nat.add_assoc]

/-- The lowest bytes of a number, least significant first. -/
def toLittleEndian : Nat → Nat → Bytes
  | 0, _ => []
  | size + 1, n => UInt8.ofNat n :: toLittleEndian size (n / 256)

@[simp] theorem length_toLittleEndian (size n : Nat) : (toLittleEndian size n).length = size := by
  induction size generalizing n with
  | zero => rfl
  | succ size ih => rw [toLittleEndian, List.length_cons, ih]

/-- Writing a number in few bytes keeps its low part. -/
theorem littleEndian_toLittleEndian (size n : Nat) :
    littleEndian (toLittleEndian size n) = n % 256 ^ size := by
  induction size generalizing n with
  | zero => exact (Nat.mod_one n).symm
  | succ size ih =>
    have hsplit := Nat.mod_mul (a := 256) (b := 256 ^ size) (x := n)
    rw [toLittleEndian, littleEndian, ih, UInt8.toNat_ofNat', Nat.pow_succ (m := size),
      Nat.mul_comm _ 256, hsplit]

/-- Bytes are the number that they make. -/
theorem toLittleEndian_littleEndian (bs : Bytes) :
    toLittleEndian bs.length (littleEndian bs) = bs := by
  induction bs with
  | nil => rfl
  | cons b bs ih =>
    have hless := b.toNat_lt
    have hlow : UInt8.ofNat (b.toNat + 256 * littleEndian bs) = b := by
      refine UInt8.toNat_inj.1 ?_
      rw [UInt8.toNat_ofNat', Nat.add_mul_mod_self_left]
      exact Nat.mod_eq_of_lt hless
    have hhigh : (b.toNat + 256 * littleEndian bs) / 256 = littleEndian bs := by omega
    rw [littleEndian, List.length_cons, toLittleEndian, hlow, hhigh, ih]

/-! ## Texts -/

/-- The string with these bytes as its characters. -/
def text (content : Bytes) : String := String.ofList (content.map fun b => Char.ofNat b.toNat)

def ofText (s : String) : Bytes := s.toList.map fun c => UInt8.ofNat c.toNat

theorem toNat_ofNat_byte {n : Nat} (hbyte : n < 256) : (Char.ofNat n).toNat = n := by
  have hvalid : n.isValidChar := .inl (Nat.lt_trans hbyte (by decide))
  rw [Char.ofNat, dif_pos hvalid]
  rfl

/-- The text of a byte string has its bytes. -/
@[simp] theorem ofText_text (content : Bytes) : ofText (text content) = content := by
  unfold ofText text
  rw [String.toList_ofList, List.map_map]
  conv_rhs => rw [← List.map_id content]
  refine List.map_congr_left fun b _ => ?_
  show UInt8.ofNat (Char.ofNat b.toNat).toNat = b
  rw [toNat_ofNat_byte b.toNat_lt, UInt8.ofNat_toNat]

/-- The strings of bytes. -/
def Narrow (s : String) : Prop := ∀ c ∈ s.toList, c.toNat < 256

/-- A text of byte-sized characters comes back from its bytes. -/
theorem text_ofText {s : String} (hnarrow : Narrow s) : text (ofText s) = s := by
  unfold ofText text
  rw [List.map_map]
  have hsame : s.toList.map ((fun b : UInt8 => Char.ofNat b.toNat) ∘ fun c => UInt8.ofNat c.toNat) =
    s.toList := by
    conv_rhs => rw [← List.map_id s.toList]
    refine List.map_congr_left fun c hmem => ?_
    show Char.ofNat (UInt8.ofNat c.toNat).toNat = c
    rw [UInt8.toNat_ofNat', Nat.mod_eq_of_lt (hnarrow c hmem), Char.ofNat_toNat]
  rw [hsame, String.ofList_toList]

@[simp] theorem length_ofText (s : String) : (ofText s).length = s.length := by
  rw [ofText, List.length_map, String.length_toList]

/-! ## Records -/

/-- What a reader makes of the number of a varint, and of a field number; `none` if it
refuses it. -/
structure Reading where
  varint : Nat → Option Nat
  field : Nat → Option Nat

/-- The numbers that the format allows, as they are. -/
def Reading.exact : Reading where
  varint n := if n < 2 ^ 64 then some n else none
  field n := if n < 2 ^ 29 then some n else none

inductive Value where
  | varint (n : Nat)
  | fixed64 (n : Nat)
  | bytes (content : Bytes)
  | fixed32 (n : Nat)
  deriving DecidableEq, Repr

structure Record where
  field : Nat
  value : Value
  deriving DecidableEq, Repr

variable (R : Reading)

/-- At most ten bytes. -/
inductive ReadVarint : Bytes → Nat → Prop
  | mk {bs : Bytes} {n n' : Nat} (number : Varint bs n) (short : bs.length ≤ 10)
      (read : R.varint n = some n') : ReadVarint bs n'

/-- The field number and the wire type in a key. -/
inductive EncodesKey : Bytes → Nat × Nat → Prop
  | mk {bs : Bytes} {k field : Nat} (number : ReadVarint R bs k)
      (read : R.field (k / 8) = some field) (nonzero : field ≠ 0) : EncodesKey bs (field, k % 8)

/-- A length, and as many bytes. -/
inductive EncodesBytes : Bytes → Bytes → Prop
  | mk {bs content : Bytes} (length : ReadVarint R bs content.length) :
    EncodesBytes (bs ++ content) content

inductive EncodesFixed (size : Nat) : Bytes → Nat → Prop
  | mk {bs : Bytes} (length : bs.length = size) : EncodesFixed size bs (littleEndian bs)

/-- A value of a wire type. -/
inductive EncodesValue : Nat → Bytes → Value → Prop
  | varint {bs : Bytes} {n : Nat} (h : ReadVarint R bs n) : EncodesValue 0 bs (.varint n)
  | fixed64 {bs : Bytes} {n : Nat} (h : EncodesFixed 8 bs n) : EncodesValue 1 bs (.fixed64 n)
  | bytes {bs content : Bytes} (h : EncodesBytes R bs content) : EncodesValue 2 bs (.bytes content)
  | fixed32 {bs : Bytes} {n : Nat} (h : EncodesFixed 4 bs n) : EncodesValue 5 bs (.fixed32 n)

inductive Encodes : Bytes → Record → Prop
  | mk {key bs : Bytes} {field wire : Nat} {value : Value} (hkey : EncodesKey R key (field, wire))
      (hvalue : EncodesValue R wire bs value) : Encodes (key ++ bs) ⟨field, value⟩

variable {R}

/-- Also under a reading rule, the bytes decide the varint. -/
theorem ReadVarint.deterministic : Deterministic (ReadVarint R) where
  ne_nil := fun ⟨hnumber, _, _⟩ => Varint.deterministic.ne_nil hnumber
  unique := by
    rintro _ _ _ _ _ _ ⟨hnumber, _, hread⟩ ⟨hnumber', _, hread'⟩ heq
    obtain ⟨rfl, rfl⟩ := Varint.deterministic.unique hnumber hnumber' heq
    rw [hread] at hread'
    exact ⟨rfl, Option.some.inj hread'⟩

/-- The bytes decide the key. -/
theorem EncodesKey.deterministic : Deterministic (EncodesKey R) where
  ne_nil := fun ⟨hnumber, _, _⟩ => ReadVarint.deterministic.ne_nil hnumber
  unique := by
    rintro _ _ _ _ _ _ ⟨hnumber, hread, _⟩ ⟨hnumber', hread', _⟩ heq
    obtain ⟨rfl, rfl⟩ := ReadVarint.deterministic.unique hnumber hnumber' heq
    rw [hread] at hread'
    rw [Option.some.inj hread']
    exact ⟨rfl, rfl⟩

/-- The bytes decide where a length-delimited value ends. -/
theorem EncodesBytes.unique {bs bs' content content' rest rest' : Bytes}
    (h : EncodesBytes R bs content) (h' : EncodesBytes R bs' content')
    (heq : bs ++ rest = bs' ++ rest') : bs = bs' ∧ content = content' := by
  obtain ⟨hlength⟩ := h
  obtain ⟨hlength'⟩ := h'
  rw [List.append_assoc, List.append_assoc] at heq
  obtain ⟨rfl, hsame⟩ := ReadVarint.deterministic.unique hlength hlength' heq
  obtain ⟨rfl, -⟩ := List.append_inj (List.append_cancel_left heq) hsame
  exact ⟨rfl, rfl⟩

/-- The bytes decide a fixed-width value. -/
theorem EncodesFixed.unique {size n n' : Nat} {bs bs' rest rest' : Bytes}
    (h : EncodesFixed size bs n) (h' : EncodesFixed size bs' n') (heq : bs ++ rest = bs' ++ rest') :
    bs = bs' ∧ n = n' := by
  obtain ⟨hlength⟩ := h
  obtain ⟨hlength'⟩ := h'
  obtain ⟨rfl, -⟩ := List.append_inj heq (hlength.trans hlength'.symm)
  exact ⟨rfl, rfl⟩

/-- With its wire type, the bytes decide a value. -/
theorem EncodesValue.unique {wire : Nat} {bs bs' rest rest' : Bytes} {v v' : Value}
    (h : EncodesValue R wire bs v) (h' : EncodesValue R wire bs' v')
    (heq : bs ++ rest = bs' ++ rest') :
    bs = bs' ∧ v = v' := by
  cases h with
  | varint h =>
    cases h' with
    | varint h' =>
      obtain ⟨rfl, rfl⟩ := ReadVarint.deterministic.unique h h' heq
      exact ⟨rfl, rfl⟩
  | fixed64 h =>
    cases h' with
    | fixed64 h' =>
      obtain ⟨rfl, rfl⟩ := h.unique h' heq
      exact ⟨rfl, rfl⟩
  | bytes h =>
    cases h' with
    | bytes h' =>
      obtain ⟨rfl, rfl⟩ := h.unique h' heq
      exact ⟨rfl, rfl⟩
  | fixed32 h =>
    cases h' with
    | fixed32 h' =>
      obtain ⟨rfl, rfl⟩ := h.unique h' heq
      exact ⟨rfl, rfl⟩

/-- The bytes decide a record. -/
theorem Encodes.deterministic : Deterministic (Encodes R) where
  ne_nil := fun ⟨hkey, _⟩ hempty =>
    EncodesKey.deterministic.ne_nil hkey (List.append_eq_nil_iff.1 hempty).1
  unique := by
    rintro _ _ _ _ _ _ ⟨hkey, hvalue⟩ ⟨hkey', hvalue'⟩ heq
    rw [List.append_assoc, List.append_assoc] at heq
    obtain ⟨rfl, hsame⟩ := EncodesKey.deterministic.unique hkey hkey' heq
    obtain ⟨rfl, rfl⟩ := Prod.mk.inj hsame
    obtain ⟨rfl, rfl⟩ := hvalue.unique hvalue' (List.append_cancel_left heq)
    exact ⟨rfl, rfl⟩

/-! ## Readings that refuse less -/

/-- What `R` reads, `S` reads the same. -/
structure Reading.Le (R S : Reading) : Prop where
  varint : ∀ {n n'}, R.varint n = some n' → S.varint n = some n'
  field : ∀ {n n'}, R.field n = some n' → S.field n = some n'

variable {S : Reading}

theorem ReadVarint.mono (hle : R.Le S) {bs : Bytes} {n : Nat} (h : ReadVarint R bs n) :
    ReadVarint S bs n := by
  obtain ⟨hnumber, hshort, hread⟩ := h
  exact ⟨hnumber, hshort, hle.varint hread⟩

/-- A value readable under one rule is readable under a looser one. -/
theorem EncodesValue.mono (hle : R.Le S) {wire : Nat} {bs : Bytes} {v : Value}
    (h : EncodesValue R wire bs v) :
    EncodesValue S wire bs v := by
  cases h with
  | varint h => exact .varint (h.mono hle)
  | fixed64 h => exact .fixed64 h
  | bytes h =>
    obtain ⟨hlength⟩ := h
    exact .bytes ⟨hlength.mono hle⟩
  | fixed32 h => exact .fixed32 h

theorem Encodes.mono (hle : R.Le S) {bs : Bytes} {r : Record} (h : Encodes R bs r) :
    Encodes S bs r := by
  obtain ⟨⟨hnumber, hread, hnonzero⟩, hvalue⟩ := h
  exact ⟨⟨hnumber.mono hle, hle.field hread, hnonzero⟩, hvalue.mono hle⟩

/-! ## Repeated fields -/

/-- The values of a field, in their order. -/
def values (field : Nat) (rs : List Record) : List Value :=
  (rs.filter (·.field = field)).map (·.value)

/-- The values of a field, record by record. -/
theorem values_cons (field field' : Nat) (v : Value) (rs : List Record) :
    values field (⟨field', v⟩ :: rs) = if field' =
      field then v :: values field rs else values field rs := by
  unfold values
  rw [List.filter_cons]
  by_cases hsame : field' = field <;> simp [hsame]

/-- Repeated numbers, each for itself or several packed. -/
inductive Repeats (single : Nat → Value) (P : Bytes → Nat → Prop) : List Value → List Nat → Prop
  | nil : Repeats single P [] []
  | single {n : Nat} {vs : List Value} {ns : List Nat} (rest : Repeats single P vs ns) :
      Repeats single P (single n :: vs) (n :: ns)
  | packed {content : Bytes} {vs : List Value} {ns ns' : List Nat} (h : Seq P content ns)
      (rest : Repeats single P vs ns') : Repeats single P (.bytes content :: vs) (ns ++ ns')

/-- The numbers that a value adds. -/
def Adds (single : Nat → Value) (P : Bytes → Nat → Prop) (v : Value) (ns : List Nat) : Prop :=
  (∃ n, v = single n ∧ ns = [n]) ∨ ∃ content, v = .bytes content ∧ Seq P content ns

/-- A repeated field collects its entries occurrence by occurrence. -/
theorem repeats_cons {single : Nat → Value} {P : Bytes → Nat → Prop} {v : Value} {vs : List Value}
    {ns : List Nat} : Repeats single P (v :: vs) ns ↔
      ∃ head tail, ns = head ++ tail ∧ Repeats single P vs tail ∧ Adds single P v head := by
  constructor
  · intro h
    cases h with
    | @single n _ ns hrest => exact ⟨[n], ns, rfl, hrest, .inl ⟨n, rfl, rfl⟩⟩
    | @packed content _ ns ns' h hrest => exact ⟨ns, ns', rfl, hrest, .inr ⟨content, rfl, h⟩⟩
  · rintro ⟨head, tail, rfl, hrest, ⟨n, rfl, rfl⟩ | ⟨content, rfl, h⟩⟩
    · exact .single hrest
    · exact .packed h hrest

/-! ## Writing -/

/-- The shortest varint of a number. -/
def writeVarint (n : Nat) : Bytes :=
  if n < 128 then [UInt8.ofNat n] else UInt8.ofNat (n % 128 + 128) :: writeVarint (n / 128)
  termination_by n

/-- What is written for a number is a varint of it. -/
theorem varint_writeVarint (n : Nat) : Varint (writeVarint n) n := by
  induction n using writeVarint.induct with
  | case1 n hsmall =>
    rw [writeVarint, if_pos hsmall]
    have hbyte : (UInt8.ofNat n).toNat = n := by
      rw [UInt8.toNat_ofNat']
      exact Nat.mod_eq_of_lt (by omega)
    have hlast := Varint.last (b := UInt8.ofNat n) (by rwa [hbyte])
    rwa [hbyte] at hlast
  | case2 n hlarge ih =>
    rw [writeVarint, if_neg hlarge]
    have hbyte : (UInt8.ofNat (n % 128 + 128)).toNat = n % 128 + 128 := by
      rw [UInt8.toNat_ofNat']
      exact Nat.mod_eq_of_lt (by omega)
    have hmore := Varint.more (b := UInt8.ofNat (n % 128 + 128)) (by omega) ih
    rwa [hbyte, Nat.add_sub_cancel, Nat.mod_add_div] at hmore

/-- Seven bits a byte: a number below `128 ^ (k + 1)` takes at most `k + 1` bytes. -/
theorem length_writeVarint {n k : Nat} (hfits : n < 128 ^ (k + 1)) :
    (writeVarint n).length ≤ k + 1 := by
  induction k generalizing n with
  | zero =>
    rw [writeVarint, if_pos (by simpa using hfits)]
    exact Nat.le_refl 1
  | succ k ih =>
    rw [writeVarint]
    split
    · exact Nat.succ_le_succ (Nat.zero_le _)
    · exact Nat.succ_le_succ (ih (Nat.div_lt_of_lt_mul (by rwa [Nat.pow_succ'] at hfits)))

theorem readVarint_writeVarint {n : Nat} (hfits : n < 2 ^ 64) :
    ReadVarint Reading.exact (writeVarint n) n :=
  ⟨varint_writeVarint n, length_writeVarint (k := 9) (Nat.lt_of_lt_of_le hfits (by decide)),
    if_pos hfits⟩

def Value.wire : Value → Nat
  | .varint _ => 0
  | .fixed64 _ => 1
  | .bytes _ => 2
  | .fixed32 _ => 5

def Value.write : Value → Bytes
  | .varint n => writeVarint n
  | .fixed64 n => toLittleEndian 8 n
  | .bytes content => writeVarint content.length ++ content
  | .fixed32 n => toLittleEndian 4 n

def Value.Fits : Value → Prop
  | .varint n => n < 2 ^ 64
  | .fixed64 n => n < 256 ^ 8
  | .bytes content => content.length < 2 ^ 64
  | .fixed32 n => n < 256 ^ 4

instance (v : Value) : Decidable v.Fits :=
  match v with
  | .varint n => inferInstanceAs (Decidable (n < 2 ^ 64))
  | .fixed64 n => inferInstanceAs (Decidable (n < 256 ^ 8))
  | .bytes content => inferInstanceAs (Decidable (content.length < 2 ^ 64))
  | .fixed32 n => inferInstanceAs (Decidable (n < 256 ^ 4))

def Record.write (r : Record) : Bytes := writeVarint (8 * r.field + r.value.wire) ++ r.value.write

/-- The format has such a record. -/
def Record.Fits (r : Record) : Prop := r.field ≠ 0 ∧ r.field < 2 ^ 29 ∧ r.value.Fits

instance (r : Record) : Decidable r.Fits := inferInstanceAs (Decidable (_ ∧ _ ∧ _))

theorem encodesFixed_write {size n : Nat} (hfits : n < 256 ^ size) :
    EncodesFixed size (toLittleEndian size n) n := by
  have hnumber := EncodesFixed.mk (length_toLittleEndian size n)
  rwa [littleEndian_toLittleEndian, Nat.mod_eq_of_lt hfits] at hnumber

/-- A value that fits is read back from what is written for it. -/
theorem encodesValue_write {v : Value} (hfits : v.Fits) :
    EncodesValue Reading.exact v.wire v.write v := by
  cases v with
  | varint n => exact .varint (readVarint_writeVarint hfits)
  | fixed64 n => exact .fixed64 (encodesFixed_write hfits)
  | bytes content => exact .bytes ⟨readVarint_writeVarint hfits⟩
  | fixed32 n => exact .fixed32 (encodesFixed_write hfits)

/-- A record that fits is read back from what is written for it. -/
theorem encodes_write {r : Record} (hfits : r.Fits) : Encodes Reading.exact r.write r := by
  obtain ⟨hnonzero, hsmall, hvalue⟩ := hfits
  have hwire : r.value.wire < 8 := by
    unfold Value.wire
    split <;> decide
  have hkey : EncodesKey Reading.exact (writeVarint (8 * r.field + r.value.wire))
      (r.field, (8 * r.field + r.value.wire) % 8) := by
    refine .mk (readVarint_writeVarint (by omega)) ?_ hnonzero
    rw [show (8 * r.field + r.value.wire) / 8 = r.field by omega]
    exact if_pos hsmall
  rw [show (8 * r.field + r.value.wire) % 8 = r.value.wire by omega] at hkey
  exact .mk hkey (encodesValue_write hvalue)

/-- Every sequence of records can be written. -/
theorem seq_write {rs : List Record} (hfits : ∀ r ∈ rs, r.Fits) :
    Seq (Encodes Reading.exact) (rs.flatMap Record.write) rs := by
  induction rs with
  | nil => exact .nil
  | cons r rs ih =>
    obtain ⟨hhead, htail⟩ := List.forall_mem_cons.1 hfits
    exact .cons (encodes_write hhead) (ih htail)

end Lib.Wire
