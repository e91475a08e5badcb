import TinyInfer.MiniPrefix.ModelFile

/-!
# Native models are accepted exactly

What each step of `load` reads is what `export_model` writes for it, and nothing else. The
tensors of a file are those that its configuration requires, in any order.

Main definitions: `Weights`, `IsTensor`.
-/

namespace TinyInfer.MiniPrefix.ModelFile

open Lib (Fault Reader ByteReader OrdMap)
open Lib.ByteReader (Reads Steps lift times)
open Lib.Wire (Bytes Seq littleEndian toLittleEndian text ofText)

/-- The fault is an exception. -/
def Thrown (fault : Fault Exn) : Prop := ∃ e, fault = .throws e

/-- `int32_t` -/
def Int32 (x : Int) : Prop := -2 ^ 31 ≤ x ∧ x < 2 ^ 31

/-! ## Numbers -/

theorem reads_readBytes (size : Nat) (what : String) :
    Reads Thrown (readBytes size what) fun bs content => bs = content ∧ content.length = size :=
  Lib.ByteReader.reads_view ⟨_, rfl⟩ size

/-- An unsigned number is read from its little-endian bytes. -/
theorem reads_readUnsigned (size : Nat) :
    Reads Thrown (readUnsigned size) fun bs n => n < 256 ^ size ∧ bs = toLittleEndian size n := by
  refine ((reads_readBytes size _).map littleEndian).congr fun bs n => ?_
  constructor
  · rintro ⟨content, ⟨rfl, rfl⟩, rfl⟩
    exact ⟨Lib.Wire.littleEndian_lt bs, (Lib.Wire.toLittleEndian_littleEndian bs).symm⟩
  · rintro ⟨hsmall, rfl⟩
    refine ⟨_, ⟨rfl, Lib.Wire.length_toLittleEndian size n⟩, ?_⟩
    rw [Lib.Wire.littleEndian_toLittleEndian, Nat.mod_eq_of_lt hsmall]

theorem reads_readInt32 : Reads Thrown readInt32 fun bs x => Int32 x ∧ bs = packInt32 x := by
  refine ((reads_readUnsigned 4).map fun n => (BitVec.ofNat 32 n).toInt).congr fun bs x => ?_
  constructor
  · rintro ⟨n, ⟨hsmall, rfl⟩, rfl⟩
    have hnumber : (BitVec.ofNat 32 n).toNat = n := by
      rw [BitVec.toNat_ofNat]
      exact Nat.mod_eq_of_lt hsmall
    refine ⟨⟨BitVec.le_toInt _, BitVec.toInt_lt⟩, ?_⟩
    rw [packInt32, BitVec.ofInt_toInt, hnumber]
  · rintro ⟨⟨hleast, hgreatest⟩, rfl⟩
    refine ⟨(BitVec.ofInt 32 x).toNat, ⟨(BitVec.ofInt 32 x).isLt, rfl⟩, ?_⟩
    rw [BitVec.ofNat_toNat, BitVec.setWidth_eq,
      BitVec.toInt_ofInt_eq_self (by decide) hleast hgreatest]

theorem reads_readFloat : Reads Thrown readFloat fun bs x => True ∧ bs = packFloat x := by
  refine ((reads_readUnsigned 4).map fun n => BitVec.ofNat 32 n).congr fun bs x => ?_
  constructor
  · rintro ⟨n, ⟨hsmall, rfl⟩, rfl⟩
    refine ⟨trivial, ?_⟩
    rw [packFloat, BitVec.toNat_ofNat]
    exact congrArg _ (Nat.mod_eq_of_lt hsmall).symm
  · rintro ⟨-, rfl⟩
    refine ⟨x.toNat, ⟨x.isLt, rfl⟩, ?_⟩
    rw [BitVec.ofNat_toNat, BitVec.setWidth_eq]

/-- A value, and what follows it. -/
theorem bindWritten {α β : Type} {x : Reader Exn α} {C : α → Prop} {write : α → Bytes}
    (h : Reads Thrown x fun bs a => C a ∧ bs = write a) {f : α → Reader Exn β}
    {Q : α → Bytes → β → Prop} (h' : ∀ a, Reads Thrown (f a) (Q a)) :
    Reads Thrown (x >>= f) fun bs b => ∃ a, C a ∧ ∃ rest, bs = write a ++ rest ∧ Q a rest b := by
  refine (h.bind h').congr fun bs b => ?_
  constructor
  · rintro ⟨a, _, rest, rfl, ⟨hholds, rfl⟩, htail⟩
    exact ⟨a, hholds, rest, rfl, htail⟩
  · rintro ⟨a, hholds, rest, rfl, htail⟩
    exact ⟨a, write a, rest, rfl, ⟨hholds, rfl⟩, htail⟩

/-! ## The configuration -/

theorem thrown_of_ofExcept {α : Type} {x : Except Exn α} (e : Fault Exn)
    (h : ofExcept x = .error e) : Thrown e := by
  cases x with
  | ok a => cases h
  | error exn =>
    cases h
    exact ⟨exn, rfl⟩

theorem ofExcept_ok {α : Type} {x : Except Exn α} {a : α} : ofExcept x = .ok a ↔ x = .ok a := by
  cases x with
  | ok b => exact ⟨fun h => (by cases h; rfl), fun h => (by cases h; rfl)⟩
  | error e => exact ⟨fun h => (by cases h), fun h => (by cases h)⟩

/-- What `validate` accepts. -/
structure Accepted (c : ModelConfig) : Prop where
  layers : 1 ≤ c.layers ∧ c.layers ≤ 128
  hidden : 2 ≤ c.hidden ∧ c.hidden ≤ 8192
  intermediate : 1 ≤ c.intermediate ∧ c.intermediate ≤ 65536
  heads : 1 ≤ c.heads
  kvHeads : 1 ≤ c.kvHeads
  headsDivide : c.hidden.tmod c.heads = 0
  kvHeadsDivide : c.heads.tmod c.kvHeads = 0
  vocabulary : 2 ≤ c.vocabulary ∧ c.vocabulary ≤ 262144
  context : 1 ≤ c.context ∧ c.context ≤ 131072
  eos : 0 ≤ c.eos ∧ c.eos < c.vocabulary

/-- A configuration that validates is accepted. -/
theorem accepted_of_validate {c : ModelConfig} (h : c.validate = .ok ()) : Accepted c := by
  unfold ModelConfig.validate at h
  split at h
  · cases h
  · rename_i hnone
    simp only [not_or, not_lt, gt_iff_lt, ge_iff_le, not_le, not_not] at hnone
    obtain ⟨h1, h2, h3, h4, h5, h6, h7, h8, h9, h10, -, -, h13, h14, h15, h16, h17, h18, -⟩ := hnone
    exact ⟨⟨h1, h2⟩, ⟨h3, h4⟩, ⟨h5, h6⟩, h7, h8, h9, h10, ⟨h13, h14⟩, ⟨h15, h16⟩, ⟨h17, h18⟩⟩

section Accepted

variable {c : ModelConfig}

/-- A divisor of a positive number is not larger. -/
theorem le_of_tmod {n d : Int} (hpos : 0 < n) (hdivides : n.tmod d = 0) : d ≤ n :=
  Int.le_of_dvd hpos (Int.dvd_of_tmod_eq_zero hdivides)

theorem Accepted.heads_le (h : Accepted c) : c.heads ≤ c.hidden :=
  le_of_tmod (by have := h.hidden.1; omega) h.headsDivide

theorem Accepted.kvHeads_le (h : Accepted c) : c.kvHeads ≤ c.heads :=
  le_of_tmod (by have := h.heads; omega) h.kvHeadsDivide

/-- No dimension of a key is outside the hidden ones. -/
theorem Accepted.kvWidth_mem (h : Accepted c) : 1 ≤ c.kvWidth ∧ c.kvWidth ≤ c.hidden := by
  obtain ⟨dim, heq⟩ := Int.dvd_of_tmod_eq_zero h.headsDivide
  have hheads := h.heads
  have hidden := h.hidden.1
  have hkvHeads := h.kvHeads
  have hsome : 1 ≤ dim := by
    by_contra hsmall
    have : c.heads * dim ≤ 0 := Int.mul_nonpos_of_nonneg_of_nonpos (by omega) (by omega)
    omega
  have hdimension : c.headDimension = dim := by
    rw [ModelConfig.headDimension, heq]
    exact Int.mul_tdiv_cancel_left dim (by omega)
  rw [ModelConfig.kvWidth, hdimension]
  constructor
  · calc (1 : Int) ≤ c.kvHeads := hkvHeads
      _ = c.kvHeads * 1 := (Int.mul_one _).symm
      _ ≤ c.kvHeads * dim := Int.mul_le_mul_of_nonneg_left hsome (by omega)
  · calc c.kvHeads * dim ≤ c.heads * dim := Int.mul_le_mul_of_nonneg_right h.kvHeads_le (by omega)
      _ = c.hidden := heq.symm

end Accepted

/-- A configuration is read from exactly its encoding. -/
theorem reads_readConfig :
    Reads Thrown readConfig fun bs c => c.validate = .ok () ∧ bs = encodeConfig c := by
  -- the last step checks the configuration that was read
  have hlast (c : ModelConfig) :
    Reads Thrown (lift (ofExcept (c.validate.map fun _ => c))) fun bs c' =>
      bs = [] ∧ c.validate = .ok () ∧ c' = c := by
    refine (Lib.ByteReader.reads_lift fun e => thrown_of_ofExcept e).congr fun bs c' => ?_
    rw [ofExcept_ok]
    refine and_congr_right fun _ => ?_
    cases c.validate with
    | error e => exact ⟨fun h => (by cases h), fun h => (by cases h.1)⟩
    | ok u => exact ⟨fun h => (by cases h; exact ⟨rfl, rfl⟩), fun h => (by rw [h.2]; rfl)⟩
  refine (bindWritten reads_readInt32 fun layers => bindWritten reads_readInt32 fun hidden =>
    bindWritten reads_readInt32 fun intermediate => bindWritten reads_readInt32 fun heads =>
    bindWritten reads_readInt32 fun kvHeads => bindWritten reads_readInt32 fun vocabulary =>
    bindWritten reads_readInt32 fun context => bindWritten reads_readInt32 fun eos =>
    bindWritten reads_readFloat fun rmsEpsilon => bindWritten reads_readFloat fun ropeTheta =>
    bindWritten (reads_readUnsigned 4) fun tied => Reads.unless ⟨_, rfl⟩
      (hlast ⟨layers, hidden, intermediate, heads, kvHeads, vocabulary, context, eos,
        rmsEpsilon, ropeTheta, tied != 0⟩)).congr fun bs c => ?_
  constructor
  · rintro ⟨layers, -, _, rfl, hidden, -, _, rfl, intermediate, -, _, rfl, heads, -, _, rfl,
      kvHeads, -, _, rfl, vocabulary, -, _, rfl, context, -, _, rfl, eos, -, _, rfl, rmsEpsilon, -,
      _, rfl, ropeTheta, -, _, rfl, tied, -, _, rfl, hsmall, rfl, hvalid, rfl⟩
    -- the flag is the number that was read, as it is at most one
    have hflag : (tied != 0).toNat = tied := by
      rcases Nat.le_one_iff_eq_zero_or_eq_one.1 (Nat.not_lt.1 hsmall) with rfl | rfl <;> rfl
    refine ⟨hvalid, ?_⟩
    simp only [encodeConfig, List.flatMap_cons, List.flatMap_nil, List.append_nil,
      List.append_assoc, hflag]
  · rintro ⟨hvalid, rfl⟩
    have h := accepted_of_validate hvalid
    have hlayers := h.layers
    have hidden := h.hidden
    have hintermediate := h.intermediate
    have hheads := h.heads
    have headsLe := h.heads_le
    have hkvHeads := h.kvHeads
    have hkvHeadsLe := h.kvHeads_le
    have hvocabulary := h.vocabulary
    have hcontext := h.context
    have heos := h.eos
    -- every field of an accepted configuration fits its integer
    have hint32 {x : Int} (hleast : 0 ≤ x) (hgreatest : x ≤ 262144) : Int32 x :=
      ⟨by omega, by omega⟩
    have hflag : c.tied.toNat < 256 ^ 4 := by cases c.tied <;> decide
    have hread : (c.tied.toNat != 0) = c.tied := by cases c.tied <;> rfl
    refine ⟨c.layers, hint32 (by omega) (by omega), _, ?_, c.hidden,
      hint32 (by omega) (by omega), _, rfl, c.intermediate, hint32 (by omega) (by omega), _, rfl,
      c.heads, hint32 (by omega) (by omega), _, rfl, c.kvHeads, hint32 (by omega) (by omega), _,
      rfl, c.vocabulary, hint32 (by omega) (by omega), _, rfl, c.context,
      hint32 (by omega) (by omega), _, rfl, c.eos, hint32 (by omega) (by omega), _, rfl,
      c.rmsEpsilon, trivial, _, rfl, c.ropeTheta, trivial, _, rfl, c.tied.toNat, hflag, [], rfl,
      ?_, rfl, ?_, ?_⟩
    · simp only [encodeConfig, List.flatMap_cons, List.flatMap_nil, List.append_nil,
        List.append_assoc]
    · cases c.tied <;> decide
    · rw [hread]
      exact hvalid
    · rw [hread]

/-! ## The required tensors -/

/-- A name and a shape that the format can hold. -/
structure Writable (name : String) (shape : Shape) : Prop where
  nonempty : 1 ≤ name.length
  short : name.length ≤ 256
  narrow : Lib.Wire.Narrow name
  rank : shape.length ≤ 2
  dims : ∀ d ∈ shape, 1 ≤ d ∧ d ≤ 262144

/-- Texts after which a digit may follow. -/
theorem narrow_append {s t : String} (hs : Lib.Wire.Narrow s) (ht : Lib.Wire.Narrow t) :
    Lib.Wire.Narrow (s ++ t) := by
  intro ch hmem
  rw [String.toList_append] at hmem
  exact (List.mem_append.1 hmem).elim (hs ch) (ht ch)

/-- A number in digits is a text of byte-sized characters. -/
theorem narrow_toString (n : Nat) : Lib.Wire.Narrow (toString n) := by
  intro ch hmem
  rw [Nat.toString_eq_repr, Nat.toList_repr] at hmem
  have hdigit := Nat.isDigit_of_mem_toDigits (by decide) (by decide) hmem
  rw [Char.isDigit, Bool.and_eq_true, decide_eq_true_eq, decide_eq_true_eq] at hdigit
  have : ch.val.toNat ≤ 57 := UInt32.le_iff_toNat_le.1 hdigit.2
  exact Nat.lt_of_le_of_lt this (by decide)

/-- The names of a layer are those of a table after its number. -/
theorem writable_layer {layer : Nat} (hsmall : layer < 128) {kind : String} {shape : Shape}
    (hshort : kind.length ≤ 200) (hnarrow : Lib.Wire.Narrow kind) (hrank : shape.length ≤ 2)
    (hdims : ∀ d ∈ shape, 1 ≤ d ∧ d ≤ 262144) :
    Writable ("model.layers." ++ toString layer ++ "." ++ kind) shape := by
  have hdigits : (toString layer).length ≤ 3 := by
    rw [Nat.toString_eq_repr, ← String.length_toList, Nat.toList_repr]
    exact (Nat.length_toDigits_le_iff (by decide) (by decide)).2 (Nat.lt_trans hsmall (by decide))
  have hstart : "model.layers.".length = 13 := rfl
  have hdot : ".".length = 1 := rfl
  have hascii (s : String) (h : s.toList.all (·.toNat < 256) = true) : Lib.Wire.Narrow s :=
    fun ch hmem => by
    simpa using List.all_eq_true.1 h ch hmem
  refine ⟨?_, ?_, narrow_append
    (narrow_append (narrow_append (hascii _ (by decide)) (narrow_toString layer))
    (hascii _ (by decide))) hnarrow, hrank, hdims⟩
  · rw [String.length_append, String.length_append, String.length_append]
    omega
  · rw [String.length_append, String.length_append, String.length_append]
    omega

/-- Every expected tensor of an accepted configuration can be written. -/
theorem Accepted.writable {c : ModelConfig} (h : Accepted c) {name : String} {shape : Shape}
    (hmem : (name, shape) ∈ c.shapes) : Writable name shape := by
  have hidden := h.hidden
  have hintermediate := h.intermediate
  have hvocabulary := h.vocabulary
  have hkvWidth := h.kvWidth_mem
  have hnarrow (s : String) (h : s.toList.all (·.toNat < 256) = true) : Lib.Wire.Narrow s :=
    fun ch hmem => by
    simpa using List.all_eq_true.1 h ch hmem
  have hvector {d : Int} (hbound : 1 ≤ d ∧ d ≤ 262144) : ∀ d' ∈ [d], 1 ≤ d' ∧ d' ≤ 262144 :=
    List.forall_mem_singleton.2 hbound
  have hmatrix {d d' : Int} (hbound : 1 ≤ d ∧ d ≤ 262144) (hbound' : 1 ≤ d' ∧ d' ≤ 262144) :
      ∀ d'' ∈ [d, d'], 1 ≤ d'' ∧ d'' ≤ 262144 := List.forall_mem_cons.2 ⟨hbound, hvector hbound'⟩
  have hwide : 1 ≤ c.hidden ∧ c.hidden ≤ 262144 := by omega
  have hinner : 1 ≤ c.intermediate ∧ c.intermediate ≤ 262144 := by omega
  have hwords : 1 ≤ c.vocabulary ∧ c.vocabulary ≤ 262144 := by omega
  have hkeys : 1 ≤ c.kvWidth ∧ c.kvWidth ≤ 262144 := by omega
  unfold ModelConfig.shapes at hmem
  -- the embedding and the norm, the output head, or a tensor of a layer
  rcases List.mem_append.1 hmem with hmem | hmem
  · rcases List.mem_append.1 hmem with hmem | hmem
    · simp only [List.mem_cons, Prod.mk.injEq, List.not_mem_nil, or_false] at hmem
      rcases hmem with ⟨rfl, rfl⟩ | ⟨rfl, rfl⟩
      · exact ⟨by decide, by decide, hnarrow _ (by decide), Nat.le_refl 2, hmatrix hwords hwide⟩
      · exact ⟨by decide, by decide, hnarrow _ (by decide), Nat.le_succ 1, hvector hwide⟩
    · split at hmem
      · cases hmem
      · simp only [List.mem_cons, Prod.mk.injEq, List.not_mem_nil, or_false] at hmem
        obtain ⟨rfl, rfl⟩ := hmem
        exact ⟨by decide, by decide, hnarrow _ (by decide), Nat.le_refl 2, hmatrix hwide hwords⟩
  · obtain ⟨layer, hinside, hmem⟩ := List.mem_flatMap.1 hmem
    have hlayers := h.layers
    have hsmall : layer < 128 := by
      have := List.mem_range.1 hinside
      omega
    have hone : [c.hidden].length ≤ 2 := Nat.le_succ 1
    simp only [ModelConfig.layerShapes, List.mem_cons, Prod.mk.injEq, List.not_mem_nil,
      or_false] at hmem
    rcases hmem with ⟨rfl, rfl⟩ | ⟨rfl, rfl⟩ | ⟨rfl, rfl⟩ | ⟨rfl, rfl⟩ | ⟨rfl, rfl⟩ | ⟨rfl,
      rfl⟩ | ⟨rfl, rfl⟩ |
      ⟨rfl, rfl⟩ | ⟨rfl, rfl⟩
    · exact writable_layer hsmall (by decide) (hnarrow _ (by decide)) hone (hvector hwide)
    · exact writable_layer hsmall (by decide) (hnarrow _ (by decide)) hone (hvector hwide)
    · exact writable_layer hsmall (by decide) (hnarrow _ (by decide)) (Nat.le_refl 2)
        (hmatrix hwide hwide)
    · exact writable_layer hsmall (by decide) (hnarrow _ (by decide)) (Nat.le_refl 2)
        (hmatrix hwide hkeys)
    · exact writable_layer hsmall (by decide) (hnarrow _ (by decide)) (Nat.le_refl 2)
        (hmatrix hwide hkeys)
    · exact writable_layer hsmall (by decide) (hnarrow _ (by decide)) (Nat.le_refl 2)
        (hmatrix hwide hwide)
    · exact writable_layer hsmall (by decide) (hnarrow _ (by decide)) (Nat.le_refl 2)
        (hmatrix hwide hinner)
    · exact writable_layer hsmall (by decide) (hnarrow _ (by decide)) (Nat.le_refl 2)
        (hmatrix hwide hinner)
    · exact writable_layer hsmall (by decide) (hnarrow _ (by decide)) (Nat.le_refl 2)
        (hmatrix hinner hwide)

/-! ## The entries of `expected` -/

def layerKinds : List String :=
  ["input_layernorm.weight", "post_attention_layernorm.weight", "self_attn.q_proj.weight",
    "self_attn.k_proj.weight", "self_attn.v_proj.weight", "self_attn.o_proj.weight",
    "mlp.gate_proj.weight", "mlp.up_proj.weight", "mlp.down_proj.weight"]

def layerName (layer : Nat) (kind : String) : String :=
  "model.layers." ++ toString layer ++ "." ++ kind

theorem layerShapes_names (c : ModelConfig) (layer : Nat) :
    (c.layerShapes layer).map Prod.fst = layerKinds.map (layerName layer) := rfl

theorem toList_layerName (layer : Nat) (kind : String) : (layerName layer kind).toList =
    "model.layers.".toList ++ (Nat.toDigits 10 layer ++ '.' :: kind.toList) := by
  simp only [layerName, String.toList_append, Nat.toString_eq_repr, Nat.toList_repr,
    List.append_assoc]
  rfl

/-- The number of a layer ends at the point after it, so a name says its layer and its kind. -/
theorem layerName_inj {layer layer' : Nat} {kind kind' : String}
    (h : layerName layer kind = layerName layer' kind') : layer = layer' ∧ kind = kind' := by
  have hlists := congrArg String.toList h
  rw [toList_layerName, toList_layerName] at hlists
  have htails := List.append_cancel_left hlists
  have hdigits (n : Nat) (s : String) :
      (Nat.toDigits 10 n ++ '.' :: s.toList).takeWhile (· != '.') = Nat.toDigits 10 n := by
    rw [List.takeWhile_append_of_pos]
    · simp
    · intro ch hmem
      have hdigit := Nat.isDigit_of_mem_toDigits (by decide) (by decide) hmem
      simpa using fun hsame : ch = '.' => absurd (hsame ▸ hdigit) (by decide)
  have hnumbers := congrArg (List.takeWhile (· != '.')) htails
  rw [hdigits, hdigits] at hnumbers
  have hlayers : layer = layer' := by
    rw [← Nat.ofDigitChars_ten_toDigits (n := layer), hnumbers, Nat.ofDigitChars_ten_toDigits]
  subst hlayers
  have hkinds := (List.cons.inj (List.append_cancel_left htails)).2
  exact ⟨rfl, String.toList_inj.1 hkinds⟩

theorem layerName_ne {layer : Nat} {kind name : String}
    (h : name.toList.take 13 ≠ "model.layers.".toList) : name ≠ layerName layer kind := by
  rintro rfl
  rw [toList_layerName] at h
  exact h rfl

theorem not_mem_layers {name : String} (h : name.toList.take 13 ≠ "model.layers.".toList)
    (c : ModelConfig) : name ∉
    ((List.range c.layers.toNat).flatMap c.layerShapes).map Prod.fst := by
  rw [List.map_flatMap]
  intro hmem
  obtain ⟨layer, -, hmem⟩ := List.mem_flatMap.1 hmem
  rw [layerShapes_names] at hmem
  obtain ⟨kind, -, hsame⟩ := List.mem_map.1 hmem
  exact layerName_ne h hsame.symm

/-- The tensors that a configuration requires have different names. -/
theorem ModelConfig.shapes_nodup (c : ModelConfig) : (c.shapes.map Prod.fst).Nodup := by
  have hlayers : (((List.range c.layers.toNat).flatMap c.layerShapes).map Prod.fst).Nodup := by
    rw [List.map_flatMap]
    refine List.nodup_flatMap.2 ⟨fun layer _ => ?_, ?_⟩
    · rw [layerShapes_names]
      exact List.Nodup.map (fun _ _ h => (layerName_inj h).2) (by decide)
    · refine List.nodup_range.imp fun {i j} hne => ?_
      show List.Disjoint ((c.layerShapes i).map Prod.fst) ((c.layerShapes j).map Prod.fst)
      rw [layerShapes_names, layerShapes_names]
      intro name hi hj
      obtain ⟨kind, -, rfl⟩ := List.mem_map.1 hi
      obtain ⟨kind', -, hsame⟩ := List.mem_map.1 hj
      exact hne (layerName_inj hsame).1.symm
  unfold ModelConfig.shapes
  rw [List.map_append, List.nodup_append]
  refine ⟨?_, hlayers, fun name hmem name' hmem' => ?_⟩
  · split
    · show ["model.embed_tokens.weight", "model.norm.weight"].Nodup
      decide
    · show ["model.embed_tokens.weight", "model.norm.weight", "lm_head.weight"].Nodup
      decide
  · rintro rfl
    refine not_mem_layers ?_ c hmem'
    revert hmem
    split
    · simp only [List.append_nil, List.map_cons, List.map_nil, List.mem_cons,
        List.not_mem_nil, or_false]
      rintro (rfl | rfl) <;> decide
    · simp only [List.cons_append, List.nil_append, List.map_cons, List.map_nil, List.mem_cons,
        List.not_mem_nil, or_false]
      rintro (rfl | rfl | rfl) <;> decide

/-- An entry that is assigned once stays. -/
theorem find?_foldl_insert {es : List (String × Shape)} (hnodup : (es.map Prod.fst).Nodup)
    (m : OrdMap String Shape) (name : String) (shape : Shape) :
    (es.foldl (fun m e => m.insert e.1 e.2) m).find? name = some shape ↔
      (name, shape) ∈ es ∨ name ∉ es.map Prod.fst ∧ m.find? name = some shape := by
  induction es generalizing m with
  | nil => simp
  | cons e es ih =>
    rw [List.map_cons, List.nodup_cons] at hnodup
    rw [List.foldl_cons, ih hnodup.2, OrdMap.find?_insert, List.mem_cons, List.map_cons,
      List.mem_cons]
    by_cases hname : name = e.1
    · subst hname
      have hfresh : (e.1, shape) ∉ es := fun hmem =>
        hnodup.1 (List.mem_map.2 ⟨_, hmem, rfl⟩)
      have hpair : (e.1, shape) = e ↔ e.2 = shape :=
        ⟨fun h => (congrArg Prod.snd h).symm, fun h => by rw [← h]⟩
      simp [hnodup.1, hfresh, hpair]
    · have hpair : (name, shape) ≠ e := fun h => hname (congrArg Prod.fst h)
      simp [hname, hpair]

theorem ModelConfig.find?_expected (c : ModelConfig) (name : String) (shape : Shape) :
    c.expected.find? name = some shape ↔ (name, shape) ∈ c.shapes :=
  (find?_foldl_insert c.shapes_nodup .empty name shape).trans (or_iff_left fun h => by cases h.2)

/-- The map `expected` has the tensors of the assignments and no others, each once. -/
theorem ModelConfig.expected_perm (c : ModelConfig) : c.expected.entries.Perm c.shapes := by
  have hkeys : c.expected.entries.Nodup := c.expected.keys_nodup.of_map Prod.fst
  refine (List.perm_ext_iff_of_nodup hkeys (c.shapes_nodup.of_map Prod.fst)).2 fun ⟨name, shape⟩ =>
    ?_
  rw [← OrdMap.find?_eq_some_iff, c.find?_expected]

/-- The head is required where it is not tied to the embedding. -/
theorem ModelConfig.lmHead_iff (c : ModelConfig) :
    c.expected.find? "lm_head.weight" = some [c.hidden, c.vocabulary] ∧ c.tied = false ∨
      c.expected.find? "lm_head.weight" = none ∧ c.tied = true := by
  cases htied : c.tied with
  | false =>
    refine .inl ⟨(c.find?_expected _ _).2 ?_, rfl⟩
    rw [ModelConfig.shapes, htied]
    exact List.mem_append_left _ (List.mem_append_right _ List.mem_cons_self)
  | true =>
    refine .inr ⟨Option.eq_none_iff_forall_ne_some.2 fun shape hfound => ?_, rfl⟩
    have hmem := List.mem_map_of_mem (f := Prod.fst) ((c.find?_expected _ _).1 hfound)
    rw [ModelConfig.shapes, htied, List.map_append] at hmem
    rcases List.mem_append.1 hmem with hmem | hmem
    · revert hmem
      show "lm_head.weight" ∉ ["model.embed_tokens.weight", "model.norm.weight"]
      decide
    · exact not_mem_layers (show "lm_head.weight".toList.take 13 ≠ _ by decide) c hmem

/-- Nine tensors a layer, the embedding, the norm, and the head unless it is tied. -/
theorem ModelConfig.size_expected (c : ModelConfig) :
    c.expected.size = 2 + (if c.tied then 0 else 1) + 9 * c.layers.toNat := by
  have hlayers : ((List.range c.layers.toNat).flatMap c.layerShapes).length =
    c.layers.toNat * 9 := by
    rw [List.length_flatMap]
    simp [ModelConfig.layerShapes]
  have hhead : (if c.tied then ([] : List (String × Shape)) else
      [("lm_head.weight", [c.hidden, c.vocabulary])]).length = if c.tied then 0 else 1 := by
    split <;> rfl
  rw [OrdMap.size, c.expected_perm.length_eq, ModelConfig.shapes, List.length_append,
    List.length_append, hlayers, hhead, Nat.mul_comm 9]
  rfl

theorem Accepted.expected {c : ModelConfig} (h : Accepted c) {name : String} {shape : Shape}
    (hfound : c.expected.find? name = some shape) : Writable name shape :=
  h.writable ((c.find?_expected name shape).1 hfound)

/-- A file has few tensors. -/
theorem Accepted.size_expected {c : ModelConfig} (h : Accepted c) : c.expected.size < 256 ^ 4 := by
  have hlayers := h.layers
  have hmost : (if c.tied then 0 else 1) ≤ 1 := by split <;> decide
  rw [c.size_expected]
  have : (3 + 9 * 128 : Nat) < 256 ^ 4 := by decide
  omega

/-! ## A tensor -/

/-- The product of `readDims`. -/
def product (dims : Shape) (elements : Nat) : Nat :=
  dims.foldl (fun elements d => elements * (BitVec.ofInt 64 d).toNat % 2 ^ 64) elements

/-- The dimensions are read from exactly the expected ones. -/
theorem reads_readDims (name : String) {dims : Shape} (hint32 : ∀ d ∈ dims, Int32 d) (shape : Shape)
    (elements : Nat) :
    Reads Thrown (readDims name dims shape elements) fun bs result =>
      bs = dims.flatMap packInt32 ∧ result = (shape ++ dims, product dims elements) := by
  induction dims generalizing shape elements with
  | nil =>
    refine (Lib.ByteReader.reads_pure _).congr fun bs result => ?_
    rw [List.append_nil]
    exact Iff.rfl
  | cons d dims ih =>
    obtain ⟨hhead, htail⟩ := List.forall_mem_cons.1 hint32
    have hrest (dim : Int) :=
      Reads.unless (c := dim ≠ d) (e := .runtimeError ("tensor shape mismatch: " ++ name))
      (E := Thrown) ⟨_, rfl⟩ (ih htail (shape ++ [dim])
        (elements * (BitVec.ofInt 64 dim).toNat % 2 ^ 64))
    refine (bindWritten reads_readInt32 hrest).congr fun bs result => ?_
    constructor
    · rintro ⟨dim, -, _, rfl, hsame, rfl, rfl⟩
      obtain rfl := not_not.1 hsame
      refine ⟨rfl, ?_⟩
      rw [List.append_assoc]
      rfl
    · rintro ⟨rfl, rfl⟩
      refine ⟨d, hhead, _, rfl, not_not.2 rfl, rfl, ?_⟩
      rw [List.append_assoc]
      rfl

/-- The product of few small dimensions does not wrap. -/
theorem product_eq {dims : Shape} (hrank : dims.length ≤ 2)
    (hbounds : ∀ d ∈ dims, 1 ≤ d ∧ d ≤ 262144) :
    product dims 1 = Shape.count dims ∧ Shape.count dims ≤ 262144 * 262144 := by
  have hword {d : Int} (hbound : 1 ≤ d ∧ d ≤ 262144) : (BitVec.ofInt 64 d).toNat = d.toNat := by
    obtain ⟨n, rfl⟩ := Int.eq_ofNat_of_zero_le (show 0 ≤ d by omega)
    rw [BitVec.ofInt_natCast, BitVec.toNat_ofNat]
    exact Nat.mod_eq_of_lt (by omega)
  rcases dims with _ | ⟨d, _ | ⟨d', _ | ⟨d'', dims⟩⟩⟩
  · exact ⟨rfl, by decide⟩
  · obtain ⟨hbound, -⟩ := List.forall_mem_cons.1 hbounds
    have hcount : Shape.count [d] = d.toNat := by simp [Shape.count, Shape.dims]
    rw [hcount]
    refine ⟨?_, by omega⟩
    show 1 * (BitVec.ofInt 64 d).toNat % 2 ^ 64 = _
    rw [hword hbound, Nat.one_mul]
    exact Nat.mod_eq_of_lt (by omega)
  · obtain ⟨hbound, hrest⟩ := List.forall_mem_cons.1 hbounds
    obtain ⟨hbound', -⟩ := List.forall_mem_cons.1 hrest
    have hcount : Shape.count [d, d'] = d.toNat * d'.toNat := by simp [Shape.count, Shape.dims]
    have hmost : d.toNat * d'.toNat ≤ 262144 * 262144 := Nat.mul_le_mul (by omega) (by omega)
    rw [hcount]
    refine ⟨?_, hmost⟩
    show 1 * (BitVec.ofInt 64 d).toNat % 2 ^ 64 * (BitVec.ofInt 64 d').toNat % 2 ^ 64 = _
    rw [hword hbound, hword hbound', Nat.one_mul, Nat.mod_mul_mod]
    exact Nat.mod_eq_of_lt (by omega)
  · rw [List.length_cons, List.length_cons, List.length_cons] at hrank
    omega

/-- The shapes of the format have tensors. -/
theorem zeros_ok {shape : Shape} (hrank : shape.length ≤ 2)
    (hbounds : ∀ d ∈ shape, 1 ≤ d ∧ d ≤ 262144) :
    ∃ blank, zeros shape = .ok blank ∧ blank.dtype = .float32 ∧
      ∃ hadmits, blank.layout = TensorLayout.contiguous shape hadmits := by
  have hmost := (product_eq hrank hbounds).2
  have hfits : TensorLayout.StridesFit (Shape.dims shape) := by
    rcases shape with _ | ⟨d, _ | ⟨d', _ | ⟨d'', dims⟩⟩⟩
    · trivial
    · exact ⟨by decide, trivial⟩
    · obtain ⟨-, hrest⟩ := List.forall_mem_cons.1 hbounds
      obtain ⟨hbound', -⟩ := List.forall_mem_cons.1 hrest
      refine ⟨?_, by decide, trivial⟩
      show [d'.toNat].prod ≤ int64Max
      rw [List.prod_singleton]
      unfold int64Max
      omega
    · rw [List.length_cons, List.length_cons, List.length_cons] at hrank
      omega
  have hadmits : TensorLayout.Admits shape :=
    ⟨fun d hmem => by have := (hbounds d hmem).1; omega, Nat.le_trans hmost (by decide), hfits⟩
  have hbuilt := TensorLayout.ofShape_ok.2 ⟨hadmits, rfl⟩
  have hsmall : (TensorLayout.contiguous shape hadmits).numel *
    DataType.float32.size ≤ sizeMax := by
    show Shape.count shape * 4 ≤ sizeMax
    have : 262144 * 262144 * 4 ≤ sizeMax := by decide
    omega
  refine ⟨⟨_, .float32, fun _ => 0, hsmall⟩, ?_, rfl, hadmits, rfl⟩
  unfold zeros
  rw [hbuilt]
  exact dif_pos hsmall

/-- Floats are read back from their bytes. -/
theorem floatsOf_packed (values : List FloatBits) :
    floatsOf (values.flatMap packFloat) = values := by
  induction values with
  | nil => rfl
  | cons x values ih =>
    obtain ⟨b₀, b₁, b₂, b₃, heq⟩ : ∃ b₀ b₁ b₂ b₃, packFloat x = [b₀, b₁, b₂, b₃] :=
      ⟨_, _, _, _, rfl⟩
    have hnumber : littleEndian [b₀, b₁, b₂, b₃] = x.toNat := by
      rw [← heq, packFloat, Lib.Wire.littleEndian_toLittleEndian]
      exact Nat.mod_eq_of_lt x.isLt
    rw [List.flatMap_cons, heq]
    show BitVec.ofNat 32 (littleEndian [b₀, b₁, b₂, b₃]) :: floatsOf (values.flatMap packFloat) = _
    rw [ih, hnumber, BitVec.ofNat_toNat, BitVec.setWidth_eq]

theorem length_packed (values : List FloatBits) :
    (values.flatMap packFloat).length = 4 * values.length := by
  induction values with
  | nil => rfl
  | cons x values ih =>
    rw [List.flatMap_cons, List.length_append, ih, packFloat, Lib.Wire.length_toLittleEndian,
      List.length_cons]
    omega

/-- Any bytes of this length are floats. -/
theorem packed_floatsOf {count : Nat} {content : Bytes} (hlength : content.length = 4 * count) :
    (floatsOf content).flatMap packFloat = content ∧ (floatsOf content).length = count := by
  induction count generalizing content with
  | zero =>
    cases List.length_eq_zero_iff.1 hlength
    exact ⟨rfl, rfl⟩
  | succ count ih =>
    rcases content with _ | ⟨b₀, _ | ⟨b₁, _ | ⟨b₂, _ | ⟨b₃, rest⟩⟩⟩⟩
    · cases hlength
    · rw [List.length_singleton] at hlength
      omega
    · rw [List.length_cons, List.length_singleton] at hlength
      omega
    · rw [List.length_cons, List.length_cons, List.length_singleton] at hlength
      omega
    · have hless : rest.length = 4 * count := by
        simp only [List.length_cons] at hlength
        omega
      obtain ⟨hbytes, hfloats⟩ := ih hless
      have hsmall : littleEndian [b₀, b₁, b₂, b₃] < 256 ^ 4 :=
        Lib.Wire.littleEndian_lt [b₀, b₁, b₂, b₃]
      rw [show 256 ^ 4 = 2 ^ 32 by decide] at hsmall
      have hword : packFloat (BitVec.ofNat 32 (littleEndian [b₀, b₁, b₂, b₃])) =
        [b₀, b₁, b₂, b₃] := by
        rw [packFloat, BitVec.toNat_ofNat, Nat.mod_eq_of_lt hsmall]
        exact Lib.Wire.toLittleEndian_littleEndian [b₀, b₁, b₂, b₃]
      have hsplit : floatsOf (b₀ :: b₁ :: b₂ :: b₃ :: rest) =
          BitVec.ofNat 32 (littleEndian [b₀, b₁, b₂, b₃]) :: floatsOf rest := by rw [floatsOf]
      rw [hsplit, List.flatMap_cons, hword, hbytes, List.length_cons, hfloats]
      exact ⟨rfl, rfl⟩

/-- The tensor of a written one. -/
structure IsTensor (t : NativeTensor) (tensor : Tensor FloatBits) : Prop where
  shape : tensor.shape = t.shape
  dtype : tensor.dtype = .float32
  contiguous : tensor.isContiguous = true
  elements : tensor.elements = t.values

/-- What a round of the loop adds for a written tensor. -/
structure Takes (expected : OrdMap String Shape) (tensors : OrdMap String (Tensor FloatBits))
    (t : NativeTensor) (tensors' : OrdMap String (Tensor FloatBits)) : Prop where
  named : expected.find? t.name = some t.shape
  fresh : tensors.contains t.name = false
  size : t.values.length = Shape.count t.shape
  finite : ∀ v ∈ t.values, v.isFinite = true
  grown : ∃ blank, zeros t.shape = .ok blank ∧
    tensors' = tensors.insert t.name (fill blank (t.values.flatMap packFloat))

/-- A blank tensor filled with the values is the tensor. -/
theorem isTensor_fill {t : NativeTensor} {blank : Tensor FloatBits}
    (hdtype : blank.dtype = .float32) {hadmits : TensorLayout.Admits t.shape}
    (hlayout : blank.layout = TensorLayout.contiguous t.shape hadmits)
    (hsize : t.values.length = Shape.count t.shape) :
    IsTensor t (fill blank (t.values.flatMap packFloat)) where
  shape := congrArg TensorLayout.shape hlayout
  dtype := hdtype
  contiguous := by
    show blank.layout.isContiguous = true
    rw [hlayout]
    exact beq_self_eq_true _
  elements := by
    have hdata (i : Nat) : (fill blank (t.values.flatMap packFloat)).data i =
      t.values.getD i 0 := by
      show (floatsOf (t.values.flatMap packFloat)).getD i 0 = _
      rw [floatsOf_packed]
    refine Tensor.elements_contiguous (t := fill blank (t.values.flatMap packFloat))
      hlayout hdata ?_
    rw [hsize]
    show _ = Shape.count blank.layout.shape
    rw [hlayout]
    rfl

/-- The scan for values that are not finite. -/
theorem all_isFinite {t : NativeTensor} {tensor : Tensor FloatBits} (h : IsTensor t tensor) :
    (List.range tensor.numel).all (fun j => (tensor.logicalElement j).isFinite) = true ↔
      ∀ v ∈ t.values, v.isFinite = true := by
  rw [← h.elements, Tensor.elements, List.all_eq_true, List.forall_mem_map]

/-- The data of a tensor that a round adds. -/
def Data (tensors : OrdMap String (Tensor FloatBits)) (name : String) (dims : Shape) (bs : Bytes)
    (tensors' : OrdMap String (Tensor FloatBits)) : Prop :=
  ∃ values : List FloatBits, bs = toLittleEndian 8 (4 * values.length) ++ values.flatMap packFloat ∧
    values.length = Shape.count dims ∧ (∀ v ∈ values, v.isFinite = true) ∧
      ∃ blank, zeros dims = .ok blank ∧
      tensors' = tensors.insert name (fill blank (values.flatMap packFloat))

/-- The data of a tensor, after its shape was read. -/
theorem reads_data {name : String} {dims : Shape} (hwritable : Writable name dims)
    (tensors : OrdMap String (Tensor FloatBits)) {elements : Nat}
    (hcount : elements = Shape.count dims) :
    Reads Thrown (do
      let bytes ← readUnsigned 8
      if bytes ≠ elements * 4 % 2 ^ 64 then fail "invalid tensor bytes" else do
      Lib.ByteReader.demand bytes (.runtimeError "invalid tensor bytes")
      let tensor ← lift (ofExcept (zeros dims))
      let data ← readBytes bytes "truncated tensor"
      let tensor := fill tensor data
      if (List.range tensor.numel).all (fun j => (tensor.logicalElement j).isFinite) = false then
        fail "nonfinite weights"
      else pure (tensors.insert name tensor))
      (Data tensors name dims) := by
  obtain ⟨blank, hmade, hdtype, hadmits, hlayout⟩ := zeros_ok hwritable.rank hwritable.dims
  have hmost := (product_eq hwritable.rank hwritable.dims).2
  -- the byte count of the file format does not wrap
  have hbytes : elements * 4 % 2 ^ 64 = 4 * Shape.count dims := by
    rw [hcount, Nat.mul_comm]
    exact Nat.mod_eq_of_lt (by omega)
  -- the reader after the byte count, at any count
  have hscan (n : Nat) : Reads Thrown (do
      Lib.ByteReader.demand n (.runtimeError "invalid tensor bytes")
      let tensor ← lift (ofExcept (zeros dims))
      let data ← readBytes n "truncated tensor"
      let tensor := fill tensor data
      if (List.range tensor.numel).all (fun j => (tensor.logicalElement j).isFinite) = false then
        fail "nonfinite weights"
      else pure (tensors.insert name tensor))
      fun bs tensors' => bs.length = n ∧ (List.range (fill blank bs).numel).all (fun j =>
        ((fill blank bs).logicalElement j).isFinite) = true ∧
        tensors' = tensors.insert name (fill blank bs) := by
    have hbody := (reads_readBytes n "truncated tensor").bind fun data => Reads.unless
      (c := (List.range (fill blank data).numel).all
        (fun j => ((fill blank data).logicalElement j).isFinite) = false)
      (e := .runtimeError "nonfinite weights") (E := Thrown) ⟨_, rfl⟩
      (Lib.ByteReader.reads_pure (tensors.insert name (fill blank data)))
    rw [hmade]
    refine Reads.guarded (hbody.congr fun bs tensors' => ?_) ⟨_, rfl⟩ fun bs tensors' h => h.1.ge
    constructor
    · rintro ⟨_, bs, _, rfl, ⟨rfl, hlength⟩, hfinite, rfl, rfl⟩
      rw [List.append_nil]
      exact ⟨hlength, by simpa using hfinite, rfl⟩
    · rintro ⟨hlength, hfinite, rfl⟩
      exact ⟨bs, bs, [], (List.append_nil bs).symm,
        ⟨rfl, hlength⟩, by simpa using hfinite, rfl, rfl⟩
  refine (bindWritten (reads_readUnsigned 8) fun n => Reads.unless ⟨_, rfl⟩ (hscan n)).congr
    fun bs tensors' => ?_
  constructor
  -- what was read is a tensor of the right size with finite values
  · rintro ⟨n, -, rest, rfl, hsame, hlength, hfinite, rfl⟩
    rw [hbytes] at hsame
    obtain rfl := not_not.1 hsame
    obtain ⟨hpacked, hsize⟩ := packed_floatsOf hlength
    have htensor := isTensor_fill (t := ⟨name, dims, floatsOf rest⟩) hdtype hlayout hsize
    have hall := (all_isFinite htensor).1
    dsimp only at htensor hall
    rw [hpacked] at hall
    refine ⟨floatsOf rest, ?_, hsize, hall hfinite, blank, hmade, ?_⟩
    · rw [hsize, hpacked]
    · rw [hpacked]
  -- such a tensor is read back from what is written of it
  · rintro ⟨values, rfl, hsize, hfinite, blank', hmade', rfl⟩
    rw [hmade] at hmade'
    cases hmade'
    have htensor := isTensor_fill (t := ⟨name, dims, values⟩) hdtype hlayout hsize
    refine ⟨4 * values.length, ?_, values.flatMap packFloat, rfl, ?_, length_packed values,
      (all_isFinite htensor).2 hfinite, rfl⟩
    · rw [hsize]
      have : 4 * (262144 * 262144) < 256 ^ 8 := by decide
      omega
    · rw [hbytes, hsize]
      exact not_not.2 rfl

/-- The shape and the data of a tensor of this name. -/
theorem reads_rest {name : String} {dims : Shape} (hwritable : Writable name dims)
    (tensors : OrdMap String (Tensor FloatBits)) :
    Reads Thrown (do
      let rank ← readUnsigned 4
      if rank ≠ dims.length then fail "tensor rank mismatch" else do
      let (shape, elements) ← readDims name dims [] 1
      let bytes ← readUnsigned 8
      if bytes ≠ elements * 4 % 2 ^ 64 then fail "invalid tensor bytes" else do
      Lib.ByteReader.demand bytes (.runtimeError "invalid tensor bytes")
      let tensor ← lift (ofExcept (zeros shape))
      let data ← readBytes bytes "truncated tensor"
      let tensor := fill tensor data
      if (List.range tensor.numel).all (fun j => (tensor.logicalElement j).isFinite) = false then
        fail "nonfinite weights"
      else pure (tensors.insert name tensor))
      fun bs tensors' => ∃ rest, bs = toLittleEndian 4 dims.length ++
        (dims.flatMap packInt32 ++ rest) ∧
        Data tensors name dims rest tensors' := by
  have hint32 : ∀ d ∈ dims, Int32 d := fun d hmem => by
    have := hwritable.dims d hmem
    exact ⟨by omega, by omega⟩
  have hshape := reads_readDims name hint32 [] 1
  have hone := product_eq hwritable.rank hwritable.dims
  refine (bindWritten (reads_readUnsigned 4) fun rank =>
    Reads.unless (c := rank ≠ dims.length) ⟨_, rfl⟩
    (hshape.bindOf (Q := fun _ => Data tensors name dims) fun result bs hread => ?_)).congr
      fun bs tensors' => ?_
  · obtain rfl := hread.2
    exact reads_data hwritable tensors hone.1
  · constructor
    · rintro ⟨rank, -, _, rfl, hsame, _, _, rest, rfl, ⟨rfl, -⟩, hdata⟩
      obtain rfl := not_not.1 hsame
      exact ⟨rest, rfl, hdata⟩
    · rintro ⟨rest, rfl, hdata⟩
      have hsmall : dims.length < 256 ^ 4 := Nat.lt_of_le_of_lt hwritable.rank (by decide)
      exact ⟨dims.length, hsmall, _, rfl, not_not.2 rfl, _, _, rest, rfl, ⟨rfl, rfl⟩, hdata⟩

/-- What is read of a tensor after its name. -/
def readNamed (expected : OrdMap String Shape) (tensors : OrdMap String (Tensor FloatBits))
    (name : String) :
    Reader Exn (OrdMap String (Tensor FloatBits)) :=
  match expected.find? name with
  | none => fail ("unknown/duplicate tensor: " ++ name)
  | some dims =>
    if tensors.contains name then fail ("unknown/duplicate tensor: " ++ name) else do
    let rank ← readUnsigned 4
    if rank ≠ dims.length then fail "tensor rank mismatch" else do
    let (shape, elements) ← readDims name dims [] 1
    let bytes ← readUnsigned 8
    if bytes ≠ elements * 4 % 2 ^ 64 then fail "invalid tensor bytes" else do
    Lib.ByteReader.demand bytes (.runtimeError "invalid tensor bytes")
    let tensor ← lift (ofExcept (zeros shape))
    let data ← readBytes bytes "truncated tensor"
    let tensor := fill tensor data
    if (List.range tensor.numel).all (fun j => (tensor.logicalElement j).isFinite) = false then
      fail "nonfinite weights"
    else pure (tensors.insert name tensor)

/-- A tensor is read from exactly its encoding, if it is expected and new. -/
theorem reads_readTensor {expected : OrdMap String Shape}
    (hwritable : ∀ name dims, expected.find? name = some dims → Writable name dims)
    (tensors : OrdMap String (Tensor FloatBits)) :
    Reads Thrown (readTensor expected tensors) fun bs tensors' =>
      ∃ t, bs = encodeTensor t ∧ Takes expected tensors t tensors' := by
  have hnamed (name : String) : Reads Thrown (readNamed expected tensors name)
      fun bs tensors' => ∃ dims rest, expected.find? name = some dims ∧
      tensors.contains name = false ∧
        bs = toLittleEndian 4 dims.length ++ (dims.flatMap packInt32 ++ rest) ∧
          Data tensors name dims rest tensors' := by
    unfold readNamed
    cases hfound : expected.find? name with
    | none =>
      refine (Lib.ByteReader.reads_throw ⟨_, rfl⟩).congr fun bs tensors' => ⟨False.elim, ?_⟩
      rintro ⟨dims, rest, hmissing, -⟩
      cases hmissing
    | some dims =>
      refine (Reads.unless ⟨_, rfl⟩ (reads_rest (hwritable name dims hfound) tensors)).congr
        fun bs tensors' => ?_
      constructor
      · rintro ⟨hfresh, rest, rfl, hdata⟩
        exact ⟨dims, rest, rfl, by simpa using hfresh, rfl, hdata⟩
      · rintro ⟨_, rest, hsame, hfresh, rfl, hdata⟩
        cases hsame
        exact ⟨by simp [hfresh], rest, rfl, hdata⟩
  refine (bindWritten (reads_readUnsigned 4) fun length =>
    Reads.unless (c := length < 1 ∨ length > 256) ⟨_, rfl⟩
    ((reads_readBytes length "truncated name").bind fun content => hnamed (text content))).congr
      fun bs tensors' => ?_
  constructor
  · rintro ⟨length, -, _, rfl, -, _, content, _, rfl, ⟨rfl, rfl⟩, dims, rest, hfound, hfresh, rfl,
      values, rfl, hsize, hfinite, hgrown⟩
    refine ⟨⟨text content, dims, values⟩, ?_, hfound, hfresh, hsize, hfinite, hgrown⟩
    simp only [encodeTensor, Lib.Wire.ofText_text, List.append_assoc]
  · rintro ⟨⟨name, dims, values⟩, rfl, hfound, hfresh, hsize, hfinite, hgrown⟩
    obtain ⟨hnonempty, hshort, hnarrow, -, -⟩ := hwritable name dims hfound
    have hlength := Lib.Wire.length_ofText name
    have hsmall : (ofText name).length < 256 ^ 4 := by
      have : 256 < 256 ^ 4 := by decide
      omega
    have hsame := Lib.Wire.text_ofText hnarrow
    refine ⟨(ofText name).length, hsmall, _, ?_, by omega, ofText name, _, _, rfl, ⟨rfl, rfl⟩, dims,
      _, ?_, ?_, rfl, values, rfl, hsize, hfinite, ?_⟩
    · simp only [encodeTensor, List.append_assoc]
    · rw [hsame]
      exact hfound
    · rw [hsame]
      exact hfresh
    · rw [hsame]
      exact hgrown

/-! ## The file -/

/-- The tensors of a configuration, each once, in some order. -/
structure Weights (c : ModelConfig) (ts : List NativeTensor) : Prop where
  names : (ts.map NativeTensor.name).Perm (c.expected.entries.map Prod.fst)
  shapes : ∀ t ∈ ts, c.expected.find? t.name = some t.shape
  sizes : ∀ t ∈ ts, t.values.length = Shape.count t.shape
  finite : ∀ t ∈ ts, ∀ v ∈ t.values, v.isFinite = true

/-- The model holds these tensors and no others. -/
structure Holds (tensors : OrdMap String (Tensor FloatBits)) (ts : List NativeTensor) : Prop where
  tensor : ∀ t ∈ ts, ∃ tensor, tensors.find? t.name = some tensor ∧ IsTensor t tensor
  only : ∀ name tensor, tensors.find? name = some tensor → name ∈ ts.map NativeTensor.name

/-- What follows from the rounds of the loop, by the tensors so far. -/
theorem holds_of_steps {expected : OrdMap String Shape}
    (hwritable : ∀ name dims, expected.find? name = some dims → Writable name dims)
    {before ts : List NativeTensor} {tensors tensors' : OrdMap String (Tensor FloatBits)}
    (hstart : Holds tensors before) (hnodup : (before.map NativeTensor.name).Nodup)
    (hsteps : Steps (Takes expected) tensors ts tensors') :
    Holds tensors' (before ++ ts) ∧ ((before ++ ts).map NativeTensor.name).Nodup := by
  induction hsteps generalizing before with
  | nil =>
    rw [List.append_nil]
    exact ⟨hstart, hnodup⟩
  | @cons tensors tensors₁ tensors' t ts hmove _ ih =>
    obtain ⟨hnamed, hfresh, hsize, -, blank, hmade, rfl⟩ := hmove
    have hmissing : tensors.find? t.name = none := by
      rw [OrdMap.contains] at hfresh
      simpa using hfresh
    have hapart : t.name ∉ before.map NativeTensor.name := by
      intro hmem
      obtain ⟨t', hmem, hsame⟩ := List.mem_map.1 hmem
      obtain ⟨tensor, hfound, -⟩ := hstart.tensor t' hmem
      rw [hsame, hmissing] at hfound
      cases hfound
    obtain ⟨blank', hmade', hdtype, hadmits, hlayout⟩ :=
      zeros_ok (hwritable _ _ hnamed).rank (hwritable _ _ hnamed).dims
    rw [hmade] at hmade'
    cases hmade'
    have hnext :
      Holds (tensors.insert t.name (fill blank (t.values.flatMap packFloat))) (before ++ [t]) := by
      constructor
      · intro t' hmem
        rcases List.mem_append.1 hmem with hmem | hmem
        · obtain ⟨tensor, hfound, hsame⟩ := hstart.tensor t' hmem
          refine ⟨tensor, ?_, hsame⟩
          rw [OrdMap.find?_insert_ne]
          · exact hfound
          · exact fun heq => hapart (List.mem_map.2 ⟨t', hmem, heq⟩)
        · obtain rfl := List.mem_singleton.1 hmem
          refine ⟨_, ?_, isTensor_fill hdtype hlayout hsize⟩
          rw [OrdMap.find?_insert, if_pos rfl]
      · intro name tensor hfound
        rw [OrdMap.find?_insert] at hfound
        rw [List.map_append, List.mem_append]
        split at hfound
        · rename_i hsame
          exact .inr (List.mem_singleton.2 hsame)
        · exact .inl (hstart.only name tensor hfound)
    have hdistinct : ((before ++ [t]).map NativeTensor.name).Nodup := by
      rw [List.map_append, List.map_singleton]
      exact List.nodup_append.2 ⟨hnodup, List.nodup_singleton _, fun a hmem b hone heq => by
        rw [List.mem_singleton.1 hone] at heq
        exact hapart (heq ▸ hmem)⟩
    have hrest := ih hnext hdistinct
    rwa [List.append_assoc, List.singleton_append] at hrest

/-- The rounds take every tensor that is required and new. -/
theorem exists_steps {expected : OrdMap String Shape}
    (hwritable : ∀ name dims, expected.find? name = some dims → Writable name dims)
    {ts : List NativeTensor} (hshapes : ∀ t ∈ ts, expected.find? t.name = some t.shape)
    (hsizes : ∀ t ∈ ts, t.values.length = Shape.count t.shape)
    (hfinite : ∀ t ∈ ts, ∀ v ∈ t.values, v.isFinite = true)
    (hnodup : (ts.map NativeTensor.name).Nodup) {tensors : OrdMap String (Tensor FloatBits)}
    (hfresh : ∀ t ∈ ts, tensors.find? t.name = none) :
    ∃ tensors', Steps (Takes expected) tensors ts tensors' := by
  induction ts generalizing tensors with
  | nil => exact ⟨tensors, .nil⟩
  | cons t ts ih =>
    obtain ⟨hnamed, hshapes⟩ := List.forall_mem_cons.1 hshapes
    obtain ⟨hsize, hsizes⟩ := List.forall_mem_cons.1 hsizes
    obtain ⟨hsmall, hfinite⟩ := List.forall_mem_cons.1 hfinite
    obtain ⟨hmissing, hfresh⟩ := List.forall_mem_cons.1 hfresh
    rw [List.map_cons, List.nodup_cons] at hnodup
    obtain ⟨blank, hmade, -⟩ := zeros_ok (hwritable _ _ hnamed).rank (hwritable _ _ hnamed).dims
    have hothers : ∀ t' ∈ ts,
        (tensors.insert t.name (fill blank (t.values.flatMap packFloat))).find? t'.name = none := by
      intro t' hmem
      rw [OrdMap.find?_insert_ne]
      · exact hfresh t' hmem
      · exact fun hsame => hnodup.1 (List.mem_map.2 ⟨t', hmem, hsame⟩)
    obtain ⟨tensors', hsteps⟩ := ih hshapes hsizes hfinite hnodup.2 hothers
    refine ⟨tensors', .cons ⟨hnamed, ?_, hsize, hsmall, blank, hmade, rfl⟩ hsteps⟩
    rw [OrdMap.contains, hmissing]
    rfl

theorem seq_written {α : Type} {write : α → Bytes} {bs : Bytes} {as : List α} :
    Seq (fun bs a => bs = write a) bs as ↔ bs = as.flatMap write := by
  constructor
  · intro h
    induction h with
    | nil => rfl
    | cons hhead _ ih => rw [hhead, ih, List.flatMap_cons]
  · rintro rfl
    induction as with
    | nil => exact .nil
    | cons a as ih => exact .cons rfl ih

/-- A model is read from a configuration and as many tensors as it expects. -/
theorem reads_readModel : Reads Thrown readModel fun bs model =>
    model.config.validate = .ok () ∧
      ∃ ts : List NativeTensor, ts.length = model.config.expected.size ∧
      bs = encode model.config ts ∧
        Steps (Takes model.config.expected) .empty ts model.tensors := by
  have hstart : Reads Thrown (readBytes 8 "invalid model format") fun bs content =>
    content.length = 8 ∧ bs = content :=
    (reads_readBytes 8 _).congr fun bs content => And.comm
  have htensors (config : ModelConfig) (hvalid : config.validate = .ok ()) (count : Nat) :
      Reads Thrown (times (readTensor config.expected) count .empty) fun bs tensors =>
        ∃ ts : List NativeTensor, ts.length = count ∧ Seq (fun bs t => bs = encodeTensor t) bs ts ∧
          Steps (Takes config.expected) .empty ts tensors :=
    Lib.ByteReader.times_spec
      (fun tensors => reads_readTensor (fun _ _ => (accepted_of_validate hvalid).expected) tensors)
        count .empty
  have hrest (config : ModelConfig) (hvalid : config.validate = .ok ()) :=
    bindWritten (reads_readUnsigned 4) fun count => Reads.unless (c := count ≠ config.expected.size)
      (e := .runtimeError "model tensor count mismatch") (E := Thrown) ⟨_, rfl⟩
      ((htensors config hvalid count).map fun tensors => (⟨config, tensors⟩ : ModelWeights))
  refine (bindWritten hstart fun content => Reads.unless (c := content ≠ magic) ⟨_, rfl⟩
    (reads_readConfig.bindOf fun config bs hread => hrest config hread.1)).congr fun bs model => ?_
  constructor
  · rintro ⟨content, -, _, rfl, hsame, config, _, _, rfl, ⟨hvalid, rfl⟩, count, -, _, rfl, hsize,
      tensors, ⟨ts, hlength, hseq, hsteps⟩, rfl⟩
    obtain rfl := not_not.1 hsame
    obtain rfl := seq_written.1 hseq
    refine ⟨hvalid, ts, hlength.trans (not_not.1 hsize), ?_, hsteps⟩
    simp only [encode, hlength, List.append_assoc]
  · rintro ⟨hvalid, ts, hlength, rfl, hsteps⟩
    have hsmall := (accepted_of_validate hvalid).size_expected
    refine ⟨magic, rfl, _, ?_, not_not.2 rfl, model.config, _, _, rfl, ⟨hvalid, rfl⟩,
      ts.length, by rwa [hlength], _, rfl, not_not.2 hlength, model.tensors,
      ⟨ts, rfl, seq_written.2 rfl, hsteps⟩, rfl⟩
    simp only [encode, List.append_assoc]

/-- The bytes of a file are read to their end. -/
theorem load_ok {path : String} {bytes : Bytes} {model : ModelWeights} :
    load path (some bytes) = .ok model ↔
      model.config.validate = .ok () ∧
        ∃ ts : List NativeTensor, ts.length = model.config.expected.size ∧
        bytes = encode model.config ts ∧
          Steps (Takes model.config.expected) .empty ts model.tensors := by
  have hvalid : ByteReader.Valid { bytes } := Nat.zero_le _
  have hleft : ByteReader.left { bytes } = bytes := rfl
  refine bind_ok.trans ?_
  constructor
  · rintro ⟨⟨model', r⟩, hrun, hresult⟩
    obtain ⟨bs, rest, hsplit, hread, rfl⟩ := (reads_readModel.ok _ hvalid model' r).1 hrun
    dsimp only at hresult
    split at hresult
    · cases hresult
    · rename_i hended
      cases hresult
      have hcurrent : (ByteReader.skip { bytes } bs.length).current = bs.length := Nat.zero_add _
      rw [hleft] at hsplit
      rw [hcurrent, not_not, hsplit, List.length_append] at hended
      have hnone : rest = [] := List.length_eq_zero_iff.1 (by omega)
      rw [hsplit, hnone, List.append_nil]
      exact hread
  · intro hread
    have hall : ByteReader.left { bytes } = bytes ++ [] := (List.append_nil bytes).symm
    refine ⟨⟨model, _⟩, (reads_readModel.ok _ hvalid model _).2 ⟨bytes, [], hall, hread, rfl⟩, ?_⟩
    exact if_neg (not_not.2 (Nat.zero_add _))

theorem load_faults {path : String} {file : Option Bytes} {fault : Fault Exn}
    (h : load path file = .error fault) : Thrown fault := by
  unfold load at h
  split at h
  · cases h
    exact ⟨_, rfl⟩
  · rcases bind_error.1 h with h | ⟨⟨model, r⟩, -, h⟩
    · exact reads_readModel.faults _ (Nat.zero_le _) fault h
    · dsimp only at h
      split at h
      · cases h
        exact ⟨_, rfl⟩
      · cases h

/-- Different required names, as many as there are: all of them. -/
theorem perm_of_names {expected : OrdMap String Shape} {names : List String} (hnodup : names.Nodup)
    (hknown : ∀ name ∈ names, ∃ dims, expected.find? name = some dims)
    (hlength : names.length = expected.size) :
    names.Perm (expected.entries.map Prod.fst) := by
  have hinside : names ⊆ expected.entries.map Prod.fst := by
    intro name hmem
    obtain ⟨dims, hfound⟩ := hknown name hmem
    exact List.mem_map.2 ⟨(name, dims), OrdMap.mem_of_find? hfound, rfl⟩
  refine (List.subperm_of_subset hnodup hinside).perm_of_length_le ?_
  rw [List.length_map, hlength]
  exact Nat.le_refl _

/-- A native model is accepted exactly where it is what `export_model` writes for a valid
configuration and finite weights of its tensors, in any order. -/
theorem load_exact (path : String) :
    (∀ (c : ModelConfig) (ts : List NativeTensor), c.validate = .ok () → Weights c ts →
      ∃ model, load path (some (encode c ts)) = .ok model ∧ model.config = c ∧
        Holds model.tensors ts) ∧
    (∀ (file : Option Bytes) (model : ModelWeights), load path file = .ok model →
      model.config.validate = .ok () ∧ ∃ ts, Weights model.config ts ∧
        file = some (encode model.config ts) ∧
        Holds model.tensors ts) ∧
    ∀ (file : Option Bytes) (fault : Fault Exn), load path file = .error fault → Thrown fault := by
  have hnone : Holds .empty [] :=
    ⟨fun t hmem => absurd hmem List.not_mem_nil, fun name tensor hfound => (by cases hfound)⟩
  refine ⟨fun c ts hvalid hweights => ?_, fun file model hloaded => ?_,
    fun file fault => load_faults⟩
  · have hwritable (name : String) (dims : Shape) (hfound : c.expected.find? name = some dims) :
        Writable name dims := (accepted_of_validate hvalid).expected hfound
    have hfresh : ∀ t ∈ ts, (OrdMap.empty : OrdMap String (Tensor FloatBits)).find? t.name =
      .none := fun t hmem => rfl
    have hnodup := hweights.names.nodup_iff.2 c.expected.keys_nodup
    obtain ⟨tensors, hsteps⟩ :=
      exists_steps hwritable hweights.shapes hweights.sizes hweights.finite hnodup hfresh
    have hlength : ts.length = c.expected.size := by
      rw [← List.length_map NativeTensor.name, hweights.names.length_eq, List.length_map]
      rfl
    refine ⟨⟨c, tensors⟩, load_ok.2 ⟨hvalid, ts, hlength, rfl, hsteps⟩, rfl, ?_⟩
    exact (holds_of_steps hwritable hnone List.nodup_nil hsteps).1
  · cases file with
    | none => cases hloaded
    | some bytes =>
      obtain ⟨hvalid, ts, hlength, rfl, hsteps⟩ := load_ok.1 hloaded
      have hwritable (name : String) (dims : Shape)
        (hfound : model.config.expected.find? name = some dims) :
          Writable name dims := (accepted_of_validate hvalid).expected hfound
      obtain ⟨hholds, hnodup⟩ := holds_of_steps hwritable hnone List.nodup_nil hsteps
      refine ⟨hvalid, ts, ⟨?_, ?_, ?_, ?_⟩, rfl, hholds⟩
      · refine perm_of_names hnodup (fun name hmem => ?_) ((List.length_map _).trans hlength)
        obtain ⟨t, hinside, rfl⟩ := List.mem_map.1 hmem
        obtain ⟨_, _, htakes⟩ := hsteps.of_mem hinside
        exact ⟨t.shape, htakes.named⟩
      · intro t hmem
        obtain ⟨_, _, htakes⟩ := hsteps.of_mem hmem
        exact htakes.named
      · intro t hmem
        obtain ⟨_, _, htakes⟩ := hsteps.of_mem hmem
        exact htakes.size
      · intro t hmem
        obtain ⟨_, _, htakes⟩ := hsteps.of_mem hmem
        exact htakes.finite

/-- A tensor of zeros. -/
def zeroTensor (e : String × Shape) : NativeTensor := ⟨e.1, e.2, List.replicate (Shape.count e.2) 0⟩

/-- Every configuration has weights. -/
theorem zeroWeights (c : ModelConfig) : Weights c (c.expected.entries.map zeroTensor) where
  names := by
    rw [List.map_map]
    exact List.Perm.refl _
  shapes := by
    intro t hmem
    obtain ⟨⟨name, dims⟩, hinside, rfl⟩ := List.mem_map.1 hmem
    exact OrdMap.find?_eq_some_iff.2 hinside
  sizes := by
    intro t hmem
    obtain ⟨⟨name, dims⟩, hinside, rfl⟩ := List.mem_map.1 hmem
    exact List.length_replicate
  finite := by
    intro t hmem v hvalue
    obtain ⟨⟨name, dims⟩, hinside, rfl⟩ := List.mem_map.1 hmem
    rw [List.eq_of_mem_replicate hvalue]
    decide

/-- One layer of two units. -/
def smallConfig : ModelConfig where
  layers := 1
  hidden := 2
  intermediate := 1
  heads := 1
  kvHeads := 1
  vocabulary := 2
  context := 1
  eos := 0
  rmsEpsilon := 0x3727C5AC
  ropeTheta := 0x461C4000

/-- A small model with zero weights. -/
theorem load_exact_small : ∃ model,
    load "model.mpf" (some (encode smallConfig (smallConfig.expected.entries.map zeroTensor))) =
      .ok model ∧
      model.config = smallConfig ∧
        Holds model.tensors (smallConfig.expected.entries.map zeroTensor) :=
  (load_exact "model.mpf").1 smallConfig _ (by decide) (zeroWeights smallConfig)

end TinyInfer.MiniPrefix.ModelFile
