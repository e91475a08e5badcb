import TinyInfer.Onnx.ProtobufMessages

/-!
# Attributes (`parse_attribute`)

An attribute has a name, a declared type and payloads of several types, each of them any
number of times and in any order. `AttributeValues` gathers them from the records, and the
last ones decide (`message_attribute_ok`). A declared type need not have a payload: then
`parse_attribute` dereferences an empty `std::optional` (`attributeSafe_iff`).

Main definitions: `AttributeValues`, `present`, `AttributeSafe`.
-/

namespace TinyInfer.Onnx

open Lib (Fault)
open Lib.ByteReader (Steps)
open Lib.Wire (Bytes text Record Value Seq ReadVarint Encodes Repeats Adds values
  values_cons repeats_cons)

/-- What the records of an attribute hold, each in their order. -/
structure AttributeValues where
  names : List Bytes := []
  floats : List Nat := []
  integers : List Nat := []
  strings : List Bytes := []
  ints : List Nat := []
  types : List Nat := []

namespace AttributeValues

structure Of (rs : List Record) (h : AttributeValues) : Prop where
  names : values 1 rs = h.names.map .bytes
  floats : values 2 rs = h.floats.map .fixed32
  integers : values 3 rs = h.integers.map .varint
  strings : values 4 rs = h.strings.map .bytes
  ints : Repeats .varint (ReadVarint wrapping) (values 8 rs) h.ints
  types : values 20 rs = h.types.map .varint

variable (h : AttributeValues)

def name : String := (h.names.map text).getLastD ""

/-- The declared type, 0 if there is none. -/
def type : Int := (h.types.map signed32).getLastD 0

/-- The last payloads. -/
def float : Option FloatBits := (h.floats.map floatFromBits).getLast?

def integer : Option Int := (h.integers.map signedVarint).getLast?

def string : Option String := (h.strings.map text).getLast?

/-- All of them count. -/
def integerList : List Int := h.ints.map signedVarint

/-- The payload of the declared type, or the first one without one, where it is present. -/
def present : Option AttributeValue :=
  match h.type with
  | 0 => h.float.map .float <|> h.integer.map .integer <|> h.string.map .string <|>
      if h.integerList = [] then none else some (.integers h.integerList)
  | 1 => h.float.map .float
  | 2 => h.integer.map .integer
  | 3 => h.string.map .string
  | 7 => some (.integers h.integerList)
  | _ => none

/-- The locals of `parse_attribute` after the records, from others before. -/
def after (a : AttributeLocals) : AttributeLocals where
  name := (h.names.map text).getLastD a.name
  integer := (h.integers.map fun n => some (signedVarint n)).getLastD a.integer
  floating := (h.floats.map fun n => some (floatFromBits n)).getLastD a.floating
  string := (h.strings.map fun content => some (text content)).getLastD a.string
  integers := a.integers ++ h.integerList
  type := (h.types.map signed32).getLastD a.type

theorem after_empty (h : AttributeValues) : h.after {} =
    { name := h.name, integer := h.integer, floating := h.float, string := h.string,
      integers := h.integerList, type := h.type } := by
  have hlast {α β : Type} (f : α → β) (as : List α) :
      (as.map fun a => some (f a)).getLastD none = (as.map f).getLast? := by
    rw [List.getLastD_eq_getLast?, List.getLast?_map, List.getLast?_map]
    cases as.getLast? <;> rfl
  unfold after float integer string
  rw [hlast, hlast, hlast]
  rfl

variable {h} {rs : List Record}

/-- A record adds to the values of its own field. -/
theorem Of.cons (hholds : h.Of rs) {field : Nat} {v : Value} {h' : AttributeValues}
    (hnames : (if field = 1 then [v] else []) ++ h.names.map .bytes = h'.names.map .bytes)
    (hfloats : (if field = 2 then [v] else []) ++ h.floats.map .fixed32 = h'.floats.map .fixed32)
    (hintegers : (if field = 3 then [v] else []) ++ h.integers.map .varint =
      h'.integers.map .varint)
    (hstrings : (if field = 4 then [v] else []) ++ h.strings.map .bytes = h'.strings.map .bytes)
    (hints : if field = 8 then ∃ ns, h'.ints = ns ++ h.ints ∧
      Adds .varint (ReadVarint wrapping) v ns
      else h'.ints = h.ints)
    (htypes : (if field = 20 then [v] else []) ++ h.types.map .varint = h'.types.map .varint) :
    h'.Of (⟨field, v⟩ :: rs) := by
  have hsingle (k : Nat) : values k (⟨field, v⟩ :: rs) = (if field = k then [v] else []) ++
    values k rs := by
    rw [values_cons]
    split <;> rfl
  refine ⟨?_, ?_, ?_, ?_, ?_, ?_⟩
  · rw [hsingle, hholds.names, hnames]
  · rw [hsingle, hholds.floats, hfloats]
  · rw [hsingle, hholds.integers, hintegers]
  · rw [hsingle, hholds.strings, hstrings]
  · rw [values_cons]
    split at hints
    · rename_i hsame
      obtain ⟨ns, heq, hadds⟩ := hints
      rw [if_pos hsame]
      exact repeats_cons.2 ⟨ns, h.ints, heq, hholds.ints, hadds⟩
    · rename_i hother
      rw [if_neg hother, hints]
      exact hholds.ints
  · rw [hsingle, hholds.types, htypes]

end AttributeValues

open AttributeValues

/-- The records lead to the locals that their values say, and only values do. -/
theorem steps_attribute {rs : List Record} {a a' : AttributeLocals} :
    Steps (AttributeStep wrapping) a rs a' ↔ ∃ h : AttributeValues, h.Of rs ∧ a' = h.after a := by
  -- on the records, from the first: its value comes before those of the rest
  induction rs generalizing a with
  | nil =>
    constructor
    · intro hsteps
      cases hsteps
      refine ⟨{}, ⟨rfl, rfl, rfl, rfl, .nil, rfl⟩, ?_⟩
      simp [after, integerList]
    · rintro ⟨⟨names, floats, integers, strings, ints, types⟩, ⟨h1, h2, h3, h4, h8, h20⟩, rfl⟩
      cases List.map_eq_nil_iff.1 h1.symm
      cases List.map_eq_nil_iff.1 h2.symm
      cases List.map_eq_nil_iff.1 h3.symm
      cases List.map_eq_nil_iff.1 h4.symm
      cases List.map_eq_nil_iff.1 h20.symm
      cases h8
      have hsame : after {} a = a := by simp [after, integerList]
      rw [hsame]
      exact .nil
  | cons r rs ih =>
    obtain ⟨field, v⟩ := r
    constructor
    · intro hsteps
      cases hsteps with
      | cons hmove hrest =>
        obtain ⟨h, hholds, rfl⟩ := ih.1 hrest
        -- one case for each field the parser knows
        unfold AttributeStep at hmove
        dsimp only at hmove
        split at hmove
        · obtain ⟨content, rfl, rfl⟩ := hmove
          refine ⟨{ h with names := content :: h.names }, hholds.cons rfl rfl rfl rfl rfl rfl, ?_⟩
          simp only [after, List.map_cons, List.getLastD_cons]
          rfl
        · obtain ⟨n, rfl, rfl⟩ := hmove
          refine ⟨{ h with floats := n :: h.floats }, hholds.cons rfl rfl rfl rfl rfl rfl, ?_⟩
          simp only [after, List.map_cons, List.getLastD_cons]
          rfl
        · obtain ⟨n, rfl, rfl⟩ := hmove
          refine ⟨{ h with integers := n :: h.integers }, hholds.cons rfl rfl rfl rfl rfl rfl, ?_⟩
          simp only [after, List.map_cons, List.getLastD_cons]
          rfl
        · obtain ⟨content, rfl, rfl⟩ := hmove
          refine ⟨{ h with strings := content :: h.strings },
            hholds.cons rfl rfl rfl rfl rfl rfl, ?_⟩
          simp only [after, List.map_cons, List.getLastD_cons]
          rfl
        · obtain ⟨integers, hgrown, rfl⟩ := hmove
          obtain ⟨ns, hadds, rfl⟩ := repeatedVarint_iff.1 hgrown
          refine ⟨{ h with ints := ns ++ h.ints },
            hholds.cons rfl rfl rfl rfl ⟨ns, rfl, hadds⟩ rfl, ?_⟩
          simp only [after, integerList, List.map_append, List.append_assoc]
        · obtain ⟨n, rfl, rfl⟩ := hmove
          refine ⟨{ h with types := n :: h.types }, hholds.cons rfl rfl rfl rfl rfl rfl, ?_⟩
          simp only [after, List.map_cons, List.getLastD_cons]
          rfl
        -- any other field leaves every list as it was
        · rename_i h1 h2 h3 h4 h8 h20
          cases hmove
          refine ⟨h, hholds.cons ?_ ?_ ?_ ?_ ?_ ?_, rfl⟩
          · rw [if_neg h1, List.nil_append]
          · rw [if_neg h2, List.nil_append]
          · rw [if_neg h3, List.nil_append]
          · rw [if_neg h4, List.nil_append]
          · rw [if_neg h8]
          · rw [if_neg h20, List.nil_append]
    · rintro ⟨⟨names, floats, integers, strings, ints, types⟩, ⟨h1, h2, h3, h4, h8, h20⟩, rfl⟩
      simp only [values_cons] at h1 h2 h3 h4 h8 h20
      -- the other way round, the record decides which list has a head
      obtain rfl | rfl | rfl | rfl | rfl | rfl | ⟨hn1, hn2, hn3, hn4, hn8, hn20⟩ :
          field = 1 ∨ field = 2 ∨ field = 3 ∨ field = 4 ∨ field = 8 ∨ field = 20 ∨
            (field ≠ 1 ∧ field ≠ 2 ∧ field ≠ 3 ∧ field ≠ 4 ∧ field ≠ 8 ∧ field ≠ 20) := by
        omega
      · simp only [if_pos, Nat.reduceEqDiff, if_false] at h1 h2 h3 h4 h8 h20
        obtain ⟨content, names, rfl, rfl, hrest⟩ := List.map_eq_cons_iff.1 h1.symm
        refine .cons ⟨content, rfl, rfl⟩
          (ih.2 ⟨⟨names, floats, integers, strings, ints, types⟩,
            ⟨hrest.symm, h2, h3, h4, h8, h20⟩, ?_⟩)
        simp only [after, List.map_cons, List.getLastD_cons]
        rfl
      · simp only [if_pos, Nat.reduceEqDiff, if_false] at h1 h2 h3 h4 h8 h20
        obtain ⟨n, floats, rfl, rfl, hrest⟩ := List.map_eq_cons_iff.1 h2.symm
        refine .cons ⟨n, rfl, rfl⟩
          (ih.2 ⟨⟨names, floats, integers, strings, ints, types⟩,
            ⟨h1, hrest.symm, h3, h4, h8, h20⟩, ?_⟩)
        simp only [after, List.map_cons, List.getLastD_cons]
        rfl
      · simp only [if_pos, Nat.reduceEqDiff, if_false] at h1 h2 h3 h4 h8 h20
        obtain ⟨n, integers, rfl, rfl, hrest⟩ := List.map_eq_cons_iff.1 h3.symm
        refine .cons ⟨n, rfl, rfl⟩
          (ih.2 ⟨⟨names, floats, integers, strings, ints, types⟩,
            ⟨h1, h2, hrest.symm, h4, h8, h20⟩, ?_⟩)
        simp only [after, List.map_cons, List.getLastD_cons]
        rfl
      · simp only [if_pos, Nat.reduceEqDiff, if_false] at h1 h2 h3 h4 h8 h20
        obtain ⟨content, strings, rfl, rfl, hrest⟩ := List.map_eq_cons_iff.1 h4.symm
        refine .cons ⟨content, rfl, rfl⟩
          (ih.2 ⟨⟨names, floats, integers, strings, ints, types⟩,
            ⟨h1, h2, h3, hrest.symm, h8, h20⟩, ?_⟩)
        simp only [after, List.map_cons, List.getLastD_cons]
        rfl
      · simp only [if_pos, Nat.reduceEqDiff, if_false] at h1 h2 h3 h4 h8 h20
        obtain ⟨ns, ints, rfl, hrest, hadds⟩ := repeats_cons.1 h8
        refine .cons ⟨_, repeatedVarint_iff.2 ⟨ns, hadds, rfl⟩, rfl⟩
          (ih.2 ⟨⟨names, floats, integers, strings, ints, types⟩, ⟨h1, h2, h3, h4, hrest, h20⟩, ?_⟩)
        simp only [after, integerList, List.map_append, List.append_assoc]
      · simp only [if_pos, Nat.reduceEqDiff, if_false] at h1 h2 h3 h4 h8 h20
        obtain ⟨n, types, rfl, rfl, hrest⟩ := List.map_eq_cons_iff.1 h20.symm
        refine .cons ⟨n, rfl, rfl⟩
          (ih.2 ⟨⟨names, floats, integers, strings, ints, types⟩,
            ⟨h1, h2, h3, h4, h8, hrest.symm⟩, ?_⟩)
        simp only [after, List.map_cons, List.getLastD_cons]
        rfl
      -- an unknown field may hold any value
      · simp only [if_neg hn1, if_neg hn2, if_neg hn3, if_neg hn4, if_neg hn8, if_neg hn20]
          at h1 h2 h3 h4 h8 h20
        refine .cons ?_ (ih.2 ⟨⟨names, floats, integers, strings, ints, types⟩,
          ⟨h1, h2, h3, h4, h8, h20⟩, rfl⟩)
        unfold AttributeStep
        split <;> first | contradiction | rfl

/-- The loop of `parse_attribute` gathers the values of the records. -/
theorem message_attribute_ok {content : Bytes} {a : AttributeLocals} :
    message attributeField {} content = .ok a ↔
      ∃ rs, ∃ h : AttributeValues, Seq (Encodes wrapping) content rs ∧ h.Of rs ∧
        a = h.after {} := by
  rw [(attribute_loop content).2 a]
  constructor
  · rintro ⟨rs, hrecords, hsteps⟩
    obtain ⟨h, hholds, heq⟩ := steps_attribute.1 hsteps
    exact ⟨rs, h, hrecords, hholds, heq⟩
  · rintro ⟨rs, h, hrecords, hholds, heq⟩
    exact ⟨rs, hrecords, steps_attribute.2 ⟨h, hholds, heq⟩⟩

/-- A declared type of a single value that the attribute does not have. -/
def AttributeValues.Lacks (h : AttributeValues) : Prop :=
  h.name ≠ "" ∧ (h.type = 1 ∨ h.type = 2 ∨ h.type = 3) ∧ h.present = none

/-- What is returned for the values of an attribute. -/
theorem selectPayload_after (h : AttributeValues) :
    (∃ value, h.name ≠ "" ∧ h.present = some value ∧
      selectPayload (h.after {}) = .ok (h.name, value)) ∨
      (h.Lacks ∧ selectPayload (h.after {}) = .error (.throws .emptyOptional)) ∨
      ¬ h.Lacks ∧ ∃ what, selectPayload (h.after {}) = invalidResult what := by
  rw [after_empty]
  unfold selectPayload
  dsimp only
  by_cases hunnamed : h.name = ""
  · exact .inr (.inr ⟨fun hlacks => hlacks.1 hunnamed, _, if_pos hunnamed⟩)
  · rw [if_neg hunnamed]
    -- the declared types, and no declared type with the first payload that is there
    obtain htype | htype | htype | htype | htype | ⟨hn0, hn1, hn2, hn3, hn7⟩ :
        h.type = 1 ∨ h.type = 2 ∨ h.type = 3 ∨ h.type = 7 ∨ h.type = 0 ∨
          (h.type ≠ 0 ∧ h.type ≠ 1 ∧ h.type ≠ 2 ∧ h.type ≠ 3 ∧ h.type ≠ 7) := by
      omega
    -- the type is FLOAT
    · rw [if_pos (.inl htype)]
      cases hpayload : h.float with
      | some value => exact .inl ⟨_, hunnamed, by rw [present, htype, hpayload]; rfl, rfl⟩
      | none =>
        exact .inr (.inl ⟨⟨hunnamed, .inl htype, by rw [present, htype, hpayload]; rfl⟩, rfl⟩)
    -- the type is INT
    · rw [if_neg (by omega), if_pos (.inl htype)]
      cases hpayload : h.integer with
      | some value => exact .inl ⟨_, hunnamed, by rw [present, htype, hpayload]; rfl, rfl⟩
      | none =>
        exact .inr (.inl ⟨⟨hunnamed, .inr (.inl htype), by rw [present, htype, hpayload]; rfl⟩,
          rfl⟩)
    -- the type is STRING
    · rw [if_neg (by omega), if_neg (by omega), if_pos (.inl htype)]
      cases hpayload : h.string with
      | some value => exact .inl ⟨_, hunnamed, by rw [present, htype, hpayload]; rfl, rfl⟩
      | none =>
        exact .inr (.inl ⟨⟨hunnamed, .inr (.inr htype), by rw [present, htype, hpayload]; rfl⟩,
          rfl⟩)
    -- the type is INTS
    · rw [if_neg (by omega), if_neg (by omega), if_neg (by omega), if_pos (.inl htype)]
      exact .inl ⟨_, hunnamed, by rw [present, htype]; rfl, rfl⟩
    -- no declared type: the first payload that is there is taken
    · have habsent (x : Option AttributeValue) :
        ¬ (h.name ≠ "" ∧ (h.type = 1 ∨ h.type = 2 ∨ h.type = 3) ∧ x = none) := by
        rintro ⟨-, hdeclared, -⟩
        omega
      cases hfloat : h.float with
      | some value =>
        rw [if_pos (.inr ⟨htype, rfl⟩)]
        exact .inl ⟨_, hunnamed, by rw [present, htype, hfloat]; rfl, rfl⟩
      | none =>
        rw [if_neg (by simp [htype])]
        cases hinteger : h.integer with
        | some value =>
          rw [if_pos (.inr ⟨htype, rfl⟩)]
          exact .inl ⟨_, hunnamed, by rw [present, htype, hfloat, hinteger]; rfl, rfl⟩
        | none =>
          rw [if_neg (by simp [htype])]
          cases hstring : h.string with
          | some value =>
            rw [if_pos (.inr ⟨htype, rfl⟩)]
            exact .inl ⟨_, hunnamed, by rw [present, htype, hfloat, hinteger, hstring]; rfl, rfl⟩
          | none =>
            rw [if_neg (by simp [htype])]
            by_cases hempty : h.integerList = []
            · rw [if_neg (by simp [htype, hempty])]
              exact .inr (.inr ⟨habsent _, _, rfl⟩)
            · rw [if_pos (.inr ⟨htype, hempty⟩)]
              refine .inl ⟨_, hunnamed, ?_, rfl⟩
              rw [present, htype, hfloat, hinteger, hstring]
              exact if_neg hempty
    -- a type the parser does not know
    · rw [if_neg (by omega), if_neg (by omega), if_neg (by omega), if_neg (by omega)]
      refine .inr (.inr ⟨?_, _, rfl⟩)
      rintro ⟨-, hdeclared, -⟩
      omega

/-- What the bytes of an attribute may lead to: an `std::invalid_argument`, or the name and
the payload that is there. -/
structure AttributeSafe (content : Bytes) : Prop where
  throws : ∀ e, parseAttribute content = .error e → Invalid e
  returns : ∀ name value, parseAttribute content = .ok (name, value) →
    ∃ rs, ∃ h : AttributeValues, Seq (Encodes wrapping) content rs ∧ h.Of rs ∧ name = h.name ∧
      h.present = some value

/-- An absent payload is read exactly where a named attribute declares a float, an integer or
a string and has none. -/
theorem attributeSafe_iff (content : Bytes) :
    AttributeSafe content ↔
      ∀ rs, ∀ h : AttributeValues, Seq (Encodes wrapping) content rs → h.Of rs → ¬ h.Lacks := by
  constructor
  · intro hsafe rs h hrecords hholds hlacks
    have hloop := message_attribute_ok.2 ⟨rs, h, hrecords, hholds, rfl⟩
    rcases selectPayload_after h with ⟨value, -, hthere, -⟩ | ⟨-, hresult⟩ | ⟨hother, -⟩
    · rw [hlacks.2.2] at hthere
      cases hthere
    · obtain ⟨what, heq⟩ := hsafe.throws _ (bind_error.2 (.inr ⟨_, hloop, hresult⟩))
      cases heq
    · exact hother hlacks
  · intro hfine
    constructor
    · intro e hfailed
      rcases bind_error.1 hfailed with hfailed | ⟨a, hloop, hfailed⟩
      · exact (attribute_loop content).1 e hfailed
      · obtain ⟨rs, h, hrecords, hholds, rfl⟩ := message_attribute_ok.1 hloop
        rcases selectPayload_after h with ⟨value, -, -, hresult⟩ | ⟨hlacks, -⟩ | ⟨-, what, hresult⟩
        · rw [hresult] at hfailed
          cases hfailed
        · exact absurd hlacks (hfine rs h hrecords hholds)
        · rw [hresult] at hfailed
          exact invalid_of_result hfailed
    · intro name value hreturned
      obtain ⟨a, hloop, hreturned⟩ := bind_ok.1 hreturned
      obtain ⟨rs, h, hrecords, hholds, rfl⟩ := message_attribute_ok.1 hloop
      rcases selectPayload_after h with ⟨value', -, hthere, hresult⟩ | ⟨-, hresult⟩ | ⟨-,
        what, hresult⟩
      · rw [hresult] at hreturned
        cases hreturned
        exact ⟨rs, h, hrecords, hholds, rfl, hthere⟩
      · rw [hresult] at hreturned
        cases hreturned
      · rw [hresult] at hreturned
        cases hreturned

/-- The name `a` and the type of a float, and nothing else. -/
def emptyFloat : Bytes := [0x0A, 0x01, 0x61, 0xA0, 0x01, 0x01]

theorem emptyFloat_unsafe : ¬ AttributeSafe emptyFloat := by
  intro hsafe
  obtain ⟨what, heq⟩ := hsafe.throws (.throws .emptyOptional) rfl
  cases heq

end TinyInfer.Onnx
