import TinyInfer.Lib.ByteReader

/-!
# Messages in messages

A reader takes the records of a message one after the other, and the messages in them on the
way. A `Grammar` says what the records of a message mean, and which of them hold messages; with
it one can speak of every place that a reader comes to, also where it fails later.

What holds at all these places of two ways to read numbers makes them read the same message
(`Grammar.Everywhere.seq`).

Main definitions: `Grammar`, `Grammar.Everywhere`, `Grammar.At`.
-/

namespace Lib.Wire

open ByteReader (Steps)

/-- What a length-delimited content is. A message has a state, and a meaning of its records
under each reading of the numbers. -/
inductive Grammar : Type 1 where
  /-- It is taken as it is. -/
  | leaf
  /-- Packed varints -/
  | varints
  | message {σ : Type} (start : σ) (step : Reading → σ → Record → σ → Prop) (nested : Nat → Grammar)

/-- The reader goes on to the value of a field, which has a meaning for some value of this wire
type. -/
def Takes {σ : Type} (step : σ → Record → σ → Prop) (field wire : Nat) : Prop :=
  ∃ s v s', v.wire = wire ∧ step s ⟨field, v⟩ s'

namespace Grammar

/-- `K` holds wherever a reader of the content comes to a key, and `N` wherever it comes to the
number of a varint or of a length, also in the messages in it. -/
def Everywhere (R : Reading) (K N : Bytes → Prop) : Grammar → Bytes → Prop
  | .leaf, _ => True
  | .varints, content => ∀ front rest ns, content = front ++ rest → rest ≠ [] →
      Seq (ReadVarint R) front ns → N rest
  | .message start step nested, content => ∀ front rest rs s, content = front ++ rest → rest ≠ [] →
      Seq (Encodes R) front rs → Steps (step R) start rs s →
        K rest ∧ ∀ key value field wire, rest = key ++ value → EncodesKey R key (field, wire) →
          Takes (step R) field wire → (wire = 0 ∨ wire = 2 → N value) ∧
            ∀ bs after inner, wire = 2 → value = bs ++ after → EncodesBytes R bs inner →
              (nested field).Everywhere R K N inner

/-- The content under these fields, each after records that its message takes. -/
def At (R : Reading) : Grammar → List Nat → Bytes → Bytes → Prop
  | _, [], content, inner => content = inner
  | .message start step nested, field :: path, content, inner => ∃ front key value rest rs s c,
      content = front ++ (key ++ (value ++ rest)) ∧ Seq (Encodes R) front rs ∧
        Steps (step R) start rs s ∧
        EncodesKey R key (field, 2) ∧ EncodesBytes R value c ∧ (nested field).At R path c inner
  | _, _ :: _, _, _ => False

variable {R S : Reading} {K K' N N' : Bytes → Prop}

/-- A property of all messages weakens pointwise. -/
theorem Everywhere.mono (hK : ∀ bs, K bs → K' bs) (hN : ∀ bs, N bs → N' bs) {g : Grammar}
    {content : Bytes} (h : g.Everywhere R K N content) : g.Everywhere R K' N' content := by
  induction g generalizing content with
  | leaf => trivial
  | varints =>
    intro front rest ns hsplit hrest hseq
    exact hN rest (h front rest ns hsplit hrest hseq)
  | message start step nested ih =>
    intro front rest rs s hsplit hrest hseq hsteps
    obtain ⟨hkey, hvalue⟩ := h front rest rs s hsplit hrest hseq hsteps
    refine ⟨hK rest hkey, fun key value field wire hsplit' hkey' htakes => ?_⟩
    obtain ⟨hnumber, hnested⟩ := hvalue key value field wire hsplit' hkey' htakes
    refine ⟨fun hwire => hN value (hnumber hwire), fun bs after inner hwire hsplit'' hbytes => ?_⟩
    exact ih field (hnested bs after inner hwire hsplit'' hbytes)

/-- What holds of all bytes holds everywhere. -/
theorem everywhere_of_forall (hK : ∀ bs, K bs) (hN : ∀ bs, N bs) (g : Grammar) (content : Bytes) :
    g.Everywhere R K N content := by
  induction g generalizing content with
  | leaf => trivial
  | varints => exact fun _ rest _ _ _ _ => hN rest
  | message start step nested ih =>
    exact fun _ rest _ _ _ _ _ _ =>
      ⟨hK rest, fun _ value field _ _ _ _ =>
        ⟨fun _ => hN value, fun _ _ inner _ _ _ => ih field inner⟩⟩

end Grammar

/-! ## Places where two readings agree -/

/-- The key that `R` reads here is one that `S` reads. -/
def KeyPasses (R S : Reading) (rest : Bytes) : Prop :=
  ∀ key after fw, rest = key ++ after → EncodesKey R key fw → EncodesKey S key fw

def NumberPasses (R S : Reading) (rest : Bytes) : Prop :=
  ∀ bs after n, rest = bs ++ after → ReadVarint R bs n → ReadVarint S bs n

variable {R S : Reading}

theorem EncodesKey.mono (hle : R.Le S) {key : Bytes} {fw : Nat × Nat} (h : EncodesKey R key fw) :
    EncodesKey S key fw := by
  obtain ⟨hnumber, hread, hnonzero⟩ := h
  exact ⟨hnumber.mono hle, hle.field hread, hnonzero⟩

/-- A reading that refuses more agrees everywhere. -/
theorem Grammar.everywhere_of_le (hle : R.Le S) (g : Grammar) (content : Bytes) :
    g.Everywhere R (KeyPasses R S) (NumberPasses R S) content :=
  everywhere_of_forall (fun _ _ _ _ _ h => h.mono hle) (fun _ _ _ _ _ h => h.mono hle) g content

theorem EncodesValue.wire_eq {wire : Nat} {bs : Bytes} {v : Value} (h : EncodesValue R wire bs v) :
    v.wire = wire := by
  cases h <;> rfl

/-- A value, where its number passes. -/
theorem EncodesValue.passes {wire : Nat} {bs after : Bytes} {v : Value}
    (h : EncodesValue R wire bs v) (hnumber : wire = 0 ∨ wire = 2 →
      NumberPasses R S (bs ++ after)) : EncodesValue S wire bs v := by
  cases h with
  | varint hread => exact .varint (hnumber (.inl rfl) bs after _ rfl hread)
  | fixed64 hread => exact .fixed64 hread
  | bytes hread =>
    obtain ⟨hlength⟩ := hread
    exact .bytes ⟨hnumber (.inr rfl) _ _ _ (List.append_assoc ..) hlength⟩
  | fixed32 hread => exact .fixed32 hread

/-- The packed varints of `R` are those of `S`, if each of them passes. -/
theorem Grammar.Everywhere.varints {N : Bytes → Prop} (hN : ∀ bs, N bs → NumberPasses R S bs)
    {K : Bytes → Prop} {content : Bytes} (h : Grammar.varints.Everywhere R K N content)
    {ns : List Nat} (hseq : Seq (ReadVarint R) content ns) : Seq (ReadVarint S) content ns := by
  suffices ∀ front before, Seq (ReadVarint R) front before →
      Grammar.varints.Everywhere R K N (front ++ content) → Seq (ReadVarint S) content ns from
    this [] [] .nil h
  clear h
  induction hseq with
  | nil => exact fun _ _ _ _ => .nil
  | @cons bs rest n ns hhead htail ih =>
    intro front before hbefore h
    have hne : bs ++ rest ≠ [] := fun hnone =>
      ReadVarint.deterministic.ne_nil hhead (List.append_eq_nil_iff.1 hnone).1
    have hpass := hN _ (h front (bs ++ rest) before rfl hne hbefore)
    refine .cons (hpass bs rest n rfl hhead) (ih (front ++ bs) (before ++ [n]) ?_ ?_)
    · exact hbefore.append (by rw [← List.append_nil bs]; exact .cons hhead .nil)
    · rwa [List.append_assoc]

/-- The records of `R` are those of `S`, if all keys and numbers in them pass. -/
theorem Grammar.Everywhere.seq {σ : Type} {start s' : σ} {step : Reading → σ → Record → σ → Prop}
    {nested : Nat → Grammar} {content : Bytes} {rs : List Record}
    (h : (Grammar.message start step nested).Everywhere R (KeyPasses R S)
      (NumberPasses R S) content)
    (hseq : Seq (Encodes R) content rs) (hsteps : Steps (step R) start rs s') :
    Seq (Encodes S) content rs ∧ ∀ r ∈ rs, ∀ inner, r.value = .bytes inner →
      (nested r.field).Everywhere R (KeyPasses R S) (NumberPasses R S) inner := by
  suffices ∀ (front : Bytes) (before : List Record) (s : σ), Seq (Encodes R) front before →
      Steps (step R) start before s → Steps (step R) s rs s' →
      (Grammar.message start step nested).Everywhere R (KeyPasses R S) (NumberPasses R S)
        (front ++ content) →
      Seq (Encodes S) content rs ∧ ∀ r ∈ rs, ∀ inner, r.value = .bytes inner →
        (nested r.field).Everywhere R (KeyPasses R S) (NumberPasses R S) inner from
    this [] [] start .nil .nil hsteps h
  clear h hsteps
  induction hseq with
  | nil => exact fun _ _ _ _ _ _ _ => ⟨.nil, fun _ hmem => (by cases hmem)⟩
  | @cons bs rest r rs hhead htail ih =>
    intro front before s hbefore hthere hsteps h
    have hne : bs ++ rest ≠ [] := fun hnone =>
      Encodes.deterministic.ne_nil hhead (List.append_eq_nil_iff.1 hnone).1
    obtain ⟨hkeys, hvalues⟩ := h front (bs ++ rest) before s rfl hne hbefore hthere
    cases hsteps with
    | @cons _ s₁ _ _ _ hmove hafter =>
      obtain ⟨hseq, hinner⟩ := ih (front ++ bs) (before ++ [r]) s₁
        (hbefore.append (by rw [← List.append_nil bs]; exact .cons hhead .nil))
        (hthere.append (.cons hmove .nil)) hafter (by rwa [List.append_assoc])
      obtain ⟨hkey, hvalue⟩ := hhead
      rename_i key value field wire v
      rw [List.append_assoc] at hkeys hvalues
      obtain ⟨hnumber, hnested⟩ :=
        hvalues key (value ++ rest) field wire rfl hkey ⟨s, v, s₁, hvalue.wire_eq, hmove⟩
      refine ⟨.cons ⟨hkeys key (value ++ rest) _ rfl hkey, hvalue.passes hnumber⟩ hseq, ?_⟩
      refine List.forall_mem_cons.2 ⟨fun inner hv => ?_, hinner⟩
      obtain rfl : v = .bytes inner := hv
      obtain rfl : wire = 2 := hvalue.wire_eq.symm
      cases hvalue with
      | bytes hbytes => exact hnested value rest inner rfl rfl hbytes

end Lib.Wire
