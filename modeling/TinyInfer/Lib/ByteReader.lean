import TinyInfer.Lib.Wire

/-!
# Readers of bytes

A reader has a range of memory and a position in it, as a pair of pointers has. A byte
outside the range, and a loop that does not end, are faults of their own, next to the
exceptions of type `ε` that a reader throws.

`Reads E x P` says all there is to know about a reader: it returns exactly on the
encodings of a grammar `P` and takes exactly these bytes, and its faults are in `E`. The
rules build such a grammar along a program; `parse_spec` is the rule of the loop over the
records of a message. `Fails e x Q` says where a reader ends with a given fault.

Main definitions: `Fault`, `ByteReader`, `Reader`, `untilEmpty`, `parse`, `Reads`, `Fails`.
-/

namespace Lib

open Wire (Bytes Seq)

inductive Fault (ε : Type) where
  | throws (e : ε)
  /-- A read outside the range. -/
  | outside
  /-- A loop that does not end. -/
  | stuck
  deriving DecidableEq, Repr

structure ByteReader where
  bytes : Bytes
  current : Nat := 0

abbrev Reader (ε α : Type) := StateT ByteReader (Except (Fault ε)) α

namespace ByteReader

variable {ε σ α β : Type}

def left (r : ByteReader) : Bytes := r.bytes.drop r.current

def Valid (r : ByteReader) : Prop := r.current ≤ r.bytes.length

def skip (r : ByteReader) (n : Nat) : ByteReader := { r with current := r.current + n }

theorem length_left (r : ByteReader) : r.left.length = r.bytes.length - r.current :=
  List.length_drop

theorem left_skip {r : ByteReader} {bs rest : Bytes} (h : r.left = bs ++ rest) :
    (r.skip bs.length).left = rest := by
  show r.bytes.drop (r.current + bs.length) = rest
  rw [← List.drop_drop, show r.bytes.drop r.current = bs ++ rest from h, List.drop_left]

/-- Skipping bytes that are there keeps the cursor inside the buffer. -/
theorem valid_skip {r : ByteReader} (hvalid : r.Valid) {bs rest : Bytes} (h : r.left = bs ++ rest) :
    (r.skip bs.length).Valid := by
  have hlength := r.length_left
  rw [h, List.length_append] at hlength
  show r.current + bs.length ≤ r.bytes.length
  have : r.current ≤ r.bytes.length := hvalid
  omega

/-- The byte at an offset from the position. -/
def peek (offset : Nat) : Reader ε UInt8 := fun r =>
  match r.bytes[r.current + offset]? with
  | some b => .ok (b, r)
  | none => .error .outside

def advance (n : Nat) : Reader ε Unit := fun r => .ok ((), r.skip n)

/-- The next bytes as a range of their own. -/
def view (n : Nat) : Reader ε Bytes := fun r =>
  if r.current + n ≤ r.bytes.length then .ok (r.left.take n, r.skip n) else .error .outside

/-- Throw unless so many bytes are left. -/
def demand (size : Nat) (e : ε) : Reader ε Unit := fun r =>
  if r.bytes.length - r.current < size then .error (.throws e) else .ok ((), r)

def throw (e : ε) : Reader ε α := fun _ => .error (.throws e)

def lift (x : Except (Fault ε) α) : Reader ε α := fun r => x.map fun a => (a, r)

/-- `while (!reader.empty())`, at most `fuel` times. -/
def loop (body : σ → Reader ε σ) : Nat → σ → Reader ε σ
  | 0, s => fun r => if r.current = r.bytes.length then .ok (s, r) else .error .stuck
  | fuel + 1, s => fun r =>
    if r.current = r.bytes.length then .ok (s, r) else (body s >>= loop body fuel) r

/-- Each round takes at least a byte. -/
def untilEmpty (body : σ → Reader ε σ) (s : σ) : Reader ε σ := fun r =>
  loop body (r.bytes.length - r.current) s r

/-- A loop of so many rounds. -/
def times (body : σ → Reader ε σ) : Nat → σ → Reader ε σ
  | 0, s => pure s
  | n + 1, s => body s >>= times body n

/-- The loop of a new reader. -/
def parse (body : σ → Reader ε σ) (s : σ) (bytes : Bytes) : Except (Fault ε) σ :=
  (untilEmpty body s { bytes }).map Prod.fst

/-- A sequence of two readers returns iff both do, the second where the first stopped. -/
theorem bind_ok {x : Reader ε α} {f : α → Reader ε β} {r r'' : ByteReader} {b : β} :
    (x >>= f) r = .ok (b, r'') ↔ ∃ a r', x r = .ok (a, r') ∧ f a r' = .ok (b, r'') := by
  show (x r >>= fun p => f p.1 p.2) = _ ↔ _
  rcases x r with e | ⟨a, r'⟩
  · exact ⟨fun h => (by cases h), fun ⟨_, _, h, _⟩ => (by cases h)⟩
  · exact ⟨fun h => ⟨a, r', rfl, h⟩, fun ⟨_, _, h, heq⟩ => (by cases h; exact heq)⟩

/-- A sequence of two readers fails in the first or in the second. -/
theorem bind_error {x : Reader ε α} {f : α → Reader ε β} {r : ByteReader} {e : Fault ε} :
    (x >>= f) r = .error e ↔ x r = .error e ∨ ∃ a r', x r = .ok (a, r') ∧ f a r' = .error e := by
  show (x r >>= fun p => f p.1 p.2) = _ ↔ _
  rcases x r with e' | ⟨a, r'⟩
  · exact ⟨fun h => (by cases h; exact .inl rfl),
      fun h => (by rcases h with h | ⟨_, _, h, _⟩ <;> cases h; rfl)⟩
  · exact ⟨fun h => .inr ⟨a, r', rfl, h⟩,
      fun h => (by rcases h with h | ⟨_, _, h, heq⟩ <;> cases h; exact heq)⟩

/-! ## Specifications -/

/-- `x` returns exactly on the encodings of `P`, and takes these bytes; its faults are in `E`. -/
structure Reads (E : Fault ε → Prop) (x : Reader ε α) (P : Bytes → α → Prop) : Prop where
  faults : ∀ r : ByteReader, r.Valid → ∀ e, x r = .error e → E e
  ok : ∀ r : ByteReader, r.Valid → ∀ a r', x r = .ok (a, r') ↔
    ∃ bs rest, r.left = bs ++ rest ∧ P bs a ∧ r' = r.skip bs.length

variable {E : Fault ε → Prop} {x : Reader ε α} {P : Bytes → α → Prop}

theorem Reads.congr (h : Reads E x P) {Q : Bytes → α → Prop} (hsame : ∀ bs a, P bs a ↔ Q bs a) :
    Reads E x Q := by
  obtain rfl : P = Q := funext₂ fun bs a => propext (hsame bs a)
  exact h

theorem Reads.weaken (h : Reads E x P) {E' : Fault ε → Prop} (hle : ∀ e, E e → E' e) :
    Reads E' x P :=
  ⟨fun r hvalid e hfailed => hle e (h.faults r hvalid e hfailed), h.ok⟩

theorem reads_pure (a : α) : Reads E (pure a : Reader ε α) fun bs b => bs = [] ∧ b = a where
  faults _ _ _ h := by cases h
  ok r _ b r' := by
    constructor
    · intro h
      cases h
      exact ⟨[], r.left, rfl, ⟨rfl, rfl⟩, rfl⟩
    · rintro ⟨bs, rest, -, ⟨rfl, rfl⟩, rfl⟩
      rfl

theorem reads_throw {e : ε} (h : E (.throws e)) :
    Reads E (throw e : Reader ε α) fun _ _ => False where
  faults _ _ _ hfailed := by
    cases hfailed
    exact h
  ok _ _ _ _ := ⟨fun h => (by cases h), fun ⟨_, _, _, himpossible, _⟩ => himpossible.elim⟩

/-- A step that does not touch the cursor reads the empty bytes. -/
theorem reads_lift {y : Except (Fault ε) α} (h : ∀ e, y = .error e → E e) :
    Reads E (lift y) fun bs a => bs = [] ∧ y = .ok a where
  faults r _ e hfailed := by
    cases y with
    | error e' =>
      cases hfailed
      exact h _ rfl
    | ok a => cases hfailed
  ok r _ a r' := by
    constructor
    · intro hrun
      cases y with
      | error e => cases hrun
      | ok b =>
        cases hrun
        exact ⟨[], r.left, rfl, ⟨rfl, rfl⟩, rfl⟩
    · rintro ⟨bs, rest, -, ⟨rfl, rfl⟩, rfl⟩
      rfl

/-- What follows may use what was read. -/
theorem Reads.bindOf (h : Reads E x P) {f : α → Reader ε β} {Q : α → Bytes → β → Prop}
    (h' : ∀ a bs, P bs a → Reads E (f a) (Q a)) :
    Reads E (x >>= f) fun bs b => ∃ a bs₁ bs₂, bs = bs₁ ++ bs₂ ∧ P bs₁ a ∧ Q a bs₂ b where
  faults r hvalid e hfailed := by
    rcases bind_error.1 hfailed with hfailed | ⟨a, r', hrun, hfailed⟩
    · exact h.faults r hvalid e hfailed
    · obtain ⟨bs, rest, hsplit, hhead, rfl⟩ := (h.ok r hvalid a r').1 hrun
      exact (h' a bs hhead).faults _ (valid_skip hvalid hsplit) e hfailed
  ok r hvalid b r'' := by
    rw [bind_ok]
    constructor
    · rintro ⟨a, r', hrun, hrun'⟩
      obtain ⟨bs, rest, hsplit, hhead, rfl⟩ := (h.ok r hvalid a r').1 hrun
      obtain ⟨bs', rest', hsplit', htail, rfl⟩ :=
        ((h' a bs hhead).ok _ (valid_skip hvalid hsplit) b r'').1 hrun'
      rw [left_skip hsplit] at hsplit'
      refine ⟨bs ++ bs', rest', ?_, ⟨a, bs, bs', rfl, hhead, htail⟩, ?_⟩
      · rw [hsplit, hsplit', List.append_assoc]
      · rw [skip, skip, skip, List.length_append, Nat.add_assoc]
    · rintro ⟨_, rest, hsplit, ⟨a, bs₁, bs₂, rfl, hhead, htail⟩, rfl⟩
      rw [List.append_assoc] at hsplit
      refine ⟨a, r.skip bs₁.length, (h.ok r hvalid a _).2 ⟨bs₁, _, hsplit, hhead, rfl⟩, ?_⟩
      refine ((h' a bs₁ hhead).ok _ (valid_skip hvalid hsplit) b _).2
        ⟨bs₂, rest, left_skip hsplit, htail, ?_⟩
      rw [skip, skip, skip, List.length_append, Nat.add_assoc]

theorem Reads.bind (h : Reads E x P) {f : α → Reader ε β} {Q : α → Bytes → β → Prop}
    (h' : ∀ a, Reads E (f a) (Q a)) :
    Reads E (x >>= f) fun bs b => ∃ a bs₁ bs₂, bs = bs₁ ++ bs₂ ∧ P bs₁ a ∧ Q a bs₂ b :=
  h.bindOf fun a _ _ => h' a

/-- What follows takes no bytes. -/
theorem Reads.andThen (h : Reads E x P) {f : α → Except (Fault ε) β}
    (hfaults : ∀ a bs, P bs a → ∀ e, f a = .error e → E e) :
    Reads E (x >>= fun a => lift (f a)) fun bs b => ∃ a, P bs a ∧ f a = .ok b where
  faults r hvalid e hfailed := by
    rcases bind_error.1 hfailed with hfailed | ⟨a, r', hrun, hfailed⟩
    · exact h.faults r hvalid e hfailed
    · obtain ⟨bs, rest, -, hhead, -⟩ := (h.ok r hvalid a r').1 hrun
      cases hresult : f a with
      | error e' =>
        unfold lift at hfailed
        rw [hresult] at hfailed
        cases hfailed
        exact hfaults a bs hhead _ hresult
      | ok b =>
        unfold lift at hfailed
        rw [hresult] at hfailed
        cases hfailed
  ok r hvalid b r'' := by
    rw [bind_ok]
    constructor
    · rintro ⟨a, r', hrun, hrun'⟩
      obtain ⟨bs, rest, hsplit, hhead, rfl⟩ := (h.ok r hvalid a r').1 hrun
      unfold lift at hrun'
      cases hresult : f a with
      | error e =>
        rw [hresult] at hrun'
        cases hrun'
      | ok b' =>
        rw [hresult] at hrun'
        cases hrun'
        exact ⟨bs, rest, hsplit, ⟨a, hhead, hresult⟩, rfl⟩
    · rintro ⟨bs, rest, hsplit, ⟨a, hhead, hresult⟩, rfl⟩
      refine ⟨a, _, (h.ok r hvalid a _).2 ⟨bs, rest, hsplit, hhead, rfl⟩, ?_⟩
      unfold lift
      rw [hresult]
      rfl

/-- Mapping the result keeps the bytes read. -/
theorem Reads.map (h : Reads E x P) (g : α → β) :
    Reads E (x >>= fun a => pure (g a)) fun bs b => ∃ a, P bs a ∧ b = g a := by
  refine (h.andThen (f := fun a => .ok (g a)) fun _ _ _ _ hfailed => by cases hfailed).congr
    fun bs b => ?_
  refine exists_congr fun a => and_congr_right fun _ => ?_
  exact ⟨fun heq => (Except.ok.inj heq).symm, fun heq => congrArg Except.ok heq.symm⟩

/-- A guard before a reader restricts what is read to where it passes. -/
theorem Reads.unless {c : Prop} [Decidable c] {e : ε} (hthrown : E (.throws e)) (h : Reads E x P) :
    Reads E (if c then throw e else x) fun bs a => ¬ c ∧ P bs a := by
  by_cases hfails : c
  · rw [if_pos hfails]
    exact (reads_throw hthrown).congr fun bs a => ⟨False.elim, fun h => absurd hfails h.1⟩
  · rw [if_neg hfails]
    exact h.congr fun bs a => (and_iff_right hfails).symm

/-- Enough to run a reader on the strings that begin with an encoding, and on the others. -/
theorem reads_of_cases
    (hunique : ∀ bs bs' rest rest' a a', P bs a → P bs' a' → bs ++ rest = bs' ++ rest' →
      bs = bs' ∧ a = a')
    (hcases : ∀ r : ByteReader, r.Valid →
      (∃ e, x r = .error e ∧ E e ∧ ∀ bs rest a, r.left = bs ++ rest → ¬ P bs a) ∨
        ∃ bs rest a, r.left = bs ++ rest ∧ P bs a ∧
          x r = .ok (a, r.skip bs.length)) : Reads E x P where
  faults r hvalid e hfailed := by
    rcases hcases r hvalid with ⟨e', hrun, hfault, -⟩ | ⟨bs, rest, a, -, -, hrun⟩
    · rw [hrun] at hfailed
      cases hfailed
      exact hfault
    · rw [hrun] at hfailed
      cases hfailed
  ok r hvalid a r' := by
    rcases hcases r hvalid with ⟨e, hrun, -, hnone⟩ | ⟨bs, rest, a', hsplit, hhead, hrun⟩
    · rw [hrun]
      exact ⟨fun h => (by cases h), fun ⟨bs, rest, hsplit, hhead, _⟩ =>
        absurd hhead (hnone bs rest a hsplit)⟩
    · rw [hrun]
      constructor
      · intro h
        cases h
        exact ⟨bs, rest, hsplit, hhead, rfl⟩
      · rintro ⟨bs', rest', hsplit', hhead', rfl⟩
        obtain ⟨rfl, rfl⟩ := hunique _ _ _ _ _ _ hhead hhead' (hsplit.symm.trans hsplit')
        rfl

/-- A peek inside the remaining bytes sees them and moves nothing. -/
theorem peek_of_left {r : ByteReader} {bs rest : Bytes} (hsplit : r.left = bs ++ rest)
    {i : Nat} {b : UInt8} (hthere : bs[i]? = some b) :
    (peek i : Reader ε UInt8) r = .ok (b, r) := by
  have hfound : r.bytes[r.current + i]? = some b := by
    rw [← List.getElem?_drop, show r.bytes.drop r.current = bs ++ rest from hsplit]
    exact (List.getElem?_append_left (List.getElem?_eq_some_iff.1 hthere).1).trans hthere
  unfold peek
  rw [hfound]

theorem demand_of_left {r : ByteReader} {bs rest : Bytes} (hsplit : r.left = bs ++ rest)
    {size : Nat} {e : ε} (henough : size ≤ bs.length) : demand size e r = .ok ((), r) := by
  have hlength := r.length_left
  rw [hsplit, List.length_append] at hlength
  exact if_neg (by omega)

/-- A range of so many bytes, where they are left. -/
theorem reads_view {e : ε} (h : E (.throws e)) (n : Nat) :
    Reads E (demand n e >>= fun _ => view n) fun bs content => bs = content ∧
      content.length = n := by
  refine reads_of_cases ?_ fun r hvalid => ?_
  · rintro bs bs' rest rest' a a' ⟨rfl, hlength⟩ ⟨rfl, hlength'⟩ heq
    obtain ⟨rfl, -⟩ := List.append_inj heq (hlength.trans hlength'.symm)
    exact ⟨rfl, rfl⟩
  · have hlength := r.length_left
    by_cases hshort : r.bytes.length - r.current < n
    · refine .inl ⟨.throws e, ?_, h, ?_⟩
      · refine bind_error.2 (.inl ?_)
        exact if_pos hshort
      · rintro bs rest a hsplit ⟨rfl, hsize⟩
        rw [hsplit, List.length_append] at hlength
        omega
    · have hsize : (r.left.take n).length = n := by
        rw [List.length_take]
        omega
      have hinside : r.current ≤ r.bytes.length := hvalid
      refine .inr ⟨r.left.take n, r.left.drop n, _,
        (List.take_append_drop n r.left).symm, ⟨rfl, hsize⟩, bind_ok.2 ⟨(), r, if_neg hshort, ?_⟩⟩
      rw [hsize]
      exact if_pos (by omega)

/-- A test that every encoding passes. -/
theorem Reads.guarded (h : Reads E x P) {n : Nat} {e : ε} (hthrown : E (.throws e))
    (hlong : ∀ bs a, P bs a → n ≤ bs.length) : Reads E (demand n e >>= fun _ => x) P where
  faults r hvalid e' hfailed := by
    rcases bind_error.1 hfailed with hfailed | ⟨_, r', hrun, hfailed⟩
    · unfold demand at hfailed
      split at hfailed
      · cases hfailed
        exact hthrown
      · cases hfailed
    · unfold demand at hrun
      split at hrun
      · cases hrun
      · cases hrun
        exact h.faults r hvalid e' hfailed
  ok r hvalid a r' := by
    refine bind_ok.trans (Iff.trans ?_ (h.ok r hvalid a r'))
    constructor
    · rintro ⟨_, r₁, hrun, hrest⟩
      unfold demand at hrun
      split at hrun
      · cases hrun
      · cases hrun
        exact hrest
    · intro hrun
      obtain ⟨bs, rest, hsplit, hhead, -⟩ := (h.ok r hvalid a r').1 hrun
      exact ⟨(), r, demand_of_left hsplit (hlong bs a hhead), hrun⟩

/-- The next byte, where one is left. -/
theorem reads_next {e : ε} (h : E (.throws e)) :
    Reads E (demand 1 e >>= fun _ => peek 0 >>= fun b => advance 1 >>= fun _ => pure b)
      fun bs b => bs = [b] := by
  refine reads_of_cases ?_ fun r hvalid => ?_
  · rintro bs bs' rest rest' a a' rfl rfl heq
    obtain ⟨rfl, -⟩ := List.cons.inj heq
    exact ⟨rfl, rfl⟩
  · cases hall : r.left with
    | nil =>
      refine .inl ⟨.throws e, bind_error.2 (.inl (if_pos ?_)), h, ?_⟩
      · rw [← r.length_left, hall]
        exact Nat.one_pos
      · rintro bs rest a hsplit rfl
        cases hsplit
    | cons b rest =>
      refine .inr ⟨[b], rest, b, rfl, rfl, ?_⟩
      refine bind_ok.2 ⟨(), r, demand_of_left (show r.left = [b] ++ rest from hall)
        (Nat.le_refl 1), ?_⟩
      exact bind_ok.2 ⟨b, r, peek_of_left (show r.left = [b] ++ rest from hall) rfl,
        bind_ok.2 ⟨(), _, rfl, rfl⟩⟩

/-! ## The loop -/

/-- The states that the records lead through. -/
inductive Steps (step : σ → β → σ → Prop) : σ → List β → σ → Prop
  | nil {s : σ} : Steps step s [] s
  | cons {s s' s'' : σ} {b : β} {bs : List β} :
    step s b s' → Steps step s' bs s'' → Steps step s (b :: bs) s''

theorem Steps.append {step : σ → β → σ → Prop} {s s' s'' : σ} {bs bs' : List β}
    (h : Steps step s bs s') (h' : Steps step s' bs' s'') : Steps step s (bs ++ bs') s'' := by
  induction h with
  | nil => exact h'
  | cons hhead _ ih => exact .cons hhead (ih h')

/-- Each record is the subject of a step. -/
theorem Steps.of_mem {step : σ → β → σ → Prop} {s s' : σ} {bs : List β}
    (h : Steps step s bs s') {b : β} (hmem : b ∈ bs) : ∃ s₁ s₂, step s₁ b s₂ := by
  induction h with
  | nil => cases hmem
  | @cons s s₁ s₂ b' bs hmove _ ih =>
    rcases List.mem_cons.1 hmem with rfl | hmem
    · exact ⟨s, s₁, hmove⟩
    · exact ih hmem

/-- What every step keeps, a run keeps. -/
theorem Steps.inv {step : σ → β → σ → Prop} {I : σ → Prop} {s s' : σ} {bs : List β}
    (h : Steps step s bs s') (hkeeps : ∀ s b s', step s b s' → I s → I s') (hstart : I s) :
    I s' := by
  induction h with
  | nil => exact hstart
  | cons hmove _ ih => exact ih (hkeeps _ _ _ hmove hstart)

variable {body : σ → Reader ε σ} {Q : Bytes → β → Prop} {step : σ → β → σ → Prop}

/-- A loop of a fixed count reads that many items, by induction on the count. -/
theorem times_spec (h : ∀ s, Reads E (body s) fun bs s' => ∃ b, Q bs b ∧ step s b s')
    (n : Nat) (s : σ) :
    Reads E (times body n s) fun bytes s' => ∃ bs, bs.length = n ∧ Seq Q bytes bs ∧
      Steps step s bs s' := by
  induction n generalizing s with
  | zero =>
    refine (reads_pure s).congr fun bytes s' => ?_
    constructor
    · rintro ⟨rfl, rfl⟩
      exact ⟨[], rfl, .nil, .nil⟩
    · rintro ⟨bs, hnone, hseq, hsteps⟩
      cases List.length_eq_zero_iff.1 hnone
      cases hseq
      cases hsteps
      exact ⟨rfl, rfl⟩
  | succ n ih =>
    refine ((h s).bind fun s' => ih s').congr fun bytes s'' => ?_
    constructor
    · rintro ⟨s', _, _, rfl, ⟨b, hhead, hmove⟩, bs, hlength, htail, hsteps⟩
      exact ⟨b :: bs, congrArg (· + 1) hlength, .cons hhead htail, .cons hmove hsteps⟩
    · rintro ⟨bs, hlength, hseq, hsteps⟩
      cases hseq with
      | nil => cases hlength
      | cons hhead htail =>
        cases hsteps with
        | cons hmove hsteps =>
          exact ⟨_, _, _, rfl, ⟨_, hhead, hmove⟩, _, Nat.succ.inj hlength, htail, hsteps⟩

/-- Where nothing is left there are no records. -/
theorem stop_spec (hne_nil : ∀ bs b, Q bs b → bs ≠ []) {r : ByteReader}
    (hended : r.current = r.bytes.length) (s s' : σ) (r' : ByteReader) :
    (Except.ok (s, r) : Except (Fault ε) _) = .ok (s', r') ↔
      ∃ bs, Seq Q r.left bs ∧ Steps step s bs s' ∧ r' = r.skip r.left.length := by
  have hnone : r.left = [] := List.length_eq_zero_iff.1 (by rw [r.length_left]; omega)
  rw [hnone]
  constructor
  · intro heq
    cases heq
    exact ⟨[], .nil, .nil, rfl⟩
  · rintro ⟨bs, hseq, hsteps, rfl⟩
    generalize heq : ([] : Bytes) = all at hseq
    cases hseq with
    | nil =>
      cases hsteps
      rfl
    | cons hhead _ => exact absurd (List.append_eq_nil_iff.1 heq.symm).1 (hne_nil _ _ hhead)

/-- With fuel for every remaining byte, the loop reads items until the end of the buffer. -/
theorem loop_spec (h : ∀ s, Reads E (body s) fun bs s' => ∃ b, Q bs b ∧ step s b s')
    (hne_nil : ∀ bs b, Q bs b → bs ≠ []) (fuel : Nat) (s : σ) (r : ByteReader) (hvalid : r.Valid)
    (henough : r.bytes.length - r.current ≤ fuel) :
    (∀ e, loop body fuel s r = .error e → E e) ∧
    ∀ s' r', loop body fuel s r = .ok (s', r') ↔
      ∃ bs, Seq Q r.left bs ∧ Steps step s bs s' ∧ r' = r.skip r.left.length := by
  induction fuel generalizing s r with
  | zero =>
    have hended : r.current = r.bytes.length := Nat.le_antisymm hvalid (by omega)
    rw [loop]
    dsimp only
    rw [if_pos hended]
    exact ⟨fun _ h => (by cases h), stop_spec hne_nil hended s⟩
  | succ fuel ih =>
    rw [loop]
    dsimp only
    by_cases hended : r.current = r.bytes.length
    · rw [if_pos hended]
      exact ⟨fun _ h => (by cases h), stop_spec hne_nil hended s⟩
    · rw [if_neg hended]
      have hlength := r.length_left
      have hinside : r.current ≤ r.bytes.length := hvalid
      have hnext {bs rest : Bytes} {b : β} (hsplit : r.left = bs ++ rest)
        (hhead : Q bs b) (s' : σ) :=
        ih s' (r.skip bs.length) (valid_skip hvalid hsplit) (by
          have := List.length_pos_iff.2 (hne_nil bs b hhead)
          show r.bytes.length - (r.current + bs.length) ≤ fuel
          omega)
      refine ⟨fun e hfailed => ?_, fun s'' r'' => ?_⟩
      · rcases bind_error.1 hfailed with hfailed | ⟨s', r', hrun, hfailed⟩
        · exact (h s).faults r hvalid e hfailed
        · obtain ⟨bs, rest, hsplit, ⟨b, hhead, -⟩, rfl⟩ := ((h s).ok r hvalid s' r').1 hrun
          exact (hnext hsplit hhead s').1 e hfailed
      · rw [bind_ok]
        constructor
        -- the first record, then the rest by induction
        · rintro ⟨s', r', hrun, hrun'⟩
          obtain ⟨bs, rest, hsplit, ⟨b, hhead, hmove⟩, rfl⟩ := ((h s).ok r hvalid s' r').1 hrun
          obtain ⟨bs', hseq, hsteps, rfl⟩ := ((hnext hsplit hhead s').2 s'' r'').1 hrun'
          rw [left_skip hsplit] at hseq ⊢
          refine ⟨b :: bs', ?_, .cons hmove hsteps, ?_⟩
          · rw [hsplit]
            exact .cons hhead hseq
          · rw [skip, skip, skip, hsplit, List.length_append, Nat.add_assoc]
        -- the bytes are records, so this one is read first
        · rintro ⟨bs', hseq, hsteps, rfl⟩
          generalize hall : r.left = whole at hseq
          cases hseq with
          | nil =>
            rw [hall] at hlength
            exact absurd (Nat.le_antisymm hinside (Nat.le_of_sub_eq_zero hlength.symm)) hended
          | @cons bs rest b bs' hhead htail =>
            cases hsteps with
            | cons hmove hsteps =>
              refine ⟨_, r.skip bs.length,
                ((h s).ok r hvalid _ _).2 ⟨bs, rest, hall, ⟨b, hhead, hmove⟩, rfl⟩, ?_⟩
              refine ((hnext hall hhead _).2 s'' _).2 ⟨bs', ?_, hsteps, ?_⟩
              · rw [left_skip hall]
                exact htail
              · rw [left_skip hall, skip, skip, skip, List.length_append, Nat.add_assoc]

/-- The loop ends, and returns exactly where the bytes are a sequence of records. -/
theorem parse_spec (h : ∀ s, Reads E (body s) fun bs s' => ∃ b, Q bs b ∧ step s b s')
    (hne_nil : ∀ bs b, Q bs b → bs ≠ []) (s : σ) (bytes : Bytes) :
    (∀ e, parse body s bytes = .error e → E e) ∧
    ∀ s', parse body s bytes = .ok s' ↔ ∃ bs, Seq Q bytes bs ∧ Steps step s bs s' := by
  obtain ⟨hfaults, hok⟩ :=
    loop_spec h hne_nil bytes.length s { bytes } (Nat.zero_le _) (Nat.le_refl _)
  unfold parse untilEmpty
  rcases hrun : loop body bytes.length s { bytes } with e | ⟨s₁, r₁⟩
  · refine ⟨fun e' hfailed => ?_, fun s' => ⟨fun h => ?_, ?_⟩⟩
    · exact hfaults e' (by rw [hrun]; exact congrArg Except.error (by cases hfailed; rfl))
    · cases h
    · rintro ⟨bs, hseq, hsteps⟩
      have := (hok s' _).2 ⟨bs, hseq, hsteps, rfl⟩
      rw [hrun] at this
      cases this
  · refine ⟨fun e' hfailed => (by cases hfailed), fun s' => ⟨fun h => ?_, ?_⟩⟩
    · cases h
      obtain ⟨bs, hseq, hsteps, -⟩ := (hok _ _).1 hrun
      exact ⟨bs, hseq, hsteps⟩
    · rintro ⟨bs, hseq, hsteps⟩
      have := (hok s' _).2 ⟨bs, hseq, hsteps, rfl⟩
      rw [hrun] at this
      cases this
      rfl

/-! ## Where a reader fails -/

/-- `x` ends with the fault `e` exactly where `Q` holds of the bytes that are left. -/
def Fails (e : Fault ε) (x : Reader ε α) (Q : Bytes → Prop) : Prop :=
  ∀ r : ByteReader, r.Valid → (x r = .error e ↔ Q r.left)

section Fails

variable {e : Fault ε} {x : Reader ε α} {P : Bytes → α → Prop} {E : Fault ε → Prop}

theorem Fails.congr {Q Q' : Bytes → Prop} (h : Fails e x Q) (hsame : ∀ left, Q left ↔ Q' left) :
    Fails e x Q' := fun r hr => (h r hr).trans (hsame r.left)

/-- A reader has no faults but those of its specification. -/
theorem Reads.fails (h : Reads E x P) (he : ¬ E e) : Fails e x fun _ => False := by
  intro r hr
  exact ⟨fun hrun => he (h.faults r hr e hrun), False.elim⟩

theorem fails_lift (y : Except (Fault ε) α) : Fails e (lift y) fun _ => y = .error e := by
  intro r _
  cases y with
  | error e' => exact ⟨fun h => congrArg Except.error (Except.error.inj h), fun h => by
    cases h; rfl⟩
  | ok a => exact ⟨fun h => (by cases h), fun h => (by cases h)⟩

/-- The fault is not one of the first reader, so it is one of the second. -/
theorem Fails.bind (h : Reads E x P) (he : ¬ E e) {f : α → Reader ε β} {Q : α → Bytes → Prop}
    (hf : ∀ a, Fails e (f a) (Q a)) :
    Fails e (x >>= f) fun left => ∃ bs rest a, left = bs ++ rest ∧ P bs a ∧ Q a rest := by
  intro r hr
  rw [bind_error]
  constructor
  · rintro (hrun | ⟨a, r', hrun, hfail⟩)
    · exact absurd (h.faults r hr e hrun) he
    · obtain ⟨bs, rest, hsplit, hhead, rfl⟩ := (h.ok r hr a r').1 hrun
      have hleft := (hf a _ (valid_skip hr hsplit)).1 hfail
      rw [left_skip hsplit] at hleft
      exact ⟨bs, rest, a, hsplit, hhead, hleft⟩
  · rintro ⟨bs, rest, a, hsplit, hhead, hleft⟩
    refine .inr ⟨a, _, (h.ok r hr a _).2 ⟨bs, rest, hsplit, hhead, rfl⟩, ?_⟩
    refine (hf a _ (valid_skip hr hsplit)).2 ?_
    rwa [left_skip hsplit]

/-- What follows is a function of the result. -/
theorem Fails.map {Q : Bytes → Prop} (h : Fails e x Q) (g : α → β) :
    Fails e (x >>= fun a => pure (g a)) Q := by
  intro r hr
  rw [bind_error]
  refine Iff.trans ⟨?_, .inl⟩ (h r hr)
  rintro (hrun | ⟨a, r', -, hpure⟩)
  · exact hrun
  · cases hpure

variable {body : σ → Reader ε σ} {Q : Bytes → β → Prop} {step : σ → β → σ → Prop}
  {F : σ → Bytes → Prop}

/-- The loop fails in the round after some records. -/
theorem loop_fails (h : ∀ s, Reads E (body s) fun bs s' => ∃ b, Q bs b ∧ step s b s')
    (hne_nil : ∀ bs b, Q bs b → bs ≠ []) (hfails : ∀ s, Fails e (body s) (F s)) (fuel : Nat) (s : σ)
    (r : ByteReader) (hr : r.Valid) (henough : r.bytes.length - r.current ≤ fuel) :
    loop body fuel s r = .error e ↔ ∃ front rest bs s', r.left = front ++ rest ∧ rest ≠ [] ∧
      Seq Q front bs ∧ Steps step s bs s' ∧ F s' rest := by
  -- Nothing is left where the loop ends
  have hended (hend : r.current = r.bytes.length) : ¬ ∃ front rest bs s', r.left = front ++ rest ∧
      rest ≠ [] ∧ Seq Q front bs ∧ Steps step s bs s' ∧ F s' rest := by
    rintro ⟨front, rest, _, _, hsplit, hrest, -⟩
    have hnone : r.left = [] := List.length_eq_zero_iff.1 (by rw [r.length_left]; omega)
    exact hrest (List.append_eq_nil_iff.1 (hsplit.symm.trans hnone)).2
  induction fuel generalizing s r with
  -- no fuel, so no byte is left
  | zero =>
    have hend : r.current = r.bytes.length := Nat.le_antisymm hr (by omega)
    rw [loop]
    dsimp only
    rw [if_pos hend]
    exact ⟨fun hrun => (by cases hrun), fun hlater => absurd hlater (hended hend)⟩
  | succ fuel ih =>
    rw [loop]
    dsimp only
    by_cases hend : r.current = r.bytes.length
    · rw [if_pos hend]
      exact ⟨fun hrun => (by cases hrun), fun hlater => absurd hlater (hended hend)⟩
    · rw [if_neg hend, bind_error]
      have hinside : r.current ≤ r.bytes.length := hr
      have hlength := r.length_left
      have hnext {bs rest : Bytes} {b : β} (hsplit : r.left = bs ++ rest)
        (hhead : Q bs b) (s' : σ) :=
        ih s' (r.skip bs.length) (valid_skip hr hsplit) (by
          have := List.length_pos_iff.2 (hne_nil bs b hhead)
          show r.bytes.length - (r.current + bs.length) ≤ fuel
          omega) (by
          rintro hend' ⟨front, after, _, _, hsplit', hafter, -⟩
          have hnone : (r.skip bs.length).left = [] :=
            List.length_eq_zero_iff.1 (by rw [length_left]; omega)
          exact hafter (List.append_eq_nil_iff.1 (hsplit'.symm.trans hnone)).2)
      constructor
      -- this record fails, or a later one does
      · rintro (hrun | ⟨s', r', hrun, hlater⟩)
        · refine ⟨[], r.left, [], s, rfl, fun hnone => ?_, .nil, .nil, (hfails s r hr).1 hrun⟩
          rw [hnone, List.length_nil] at hlength
          omega
        · obtain ⟨bs, rest, hsplit, ⟨b, hhead, hmove⟩, rfl⟩ := ((h s).ok r hr s' r').1 hrun
          obtain ⟨front, after, bs', s'', hsplit', hafter, hseq, hsteps, hfail⟩ :=
            (hnext hsplit hhead s').1 hlater
          rw [left_skip hsplit] at hsplit'
          refine ⟨bs ++ front, after, b :: bs', s'', ?_, hafter, .cons hhead hseq,
            .cons hmove hsteps, hfail⟩
          rw [hsplit, hsplit', List.append_assoc]
      -- the bytes before the failure are no record, or a first record and the rest
      · rintro ⟨front, rest, bs, s', hsplit, hrest, hseq, hsteps, hfail⟩
        cases hseq with
        | nil =>
          cases hsteps
          exact .inl ((hfails s r hr).2 (hsplit ▸ hfail))
        | @cons first front b bs hhead htail =>
          cases hsteps with
          | @cons _ s₁ _ _ _ hmove hsteps =>
            rw [List.append_assoc] at hsplit
            refine .inr ⟨s₁, _, ((h s).ok r hr _ _).2 ⟨first, _, hsplit, ⟨b, hhead, hmove⟩, rfl⟩,
              ?_⟩
            refine (hnext hsplit hhead s₁).2 ⟨front, rest, bs, s', ?_, hrest, htail, hsteps, hfail⟩
            exact left_skip hsplit

/-- Where one step of the loop fails, on an item that stands after readable ones, so does the
whole. -/
theorem parse_fails (h : ∀ s, Reads E (body s) fun bs s' => ∃ b, Q bs b ∧ step s b s')
    (hne_nil : ∀ bs b, Q bs b → bs ≠ []) (hfails : ∀ s, Fails e (body s) (F s)) (s : σ)
    (bytes : Bytes) :
    parse body s bytes = .error e ↔ ∃ front rest bs s', bytes = front ++ rest ∧ rest ≠ [] ∧
      Seq Q front bs ∧ Steps step s bs s' ∧ F s' rest := by
  have hloop := loop_fails h hne_nil hfails bytes.length s { bytes } (Nat.zero_le _) (Nat.le_refl _)
  refine Iff.trans ?_ hloop
  unfold parse untilEmpty
  rcases loop body bytes.length s { bytes } with e' | ⟨s₁, r₁⟩
  · exact ⟨fun hrun => congrArg Except.error (Except.error.inj hrun), fun hrun => by
      cases hrun; rfl⟩
  · exact ⟨fun hrun => (by cases hrun), fun hrun => (by cases hrun)⟩

end Fails

end ByteReader

end Lib
