import Mathlib.Logic.Basic

/-!
# Programs that may throw

`Throwing ε σ α` is a member function of an object in state `σ`: it returns an
`α` or throws an `ε`, and whatever it did to the object before the throw stays
done. `Throwing.wp` is its weakest precondition with one postcondition for each
exit; the `wp_*` lemmas push it through a program, so that what is left to prove
is about the calls the program makes.

`catching` is a handler for some of the exceptions, `on` runs a program on a
part of a larger state, as a call through a reference does.
-/

namespace Lib

def Throwing (ε σ α : Type) : Type := σ → Except ε α × σ

namespace Throwing

variable {ε σ τ α β : Type}

instance : Monad (Throwing ε σ) where
  pure a := fun s => (.ok a, s)
  bind x f := fun s =>
    match x s with
    | (.ok a, s) => f a s
    | (.error e, s) => (.error e, s)

def throw (e : ε) : Throwing ε σ α := fun s => (.error e, s)

def get : Throwing ε σ σ := fun s => (.ok s, s)

def modify (f : σ → σ) : Throwing ε σ Unit := fun s => (.ok (), f s)

/-- `if (c) x;` -/
def when (c : Prop) [Decidable c] (x : Throwing ε σ Unit) : Throwing ε σ Unit :=
  if c then x else pure ()

/-- `if (c) throw e;` -/
def throwIf (c : Prop) [Decidable c] (e : ε) : Throwing ε σ Unit := when c (throw e)

/-- `try { x } catch`: the exceptions that satisfy `handles` go to the handler. -/
def catching (handles : ε → Bool) (x : Throwing ε σ α) (handler : ε → Throwing ε σ α) :
    Throwing ε σ α := fun s =>
  match x s with
  | (.ok a, s) => (.ok a, s)
  | (.error e, s) => if handles e then handler e s else (.error e, s)

/-- Run `x` on the part of the state that `view` reads and `update` writes back. -/
def on (view : τ → σ) (update : σ → τ → τ) (x : Throwing ε σ α) : Throwing ε τ α := fun t =>
  match x (view t) with
  | (r, s) => (r, update s t)

/-- From `s`, `x` returns in `Q` or throws in `E`. -/
def wp (x : Throwing ε σ α) (Q : α → σ → Prop) (E : ε → σ → Prop) (s : σ) : Prop :=
  match x s with
  | (.ok a, s) => Q a s
  | (.error e, s) => E e s

variable {x : Throwing ε σ α} {Q Q' : α → σ → Prop} {E E' : ε → σ → Prop} {s : σ}

/-! ## Elimination and consequence -/

/-- The weakest precondition says what holds at each way a run can end. -/
theorem wp_iff :
    wp x Q E s ↔ (∀ a s', x s = (.ok a, s') → Q a s') ∧ ∀ e s', x s = (.error e, s') → E e s' := by
  rw [wp]
  rcases x s with ⟨e | a, s'⟩
  · simp
  · simp

/-- From a weakest precondition, what holds where the run returned. -/
theorem wp.ok (h : wp x Q E s) {a : α} {s' : σ} (hrun : x s = (.ok a, s')) : Q a s' :=
  (wp_iff.mp h).1 a s' hrun

/-- From a weakest precondition, what holds where the run threw. -/
theorem wp.error (h : wp x Q E s) {e : ε} {s' : σ} (hrun : x s = (.error e, s')) : E e s' :=
  (wp_iff.mp h).2 e s' hrun

/-- Both postconditions may be weakened. -/
theorem wp.mono (h : wp x Q E s) (hQ : ∀ a s', Q a s' → Q' a s') (hE : ∀ e s', E e s' → E' e s') :
    wp x Q' E' s :=
  wp_iff.mpr ⟨fun a s' hrun => hQ a s' (h.ok hrun), fun e s' hrun => hE e s' (h.error hrun)⟩

/-- A call of which nothing is known. -/
theorem wp_any (hQ : ∀ a s', Q a s') (hE : ∀ e s', E e s') : wp x Q E s :=
  wp_iff.mpr ⟨fun a s' _ => hQ a s', fun e s' _ => hE e s'⟩

/-! ## One rule for each construct -/

@[simp] theorem wp_pure {a : α} : wp (pure a : Throwing ε σ α) Q E s ↔ Q a s := Iff.rfl

@[simp] theorem wp_throw {e : ε} : wp (throw e) Q E s ↔ E e s := Iff.rfl

@[simp] theorem wp_get {Q : σ → σ → Prop} : wp get Q E s ↔ Q s s := Iff.rfl

@[simp] theorem wp_modify {f : σ → σ} {Q : Unit → σ → Prop} : wp (modify f) Q E s ↔ Q () (f s) :=
  Iff.rfl

/-- In sequence the second step's precondition is the first one's postcondition. -/
@[simp] theorem wp_bind {f : α → Throwing ε σ β} {Q : β → σ → Prop} :
    wp (x >>= f) Q E s ↔ wp x (fun a s' => wp (f a) Q E s') E s := by
  simp only [wp, bind]
  rcases x s with ⟨e | a, s'⟩
  · rfl
  · rfl

theorem wp_ite {c : Prop} [Decidable c] {y : Throwing ε σ α} :
    wp (if c then x else y) Q E s ↔ (c → wp x Q E s) ∧ (¬ c → wp y Q E s) := by
  by_cases hc : c
  · simp [hc]
  · simp [hc]

@[simp] theorem wp_when {c : Prop} [Decidable c] {x : Throwing ε σ Unit} {Q : Unit → σ → Prop} :
    wp (when c x) Q E s ↔ (c → wp x Q E s) ∧ (¬ c → Q () s) := wp_ite

@[simp] theorem wp_throwIf {c : Prop} [Decidable c] {e : ε} {Q : Unit → σ → Prop} :
    wp (throwIf c e) Q E s ↔ (c → E e s) ∧ (¬ c → Q () s) := wp_ite

/-- A handler takes the exceptions it handles and lets the others through. -/
@[simp] theorem wp_catching {handles : ε → Bool} {handler : ε → Throwing ε σ α} :
    wp (catching handles x handler) Q E s ↔
      wp x Q (fun e s' => if handles e then wp (handler e) Q E s' else E e s') s := by
  simp only [wp, catching]
  rcases x s with ⟨e | a, s'⟩
  · by_cases he : handles e = true
    · simp [he]
    · simp [he]
  · rfl

/-- A step on a part of the state is reasoned about on that part. -/
@[simp] theorem wp_on {view : τ → σ} {update : σ → τ → τ} {Q : α → τ → Prop} {E : ε → τ → Prop}
    {t : τ} :
    wp (on view update x) Q E t ↔
      wp x (fun a s => Q a (update s t)) (fun e s => E e (update s t)) (view t) := by
  simp only [wp, on]
  rcases x (view t) with ⟨e | a, s'⟩
  · rfl
  · rfl

/-! ## Results of a function -/

/-- `f <$> x` throws what `x` throws, in the same state. -/
theorem map_error {f : α → β} {e : ε} {s' : σ} :
    (f <$> x) s = (.error e, s') ↔ x s = (.error e, s') := by
  show (match x s with
    | (Except.ok a, s) => (Except.ok (f a), s)
    | (Except.error e, s) => (Except.error e, s)) = _ ↔ _
  rcases x s with ⟨e | a, t⟩
  · simp
  · simp

/-- A mapped computation returns where the computation does. -/
theorem map_ok {f : α → β} {b : β} {s' : σ} :
    (f <$> x) s = (.ok b, s') ↔ ∃ a, x s = (.ok a, s') ∧ f a = b := by
  show (match x s with
    | (Except.ok a, s) => (Except.ok (f a), s)
    | (Except.error e, s) => (Except.error e, s)) = _ ↔ _
  rcases x s with ⟨e | a, t⟩
  · simp
  · constructor
    · intro h
      cases h
      exact ⟨a, rfl, rfl⟩
    · rintro ⟨_, h, rfl⟩
      cases h
      rfl

/-! ## The exceptions a program throws -/

/-- Every exception that leaves `x` satisfies `p`. -/
def ThrowsOnly (p : ε → Prop) (x : Throwing ε σ α) : Prop :=
  ∀ s, wp x (fun _ _ => True) (fun e _ => p e) s

theorem throwsOnly_get {p : ε → Prop} : ThrowsOnly p (get : Throwing ε σ σ) := fun _ => trivial

/-- A sequence throws only what its steps throw. -/
theorem ThrowsOnly.bind {p : ε → Prop} (h : ThrowsOnly p x) {f : α → Throwing ε σ β}
    (hf : ∀ a, ThrowsOnly p (f a)) : ThrowsOnly p (x >>= f) := fun s =>
  wp_bind.mpr ((h s).mono (fun a s' _ => hf a s') fun _ _ he => he)

/-- A call of which only the exceptions are known. -/
theorem ThrowsOnly.wp {p : ε → Prop} (h : ThrowsOnly p x) (hQ : ∀ a s', Q a s')
    (hE : ∀ e s', p e → E e s') : wp x Q E s :=
  (h s).mono (fun a s' _ => hQ a s') fun e s' he => hE e s' he

end Throwing

end Lib
