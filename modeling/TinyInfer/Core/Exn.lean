import Mathlib.Data.List.Forall2
import Mathlib.Logic.Basic

/-!
# Exceptions of the inference engine

The classes of `std::exception` that the engine throws, with their texts.
-/

namespace TinyInfer

inductive Exn where
  | invalidArgument (what : String)
  | logicError (what : String)
  | outOfRange (what : String)
  | overflowError (what : String)
  | runtimeError (what : String)
  deriving DecidableEq, Repr

/-- `std::exception::what` -/
def Exn.what : Exn → String
  | .invalidArgument what | .logicError what | .outOfRange what | .overflowError what
  | .runtimeError what => what

/-- `ValueId` and `NodeId` are indices into the tables of a graph. -/
abbrev ValueId := Nat

abbrev NodeId := Nat

/-! ## Computations that may throw -/

/-- Throw unless a check passes. -/
def require (c : Bool) (e : Exn) : Except Exn Unit := if c then .ok () else .error e

theorem require_ok {c : Bool} {e : Exn} : require c e = .ok () ↔ c = true := by
  unfold require
  split <;> simp_all

theorem require_error {c : Bool} {e e' : Exn} : require c e = .error e' ↔ c = false ∧ e' = e := by
  unfold require
  split <;> simp_all [eq_comm]

variable {ε α β : Type}

/-- A sequence returns iff both steps do. -/
theorem bind_ok {x : Except ε α} {f : α → Except ε β} {b : β} :
    (x >>= f) = .ok b ↔ ∃ a, x = .ok a ∧ f a = .ok b := by
  cases x with
  | error e => exact ⟨fun h => (by cases h), fun ⟨_, h, _⟩ => (by cases h)⟩
  | ok a => exact ⟨fun h => ⟨a, rfl, h⟩, fun ⟨_, h, heq⟩ => (by cases h; exact heq)⟩

/-- A check, and what follows it. -/
theorem check_ok {x : Except ε Unit} {f : Unit → Except ε β} {b : β} :
    (x >>= f) = .ok b ↔ x = .ok () ∧ f () = .ok b :=
  bind_ok.trans ⟨fun ⟨_, h, heq⟩ => ⟨h, heq⟩, fun ⟨h, heq⟩ => ⟨(), h, heq⟩⟩

/-- A loop of checks passes iff each check does. -/
theorem forM_ok {f : α → Except ε Unit} {as : List α} :
    as.forM f = .ok () ↔ ∀ a ∈ as, f a = .ok () := by
  rw [List.forM_eq_forM]
  induction as with
  | nil => simp [pure, Except.pure]
  | cons a as ih => rw [List.forM_cons, check_ok, List.forall_mem_cons, ← ih]

/-- A list of results. -/
theorem mapM_ok {f : α → Except ε β} {as : List α} {bs : List β} :
    as.mapM f = .ok bs ↔ List.Forall₂ (fun a b => f a = .ok b) as bs := by
  induction as generalizing bs with
  | nil =>
    rw [List.mapM_nil]
    exact ⟨fun h => (by cases h; exact .nil), fun h => (by cases h; rfl)⟩
  | cons a as ih =>
    rw [List.mapM_cons, bind_ok]
    constructor
    · rintro ⟨b, hhead, h⟩
      obtain ⟨rest, htail, h⟩ := bind_ok.1 h
      cases h
      exact .cons hhead (ih.1 htail)
    · intro h
      cases h with
      | cons hhead htail => exact ⟨_, hhead, bind_ok.2 ⟨_, ih.2 htail, rfl⟩⟩

/-- A loop whose rounds do not throw. -/
theorem foldlM_ok {f : β → α → Except ε β} (g : β → α → β) {as : List α}
    (h : ∀ a ∈ as, ∀ b, f b a = .ok (g b a)) (b : β) : as.foldlM f b = .ok (as.foldl g b) := by
  induction as generalizing b with
  | nil => rfl
  | cons a as ih =>
    obtain ⟨hhead, htail⟩ := List.forall_mem_cons.1 h
    rw [List.foldlM_cons, hhead b]
    exact ih htail _

/-- A sequence throws in the first or in the second step. -/
theorem bind_error {x : Except ε α} {f : α → Except ε β} {e : ε} :
    (x >>= f) = .error e ↔ x = .error e ∨ ∃ a, x = .ok a ∧ f a = .error e := by
  cases x with
  | error e' =>
    exact ⟨fun h => .inl (by cases h; rfl), fun h => (by
      rcases h with h | ⟨_, h, _⟩
      · cases h; rfl
      · cases h)⟩
  | ok a =>
    exact ⟨fun h => .inr ⟨a, rfl, h⟩, fun h => (by
      rcases h with h | ⟨_, h, heq⟩
      · cases h
      · cases h; exact heq)⟩

/-! ## Which exceptions a computation throws -/

/-- Whatever `x` throws satisfies `P`. -/
def Raises (P : Exn → Prop) (x : Except Exn α) : Prop := ∀ e, x = .error e → P e

variable {P : Exn → Prop}

theorem raises_ok {a : α} : Raises P (.ok a : Except Exn α) := fun _ h => (by cases h)

theorem raises_error {e : Exn} (h : P e) : Raises P (.error e : Except Exn α) := by
  rintro _ ⟨⟩
  exact h

theorem raises_require {c : Bool} {e : Exn} (h : P e) : Raises P (require c e) := by
  unfold require
  split
  · exact raises_ok
  · exact raises_error h

/-- A sequence throws only what its steps throw. -/
theorem Raises.bind {x : Except Exn α} {f : α → Except Exn β} (hx : Raises P x)
    (hf : ∀ a, x = .ok a → Raises P (f a)) : Raises P (x >>= f) := by
  intro e h
  rcases bind_error.1 h with h | ⟨a, hreturned, h⟩
  · exact hx e h
  · exact hf a hreturned e h

theorem Raises.forM {f : α → Except Exn Unit} {as : List α} (h : ∀ a ∈ as, Raises P (f a)) :
    Raises P (as.forM f) := by
  rw [List.forM_eq_forM]
  induction as with
  | nil => exact raises_ok
  | cons a as ih =>
    obtain ⟨hhead, htail⟩ := List.forall_mem_cons.1 h
    rw [List.forM_cons]
    exact hhead.bind fun _ _ => ih htail

theorem Raises.mapM {f : α → Except Exn β} {as : List α} (h : ∀ a ∈ as, Raises P (f a)) :
    Raises P (as.mapM f) := by
  induction as with
  | nil => exact raises_ok
  | cons a as ih =>
    obtain ⟨hhead, htail⟩ := List.forall_mem_cons.1 h
    rw [List.mapM_cons]
    exact hhead.bind fun _ _ => (ih htail).bind fun _ _ => raises_ok

/-- A fold throws only what its steps throw, by induction on the list. -/
theorem Raises.foldlM {f : β → α → Except Exn β} {as : List α} (h : ∀ a ∈ as, ∀ b, Raises P (f b a))
    (b : β) : Raises P (as.foldlM f b) := by
  induction as generalizing b with
  | nil => exact raises_ok
  | cons a as ih =>
    obtain ⟨hhead, htail⟩ := List.forall_mem_cons.1 h
    rw [List.foldlM_cons]
    exact (hhead b).bind fun b' _ => ih htail b'

end TinyInfer
