import Mathlib.Data.List.Basic
import Mathlib.Tactic.SplitIfs

/-!
# Footprints

What a program accesses is a list of ranges of its buffers (`Access`). A program whose index
arithmetic leaves the range of a type has no footprint: footprints are built in the monad of
`Option`, from the accesses of single steps, loops (`forEach`) and sequences of parts
(`inOrder`).

`Fits` says that a program has a footprint, and that it is inside of the buffers. It is
decided part by part (`fits_forEach`, `fits_inOrder`).
-/

namespace Lib

/-- `count` consecutive elements of a buffer. -/
structure Access (β : Type) where
  buffer : β
  first : Nat
  count : Nat
  deriving DecidableEq, Repr

/-- A single element. -/
def Access.one {β : Type} (buffer : β) (i : Nat) : Access β := ⟨buffer, i, 1⟩

namespace Footprint

variable {α β : Type}

/-- The footprint of a loop over a list. -/
def each (as : List α) (body : α → Option (List (Access β))) : Option (List (Access β)) :=
  (as.mapM body).map List.flatten

def forEach (n : Nat) (body : Nat → Option (List (Access β))) : Option (List (Access β)) :=
  each (List.range n) body

/-- The footprint of parts that run one after the other. -/
def inOrder (parts : List (Option (List (Access β)))) : Option (List (Access β)) :=
  each parts id

/-- Every access is inside of its buffer. -/
def Fits (elements : β → Nat) (p : Option (List (Access β))) : Prop :=
  ∃ accesses, p = some accesses ∧
    ∀ access ∈ accesses, access.first + access.count ≤ elements access.buffer

variable {elements : β → Nat}

/-- A footprint fits iff each of its accesses stays in its buffer. -/
theorem fits_some {accesses : List (Access β)} : Fits elements (some accesses) ↔
    ∀ access ∈ accesses, access.first + access.count ≤ elements access.buffer := by
  constructor
  · rintro ⟨_, heq, hinside⟩
    cases heq
    exact hinside
  · exact fun hinside => ⟨accesses, rfl, hinside⟩

@[simp] theorem fits_nil : Fits elements (some []) := fits_some.2 fun access hmem => by cases hmem

/-- A footprint fits iff its first access and the rest do. -/
@[simp] theorem fits_cons (buffer : β) (first count : Nat) (accesses : List (Access β)) :
    Fits elements (some (⟨buffer, first, count⟩ :: accesses)) ↔
      first + count ≤ elements buffer ∧ Fits elements (some accesses) := by
  rw [fits_some, fits_some, List.forall_mem_cons]

/-- An access of one element fits iff its index is below the count. -/
@[simp] theorem fits_one_cons (buffer : β) (i : Nat) (accesses : List (Access β)) :
    Fits elements (some (Access.one buffer i :: accesses)) ↔
      i < elements buffer ∧ Fits elements (some accesses) := fits_cons buffer i 1 accesses

/-- An index computation that overflowed fits nowhere. -/
theorem not_fits_none : ¬ Fits elements none := by
  rintro ⟨_, heq, -⟩
  cases heq

theorem each_cons (a : α) (as : List α) (body : α → Option (List (Access β))) :
    each (a :: as) body = (body a).bind fun head => (each as body).map (head ++ ·) := by
  simp only [each, List.mapM_cons, Option.pure_def, Option.bind_eq_bind]
  cases body a with
  | none => rfl
  | some head => cases as.mapM body <;> rfl

/-- A loop fits if each of its rounds does. -/
theorem fits_each {as : List α} {body : α → Option (List (Access β))} :
    Fits elements (each as body) ↔ ∀ a ∈ as, Fits elements (body a) := by
  induction as with
  | nil =>
    refine ⟨fun _ a hmem => ?_, fun _ => ⟨[], rfl, fun access hmem => ?_⟩⟩
    · cases hmem
    · cases hmem
  | cons a as ih =>
    rw [List.forall_mem_cons, ← ih, each_cons]
    constructor
    · rintro ⟨accesses, heq, hinside⟩
      cases hfirst : body a with
      | none =>
        rw [hfirst] at heq
        cases heq
      | some head => cases hrest : each as body with
        | none =>
          rw [hfirst, hrest] at heq
          cases heq
        | some tail =>
          rw [hfirst, hrest] at heq
          cases heq
          obtain ⟨hinHead, hinTail⟩ := List.forall_mem_append.1 hinside
          exact ⟨⟨head, rfl, hinHead⟩, ⟨tail, rfl, hinTail⟩⟩
    · rintro ⟨⟨head, hfirst, hinHead⟩, ⟨tail, hrest, hinTail⟩⟩
      refine ⟨head ++ tail, ?_, List.forall_mem_append.2 ⟨hinHead, hinTail⟩⟩
      rw [hfirst, hrest]
      rfl

/-- A counted loop fits iff each of its rounds does. -/
theorem fits_forEach {n : Nat} {body : Nat → Option (List (Access β))} :
    Fits elements (forEach n body) ↔ ∀ i < n, Fits elements (body i) := by
  rw [forEach, fits_each]
  exact forall_congr' fun i => by rw [List.mem_range]

/-- Parts one after another fit iff each part does. -/
@[simp] theorem fits_inOrder {parts : List (Option (List (Access β)))} :
    Fits elements (inOrder parts) ↔ ∀ part ∈ parts, Fits elements part := fits_each

end Footprint

end Lib
