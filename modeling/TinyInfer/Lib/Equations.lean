import Mathlib.Logic.Function.Basic
import Mathlib.Data.List.Basic

/-!
# Systems of equations in the order of their variables

An equation gives a variable the value of a partial function of other variables. Where every
equation reads only variables that no later one defines, the equations can be evaluated one
after the other, and what comes out is their only solution.

Main definitions:
- `Equation`, `Equation.Holds`: an equation, and the assignments that satisfy it.
- `Ordered`: no equation reads or defines again what is defined from it on.
- `evaluate`: the equations, one after the other.
-/

namespace Lib.Equations

variable {ι V : Type}

structure Equation (ι V : Type) where
  inputs : List ι
  output : ι
  apply : List V → Option V

def Equation.Holds (e : Equation ι V) (env : ι → V) : Prop :=
  e.apply (e.inputs.map env) = some (env e.output)

/-- Every equation defines a variable that neither it nor an earlier one mentions. -/
def Ordered : List (Equation ι V) → Prop
  | [] => True
  | e :: es => e.output ∉ e.inputs ∧
      (∀ e' ∈ es, e'.output ≠ e.output ∧ e'.output ∉ e.inputs) ∧ Ordered es

/-- Equations are ordered if no later one defines a variable again, or one that was read. -/
theorem ordered_of_getElem {es : List (Equation ι V)}
    (hunread : ∀ (i j : Nat) (e e' : Equation ι V), es[i]? = some e → es[j]? = some e' → i ≤ j →
      e'.output ∉ e.inputs)
    (hdistinct : ∀ (i j : Nat) (e e' : Equation ι V), es[i]? = some e → es[j]? = some e' → i < j →
      e'.output ≠ e.output) :
    Ordered es := by
  induction es with
  | nil => trivial
  | cons e es ih =>
    refine ⟨hunread 0 0 e e rfl rfl (Nat.le_refl 0), fun e' hmem => ?_, ih ?_ ?_⟩
    · obtain ⟨j, hfound⟩ := List.getElem?_of_mem hmem
      exact ⟨hdistinct 0 (j + 1) e e' rfl hfound (Nat.succ_pos j),
        hunread 0 (j + 1) e e' rfl hfound (Nat.zero_le _)⟩
    · exact fun i j e₁ e₂ h₁ h₂ hle => hunread (i + 1) (j + 1) e₁ e₂ h₁ h₂ (Nat.succ_le_succ hle)
    · exact fun i j e₁ e₂ h₁ h₂ hless =>
        hdistinct (i + 1) (j + 1) e₁ e₂ h₁ h₂ (Nat.succ_lt_succ hless)

/-! ## Uniqueness -/

/-- Solutions that agree on the other variables agree. -/
theorem Ordered.unique {es : List (Equation ι V)} (hordered : Ordered es) {env env' : ι → V}
    (hholds : ∀ e ∈ es, e.Holds env) (hholds' : ∀ e ∈ es, e.Holds env') {K : ι → Prop}
    (hreads : ∀ e ∈ es, ∀ id ∈ e.inputs, K id ∨ ∃ e' ∈ es, e'.output = id)
    (hagree : ∀ id, K id → env id = env' id) :
    ∀ id, (K id ∨ ∃ e ∈ es, e.output = id) → env id = env' id := by
  induction es generalizing K with
  | nil =>
    rintro id (hgiven | ⟨e, hmem, -⟩)
    · exact hagree id hgiven
    · cases hmem
  | cons e es ih =>
    obtain ⟨hself, hlater, hrest⟩ := hordered
    obtain ⟨hhere, hthere⟩ := List.forall_mem_cons.1 hholds
    obtain ⟨hhere', hthere'⟩ := List.forall_mem_cons.1 hholds'
    have hinputs : ∀ id ∈ e.inputs, env id = env' id := by
      intro id hmem
      rcases hreads e List.mem_cons_self id hmem with hgiven | ⟨e', hmem', rfl⟩
      · exact hagree id hgiven
      · rcases List.mem_cons.1 hmem' with rfl | hmem'
        · exact absurd hmem hself
        · exact absurd hmem (hlater e' hmem').2
    have houtput : env e.output = env' e.output := by
      unfold Equation.Holds at hhere hhere'
      rw [List.map_congr_left hinputs, hhere'] at hhere
      exact (Option.some.inj hhere).symm
    have hnext := ih hrest hthere hthere' (K := fun id => K id ∨ id = e.output)
      (fun e' hmem id hread => ?_) fun id hgiven => ?_
    · rintro id (hgiven | ⟨e', hmem, rfl⟩)
      · exact hagree id hgiven
      · rcases List.mem_cons.1 hmem with rfl | hmem
        · exact houtput
        · exact hnext _ (.inr ⟨e', hmem, rfl⟩)
    · rcases hreads e' (List.mem_cons_of_mem _ hmem) id hread with hgiven | ⟨e'', hmem', rfl⟩
      · exact .inl (.inl hgiven)
      · rcases List.mem_cons.1 hmem' with rfl | hmem'
        · exact .inl (.inr rfl)
        · exact .inr ⟨e'', hmem', rfl⟩
    · rcases hgiven with hgiven | rfl
      · exact hagree id hgiven
      · exact houtput

/-! ## Evaluation -/

variable [DecidableEq ι]

/-- The equations, one after the other. -/
def evaluate : List (Equation ι V) → (ι → V) → Option (ι → V)
  | [], env => some env
  | e :: es, env => (e.apply (e.inputs.map env)).bind fun v =>
      evaluate es (Function.update env e.output v)

/-- Only variables that are defined get a new value. -/
theorem evaluate_other {es : List (Equation ι V)} {env env' : ι → V}
    (h : evaluate es env = some env') {id : ι} (hother : ∀ e ∈ es, e.output ≠ id) :
    env' id = env id := by
  induction es generalizing env with
  | nil =>
    cases h
    rfl
  | cons e es ih =>
    obtain ⟨v, -, h⟩ := Option.bind_eq_some_iff.1 h
    obtain ⟨hhere, hthere⟩ := List.forall_mem_cons.1 hother
    rw [ih h hthere, Function.update_of_ne (Ne.symm hhere)]

/-- What is evaluated is a solution. -/
theorem Ordered.holds {es : List (Equation ι V)} (hordered : Ordered es) {env env' : ι → V}
    (h : evaluate es env = some env') : ∀ e ∈ es, e.Holds env' := by
  induction es generalizing env with
  | nil => exact fun e hmem => absurd hmem List.not_mem_nil
  | cons e es ih =>
    obtain ⟨hself, hlater, hrest⟩ := hordered
    obtain ⟨v, happlied, h⟩ := Option.bind_eq_some_iff.1 h
    refine List.forall_mem_cons.2 ⟨?_, ih hrest h⟩
    have houtput : env' e.output = v := by
      rw [evaluate_other h fun e' hmem => (hlater e' hmem).1, Function.update_self]
    have hinputs : ∀ id ∈ e.inputs, env' id = env id := by
      intro id hmem
      have hne : id ≠ e.output := fun hsame => hself (hsame ▸ hmem)
      rw [evaluate_other h fun e' hmem' hsame => (hlater e' hmem').2 (hsame ▸ hmem),
        Function.update_of_ne hne]
    rw [Equation.Holds, List.map_congr_left hinputs, houtput]
    exact happlied

/-- An evaluation goes through where every equation has a value, and keeps the assignment as it
should be. -/
theorem evaluate_some {P : (ι → V) → Prop} {es : List (Equation ι V)}
    (heach : ∀ e ∈ es, ∀ env, P env → ∃ v, e.apply (e.inputs.map env) = some v ∧
      P (Function.update env e.output v))
    {env : ι → V} (hinitial : P env) : ∃ env', evaluate es env = some env' ∧ P env' := by
  induction es generalizing env with
  | nil => exact ⟨env, rfl, hinitial⟩
  | cons e es ih =>
    obtain ⟨v, happlied, hnext⟩ := heach e List.mem_cons_self env hinitial
    obtain ⟨env', hdone, hfinal⟩ := ih (fun e' hmem => heach e' (List.mem_cons_of_mem _ hmem)) hnext
    exact ⟨env', Option.bind_eq_some_iff.2 ⟨v, happlied, hdone⟩, hfinal⟩

end Lib.Equations
