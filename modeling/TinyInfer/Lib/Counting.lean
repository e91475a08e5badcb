import Mathlib.Algebra.BigOperators.Group.Finset.Basic
import Mathlib.Algebra.Order.BigOperators.Group.Finset
import Mathlib.Algebra.Order.BigOperators.Group.List
import Mathlib.Algebra.BigOperators.Group.Finset.Piecewise
import Mathlib.Data.List.Nodup
import Mathlib.Algebra.GroupWithZero.Nat

/-!
# Counting shared resources

Resources are the numbers below `n`; `held b` many holders share resource `b`, and
the resources nobody holds are listed without repetition.

- `sum_count_range`, `sum_range_map`: holders listed table by table;
- `le_free_add_held`: the free resources and the holdings together are at least
  `n`, and more when one resource is shared.
-/

namespace Lib

open Finset

/-- A list of resources, counted resource by resource. -/
theorem sum_count_range {n : Nat} (bs : List Nat) (h : ∀ b ∈ bs, b < n) :
    (range n).sum (fun b => bs.count b) = bs.length := by
  have hcard := Multiset.sum_count_eq_card (s := range n) (m := (bs : Multiset Nat))
    fun b hb => mem_range.mpr (h b hb)
  simpa using hcard

/-- A double sum over a range and a list may be exchanged. -/
theorem sum_range_map {α : Type*} (n : Nat) (l : List α) (f : α → Nat → Nat) :
    (range n).sum (fun b => (l.map fun x => f x b).sum) =
      (l.map fun x => (range n).sum (f x)).sum := by
  induction l with
  | nil => simp
  | cons x l ih => simp only [List.map_cons, List.sum_cons, sum_add_distrib, ih]

/-- The pigeonhole step: every resource is free or held, and the sharers of `b₀`
beyond the first count on top. -/
theorem le_free_add_held {n : Nat} {free : List Nat} {held : Nat → Nat} (hnd : free.Nodup)
    (hfree : ∀ b, b ∈ free ↔ b < n ∧ held b = 0) (hheld : ∀ b, 0 < held b → b < n) (b₀ : Nat) :
    n + (held b₀ - 1) ≤ free.length + (range n).sum held := by
  have hcount : (range n).sum (fun b => free.count b) = free.length :=
    sum_count_range free fun b hb => ((hfree b).mp hb).1
  have hextra : (range n).sum (fun b => if b = b₀ then held b₀ - 1 else 0) = held b₀ - 1 := by
    rw [sum_ite_eq']
    by_cases hb : 0 < held b₀
    · rw [if_pos (mem_range.mpr (hheld b₀ hb))]
    · split <;> omega
  have hone : ∀ b ∈ range n, 1 + (if b = b₀ then held b₀ - 1 else 0) ≤ free.count b + held b := by
    intro b hb
    by_cases hzero : held b = 0
    · have hmem := (hfree b).mpr ⟨mem_range.mp hb, hzero⟩
      have hc := List.count_eq_one_of_mem hnd hmem
      split
      · next heq =>
        subst heq
        omega
      · omega
    · split
      · next heq =>
        subst heq
        omega
      · omega
  have hcard : (range n).sum (fun _ => 1) = n := by rw [← card_eq_sum_ones, card_range]
  have hsum := sum_le_sum hone
  rw [sum_add_distrib, sum_add_distrib, hcard, hcount, hextra] at hsum
  exact hsum

end Lib
