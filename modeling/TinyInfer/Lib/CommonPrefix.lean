import TinyInfer.Lib.OrdMap

/-!
# Longest common prefixes and the lexicographic order

`commonPrefix a b` is the length of the longest common prefix of two lists. In
the lexicographic order it only shrinks when the two lists move apart
(`commonPrefix_le_left`, `commonPrefix_le_right`), so among the keys of an
ordered map the ones sharing the most with a query stand next to it:
`lowerBound_outranks` and `prev_outranks` say which of the two neighbours is
ahead of every other key in the order `outranks` (longest match first; among
equal matches the keys from the query upwards, nearest first, then the keys
below it, nearest first).
-/

namespace Lib

variable {α : Type*}

/-- The length of the longest common prefix. -/
def commonPrefix [DecidableEq α] : List α → List α → Nat
  | a :: as, b :: bs => if a = b then commonPrefix as bs + 1 else 0
  | _, _ => 0

section General

variable [DecidableEq α]

@[simp] theorem commonPrefix_nil (a : List α) : commonPrefix [] a = 0 := by
  cases a <;> rfl

@[simp] theorem commonPrefix_nil_right (a : List α) : commonPrefix a [] = 0 := by
  cases a <;> rfl

theorem commonPrefix_cons (x y : α) (a b : List α) :
    commonPrefix (x :: a) (y :: b) = if x = y then commonPrefix a b + 1 else 0 := rfl

theorem commonPrefix_comm (a b : List α) : commonPrefix a b = commonPrefix b a := by
  induction a generalizing b with
  | nil => cases b <;> rfl
  | cons x a ih =>
    cases b with
    | nil => rfl
    | cons y b => simp only [commonPrefix_cons, ih b, eq_comm]

theorem commonPrefix_le_length_left (a b : List α) : commonPrefix a b ≤ a.length := by
  induction a generalizing b with
  | nil => simp
  | cons x a ih =>
    cases b with
    | nil => simp
    | cons y b =>
      have := ih b
      simp only [commonPrefix_cons, List.length_cons]
      split <;> omega

theorem commonPrefix_le_length_right (a b : List α) : commonPrefix a b ≤ b.length := by
  rw [commonPrefix_comm]
  exact commonPrefix_le_length_left b a

/-- Two lists agree on their common prefix. -/
theorem take_commonPrefix (a b : List α) :
    a.take (commonPrefix a b) = b.take (commonPrefix a b) := by
  induction a generalizing b with
  | nil => simp
  | cons x a ih =>
    cases b with
    | nil => simp
    | cons y b =>
      rw [commonPrefix_cons]
      split
      · next heq => rw [heq, List.take_succ_cons, List.take_succ_cons, ih b]
      · simp

/-- Lists agreeing on their first `n` elements share a prefix of that length. -/
theorem le_commonPrefix {a b : List α} {n : Nat} (ha : n ≤ a.length) (hb : n ≤ b.length)
    (h : a.take n = b.take n) : n ≤ commonPrefix a b := by
  induction n generalizing a b with
  | zero => exact Nat.zero_le _
  | succ n ih =>
    match a, b with
    | x :: a, y :: b =>
      simp only [List.take_succ_cons, List.cons.injEq] at h
      have := ih (a := a) (b := b) (by simpa using ha) (by simpa using hb) h.2
      rw [commonPrefix_cons, if_pos h.1]
      omega

/-- A common front counts in full. -/
theorem commonPrefix_append (p a b : List α) :
    commonPrefix (p ++ a) (p ++ b) = p.length + commonPrefix a b := by
  induction p with
  | nil => simp
  | cons x p ih =>
    rw [List.cons_append, List.cons_append, commonPrefix_cons, if_pos rfl, ih, List.length_cons]
    omega

/-- Cutting both lists at the same place cuts their common prefix there. -/
theorem commonPrefix_take (a b : List α) (n : Nat) :
    commonPrefix (a.take n) (b.take n) = min (commonPrefix a b) n := by
  induction n generalizing a b with
  | zero => simp
  | succ n ih =>
    match a, b with
    | [], b => simp
    | x :: a, [] => simp
    | x :: a, y :: b =>
      rw [List.take_succ_cons, List.take_succ_cons, commonPrefix_cons, commonPrefix_cons, ih]
      split <;> omega

/-- Cutting one list beyond the length of the other changes nothing. -/
theorem commonPrefix_take_right {a : List α} {n : Nat} (h : a.length ≤ n) (b : List α) :
    commonPrefix a (b.take n) = commonPrefix a b := by
  have hcut := commonPrefix_take a b n
  have hle := commonPrefix_le_length_left a b
  rwa [List.take_of_length_le h, Nat.min_eq_left (by omega)] at hcut

end General

section Lexicographic

variable [LinearOrder α]

theorem cons_le_cons_iff (x y : α) (a b : List α) :
    x :: a ≤ y :: b ↔ x < y ∨ (x = y ∧ a ≤ b) := by
  rw [← not_lt, ← not_lt, List.cons_lt_cons_iff]
  constructor
  · intro h
    rcases lt_trichotomy x y with hlt | rfl | hgt
    · exact Or.inl hlt
    · exact Or.inr ⟨rfl, fun hba => h (Or.inr ⟨rfl, hba⟩)⟩
    · exact absurd (Or.inl hgt) h
  · rintro (hlt | ⟨rfl, hab⟩) (hgt | ⟨heq, hba⟩)
    · exact lt_asymm hlt hgt
    · exact hlt.ne' heq
    · exact lt_irrefl _ hgt
    · exact hab hba

/-- The outer two of three lexicographically ordered lists share no more than
either neighbouring pair. -/
theorem commonPrefix_le_of_le {a b c : List α} (hab : a ≤ b) (hbc : b ≤ c) :
    commonPrefix a c ≤ commonPrefix a b ∧ commonPrefix a c ≤ commonPrefix b c := by
  induction a generalizing b c with
  | nil => simp
  | cons x a ih =>
    match b, c with
    | [], c => exact absurd (List.nil_lt_cons x a) hab.not_gt
    | y :: b, [] => exact absurd (List.nil_lt_cons y b) hbc.not_gt
    | y :: b, z :: c =>
      rw [cons_le_cons_iff] at hab hbc
      by_cases hxz : x = z
      · -- the outer heads agree, so the middle head is the same
        subst hxz
        have hxy : x = y := by
          rcases hab with h | h
          · rcases hbc with h' | h'
            · exact absurd (h.trans h') (lt_irrefl _)
            · exact absurd (h'.1 ▸ h) (lt_irrefl _)
          · exact h.1
        subst hxy
        have hab' : a ≤ b := by simpa using hab
        have hbc' : b ≤ c := by simpa using hbc
        simpa [commonPrefix_cons] using ih hab' hbc'
      · simp [commonPrefix_cons, hxz]

/-- Moving right, away from the query, shares less. -/
theorem commonPrefix_le_right {q a b : List α} (hq : q ≤ a) (hab : a ≤ b) :
    commonPrefix b q ≤ commonPrefix a q := by
  rw [commonPrefix_comm b, commonPrefix_comm a]
  exact (commonPrefix_le_of_le hq hab).1

/-- Moving left, away from the query, shares less. -/
theorem commonPrefix_le_left {q a b : List α} (hab : a ≤ b) (hq : b ≤ q) :
    commonPrefix a q ≤ commonPrefix b q :=
  (commonPrefix_le_of_le hab hq).2

/-! ## The neighbours of a query -/

/-- `e` is preferred to `e'` as a match for the query: it shares more, or as much
and it stands closer, with the side above the query first. -/
def outranks (q e e' : List α) : Prop :=
  commonPrefix e' q < commonPrefix e q ∨
    (commonPrefix e' q = commonPrefix e q ∧
      ((q ≤ e ∧ (e' < q ∨ e < e')) ∨ (e < q ∧ e' < q ∧ e' < e)))

instance (q e e' : List α) : Decidable (outranks q e e') :=
  inferInstanceAs (Decidable (_ ∨ _))

theorem outranks_asymm {q e e' : List α} (h : outranks q e e') : ¬ outranks q e' e := by
  rintro (h' | ⟨heq', h'⟩)
  · rcases h with h | ⟨heq, -⟩ <;> omega
  · rcases h with h | ⟨-, h⟩
    · omega
    · rcases h with ⟨hq, h | h⟩ | ⟨hq, hq', h⟩ <;>
        rcases h' with ⟨hp, h' | h'⟩ | ⟨hp, hp', h'⟩
      · exact absurd hq h'.not_ge
      · exact absurd hp h.not_ge
      · exact absurd hq hp'.not_ge
      · exact absurd hq h'.not_ge
      · exact lt_asymm h h'
      · exact absurd hq hp'.not_ge
      · exact absurd hp hq'.not_ge
      · exact absurd hp hq'.not_ge
      · exact lt_asymm h h'

theorem outranks_trans {q a b c : List α} (hab : outranks q a b) (hbc : outranks q b c) :
    outranks q a c := by
  rcases hab with hab | ⟨heq, hab⟩
  · rcases hbc with hbc | ⟨heq', -⟩
    · exact Or.inl (hbc.trans hab)
    · exact Or.inl (heq' ▸ hab)
  · rcases hbc with hbc | ⟨heq', hbc⟩
    · exact Or.inl (heq ▸ hbc)
    · refine Or.inr ⟨heq'.trans heq, ?_⟩
      rcases hab with ⟨hq, h | h⟩ | ⟨hq, hq', h⟩ <;>
        rcases hbc with ⟨hp, h' | h'⟩ | ⟨hp, hp', h'⟩
      · exact absurd hp h.not_ge
      · exact absurd hp h.not_ge
      · exact Or.inl ⟨hq, Or.inl hp'⟩
      · exact Or.inl ⟨hq, Or.inl h'⟩
      · exact Or.inl ⟨hq, Or.inr (h.trans h')⟩
      · exact Or.inl ⟨hq, Or.inl hp'⟩
      · exact absurd hp hq'.not_ge
      · exact absurd hp hq'.not_ge
      · exact Or.inr ⟨hq, hp', h'.trans h⟩

/-- Of two different matches one is preferred. -/
theorem outranks_total {q e b : List α} (hne : e ≠ b)
    (h : ¬ outranks q e b) : outranks q b e := by
  rw [outranks, not_or, not_and_or] at h
  obtain ⟨hlt, h⟩ := h
  rcases Nat.lt_or_eq_of_le (Nat.le_of_not_lt hlt) with hgt | heq
  · exact Or.inl hgt
  · refine Or.inr ⟨heq, ?_⟩
    have h := h.resolve_left fun hn => hn heq.symm
    rw [← not_lt] at h ⊢
    rcases lt_trichotomy e b with h1 | h1 | h1
    · by_cases he : e < q <;> by_cases hb : b < q <;> simp_all [not_lt_of_gt h1]
    · exact absurd h1 hne
    · by_cases he : e < q <;> by_cases hb : b < q <;> simp_all [not_lt_of_gt h1]

/-- A match that is preferred to another one shares at least as much. -/
theorem commonPrefix_le_of_outranks {q e e' : List α} (h : outranks q e e') :
    commonPrefix e' q ≤ commonPrefix e q := by
  rcases h with h | ⟨h, -⟩
  · exact h.le
  · exact h.le

/-- Among finitely many lists one is preferred to all others. -/
theorem exists_outranks (q : List α) {l : List (List α)} (hl : l ≠ []) :
    ∃ e ∈ l, ∀ e' ∈ l, e' ≠ e → outranks q e e' := by
  induction l with
  | nil => exact absurd rfl hl
  | cons x l ih =>
    rcases eq_or_ne l [] with rfl | hne
    · refine ⟨x, List.mem_singleton_self x, fun e' he' hx => ?_⟩
      exact absurd (List.mem_singleton.mp he') hx
    · obtain ⟨b, hb, hbest⟩ := ih hne
      by_cases hxb : x ≠ b ∧ outranks q x b
      · -- the new list beats the best of the others, hence all of them
        refine ⟨x, List.mem_cons_self, fun e' he' hx => ?_⟩
        have hmem := (List.mem_cons.mp he').resolve_left hx
        by_cases hb' : e' = b
        · exact hb' ▸ hxb.2
        · exact outranks_trans hxb.2 (hbest e' hmem hb')
      · refine ⟨b, List.mem_cons_of_mem x hb, fun e' he' hne' => ?_⟩
        rcases List.mem_cons.mp he' with rfl | hmem
        · exact outranks_total hne' fun h => hxb ⟨hne', h⟩
        · exact hbest e' hmem hne'

variable {ν : Type*}

/-- The lower bound is preferred to every other key when the key before it does
not share more. -/
theorem lowerBound_outranks {m : OrdMap (List α) ν} {q e : List α} {v : ν}
    (hlb : m.lowerBound q = some (e, v))
    (hprev : ∀ e' v', m.prev q = some (e', v') → commonPrefix e' q ≤ commonPrefix e q) :
    ∀ k w, m.find? k = some w → k ≠ e → outranks q e k := by
  intro k w hk hne
  obtain ⟨-, hqe, hmin⟩ := OrdMap.lowerBound_eq_some hlb
  rcases le_or_gt q k with hqk | hkq
  · have hek : e ≤ k := hmin k w hk hqk
    have hle := commonPrefix_le_right hqe hek
    rcases Nat.lt_or_ge (commonPrefix k q) (commonPrefix e q) with hlt | hge
    · exact Or.inl hlt
    · exact Or.inr ⟨Nat.le_antisymm hle hge, Or.inl ⟨hqe, Or.inr (lt_of_le_of_ne hek hne.symm)⟩⟩
  · cases hp : m.prev q with
    | none => exact absurd (OrdMap.prev_eq_none hp k w hk) hkq.not_ge
    | some p =>
      obtain ⟨-, hpq, hmax⟩ := OrdMap.prev_eq_some hp
      have hle := commonPrefix_le_left (hmax k w hk hkq) hpq.le
      have hle' := hprev _ _ hp
      rcases Nat.lt_or_ge (commonPrefix k q) (commonPrefix e q) with hlt | hge
      · exact Or.inl hlt
      · exact Or.inr ⟨by omega, Or.inl ⟨hqe, Or.inl hkq⟩⟩

/-- The key before the lower bound is preferred to every other key when it
shares strictly more than the lower bound. -/
theorem prev_outranks {m : OrdMap (List α) ν} {q e : List α} {v : ν}
    (hprev : m.prev q = some (e, v))
    (hlb : ∀ e' v', m.lowerBound q = some (e', v') → commonPrefix e' q < commonPrefix e q) :
    ∀ k w, m.find? k = some w → k ≠ e → outranks q e k := by
  intro k w hk hne
  obtain ⟨-, heq, hmax⟩ := OrdMap.prev_eq_some hprev
  rcases le_or_gt q k with hqk | hkq
  · cases hl : m.lowerBound q with
    | none => exact absurd (OrdMap.lowerBound_eq_none hl k w hk) hqk.not_gt
    | some l =>
      obtain ⟨-, hql, hmin⟩ := OrdMap.lowerBound_eq_some hl
      exact Or.inl (Nat.lt_of_le_of_lt (commonPrefix_le_right hql (hmin k w hk hqk))
        (hlb _ _ hl))
  · have hke : k ≤ e := hmax k w hk hkq
    have hle := commonPrefix_le_left hke heq.le
    rcases Nat.lt_or_ge (commonPrefix k q) (commonPrefix e q) with hlt | hge
    · exact Or.inl hlt
    · exact Or.inr ⟨Nat.le_antisymm hle hge, Or.inr ⟨heq, hkq, lt_of_le_of_ne hke hne⟩⟩

/-- When neither neighbour of a query matches it, nothing does. -/
theorem commonPrefix_eq_zero_of_neighbours {m : OrdMap (List α) ν} {q : List α}
    (hlb : ∀ e v, m.lowerBound q = some (e, v) → commonPrefix e q = 0)
    (hprev : ∀ e v, m.prev q = some (e, v) → commonPrefix e q = 0) :
    ∀ k w, m.find? k = some w → commonPrefix k q = 0 := by
  intro k w hk
  rcases le_or_gt q k with hqk | hkq
  · cases hl : m.lowerBound q with
    | none => exact absurd (OrdMap.lowerBound_eq_none hl k w hk) hqk.not_gt
    | some l =>
      obtain ⟨-, hql, hmin⟩ := OrdMap.lowerBound_eq_some hl
      have hle := commonPrefix_le_right hql (hmin k w hk hqk)
      rw [hlb _ _ hl] at hle
      exact Nat.le_zero.mp hle
  · cases hp : m.prev q with
    | none => exact absurd (OrdMap.prev_eq_none hp k w hk) hkq.not_ge
    | some p =>
      obtain ⟨-, hpq, hmax⟩ := OrdMap.prev_eq_some hp
      have hle := commonPrefix_le_left (hmax k w hk hkq) hpq.le
      rw [hprev _ _ hp] at hle
      exact Nat.le_zero.mp hle

end Lexicographic

/-- Order of lists with a common front is the order of their rests. -/
theorem append_lt_append_iff [LinearOrder α] (p a b : List α) : p ++ a < p ++ b ↔ a < b := by
  induction p with
  | nil => rfl
  | cons x p ih => simp [ih]

end Lib
