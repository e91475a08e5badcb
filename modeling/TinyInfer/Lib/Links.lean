import Mathlib.Data.List.Nodup
import Mathlib.Logic.Function.Basic

/-!
# Intrusive doubly linked lists

Two link fields per node (`previous`, `next`) and the two ends of the list.
`Links.IsList s P` says that following the links visits exactly the nodes of
`P`, in that order, in both directions: it is stated at every split
`P = A ++ p :: B`, where the links of `p` are the last node of `A` and the first
of `B`.

`unlink` removes a node from wherever it stands, `append` adds one at the newest
end, and `touch` does both; `IsList.unlink`, `IsList.append` and `IsList.touch`
say what each does to `P`.
-/

namespace Lib

universe u

/-- The links of all nodes and the two ends of one list. -/
structure Links (α : Type u) where
  previous : α → Option α
  next : α → Option α
  oldest : Option α
  newest : Option α

namespace Links

variable {α : Type u} [DecidableEq α]

/-- No node is linked. -/
def nil : Links α := ⟨fun _ => none, fun _ => none, none, none⟩

/-- Make `v` the successor of `p`, or the oldest node when there is no `p`. -/
def setNext (s : Links α) (p : Option α) (v : Option α) : Links α :=
  match p with
  | some p => { s with next := Function.update s.next p v }
  | none => { s with oldest := v }

/-- Make `v` the predecessor of `p`, or the newest node when there is no `p`. -/
def setPrevious (s : Links α) (p : Option α) (v : Option α) : Links α :=
  match p with
  | some p => { s with previous := Function.update s.previous p v }
  | none => { s with newest := v }

/-- Clear both links of a node. -/
def detach (s : Links α) (n : α) : Links α :=
  { s with previous := Function.update s.previous n none, next := Function.update s.next n none }

/-- Remove a node: its neighbours are linked to each other. -/
def unlink (s : Links α) (n : α) : Links α :=
  let s := s.setNext (s.previous n) (s.next n)
  let s := s.setPrevious (s.next n) (s.previous n)
  s.detach n

/-- Add a node at the newest end. -/
def append (s : Links α) (n : α) : Links α :=
  let s := { s with previous := Function.update s.previous n s.newest,
                    next := Function.update s.next n none }
  { s.setNext s.newest (some n) with newest := some n }

/-- Move a node to the newest end. -/
def touch (s : Links α) (n : α) : Links α := (s.unlink n).append n

/-- The links visit exactly `P`, oldest first. -/
structure IsList (s : Links α) (P : List α) : Prop where
  nodup : P.Nodup
  oldest : s.oldest = P.head?
  newest : s.newest = P.getLast?
  links : ∀ A p B, P = A ++ p :: B → s.previous p = A.getLast? ∧ s.next p = B.head?

omit [DecidableEq α] in
theorem isList_nil : IsList (nil : Links α) [] where
  nodup := List.nodup_nil
  oldest := rfl
  newest := rfl
  links := fun A p B h => by simp at h

/-! ## What `unlink` and `append` do to each link -/

@[simp] theorem setNext_previous (s : Links α) (p v : Option α) :
    (s.setNext p v).previous = s.previous := by cases p <;> rfl

@[simp] theorem setNext_newest (s : Links α) (p v : Option α) :
    (s.setNext p v).newest = s.newest := by cases p <;> rfl

theorem setNext_next (s : Links α) (p v : Option α) (q : α) :
    (s.setNext p v).next q = if p = some q then v else s.next q := by
  cases p <;> simp [setNext, Function.update_apply, eq_comm]

theorem setNext_oldest (s : Links α) (p v : Option α) :
    (s.setNext p v).oldest = if p = none then v else s.oldest := by cases p <;> rfl

@[simp] theorem setPrevious_next (s : Links α) (p v : Option α) :
    (s.setPrevious p v).next = s.next := by cases p <;> rfl

@[simp] theorem setPrevious_oldest (s : Links α) (p v : Option α) :
    (s.setPrevious p v).oldest = s.oldest := by cases p <;> rfl

theorem setPrevious_previous (s : Links α) (p v : Option α) (q : α) :
    (s.setPrevious p v).previous q = if p = some q then v else s.previous q := by
  cases p <;> simp [setPrevious, Function.update_apply, eq_comm]

theorem setPrevious_newest (s : Links α) (p v : Option α) :
    (s.setPrevious p v).newest = if p = none then v else s.newest := by cases p <;> rfl

/-- Linking the predecessor of `n` to the successor of `n` leaves `n` its own
successor. -/
theorem setNext_next_self (s : Links α) (n : α) :
    (s.setNext (s.previous n) (s.next n)).next n = s.next n := by
  rw [setNext_next]
  split <;> rfl

/-- After an unlink the successor's back link skips the removed element. -/
theorem unlink_previous (s : Links α) (n q : α) :
    (s.unlink n).previous q =
      if q = n then none else if s.next n = some q then s.previous n else s.previous q := by
  simp only [unlink, detach, Function.update_apply, setPrevious_previous, setNext_next_self,
    setNext_previous]

/-- After an unlink the predecessor's forward link skips the removed element. -/
theorem unlink_next (s : Links α) (n q : α) :
    (s.unlink n).next q =
      if q = n then none else if s.previous n = some q then s.next n else s.next q := by
  simp only [unlink, detach, Function.update_apply, setPrevious_next, setNext_next]

/-- Unlinking the oldest element makes its successor the oldest. -/
theorem unlink_oldest (s : Links α) (n : α) :
    (s.unlink n).oldest = if s.previous n = none then s.next n else s.oldest := by
  simp only [unlink, detach, setPrevious_oldest, setNext_oldest]

/-- Unlinking the newest element makes its predecessor the newest. -/
theorem unlink_newest (s : Links α) (n : α) :
    (s.unlink n).newest = if s.next n = none then s.previous n else s.newest := by
  simp only [unlink, detach, setPrevious_newest, setNext_next_self, setNext_previous,
    setNext_newest]

/-- The appended element points back to the former newest one. -/
theorem append_previous (s : Links α) (n q : α) :
    (s.append n).previous q = if q = n then s.newest else s.previous q := by
  simp only [append, setNext_previous, Function.update_apply]

/-- The former newest element points forward to the appended one. -/
theorem append_next (s : Links α) (n q : α) :
    (s.append n).next q =
      if s.newest = some q then some n else if q = n then none else s.next q := by
  simp only [append, setNext_next, Function.update_apply]

/-- Appending to an empty list makes the element the oldest as well. -/
theorem append_oldest (s : Links α) (n : α) :
    (s.append n).oldest = if s.newest = none then some n else s.oldest := by
  simp only [append, setNext_oldest]

@[simp] theorem append_newest (s : Links α) (n : α) : (s.append n).newest = some n := rfl

/-! ## The list operations -/

omit [DecidableEq α] in
/-- The links of an element name its neighbours in the list. -/
theorem IsList.links_at {s : Links α} {A B : List α} {p : α} (h : s.IsList (A ++ p :: B)) :
    s.previous p = A.getLast? ∧ s.next p = B.head? := h.links A p B rfl

omit [DecidableEq α] in
/-- A node is not at the head of what follows another node unless it is its
successor: the list has no duplicates. -/
theorem head?_ne_of_nodup {A X Y : List α} {p q : α} (hnd : (A ++ p :: (X ++ q :: Y)).Nodup)
    (hX : X ≠ []) : (X ++ q :: Y).head? ≠ some q := by
  cases X with
  | nil => exact absurd rfl hX
  | cons x X =>
    have h1 := (List.nodup_append.mp hnd).2.1
    have h2 := (List.nodup_cons.mp h1).2
    have hx : x ∉ X ++ q :: Y := (List.nodup_cons.mp h2).1
    intro heq
    have hxq : x = q := by simpa using heq
    exact hx (by simp [hxq])

omit [DecidableEq α] in
/-- With elements after it, an element is not the last of its list again. -/
theorem getLast?_ne_of_nodup {A B : List α} {q : α} {Y : List α}
    (hnd : ((A ++ q :: Y) ++ B).Nodup) (hY : Y ≠ []) : (A ++ q :: Y).getLast? ≠ some q := by
  intro heq
  have h1 := (List.nodup_append.mp (List.nodup_append.mp hnd).1).2.1
  have hq : q ∉ Y := (List.nodup_cons.mp h1).1
  obtain ⟨Z, y, rfl⟩ := List.eq_nil_or_concat Y |>.resolve_left hY
  have : y = q := by simpa [List.getLast?_cons] using heq
  exact hq (by simp [this])

/-- Unlinking a node removes it and links its two sides. -/
theorem IsList.unlink {s : Links α} {A B : List α} {p : α} (h : s.IsList (A ++ p :: B)) :
    (s.unlink p).IsList (A ++ B) := by
  obtain ⟨hprev, hnext⟩ := h.links_at
  have hnd : (A ++ B).Nodup := h.nodup.sublist (by simp)
  have hpA : p ∉ A := fun hp => by
    have := (List.nodup_append.mp h.nodup).2.2 p hp p (by simp)
    exact this rfl
  have hpB : p ∉ B := (List.nodup_cons.mp (List.nodup_append.mp h.nodup).2.1).1
  -- the ends of the list, then the links of each node
  refine ⟨hnd, ?_, ?_, ?_⟩
  · rw [unlink_oldest, hprev, hnext, h.oldest]
    cases A <;> simp
  · rw [unlink_newest, hprev, hnext, h.newest]
    rcases List.eq_nil_or_concat B with rfl | ⟨B, b, rfl⟩ <;> simp [List.getLast?_cons]
  · intro A' q B' hsplit
    have hqp : q ≠ p := by
      rintro rfl
      have : q ∈ A ++ B := by rw [hsplit]; simp
      rcases List.mem_append.mp this with hq | hq
      · exact hpA hq
      · exact hpB hq
    rw [unlink_previous, unlink_next, if_neg hqp, if_neg hqp, hprev, hnext]
    rcases List.append_eq_append_iff.mp hsplit with ⟨X, rfl, rfl⟩ | ⟨X, rfl, hX⟩
    · -- `q` stands after the removed node
      obtain ⟨hq1, hq2⟩ := h.links (A ++ p :: X) q B' (by simp)
      have hlast : ∀ a, A.getLast? = some a → a ≠ q := by
        rintro a ha rfl
        exact (List.nodup_append.mp hnd).2.2 a (List.mem_of_getLast? ha) a (by simp) rfl
      rw [if_neg (fun hA => hlast q hA rfl), hq1, hq2]
      refine ⟨?_, rfl⟩
      cases X with
      | nil => simp
      | cons x X =>
        rw [if_neg (head?_ne_of_nodup h.nodup (by simp))]
        simp [List.getLast?_append, List.getLast?_cons]
    · cases X with
      | nil =>
        obtain rfl : B = q :: B' := by simpa using hX.symm
        obtain ⟨hq1, hq2⟩ := h.links (A' ++ [p]) q B' (by simp)
        have hlast : A'.getLast? ≠ some q := by
          intro ha
          exact (List.nodup_append.mp hnd).2.2 q (by simpa using List.mem_of_getLast? ha) q
            (by simp) rfl
        simp [hlast, hq2]
      | cons x X =>
        -- `q` stands before the removed node
        obtain ⟨rfl, rfl⟩ : q = x ∧ B' = X ++ B := by simpa using hX
        obtain ⟨hq1, hq2⟩ := h.links A' q (X ++ p :: B) (by simp)
        have hhead : B.head? ≠ some q := by
          intro hb
          exact (List.nodup_append.mp hnd).2.2 q (by simp) q (List.mem_of_head? hb) rfl
        rw [if_neg hhead, hq1, hq2]
        refine ⟨rfl, ?_⟩
        rcases List.eq_nil_or_concat X with rfl | ⟨X', y, rfl⟩
        · simp
        · rw [if_neg (getLast?_ne_of_nodup hnd (by simp))]
          simp

/-- Appending an unlisted node adds it at the newest end. -/
theorem IsList.append {s : Links α} {P : List α} {n : α} (h : s.IsList P) (hn : n ∉ P) :
    (s.append n).IsList (P ++ [n]) := by
  refine ⟨?_, ?_, ?_, ?_⟩
  · exact List.nodup_append.mpr ⟨h.nodup, by simp, fun a ha b hb => by
      rintro rfl
      exact hn (by simpa using (List.mem_singleton.mp hb) ▸ ha)⟩
  · rw [append_oldest, h.newest, h.oldest]
    cases P <;> simp
  · simp
  · intro A p B hsplit
    rw [append_previous, append_next, h.newest]
    rcases List.append_eq_append_iff.mp hsplit with ⟨X, rfl, hX⟩ | ⟨X, rfl, hX⟩
    · -- the appended node itself
      cases X with
      | nil =>
        obtain ⟨rfl, rfl⟩ : n = p ∧ B = [] := by simpa using hX
        have hlast : P.getLast? ≠ some n := fun hl => hn (List.mem_of_getLast? hl)
        simp [hlast]
      | cons x X => simp at hX
    · cases X with
      | nil =>
        obtain ⟨rfl, rfl⟩ : p = n ∧ B = [] := by simpa using hX
        have hlast : A.getLast? ≠ some p := fun hl => hn (by simpa using List.mem_of_getLast? hl)
        simp [hlast]
      | cons x X =>
        obtain ⟨rfl, rfl⟩ : p = x ∧ B = X ++ [n] := by simpa using hX
        obtain ⟨hp1, hp2⟩ := h.links A p X rfl
        have hpn : p ≠ n := by rintro rfl; exact hn (by simp)
        rw [if_neg hpn, if_neg hpn, hp1, hp2]
        refine ⟨rfl, ?_⟩
        rcases List.eq_nil_or_concat X with rfl | ⟨X', y, rfl⟩
        · simp
        · have hnd : ((A ++ p :: (X'.concat y)) ++ []).Nodup := by simpa using h.nodup
          rw [if_neg (getLast?_ne_of_nodup hnd (by simp))]
          simp [List.head?_append]

/-- Touching a node moves it to the newest end. -/
theorem IsList.touch {s : Links α} {A B : List α} {p : α} (h : s.IsList (A ++ p :: B)) :
    (s.touch p).IsList (A ++ B ++ [p]) := by
  refine h.unlink.append fun hmem => ?_
  have hnd := h.nodup
  rw [List.nodup_append, List.nodup_cons] at hnd
  rcases List.mem_append.mp hmem with hA | hB
  · exact hnd.2.2 p hA p (by simp) rfl
  · exact hnd.2.1.1 hB

/-- Clearing the links of a node outside the list. -/
theorem IsList.detach {s : Links α} {P : List α} {n : α} (h : s.IsList P) (hn : n ∉ P) :
    (s.detach n).IsList P where
  nodup := h.nodup
  oldest := h.oldest
  newest := h.newest
  links := fun A p B hP => by
    have hpn : p ≠ n := by
      rintro rfl
      exact hn (hP ▸ by simp)
    show Function.update s.previous n none p = _ ∧ Function.update s.next n none p = _
    rw [Function.update_of_ne hpn, Function.update_of_ne hpn]
    exact h.links A p B hP

end Links

end Lib
