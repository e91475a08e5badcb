import TinyInfer.Lib.RowMajor
import Mathlib.Data.Set.Function

/-!
# Groups of the elements of an array

A mask selects some of the axes of an array. The elements that agree on the other axes form a
group: `join mask dims o r` is the rank of the `r`-th element of the `o`-th group.

- `bijOn_join`: every element is in one group, once.
- `join_trailing`: where the selected axes come last, a group is a block.
-/

namespace Lib.Axes

open RowMajor

variable {α : Type}

/-- The entries of a list where the mask is `b`. -/
def pick (b : Bool) : List Bool → List α → List α
  | m :: mask, x :: xs => if m = b then x :: pick b mask xs else pick b mask xs
  | _, _ => []

/-- The list with entries `rs` where the mask is set, and `ks` elsewhere. -/
def merge : List Bool → List α → List α → List α
  | true :: mask, ks, r :: rs => r :: merge mask ks rs
  | false :: mask, k :: ks, rs => k :: merge mask ks rs
  | _, _, _ => []

/-- Picking commutes with mapping. -/
theorem map_pick {β : Type} (f : α → β) (b : Bool) (mask : List Bool) (xs : List α) :
    (pick b mask xs).map f = pick b mask (xs.map f) := by
  induction mask generalizing xs with
  | nil => rfl
  | cons m mask ih => cases xs with
    | nil => rfl
    | cons x xs =>
      rw [List.map_cons, pick, pick, ← ih]
      split <;> rfl

/-- As many entries are picked as the mask has marks. -/
theorem length_pick (b : Bool) {mask : List Bool} {xs : List α}
    (hlength : mask.length = xs.length) :
    (pick b mask xs).length = mask.count b := by
  induction mask generalizing xs with
  | nil => rfl
  | cons m mask ih => cases xs with
    | nil => cases hlength
    | cons x xs =>
      have htail := ih (Nat.succ.inj hlength)
      rw [pick]
      by_cases hsame : m = b
      · rw [if_pos hsame, hsame, List.count_cons_self, List.length_cons, htail]
      · rw [if_neg hsame, List.count_cons_of_ne hsame, htail]

/-- A picked entry is one of the list. -/
theorem mem_of_mem_pick {b : Bool} {mask : List Bool} {xs : List α} {x : α}
    (h : x ∈ pick b mask xs) : x ∈ xs := by
  induction mask generalizing xs with
  | nil => exact absurd h List.not_mem_nil
  | cons m mask ih => cases xs with
    | nil => exact absurd h List.not_mem_nil
    | cons y xs =>
      rw [pick] at h
      split at h
      · rcases List.mem_cons.1 h with hsame | hmem
        · exact hsame ▸ List.mem_cons_self
        · exact List.mem_cons_of_mem _ (ih hmem)
      · exact List.mem_cons_of_mem _ (ih h)

/-- Picking from two parts is picking from each. -/
theorem pick_append (b : Bool) {mask mask' : List Bool} {xs xs' : List α}
    (hlength : mask.length = xs.length) :
    pick b (mask ++ mask') (xs ++ xs') = pick b mask xs ++ pick b mask' xs' := by
  induction mask generalizing xs with
  | nil =>
    obtain rfl := List.length_eq_zero_iff.1 hlength.symm
    rfl
  | cons m mask ih => cases xs with
    | nil => cases hlength
    | cons x xs =>
      rw [List.cons_append, List.cons_append, pick, pick, ih (Nat.succ.inj hlength)]
      split <;> rfl

theorem pick_replicate (b : Bool) (xs : List α) : pick b (List.replicate xs.length b) xs = xs := by
  induction xs with
  | nil => rfl
  | cons x xs ih => rw [List.length_cons, List.replicate_succ, pick, if_pos rfl, ih]

theorem pick_replicate_ne {b b' : Bool} (hne : b' ≠ b) (xs : List α) :
    pick b (List.replicate xs.length b') xs = [] := by
  induction xs with
  | nil => rfl
  | cons x xs ih => rw [List.length_cons, List.replicate_succ, pick, if_neg hne, ih]

/-- A list is put together from its two parts. -/
theorem merge_pick {mask : List Bool} {xs : List α} (hlength : mask.length = xs.length) :
    merge mask (pick false mask xs) (pick true mask xs) = xs := by
  induction mask generalizing xs with
  | nil => exact (List.length_eq_zero_iff.1 hlength.symm).symm
  | cons m mask ih => cases xs with
    | nil => cases hlength
    | cons x xs =>
      have htail := ih (Nat.succ.inj hlength)
      cases m with
      | true => exact congrArg (x :: ·) htail
      | false => exact congrArg (x :: ·) htail

/-- Two lists have the same entries where the mask is `b`. -/
theorem pick_eq_iff {b : Bool} {mask : List Bool} {xs ys : List α}
    (hlength : mask.length = xs.length) (hlength' : mask.length = ys.length) :
    pick b mask xs = pick b mask ys ↔ ∀ d : Nat, mask[d]? = some b → xs[d]? = ys[d]? := by
  induction mask generalizing xs ys with
  | nil => exact ⟨fun _ _ hnone => by simp at hnone, fun _ => rfl⟩
  | cons m mask ih => cases xs with
    | nil => cases hlength
    | cons x xs => cases ys with
      | nil => cases hlength'
      | cons y ys =>
        have htail := ih (Nat.succ.inj hlength) (Nat.succ.inj hlength')
        rw [pick, pick]
        by_cases hhere : m = b
        · rw [if_pos hhere, if_pos hhere, List.cons.injEq, htail]
          constructor
          · rintro ⟨hsame, hothers⟩ d hflag
            cases d with
            | zero => rw [List.getElem?_cons_zero, List.getElem?_cons_zero, hsame]
            | succ d => exact hothers d hflag
          · intro hall
            exact ⟨Option.some.inj (hall 0 (congrArg some hhere)), fun d hflag =>
              hall (d + 1) hflag⟩
        · rw [if_neg hhere, if_neg hhere, htail]
          constructor
          · intro hothers d hflag
            cases d with
            | zero => exact absurd (Option.some.inj hflag) hhere
            | succ d => exact hothers d hflag
          · exact fun hall d hflag => hall (d + 1) hflag

/-! ## Arrays -/

variable {mask : List Bool} {dims strides coords : List Nat}

/-- An offset is the sum of those along the two kinds of axes. -/
theorem dot_pick (hlength : mask.length = strides.length) (hlength' : mask.length = coords.length) :
    dot (pick false mask strides) (pick false mask coords) +
      dot (pick true mask strides) (pick true mask coords) = dot strides coords := by
  induction mask generalizing strides coords with
  | nil =>
    obtain rfl := List.length_eq_zero_iff.1 hlength.symm
    rfl
  | cons m mask ih => cases strides with
    | nil => cases hlength
    | cons s strides => cases coords with
      | nil => cases hlength'
      | cons c coords =>
        have htail := ih (Nat.succ.inj hlength) (Nat.succ.inj hlength')
        rw [dot, ← htail]
        cases m with
        | true => exact Nat.add_left_comm _ _ _
        | false => exact Nat.add_assoc _ _ _

/-- Coordinates inside a shape stay inside when both keep the same axes. -/
theorem inside_pick (b : Bool) (mask : List Bool) (h : Inside dims coords) :
    Inside (pick b mask dims) (pick b mask coords) := by
  induction mask generalizing dims coords with
  | nil => trivial
  | cons m mask ih => cases dims with
    | nil => cases coords with
      | nil => trivial
      | cons => exact h.elim
    | cons d dims => cases coords with
      | nil => exact h.elim
      | cons c coords =>
        rw [pick, pick]
        split
        · exact ⟨h.1, ih h.2⟩
        · exact ih h.2

/-- Coordinates of the two kinds make coordinates, with these as its parts. -/
theorem pick_merge {ks rs : List Nat} (hlength : mask.length = dims.length)
    (hkept : Inside (pick false mask dims) ks) (hreduced : Inside (pick true mask dims) rs) :
    Inside dims (merge mask ks rs) ∧ pick false mask (merge mask ks rs) = ks ∧
      pick true mask (merge mask ks rs) = rs := by
  induction mask generalizing dims ks rs with
  | nil =>
    obtain rfl := List.length_eq_zero_iff.1 hlength.symm
    cases ks with
    | nil => cases rs with
      | nil => exact ⟨trivial, rfl, rfl⟩
      | cons => exact hreduced.elim
    | cons => exact hkept.elim
  | cons m mask ih => cases dims with
    | nil => cases hlength
    | cons d dims =>
      have htail {ks rs : List Nat} := @ih dims ks rs (Nat.succ.inj hlength)
      cases m with
      | true => cases rs with
        | nil => exact hreduced.elim
        | cons r rs =>
          obtain ⟨hinside, hleft, hright⟩ := htail hkept hreduced.2
          exact ⟨⟨hreduced.1, hinside⟩, hleft, congrArg (r :: ·) hright⟩
      | false => cases ks with
        | nil => exact hkept.elim
        | cons k ks =>
          obtain ⟨hinside, hleft, hright⟩ := htail hkept.2 hreduced
          exact ⟨⟨hkept.1, hinside⟩, congrArg (k :: ·) hleft, hright⟩

/-! ## The elements of a group -/

/-- The coordinates of an element of a group. -/
def joinCoords (mask : List Bool) (dims : List Nat) (o r : Nat) : List Nat :=
  merge mask (coordinates (pick false mask dims) o) (coordinates (pick true mask dims) r)

/-- The rank of an element of a group. -/
def join (mask : List Bool) (dims : List Nat) (o r : Nat) : Nat :=
  rank dims (joinCoords mask dims o r)

variable (hlength : mask.length = dims.length) {o r : Nat} (ho : o < (pick false mask dims).prod)
  (hr : r < (pick true mask dims).prod)

include hlength ho hr

/-- Joined coordinates lie inside and split back into the outer and the reduced ones. -/
theorem pick_joinCoords : Inside dims (joinCoords mask dims o r) ∧
    pick false mask (joinCoords mask dims o r) = coordinates (pick false mask dims) o ∧
    pick true mask (joinCoords mask dims o r) = coordinates (pick true mask dims) r :=
  pick_merge hlength (inside_coordinates ho) (inside_coordinates hr)

theorem join_lt : join mask dims o r < dims.prod := rank_lt (pick_joinCoords hlength ho hr).1

theorem coordinates_join : coordinates dims (join mask dims o r) = joinCoords mask dims o r :=
  coordinates_rank (pick_joinCoords hlength ho hr).1

/-- The number of the group of an element, from its coordinates. -/
theorem rank_join : rank (pick false mask dims)
    (pick false mask (coordinates dims (join mask dims o r))) = o := by
  rw [coordinates_join hlength ho hr, (pick_joinCoords hlength ho hr).2.1, rank_coordinates ho]

/-- The offset of an element, along the two kinds of axes. -/
theorem dot_join (hwidth : mask.length = strides.length) :
    dot strides (coordinates dims (join mask dims o r)) =
      dot (pick false mask strides) (coordinates (pick false mask dims) o) +
        dot (pick true mask strides) (coordinates (pick true mask dims) r) := by
  obtain ⟨hinside, hkept, hreduced⟩ := pick_joinCoords hlength ho hr
  rw [coordinates_join hlength ho hr, ← dot_pick hwidth (by rw [hinside.length_eq, hlength]),
    hkept, hreduced]

omit ho hr

/-- **Every element is in one group, once.** -/
theorem bijOn_join : Set.BijOn (fun p : Nat × Nat => join mask dims p.1 p.2)
    {p | p.1 < (pick false mask dims).prod ∧ p.2 < (pick true mask dims).prod}
    {i | i < dims.prod} := by
  refine ⟨fun p hmem => join_lt hlength hmem.1 hmem.2, fun p hmem q hmem' hsame => ?_,
    fun i hinside => ?_⟩
  · have hcoords : joinCoords mask dims p.1 p.2 = joinCoords mask dims q.1 q.2 := by
      rw [← coordinates_join hlength hmem.1 hmem.2, ← coordinates_join hlength hmem'.1 hmem'.2]
      exact congrArg _ hsame
    obtain ⟨-, hkept, hreduced⟩ := pick_joinCoords hlength hmem.1 hmem.2
    obtain ⟨-, hkept', hreduced'⟩ := pick_joinCoords hlength hmem'.1 hmem'.2
    rw [hcoords] at hkept hreduced
    refine Prod.ext ?_ ?_
    · rw [← rank_coordinates hmem.1, ← hkept, hkept', rank_coordinates hmem'.1]
    · rw [← rank_coordinates hmem.2, ← hreduced, hreduced', rank_coordinates hmem'.2]
  · have hcoords := inside_coordinates (show i < dims.prod from hinside)
    have hkept := inside_pick false mask hcoords
    have hreduced := inside_pick true mask hcoords
    refine ⟨(rank _ (pick false mask (coordinates dims i)),
      rank _ (pick true mask (coordinates dims i))), ⟨rank_lt hkept, rank_lt hreduced⟩, ?_⟩
    show rank dims (merge mask (coordinates _ (rank _ _)) (coordinates _ (rank _ _))) = i
    rw [coordinates_rank hkept, coordinates_rank hreduced,
      merge_pick (by rw [hcoords.length_eq, hlength]), rank_coordinates hinside]

/-! ## Axes in a row -/

omit hlength

theorem merge_outer (ks : List α) (mask : List Bool) (ks' rs : List α) :
    merge (List.replicate ks.length false ++ mask) (ks ++ ks') rs = ks ++ merge mask ks' rs := by
  induction ks with
  | nil => rfl
  | cons k ks ih => exact congrArg (k :: ·) ih

theorem merge_replicate_false (ks : List α) :
    merge (List.replicate ks.length false) ks [] = ks := by
  simpa [merge] using merge_outer ks [] [] []

theorem merge_replicate_true (rs : List α) : merge (List.replicate rs.length true) [] rs = rs := by
  induction rs with
  | nil => rfl
  | cons r rs ih => exact congrArg (r :: ·) ih

theorem pick_outer (b : Bool) (ds es : List α) (mask : List Bool) :
    pick b (List.replicate ds.length b ++ mask) (ds ++ es) = ds ++ pick b mask es := by
  rw [pick_append b (List.length_replicate ..), pick_replicate]

/-- Leading axes of the other kind are all left out. -/
theorem pick_outer_ne {b b' : Bool} (hne : b' ≠ b) (ds es : List α) (mask : List Bool) :
    pick b (List.replicate ds.length b' ++ mask) (ds ++ es) = pick b mask es := by
  rw [pick_append b (List.length_replicate ..), pick_replicate_ne hne, List.nil_append]

/-- **The groups along the innermost axes are blocks.** -/
theorem join_trailing {ds es : List Nat} (ho : o < ds.prod) (hr : r < es.prod) :
    join (List.replicate ds.length false ++ List.replicate es.length true) (ds ++ es) o r =
      o * es.prod + r := by
  have hcoords :=
    merge_outer (coordinates ds o) (List.replicate es.length true) [] (coordinates es r)
  have hinner := merge_replicate_true (coordinates es r)
  rw [length_coordinates] at hcoords hinner
  rw [List.append_nil, hinner] at hcoords
  rw [join, joinCoords, pick_outer, pick_replicate_ne (by decide), List.append_nil,
    pick_outer_ne (by decide), pick_replicate, hcoords, rank_append _ _ (length_coordinates ..),
    rank_coordinates ho, rank_coordinates hr]

/-- **The groups along one axis** have as members the elements at a fixed distance. -/
theorem join_axis {ds es : List Nat} {n : Nat} (ho : o < ds.prod * es.prod) (hr : r < n) :
    join (List.replicate ds.length false ++ true :: List.replicate es.length false)
      (ds ++ n :: es) o r =
      o / es.prod * (n * es.prod) + o % es.prod + r * es.prod := by
  have hcoords :=
    merge_outer (coordinates ds (o / es.prod)) (true :: List.replicate es.length false)
    (coordinates es o) [r % n]
  have hinner := merge_replicate_false (coordinates es o)
  rw [length_coordinates] at hcoords hinner
  have hless : o / es.prod < ds.prod := Nat.div_lt_of_lt_mul (by rwa [Nat.mul_comm])
  have hsingle : coordinates [n] r = [r % n] := by
    rw [coordinates, coordinates, List.prod_nil, Nat.div_one]
  rw [join, joinCoords, pick_outer, pick, if_neg (by decide), pick_replicate,
    pick_outer_ne (by decide), pick, if_pos rfl, pick_replicate_ne (by decide), coordinates_append,
    hsingle, hcoords, merge, hinner, rank_append _ _ (length_coordinates ..),
    rank_coordinates hless, rank, rank_coordinates_mod, Nat.mod_eq_of_lt hr, List.prod_cons]
  omega

/-! ## Groups as an array of the same rank -/

/-- The list with `z` where the mask is set. -/
def keep (z : α) : List Bool → List α → List α
  | m :: mask, x :: xs => (if m then z else x) :: keep z mask xs
  | _, _ => []

/-- A reduction with kept axes has as many outputs as one without them. -/
theorem prod_keep {mask : List Bool} {dims : List Nat} (hlength : mask.length = dims.length) :
    (keep 1 mask dims).prod = (pick false mask dims).prod := by
  induction mask generalizing dims with
  | nil => rfl
  | cons m mask ih => cases dims with
    | nil => cases hlength
    | cons d dims =>
      have htail := ih (Nat.succ.inj hlength)
      cases m with
      | true =>
        show (1 :: keep 1 mask dims).prod = (pick false mask dims).prod
        rw [List.prod_cons, htail, Nat.one_mul]
      | false =>
        show (d :: keep 1 mask dims).prod = (d :: pick false mask dims).prod
        rw [List.prod_cons, List.prod_cons, htail]

/-- Axes of extent one do not change the number of a group. -/
theorem rank_keep {mask : List Bool} {dims coords : List Nat} (hlength : mask.length = dims.length)
    (hlength' : mask.length = coords.length) :
    rank (keep 1 mask dims) (keep 0 mask coords) = rank (pick false mask dims)
      (pick false mask coords) := by
  induction mask generalizing dims coords with
  | nil => rfl
  | cons m mask ih => cases dims with
    | nil => cases hlength
    | cons d dims => cases coords with
      | nil => cases hlength'
      | cons c coords =>
        have htail := ih (Nat.succ.inj hlength) (Nat.succ.inj hlength')
        cases m with
        | true =>
          show 0 * _ + rank (keep 1 mask dims) (keep 0 mask coords) = _
          rw [Nat.zero_mul, Nat.zero_add, htail]
          rfl
        | false =>
          show c * (keep 1 mask dims).prod + rank (keep 1 mask dims) (keep 0 mask coords) = _
          rw [prod_keep (Nat.succ.inj hlength), htail]
          rfl

end Lib.Axes
