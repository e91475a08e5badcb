import TinyInfer.Core.TensorIterator

/-!
# The offsets of a `TensorIterator`

`operandOffset` works on dimensions that have been removed and merged; it computes the
offset that the strides of the operand give to the coordinates of the index in the
broadcast shape (`naiveOffset`), and nothing in it wraps (`operandOffset_exact`).

Main definitions:
* `naiveOffset`: the offset of an element, from the coordinates.
* `offsetOf`: the same along a list of dimensions of the iterator.
* `OffsetFits`, `StrideFits`: the arithmetic of a loop stays inside `size_t`.
-/

namespace TinyInfer.TensorIterator

open Lib.RowMajor

/-- The offset of an element of a broadcast operand: its stride times the coordinate in
each dimension it has, where an extent of one is broadcast. -/
def naiveOffset (layout : TensorLayout) (shape : Shape) (index : Nat) : Nat :=
  dot (TensorLayout.strideNats layout.strides)
    (List.zipWith (fun extent c => if extent = 1 then 0 else c) layout.dims
      ((coordinates (Shape.dims shape) index).drop (shape.length - layout.rank)))

/-- The products and sums of `offsetLoop` are values of `size_t`. -/
def OffsetFits : List (Nat × Nat) → Nat → Prop
  | [], _ => True
  | (extent, stride) :: inner, index =>
    OffsetFits inner index ∧
      (offsetLoop inner index).2 % extent * stride ≤ sizeMax ∧
      (offsetLoop inner index).1 + (offsetLoop inner index).2 % extent * stride ≤ sizeMax

/-- The products of `contiguousFrom` are values of `size_t`. -/
def StrideFits : List (Int × Int) → Prop
  | [] => True
  | (extent, _) :: inner =>
    StrideFits inner ∧
      ((contiguousFrom inner).1 → 1 < extent.toNat →
        (contiguousFrom inner).2 * extent.toNat ≤ sizeMax)

/-! ## Offsets along dimensions -/

/-- The offset of operand `p` along the dimensions of an iterator. -/
def offsetOf (p : Nat) (dims : List IterDim) (index : Nat) : Nat :=
  dot (dims.map (·.strides.getD p 0)) (coordinates (dims.map (·.extent)) index)

def count (dims : List IterDim) : Nat := (dims.map (·.extent)).prod

/-- The loop of `operand_offset` is exact where the offset fits. -/
theorem offsetLoop_eq (p : Nat) (dims : List IterDim) (index : Nat)
    (hfits : offsetOf p dims index ≤ sizeMax) :
    offsetLoop (dims.map fun d => (d.extent, d.strides.getD p 0)) index =
        (offsetOf p dims index, index / count dims) ∧
      OffsetFits (dims.map fun d => (d.extent, d.strides.getD p 0)) index := by
  induction dims with
  | nil => simp [offsetLoop, offsetOf, count, coordinates, dot, OffsetFits]
  | cons d dims ih =>
    have hcons : offsetOf p (d :: dims) index =
        index / count dims % d.extent * d.strides.getD p 0 + offsetOf p dims index := rfl
    have hcounts : count (d :: dims) = d.extent * count dims := List.prod_cons
    rw [hcons] at hfits ⊢
    obtain ⟨hloop, hinner⟩ := ih (by omega)
    rw [List.map_cons, offsetLoop, OffsetFits, hloop]
    refine ⟨?_, hinner, by dsimp only; omega, by dsimp only; omega⟩
    simp only
    rw [Nat.mod_eq_of_lt (by unfold sizeMax at hfits; omega), Nat.add_comm, hcounts,
      Nat.div_div_eq_div_mul, Nat.mul_comm d.extent]

/-- Dimensions of extent one are removed. -/
theorem offsetOf_filter (p : Nat) (dims : List IterDim) (index : Nat) :
    offsetOf p (dims.filter (·.extent ≠ 1)) index = offsetOf p dims index ∧
      count (dims.filter (·.extent ≠ 1)) = count dims := by
  induction dims with
  | nil => exact ⟨rfl, rfl⟩
  | cons d dims ih =>
    obtain ⟨hoffsets, hcounts⟩ := ih
    rw [List.filter_cons]
    by_cases hone : d.extent = 1
    · rw [if_neg (by simpa using hone)]
      refine ⟨?_, ?_⟩
      · rw [hoffsets]
        unfold offsetOf
        rw [List.map_cons, List.map_cons, hone, dot_coordinates_one]
      · rw [hcounts]
        unfold count
        rw [List.map_cons, List.prod_cons, hone, Nat.one_mul]
    · rw [if_pos (by simpa using hone)]
      refine ⟨?_, ?_⟩
      · show _ / count (dims.filter _) % _ * _ + offsetOf p (dims.filter _) index = _
        rw [hoffsets, hcounts]
        rfl
      · show (_ :: _).prod = (_ :: _).prod
        rw [List.prod_cons, List.prod_cons]
        exact congrArg _ hcounts

/-- What `mergeable` promises. -/
theorem mergeable_iff {outer inner : IterDim} (hwidth : outer.strides.length = inner.strides.length)
    (h : mergeable outer inner = true) :
    (∀ p, outer.strides.getD p 0 = inner.strides.getD p 0 * inner.extent) ∧
      outer.extent * inner.extent ≤ int64Max := by
  unfold mergeable at h
  rw [Bool.and_eq_true, List.all_eq_true] at h
  obtain ⟨hstrides, hextents⟩ := h
  constructor
  · intro p
    by_cases hinside : p < outer.strides.length
    · have hinside' : p < inner.strides.length := hwidth ▸ hinside
      have hmem : (outer.strides[p], inner.strides[p]) ∈ outer.strides.zip inner.strides :=
        List.mem_of_getElem? (List.getElem?_zip_eq_some.2
          ⟨List.getElem?_eq_getElem hinside, List.getElem?_eq_getElem hinside'⟩)
      have := hstrides _ hmem
      rw [Bool.and_eq_true, Bool.not_eq_true', decide_eq_false_iff_not, beq_iff_eq] at this
      obtain ⟨hguard, hsame⟩ := this
      have hfits : inner.strides[p] * inner.extent ≤ sizeMax := by
        rcases Nat.eq_zero_or_pos inner.strides[p] with hzero | hpos
        · rw [hzero, Nat.zero_mul]
          exact Nat.zero_le _
        · have hsmall : inner.extent ≤ sizeMax / inner.strides[p] :=
            Nat.not_lt.1 fun hlt => hguard ⟨by omega, hlt⟩
          rw [Nat.mul_comm]
          exact (Nat.le_div_iff_mul_le hpos).1 hsmall
      rw [List.getD_eq_getElem?_getD, List.getD_eq_getElem?_getD, List.getElem?_eq_getElem hinside,
        List.getElem?_eq_getElem hinside', Option.getD_some, Option.getD_some, hsame,
        Nat.mod_eq_of_lt (by unfold sizeMax at hfits; omega)]
    · rw [List.getD_eq_getElem?_getD, List.getD_eq_getElem?_getD,
        List.getElem?_eq_none (Nat.not_lt.1 hinside),
        List.getElem?_eq_none (hwidth ▸ Nat.not_lt.1 hinside), Option.getD_none, Nat.zero_mul]
  · rw [Bool.not_eq_true', decide_eq_false_iff_not] at hextents
    rcases Nat.eq_zero_or_pos inner.extent with hzero | hpos
    · rw [hzero, Nat.mul_zero]
      exact Nat.zero_le _
    · have hsmall : outer.extent ≤ int64Max / inner.extent :=
        Nat.not_lt.1 fun hlt => hextents ⟨by omega, hlt⟩
      exact (Nat.le_div_iff_mul_le hpos).1 hsmall

/-- All dimensions have a stride for each operand. -/
def Wide (operands : Nat) (dims : List IterDim) : Prop := ∀ d ∈ dims, d.strides.length = operands

/-- One merge changes no offset. -/
theorem mergeInnermost_some {operands : Nat} {dims merged : List IterDim}
    (hwide : Wide operands dims) (h : mergeInnermost dims = some merged) :
    (∀ p index, offsetOf p merged index = offsetOf p dims index) ∧ count merged = count dims ∧
      Wide operands merged ∧ merged.length + 1 = dims.length := by
  induction dims generalizing merged with
  | nil => cases h
  | cons outer rest ih =>
    obtain ⟨hhead, htail⟩ := List.forall_mem_cons.1 hwide
    unfold mergeInnermost at h
    split at h
    · rename_i merged' hinner
      cases h
      obtain ⟨hoffsets, hcounts, hwide', hlength⟩ := ih htail hinner
      refine ⟨fun p index => ?_, ?_, List.forall_mem_cons.2 ⟨hhead, hwide'⟩, by simpa using hlength⟩
      · show _ / count _ % _ * _ + offsetOf p merged' index = _
        rw [hoffsets, hcounts]
        rfl
      · show (_ :: _).prod = (_ :: _).prod
        rw [List.prod_cons, List.prod_cons]
        exact congrArg _ hcounts
    · split at h
      · rename_i inner dims hnone
        split at h
        · rename_i hmergeable
          cases h
          obtain ⟨headInner, htailInner⟩ := List.forall_mem_cons.1 htail
          obtain ⟨hstrides, hfits⟩ := mergeable_iff (hhead.trans headInner.symm) hmergeable
          have hsmall : outer.extent * inner.extent % 2 ^ 64 = outer.extent * inner.extent :=
            Nat.mod_eq_of_lt (by unfold int64Max at hfits; omega)
          refine ⟨fun p index => ?_, ?_, List.forall_mem_cons.2 ⟨headInner, htailInner⟩, rfl⟩
          · unfold offsetOf
            simp only [List.map_cons, hsmall]
            rw [dot_coordinates_merge, hstrides p]
          · unfold count
            simp only [List.map_cons, List.prod_cons, hsmall, Nat.mul_assoc]
        · cases h
      · cases h

/-- Merging dimensions changes no offset and no count. -/
theorem mergeDimensions_eq {operands : Nat} {dims : List IterDim} (hwide : Wide operands dims)
    (fuel : Nat) :
    (∀ p index, offsetOf p (mergeDimensions fuel dims) index = offsetOf p dims index) ∧
      count (mergeDimensions fuel dims) = count dims := by
  induction fuel generalizing dims with
  | zero => exact ⟨fun _ _ => rfl, rfl⟩
  | succ fuel ih =>
    rw [mergeDimensions]
    split
    · exact ⟨fun _ _ => rfl, rfl⟩
    · rename_i merged h
      obtain ⟨hoffsets, hcounts, hwide', -⟩ := mergeInnermost_some hwide h
      obtain ⟨hoffsets', hcounts'⟩ := ih hwide'
      exact ⟨fun p index => (hoffsets' p index).trans (hoffsets p index), hcounts'.trans hcounts⟩

/-- The loop of `coalesce_dimensions` comes to an end: nothing is left to merge. -/
theorem mergeInnermost_mergeDimensions {operands fuel : Nat} {dims : List IterDim}
    (hwide : Wide operands dims) (henough : dims.length ≤ fuel) :
    mergeInnermost (mergeDimensions fuel dims) = none := by
  induction fuel generalizing dims with
  | zero =>
    rw [List.length_eq_zero_iff.1 (Nat.le_zero.1 henough)]
    rfl
  | succ fuel ih =>
    rw [mergeDimensions]
    split
    · assumption
    · rename_i merged h
      obtain ⟨-, -, hwide', hlength⟩ := mergeInnermost_some hwide h
      exact ih hwide' (by omega)

/-- Coalescing changes no offset, and leaves no pair of dimensions that could still merge. -/
theorem coalesceDimensions_eq {operands : Nat} {dims : List IterDim} (hwide : Wide operands dims) :
    (∀ p index, offsetOf p (coalesceDimensions operands dims) index = offsetOf p dims index) ∧
      mergeInnermost (coalesceDimensions operands dims) = none := by
  have hkept : Wide operands (dims.filter (·.extent ≠ 1)) :=
    fun d hmem => hwide d (List.mem_filter.1 hmem).1
  have hfiltered (p index : Nat) := (offsetOf_filter p dims index).1
  unfold coalesceDimensions
  dsimp only
  split
  · rename_i hempty
    refine ⟨fun p index => ?_, rfl⟩
    rw [← hfiltered, List.isEmpty_iff.1 hempty]
    simp [offsetOf, coordinates, dot, Nat.mod_one]
  · exact ⟨fun p index => ((mergeDimensions_eq hkept _).1 p index).trans (hfiltered p index),
      mergeInnermost_mergeDimensions hkept (Nat.le_refl _)⟩

/-! ## Broadcasting -/

theorem length_broadcastTail {result operand shape : Shape}
    (h : broadcastTail result operand = .ok shape) :
    shape.length = result.length := by
  induction result generalizing operand shape with
  | nil =>
    simp only [broadcastTail, Except.ok.injEq] at h
    rw [← h]
  | cons r result ih => cases operand with
    | nil =>
      simp only [broadcastTail, Except.ok.injEq] at h
      rw [← h]
    | cons o operand =>
      rw [broadcastTail] at h
      obtain ⟨extent, -, h⟩ := bind_ok.1 h
      obtain ⟨rest, htail, h⟩ := bind_ok.1 h
      cases h
      rw [List.length_cons, List.length_cons, ih htail]

theorem length_broadcastInto {result operand shape : Shape}
    (h : broadcastInto result operand = .ok shape) :
    shape.length = result.length := by
  unfold broadcastInto at h
  obtain ⟨tail, heq, h⟩ := bind_ok.1 h
  cases h
  rw [List.length_append, length_broadcastTail heq, List.length_take, List.length_drop]
  omega

/-- The broadcast shape has a dimension for each dimension of an operand. -/
theorem rank_le_broadcastShape {operands : List TensorLayout} {shape : Shape}
    (h : broadcastShape operands = .ok shape) {layout : TensorLayout} (hmem : layout ∈ operands) :
    layout.rank ≤ shape.length := by
  unfold broadcastShape at h
  have hkept {shapes : List Shape} {start last : Shape}
    (h : shapes.foldlM broadcastInto start = .ok last) :
      last.length = start.length := by
    induction shapes generalizing start with
    | nil => cases h; rfl
    | cons s shapes ih =>
      rw [List.foldlM_cons] at h
      obtain ⟨next, hstep, h⟩ := bind_ok.1 h
      rw [ih h, length_broadcastInto hstep]
  rw [hkept h, List.length_replicate]
  have hgrows (ranks : List Nat) (start : Nat) : start ≤ ranks.foldl max start ∧
      ∀ r ∈ ranks, r ≤ ranks.foldl max start := by
    induction ranks generalizing start with
    | nil => exact ⟨Nat.le_refl _, fun _ hmem => absurd hmem List.not_mem_nil⟩
    | cons r ranks ih =>
      obtain ⟨habove, heach⟩ := ih (max start r)
      rw [List.foldl_cons]
      refine ⟨by omega, List.forall_mem_cons.2 ⟨by omega, heach⟩⟩
  exact (hgrows _ 0).2 _ (List.mem_map_of_mem hmem)

/-- The strides of an operand along the dimensions it has. -/
theorem broadcastStridesTail_eq {operand : Shape} {strides result : Strides} {output : Shape}
    (hwidth : strides.length = operand.length) (hrank : operand.length = output.length)
    (h : broadcastStridesTail (operand.zip strides) output = .ok result) (coords : List Nat)
    (hinside : Inside (Shape.dims output) coords) (hnonneg : ∀ d ∈ operand, 0 ≤ d)
    (hnonneg' : ∀ d ∈ output, 0 ≤ d) :
    dot (result.map Int.toNat) coords =
        dot (TensorLayout.strideNats strides)
          (List.zipWith (fun extent c => if extent = 1 then 0 else c) (Shape.dims operand) coords) ∧
      Inside (Shape.dims operand)
        (List.zipWith (fun extent c => if extent = 1 then 0 else c) (Shape.dims operand) coords) ∧
      result.length = output.length := by
  induction operand generalizing strides output result coords with
  | nil =>
    -- both shapes are empty
    cases output with
    | nil =>
      cases coords with
      | nil =>
        simp only [List.zip_nil_left, broadcastStridesTail, Except.ok.injEq] at h
        subst h
        cases strides <;> exact ⟨rfl, trivial, rfl⟩
      | cons => exact hinside.elim
    | cons => cases hrank
  -- the first axis, then the others by induction
  | cons o operand ih =>
    cases output with
    | nil => cases hrank
    | cons e output => cases strides with
      | nil => cases hwidth
      | cons s strides => cases coords with
        | nil => exact hinside.elim
        | cons c coords =>
          rw [List.zip_cons_cons, broadcastStridesTail] at h
          obtain ⟨head, hfirst, h⟩ := bind_ok.1 h
          obtain ⟨rest, htail, h⟩ := bind_ok.1 h
          cases h
          obtain ⟨hdots, hinner, hlength⟩ :=
            ih (by simpa using hwidth) (by simpa using hrank) htail coords
            hinside.2 (List.forall_mem_cons.1 hnonneg).2 (List.forall_mem_cons.1 hnonneg').2
          have ho := hnonneg o List.mem_cons_self
          have he := hnonneg' e List.mem_cons_self
          have hlt : c < e.toNat := hinside.1
          -- Equal extents, or an extent of one with stride zero.
          unfold broadcastStride at hfirst
          have hstep : c * head.toNat = (if o.toNat = 1 then 0 else c) * s.toNat ∧
              (if o.toNat = 1 then 0 else c) < o.toNat := by
            split at hfirst
            · rename_i hsame
              cases hfirst
              rw [hsame]
              by_cases hone : e.toNat = 1
              · have hzero : c = 0 := by omega
                rw [if_pos hone, hzero, hone]
                exact ⟨rfl, Nat.one_pos⟩
              · rw [if_neg hone]
                exact ⟨rfl, hlt⟩
            · split at hfirst
              · cases hfirst
              · rename_i hone
                cases hfirst
                have hone : o = 1 := by omega
                rw [hone, if_pos (by decide)]
                exact ⟨by simp, by decide⟩
          refine ⟨?_, ⟨hstep.2, hinner⟩, by simp [hlength]⟩
          show c * head.toNat + dot _ coords = _ * s.toNat + dot _ _
          rw [hdots, hstep.1]
          rfl

/-- The broadcast strides of an operand give its naive offset. -/
theorem dot_broadcastStrides {layout : TensorLayout} {shape : Shape} {strides : Strides}
    (hrank : layout.rank ≤ shape.length) (hnonneg : ∀ d ∈ shape, 0 ≤ d)
    (h : broadcastStrides layout shape = .ok strides) {index : Nat}
    (hinside : index < Shape.count shape) :
    dot (strides.map Int.toNat) (coordinates (Shape.dims shape) index) =
      naiveOffset layout shape index ∧
      naiveOffset layout shape index < layout.storageSpan ∧ strides.length = shape.length := by
  unfold broadcastStrides at h
  obtain ⟨tail, heq, h⟩ := bind_ok.1 h
  cases h
  have hcoords : Inside (Shape.dims (shape.drop (shape.length - layout.rank)))
      ((coordinates (Shape.dims shape) index).drop (shape.length - layout.rank)) := by
    rw [Shape.dims, List.map_drop]
    exact (inside_coordinates hinside).drop _
  obtain ⟨hdots, hwithin, hlength⟩ := broadcastStridesTail_eq layout.rank_eq
    (by rw [List.length_drop]; show layout.rank = _; omega) heq _ hcoords layout.admits.nonneg
    fun d hmem => hnonneg d (List.mem_of_mem_drop hmem)
  refine ⟨?_, dot_lt_span hwithin, ?_⟩
  · rw [List.map_append, List.map_replicate, show Int.toNat 0 = 0 from rfl,
      dot_replicate_zero, hdots]
    rfl
  · rw [List.length_append, List.length_replicate, hlength, List.length_drop]
    omega

/-! ## Contiguous operands -/

/-- Strides that pass `contiguousFrom` give every element the offset of its rank. -/
theorem contiguousFrom_eq {pairs : List (Int × Int)} (hpos : ∀ p ∈ pairs, 0 < p.1)
    (hsmall : (pairs.map fun p => p.1.toNat).prod ≤ sizeMax) :
    StrideFits pairs ∧ ((contiguousFrom pairs).1 = true →
      (contiguousFrom pairs).2 = (pairs.map fun p => p.1.toNat).prod ∧
      ∀ coords, Inside (pairs.map fun p => p.1.toNat) coords →
        dot (pairs.map fun p => p.2.toNat) coords = rank
          (pairs.map fun p => p.1.toNat) coords) := by
  induction pairs with
  | nil => exact ⟨trivial, fun _ => ⟨rfl, fun coords _ => by cases coords <;> rfl⟩⟩
  | cons p pairs ih =>
    obtain ⟨extent, stride⟩ := p
    obtain ⟨hhead, htail⟩ := List.forall_mem_cons.1 hpos
    rw [List.map_cons, List.prod_cons] at hsmall
    have hpositive : 0 < extent.toNat := by
      have : 0 < extent := hhead
      omega
    obtain ⟨hfits, hexact⟩ := ih htail (Nat.le_trans (Nat.le_mul_of_pos_left _ hpositive) hsmall)
    refine ⟨⟨hfits, fun hcontiguous _ => ?_⟩, fun hcontiguous => ?_⟩
    · rw [(hexact hcontiguous).1, Nat.mul_comm]
      exact hsmall
    · rw [contiguousFrom] at hcontiguous ⊢
      simp only at hcontiguous ⊢
      split at hcontiguous
      · rename_i hstop
        obtain ⟨hprod, hdots⟩ := hexact hcontiguous
        have hone : extent.toNat = 1 := by
          rw [hcontiguous, Bool.not_true, Bool.false_or, decide_eq_true_eq] at hstop
          omega
        rw [if_pos hstop, List.map_cons, List.prod_cons, hone, Nat.one_mul]
        refine ⟨hprod, fun coords hinside => ?_⟩
        cases coords with
        | nil => exact hinside.elim
        | cons c coords =>
          rw [List.map_cons, dot, rank, Nat.lt_one_iff.1 hinside.1, Nat.zero_mul, Nat.zero_mul,
            hdots coords hinside.2]
      · rename_i hgo
        rw [Bool.or_eq_true, not_or, Bool.not_eq_true', Bool.not_eq_false] at hgo
        obtain ⟨hprod, hdots⟩ := hexact hgo.1
        have hsmall : extent.toNat * (pairs.map fun p => p.1.toNat).prod ≤ sizeMax := hsmall
        rw [if_neg (by rw [hgo.1]; simpa using hgo.2), List.map_cons, List.prod_cons, hprod]
        have hsame : stride.toNat = (pairs.map fun p => p.1.toNat).prod := by
          rw [← hprod]
          exact beq_iff_eq.1 hcontiguous
        refine ⟨?_, fun coords hinside => ?_⟩
        · rw [Nat.mul_comm, Nat.mod_eq_of_lt (by unfold sizeMax at hsmall; omega)]
        · cases coords with
          | nil => exact hinside.elim
          | cons c coords => rw [List.map_cons, dot, rank, hdots coords hinside.2, hsame]

/-! ## The iterator -/

theorem map_extent_iterDims (shape : Shape) (operandStrides : List Strides) :
    (iterDims shape operandStrides).map (·.extent) = Shape.dims shape := by
  refine List.ext_getElem (by simp [iterDims, Shape.dims]) fun d _ hinside => ?_
  have hinside : d < shape.length := by simpa [Shape.dims] using hinside
  simp [iterDims, Shape.dims, List.getD_eq_getElem?_getD, List.getElem?_eq_getElem hinside]

theorem map_stride_iterDims {shape : Shape} {operandStrides : List Strides} {p : Nat}
    {strides : Strides} (hfound : operandStrides[p]? = some strides)
    (hlength : strides.length = shape.length) :
    (iterDims shape operandStrides).map (·.strides.getD p 0) = strides.map Int.toNat := by
  refine List.ext_getElem (by simp [iterDims, hlength]) fun d _ hinside => ?_
  have hinside : d < strides.length := by simpa using hinside
  simp [iterDims, List.getD_eq_getElem?_getD, hfound, List.getElem?_eq_getElem hinside]

theorem wide_iterDims (shape : Shape) (operandStrides : List Strides) :
    Wide operandStrides.length (iterDims shape operandStrides) := by
  intro d hmem
  obtain ⟨i, -, rfl⟩ := List.mem_map.1 hmem
  exact List.length_map _

/-- The products of `mergeable` behind its guards, and those of a merge. -/
def MergeFits (outer inner : IterDim) : Prop :=
  (∀ stride, ¬ (stride ≠ 0 ∧ inner.extent > sizeMax / stride) → stride * inner.extent ≤ sizeMax) ∧
    (mergeable outer inner = true → outer.extent * inner.extent ≤ sizeMax)

/-- The checked products of a merge fit, since the strides they stand for do. -/
theorem mergeFits (outer inner : IterDim) : MergeFits outer inner := by
  constructor
  · intro stride hguard
    rcases Nat.eq_zero_or_pos stride with rfl | hpos
    · rw [Nat.zero_mul]
      exact Nat.zero_le _
    · have hsmall : inner.extent ≤ sizeMax / stride :=
        Nat.not_lt.1 fun hlt => hguard ⟨by omega, hlt⟩
      rw [Nat.mul_comm]
      exact (Nat.le_div_iff_mul_le hpos).1 hsmall
  · intro h
    unfold mergeable at h
    rw [Bool.and_eq_true, Bool.not_eq_true', decide_eq_false_iff_not] at h
    rcases Nat.eq_zero_or_pos inner.extent with hzero | hpos
    · rw [hzero, Nat.mul_zero]
      exact Nat.zero_le _
    · have hsmall : outer.extent ≤ int64Max / inner.extent :=
        Nat.not_lt.1 fun hlt => h.2 ⟨by omega, hlt⟩
      exact ((Nat.le_div_iff_mul_le hpos).1 hsmall).trans (by decide)

/-- How the constructor arrives at an iterator. -/
structure Built (operands : List TensorLayout) (it : TensorIterator) : Prop where
  broadcast : broadcastShape operands = .ok it.shape
  admits : TensorLayout.Admits it.shape
  numel : it.numel = Shape.count it.shape
  strides : List.Forall₂ (fun layout s => broadcastStrides layout it.shape = .ok s) operands
    it.operandStrides
  iteration : it.iteration = coalesceDimensions it.operandStrides.length
    (iterDims it.shape it.operandStrides)
  contiguous : it.contiguousOperands = it.operandStrides.map fun s =>
    it.numel == 0 || (contiguousFrom (it.shape.zip s)).1

theorem ofOperands_built {operands : List TensorLayout} {it : TensorIterator}
    (hmade : ofOperands operands = .ok it) : Built operands it := by
  unfold ofOperands at hmade
  obtain ⟨-, hmade⟩ := check_ok.1 hmade
  obtain ⟨shape, hbroadcast, hmade⟩ := bind_ok.1 hmade
  obtain ⟨layout, hbuilt, hmade⟩ := bind_ok.1 hmade
  obtain ⟨operandStrides, hstrides, hmade⟩ := bind_ok.1 hmade
  obtain ⟨hadmits, rfl⟩ := TensorLayout.ofShape_ok.1 hbuilt
  have hpairs := mapM_ok.1 hstrides
  cases hmade
  exact ⟨hbroadcast, hadmits, rfl, hpairs, by rw [← hpairs.length_eq], rfl⟩

variable {operands : List TensorLayout} {it : TensorIterator} {p i : Nat} {s : Strides}
  {layout : TensorLayout}

theorem Built.of_layout (h : Built operands it) (hfound : operands[p]? = some layout) :
    ∃ s, it.operandStrides[p]? = some s := by
  have hinside := (List.getElem?_eq_some_iff.1 hfound).1
  exact ⟨_, List.getElem?_eq_getElem (h.strides.length_eq ▸ hinside)⟩

/-- The strides of operand `p` are those of its layout, broadcast. -/
theorem Built.of_strides (h : Built operands it) (hfound : it.operandStrides[p]? = some s) :
    ∃ layout, operands[p]? = some layout ∧ layout ∈ operands ∧
      broadcastStrides layout it.shape = .ok s := by
  obtain ⟨hinside', rfl⟩ := List.getElem?_eq_some_iff.1 hfound
  have hinside : p < operands.length := h.strides.length_eq ▸ hinside'
  exact ⟨operands[p], List.getElem?_eq_getElem hinside, List.getElem_mem hinside,
    h.strides.get hinside hinside'⟩

/-- Coalescing does not change the offset of an element. -/
theorem Built.offsetOf (h : Built operands it) (hfound : operands[p]? = some layout)
    (hinside : i < it.numel) : offsetOf p it.iteration i = naiveOffset layout it.shape i ∧
      naiveOffset layout it.shape i < layout.storageSpan := by
  obtain ⟨s, hat⟩ := h.of_layout hfound
  obtain ⟨layout', hfound', hmem, hstep⟩ := h.of_strides hat
  rw [hfound] at hfound'
  cases hfound'
  obtain ⟨hdots, hless, hlength⟩ := dot_broadcastStrides (rank_le_broadcastShape h.broadcast hmem)
    h.admits.nonneg hstep (h.numel ▸ hinside)
  refine ⟨?_, hless⟩
  rw [h.iteration, (coalesceDimensions_eq (wide_iterDims _ _)).1, TensorIterator.offsetOf,
    map_extent_iterDims, map_stride_iterDims hat hlength, hdots]

theorem Built.operandOffset (h : Built operands it) (hfound : operands[p]? = some layout)
    (hinside : i < it.numel) : it.operandOffset p i = .ok (naiveOffset layout it.shape i) ∧
      OffsetFits (it.iteration.map fun d => (d.extent, d.strides.getD p 0)) i := by
  obtain ⟨hoffset, hless⟩ := h.offsetOf hfound hinside
  obtain ⟨hloop, hfits⟩ := offsetLoop_eq p it.iteration i (hoffset ▸ hless.le.trans layout.span_le)
  obtain ⟨s, hat⟩ := h.of_layout hfound
  refine ⟨check_ok.2 ⟨require_ok.2 (decide_eq_true (List.getElem?_eq_some_iff.1 hat).1),
    check_ok.2 ⟨require_ok.2 (decide_eq_true hinside), ?_⟩⟩, hfits⟩
  rw [hloop, hoffset]

/-- The dimensions of an operand, as `contiguousFrom` reads them. -/
theorem zip_strides {shape : Shape} (hlength : s.length = shape.length) :
    (shape.zip s).map (fun p => p.1.toNat) = Shape.dims shape ∧
      (shape.zip s).map (fun p => p.2.toNat) = s.map Int.toNat := by
  constructor
  · rw [show (fun p : Int × Int => p.1.toNat) = Int.toNat ∘ Prod.fst from rfl, ← List.map_map,
      List.map_fst_zip (by omega)]
    rfl
  · rw [show (fun p : Int × Int => p.2.toNat) = Int.toNat ∘ Prod.snd from rfl, ← List.map_map,
      List.map_snd_zip (by omega)]

/-- What `detect_contiguous_operands` finds out about an operand. -/
theorem Built.contiguousFrom (h : Built operands it) (hfound : it.operandStrides[p]? = some s)
    (hinside : i < it.numel) : StrideFits (it.shape.zip s) ∧
      ((contiguousFrom (it.shape.zip s)).1 = true → ∃ layout, operands[p]? = some layout ∧
        naiveOffset layout it.shape i = i) := by
  obtain ⟨layout, hat, hmem, hstep⟩ := h.of_strides hfound
  obtain ⟨hdots, -, hlength⟩ := dot_broadcastStrides (rank_le_broadcastShape h.broadcast hmem)
    h.admits.nonneg hstep (h.numel ▸ hinside)
  obtain ⟨hextents, hstrides⟩ := zip_strides hlength
  have hpositive : ∀ p ∈ it.shape.zip s, 0 < p.1 := by
    intro p hmem
    have := List.prod_pos_iff_forall_pos_nat.1 (Nat.zero_lt_of_lt (h.numel ▸ hinside)) p.1.toNat
      (List.mem_map_of_mem (List.of_mem_zip hmem).1)
    omega
  obtain ⟨hfits, hexact⟩ := contiguousFrom_eq hpositive (hextents ▸ h.admits.count_le)
  refine ⟨hfits, fun hcontiguous => ⟨layout, hat, ?_⟩⟩
  have hcount : i < (Shape.dims it.shape).prod := (h.numel ▸ hinside : i < Shape.count it.shape)
  have hrank := (hexact hcontiguous).2 (coordinates (Shape.dims it.shape) i)
    (by rw [hextents]; exact inside_coordinates hcount)
  rw [hextents, hstrides, rank_coordinates hcount] at hrank
  rw [← hdots, hrank]

/-- The offsets of an iterator are those of the operands. -/
structure Exact (operands : List TensorLayout) (it : TensorIterator) : Prop where
  /-- The loop that merges has come to its end. -/
  merged : mergeInnermost it.iteration = none
  mergeFits : ∀ outer inner, MergeFits outer inner
  strideFits : it.numel ≠ 0 → ∀ strides ∈ it.operandStrides, StrideFits (it.shape.zip strides)
  offset : ∀ (p : Nat) (layout : TensorLayout), operands[p]? = some layout → ∀ i < it.numel,
    it.operandOffset p i = .ok (naiveOffset layout it.shape i) ∧
    naiveOffset layout it.shape i < layout.storageSpan ∧
    OffsetFits (it.iteration.map fun d => (d.extent, d.strides.getD p 0)) i
  contiguous : ∀ p : Nat, it.operandIsContiguous p = .ok true → ∀ i < it.numel,
    it.operandOffset p i = .ok i

/-- Every iterator that is constructed is exact. -/
theorem operandOffset_exact {operands : List TensorLayout} {it : TensorIterator}
    (hmade : ofOperands operands = .ok it) : Exact operands it := by
  have h := ofOperands_built hmade
  constructor
  · rw [h.iteration]
    exact (coalesceDimensions_eq (wide_iterDims _ _)).2
  · exact mergeFits
  · intro hnonempty s hmem
    obtain ⟨p, hfound⟩ := List.getElem?_of_mem hmem
    exact (h.contiguousFrom hfound (Nat.pos_of_ne_zero hnonempty)).1
  · intro p layout hfound i hinside
    obtain ⟨hoffset, hfits⟩ := h.operandOffset hfound hinside
    exact ⟨hoffset, (h.offsetOf hfound hinside).2, hfits⟩
  · intro p hcontiguous i hinside
    unfold operandIsContiguous at hcontiguous
    rw [h.contiguous, List.getElem?_map] at hcontiguous
    cases hfound : it.operandStrides[p]? with
    | none =>
      rw [hfound] at hcontiguous
      cases hcontiguous
    | some s =>
      simp only [hfound, Option.map_some, Except.ok.injEq, Bool.or_eq_true, beq_iff_eq,
        Nat.ne_of_gt (Nat.zero_lt_of_lt hinside), false_or] at hcontiguous
      obtain ⟨layout, hat, hsame⟩ := (h.contiguousFrom hfound hinside).2 hcontiguous
      rw [(h.operandOffset hat hinside).1, hsame]

/-- A matrix and a row that is broadcast over it. -/
def matrixAndRow : List TensorLayout :=
  [.contiguous [2, 3] (by decide), .contiguous [3] (by decide)]

def matrixAndRowIterator : TensorIterator where
  shape := [2, 3]
  numel := 6
  operandStrides := [[3, 1], [0, 1]]
  iteration := [⟨2, [3, 0]⟩, ⟨3, [1, 1]⟩]
  contiguousOperands := [true, false]

/-- A matrix and a broadcast row: two operands, one with a zero stride. -/
theorem operandOffset_exact_matrixAndRow : Exact matrixAndRow matrixAndRowIterator :=
  operandOffset_exact (by rfl)

end TinyInfer.TensorIterator
