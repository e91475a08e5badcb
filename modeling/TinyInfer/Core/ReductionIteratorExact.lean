import TinyInfer.Core.ReductionIterator

/-!
# The groups of a `ReductionIterator`

`ofLayout` accepts every choice of distinct axes of a layout with elements (`ofLayout_ok`). The
two loops of `offsetWithStrides` compute the offset of an element of `Lib.Axes.join`, and
nothing in them wraps (`offsetWithStrides_eq`).

Main definitions:
* `ValidAxes`: what the constructor demands of the axes.
* `Reduces`: an iterator over the groups of a mask.
-/

namespace TinyInfer.ReductionIterator

open Lib.RowMajor Lib.Axes

/-- A negative axis counts from the end. -/
def normalize (rank : Nat) (axis : Int) : Int := if axis < 0 then axis + rank else axis

/-- Distinct axes of a layout. -/
structure ValidAxes (rank : Nat) (axes : List Int) : Prop where
  ne_nil : axes ≠ []
  inside : ∀ axis ∈ axes, 0 ≤ normalize rank axis ∧ normalize rank axis < rank
  nodup : (axes.map (normalize rank)).Nodup

instance (rank : Nat) (axes : List Int) : Decidable (ValidAxes rank axes) :=
  decidable_of_iff (axes ≠ [] ∧
    (∀ axis ∈ axes, 0 ≤ normalize rank axis ∧ normalize rank axis < rank) ∧
      (axes.map (normalize rank)).Nodup)
    ⟨fun ⟨hne_nil, hinside, hnodup⟩ => ⟨hne_nil, hinside, hnodup⟩,
      fun ⟨hne_nil, hinside, hnodup⟩ => ⟨hne_nil, hinside, hnodup⟩⟩

/-- The normalized axes. -/
def axisNats (rank : Nat) (axes : List Int) : List Nat :=
  axes.map fun axis => (normalize rank axis).toNat

/-- `reduced_` after the axes of a list. -/
def maskOf (rank : Nat) (axes : List Nat) : List Bool := (List.range rank).map (decide <| · ∈ axes)

@[simp] theorem length_dims (layout : TensorLayout) : layout.dims.length = layout.rank := by
  simp [TensorLayout.dims, Shape.dims, TensorLayout.rank]

/-! ## The constructor -/

@[simp] theorem length_maskOf (rank : Nat) (axes : List Nat) :
    (maskOf rank axes).length = rank := by
  simp [maskOf]

theorem getD_maskOf {rank d : Nat} (hinside : d < rank) (axes : List Nat) :
    (maskOf rank axes).getD d false = decide (d ∈ axes) := by
  rw [List.getD_eq_getElem?_getD, maskOf, List.getElem?_map, List.getElem?_range hinside]
  rfl

theorem maskOf_set (rank a : Nat) (axes : List Nat) :
    (maskOf rank axes).set a true = maskOf rank (axes ++ [a]) := by
  refine List.ext_getElem (by simp) fun d hbefore hafter => ?_
  rw [List.getElem_set]
  by_cases hsame : a = d
  · simp [maskOf, hsame]
  · simp [maskOf, hsame, Ne.symm hsame]

/-- An axis in range and not yet seen is marked and recorded. -/
theorem addAxis_eq {rank : Nat} {axis : Int} {seen : List Nat}
    (hinside : 0 ≤ normalize rank axis ∧ normalize rank axis < rank)
    (hfresh : (normalize rank axis).toNat ∉ seen) :
    addAxis rank (maskOf rank seen, seen) axis =
      .ok (maskOf rank (seen ++ [(normalize rank axis).toNat]), seen ++
        [(normalize rank axis).toNat]) := by
  have hless : (normalize rank axis).toNat < rank := by omega
  rw [← maskOf_set]
  refine check_ok.2 ⟨require_ok.2 (decide_eq_true hinside), check_ok.2 ⟨require_ok.2 ?_, rfl⟩⟩
  show (!(maskOf rank seen).getD (normalize rank axis).toNat false) = true
  rw [getD_maskOf hless, decide_eq_false hfresh]
  rfl

/-- Distinct axes in range are all marked, by induction on the axes still to come. -/
theorem foldlM_addAxis {rank : Nat} {axes : List Int} {seen : List Nat}
    (hinside : ∀ axis ∈ axes, 0 ≤ normalize rank axis ∧ normalize rank axis < rank)
    (hnodup : (seen ++ axisNats rank axes).Nodup) :
    axes.foldlM (addAxis rank) (maskOf rank seen, seen) =
      .ok (maskOf rank (seen ++ axisNats rank axes), seen ++ axisNats rank axes) := by
  induction axes generalizing seen with
  | nil => rw [axisNats, List.map_nil, List.append_nil]; rfl
  | cons axis axes ih =>
    obtain ⟨hhead, htail⟩ := List.forall_mem_cons.1 hinside
    have hsplit : seen ++ axisNats rank (axis :: axes) =
        (seen ++ [(normalize rank axis).toNat]) ++ axisNats rank axes := by simp [axisNats]
    rw [hsplit] at hnodup ⊢
    have hfresh : (normalize rank axis).toNat ∉ seen := fun hmem =>
      (List.nodup_append.1 (List.nodup_append.1 hnodup).1).2.2 _ hmem _
        (List.mem_singleton_self _) rfl
    rw [List.foldlM_cons, addAxis_eq hhead hfresh]
    exact ih htail hnodup

/-- The sorted axes are those of the mask. -/
theorem insertionSort_axes {rank : Nat} {axes : List Nat} (hinside : ∀ axis ∈ axes, axis < rank)
    (hnodup : axes.Nodup) :
    axes.insertionSort (· ≤ ·) = (List.range rank).filter (· ∈ axes) := by
  have hsorted : ((List.range rank).filter (· ∈ axes)).Pairwise (· ≤ ·) :=
    (List.pairwise_le_range (n := rank)).filter _
  refine List.Perm.eq_of_pairwise (fun a b _ _ => Nat.le_antisymm)
    (List.pairwise_insertionSort (· ≤ ·) axes) hsorted ?_
  refine (List.perm_insertionSort _ _).trans ?_
  refine (List.perm_ext_iff_of_nodup hnodup (List.nodup_range.filter _)).2 fun a => ?_
  simp only [List.mem_filter, List.mem_range, decide_eq_true_eq]
  exact ⟨fun hmem => ⟨hinside a hmem, hmem⟩, fun h => h.2⟩

/-- The entries at the axes of a mask. -/
theorem map_getD_filter {α : Type} (p : Nat → Bool) (xs : List α) (z : α) :
    ((List.range xs.length).filter p).map (xs.getD · z) = pick true
    ((List.range xs.length).map p) xs := by
  induction xs generalizing p with
  | nil => rfl
  | cons x xs ih =>
    have htail := ih (p ∘ Nat.succ)
    rw [List.length_cons, List.range_succ_eq_map, List.map_cons, List.map_map, pick, ← htail,
      List.filter_cons, List.filter_map]
    by_cases hhead : p 0 = true
    · rw [if_pos hhead, if_pos hhead, List.map_cons, List.map_map]
      rfl
    · rw [if_neg hhead, if_neg hhead, List.map_map]
      rfl

/-- The output shape keeps the unreduced axes, with ones in place of the reduced ones on
`keepdim`. -/
theorem outputShapeOf_eq (keepdim : Bool) (mask : List Bool) (shape : Shape) :
    outputShapeOf keepdim mask shape = if keepdim then keep 1 mask shape else pick false
      mask shape := by
  induction mask generalizing shape with
  | nil => cases keepdim <;> rfl
  | cons m mask ih => cases shape with
    | nil => cases keepdim <;> rfl
    | cons d shape =>
      have htail := ih shape
      rw [outputShapeOf, htail]
      cases keepdim <;> cases m <;> rfl

/-! ## The sizes of the groups -/

/-- Leaving out positive dimensions does not raise the product. -/
theorem prod_pick_le {dims : List Nat} (hpos : ∀ d ∈ dims, 0 < d) (b : Bool) (mask : List Bool) :
    (pick b mask dims).prod ≤ dims.prod := by
  induction mask generalizing dims with
  | nil => exact Nat.one_le_iff_ne_zero.2 (Nat.ne_of_gt (List.prod_pos_iff_forall_pos_nat.2 hpos))
  | cons m mask ih => cases dims with
    | nil => exact Nat.le_refl _
    | cons d dims =>
      obtain ⟨hhead, htail⟩ := List.forall_mem_cons.1 hpos
      rw [pick, List.prod_cons]
      split
      · rw [List.prod_cons]
        exact Nat.mul_le_mul_left d (ih htail)
      · exact Nat.le_trans (ih htail) (Nat.le_mul_of_pos_left _ hhead)

/-- Setting positive dimensions to one does not raise the product. -/
theorem prod_keep_le {dims : List Nat} (hpos : ∀ d ∈ dims, 0 < d) (mask : List Bool) :
    (keep 1 mask dims).prod ≤ dims.prod := by
  induction mask generalizing dims with
  | nil => exact Nat.one_le_iff_ne_zero.2 (Nat.ne_of_gt (List.prod_pos_iff_forall_pos_nat.2 hpos))
  | cons m mask ih => cases dims with
    | nil => exact Nat.le_refl _
    | cons d dims =>
      obtain ⟨hhead, htail⟩ := List.forall_mem_cons.1 hpos
      rw [keep, List.prod_cons, List.prod_cons]
      refine Nat.mul_le_mul ?_ (ih htail)
      split
      · exact hhead
      · exact Nat.le_refl _

/-- Strides that fit still do when axes are left out. -/
theorem stridesFit_pick {dims : List Nat} (hpos : ∀ d ∈ dims, 0 < d)
    (hfits : TensorLayout.StridesFit dims) (b : Bool) (mask : List Bool) :
    TensorLayout.StridesFit (pick b mask dims) := by
  induction mask generalizing dims with
  | nil => trivial
  | cons m mask ih => cases dims with
    | nil => trivial
    | cons d dims =>
      have htail := (List.forall_mem_cons.1 hpos).2
      rw [pick]
      split
      · exact ⟨Nat.le_trans (prod_pick_le htail b mask) hfits.1, ih htail hfits.2⟩
      · exact ih htail hfits.2

/-- Strides that fit still do when axes become one. -/
theorem stridesFit_keep {dims : List Nat} (hpos : ∀ d ∈ dims, 0 < d)
    (hfits : TensorLayout.StridesFit dims) (mask : List Bool) :
    TensorLayout.StridesFit (keep 1 mask dims) := by
  induction mask generalizing dims with
  | nil => trivial
  | cons m mask ih => cases dims with
    | nil => trivial
    | cons d dims =>
      have htail := (List.forall_mem_cons.1 hpos).2
      exact ⟨Nat.le_trans (prod_keep_le htail mask) hfits.1, ih htail hfits.2⟩

/-- An entry after `keep` is the filler or an old one. -/
theorem mem_of_mem_keep {α : Type} {z x : α} {mask : List Bool} {xs : List α}
    (h : x ∈ keep z mask xs) :
    x = z ∨ x ∈ xs := by
  induction mask generalizing xs with
  | nil => exact absurd h List.not_mem_nil
  | cons m mask ih => cases xs with
    | nil => exact absurd h List.not_mem_nil
    | cons y xs =>
      rcases List.mem_cons.1 h with hsame | hmem
      · cases m with
        | true => exact .inl hsame
        | false => exact .inr (hsame ▸ List.mem_cons_self)
      · exact (ih hmem).imp_right (List.mem_cons_of_mem _)

theorem map_keep {α β : Type} (f : α → β) (z : α) (mask : List Bool) (xs : List α) :
    (keep z mask xs).map f = keep (f z) mask (xs.map f) := by
  induction mask generalizing xs with
  | nil => rfl
  | cons m mask ih => cases xs with
    | nil => rfl
    | cons x xs =>
      rw [List.map_cons, keep, keep, List.map_cons, ih]
      cases m <;> rfl

section Admits

variable {shape : Shape} (hadmits : TensorLayout.Admits shape)
    (hpos : ∀ d ∈ Shape.dims shape, 0 < d)

include hadmits hpos

theorem admits_pick (b : Bool) (mask : List Bool) : TensorLayout.Admits (pick b mask shape) where
  nonneg := fun d hmem => hadmits.nonneg d (mem_of_mem_pick hmem)
  count_le := by
    rw [Shape.count, Shape.dims, map_pick]
    exact Nat.le_trans (prod_pick_le hpos b mask) hadmits.count_le
  fits := by
    rw [Shape.dims, map_pick]
    exact stridesFit_pick hpos hadmits.fits b mask

theorem admits_keep (mask : List Bool) : TensorLayout.Admits (keep 1 mask shape) where
  nonneg := fun d hmem => by
    rcases mem_of_mem_keep hmem with hsame | hmem
    · omega
    · exact hadmits.nonneg d hmem
  count_le := by
    rw [Shape.count, Shape.dims, map_keep]
    exact Nat.le_trans (prod_keep_le hpos mask) hadmits.count_le
  fits := by
    rw [Shape.dims, map_keep]
    exact stridesFit_keep hpos hadmits.fits mask

theorem admits_outputShapeOf (keepdim : Bool) (mask : List Bool) :
    TensorLayout.Admits (outputShapeOf keepdim mask shape) := by
  rw [outputShapeOf_eq]
  cases keepdim with
  | true => exact admits_keep hadmits hpos mask
  | false => exact admits_pick hadmits hpos false mask

end Admits

/-- The output has one element for each index of the unreduced axes. -/
theorem count_outputShapeOf {keepdim : Bool} {mask : List Bool} {shape : Shape}
    (hlength : mask.length = shape.length) :
    Shape.count (outputShapeOf keepdim mask shape) = (pick false mask (Shape.dims shape)).prod := by
  rw [outputShapeOf_eq]
  cases keepdim with
  | true =>
    show (Shape.dims (keep 1 mask shape)).prod = _
    rw [Shape.dims, map_keep]
    exact prod_keep (by simpa [Shape.dims] using hlength)
  | false =>
    show (Shape.dims (pick false mask shape)).prod = _
    rw [Shape.dims, map_pick]
    rfl

/-- An iterator over the groups of a mask. -/
structure Reduces (layout : TensorLayout) (mask : List Bool) (keepdim : Bool)
    (it : ReductionIterator) :
    Prop where
  inputLayout : it.inputLayout = layout
  logicalStrides : it.logicalStrides = TensorLayout.contiguousStrides layout.shape
  axes : it.axes = (List.range layout.rank).filter (mask.getD · false)
  reduced : it.reduced = mask
  length : mask.length = layout.rank
  outputShape : it.outputShape = outputShapeOf keepdim mask layout.shape
  outputNumel : it.outputNumel = (pick false mask layout.dims).prod
  reductionNumel : it.reductionNumel = (pick true mask layout.dims).prod
  keepdim : it.keepdim = keepdim
  contiguousReduction : it.contiguousReduction =
    (layout.isContiguous && trailing layout.rank it.axes)

theorem pos_of_numel {layout : TensorLayout} (hnonempty : 0 < layout.numel) :
    ∀ d ∈ layout.dims, 0 < d :=
  List.prod_pos_iff_forall_pos_nat.1 hnonempty

/-- The constructor accepts distinct axes. -/
theorem ofLayout_ok {layout : TensorLayout} {axes : List Int} (keepdim : Bool)
    (hnonempty : 0 < layout.numel) (hvalid : ValidAxes layout.rank axes) :
    ∃ it, ofLayout layout axes keepdim = .ok it ∧
      Reduces layout (maskOf layout.rank (axisNats layout.rank axes)) keepdim it := by
  have hpos := pos_of_numel hnonempty
  -- the axes lie inside and are distinct, also after wrapping
  have hinside : ∀ axis ∈ axisNats layout.rank axes, axis < layout.rank := by
    intro axis hmem
    obtain ⟨a, hgiven, rfl⟩ := List.mem_map.1 hmem
    have := hvalid.inside a hgiven
    omega
  have hnodup : (axisNats layout.rank axes).Nodup := by
    refine List.Nodup.of_map Int.ofNat ?_
    have hsame : (axisNats layout.rank axes).map Int.ofNat = axes.map (normalize layout.rank) := by
      rw [axisNats, List.map_map]
      exact List.map_congr_left fun axis hmem => Int.toNat_of_nonneg (hvalid.inside axis hmem).1
    rw [hsame]
    exact hvalid.nodup
  have hnone : (List.replicate layout.rank false, ([] : List Nat)) =
    (maskOf layout.rank [], []) := by
    rw [maskOf]
    simp [List.map_const']
  -- the loop over the axes collects them
  have hloop : axes.foldlM (addAxis layout.rank) (maskOf layout.rank [], []) =
      .ok (maskOf layout.rank (axisNats layout.rank axes), axisNats layout.rank axes) :=
    foldlM_addAxis hvalid.inside hnodup
  generalize axisNats layout.rank axes = picked at hinside hnodup hloop ⊢
  have hsorted := insertionSort_axes hinside hnodup
  have hlength : (maskOf layout.rank picked).length = layout.shape.length := length_maskOf ..
  have hreductionShape :
    ((List.range layout.rank).filter (· ∈ picked)).map (layout.shape.getD · 0) =
      pick true (maskOf layout.rank picked) layout.shape := map_getD_filter _ layout.shape 0
  have hadmitsOutput := admits_outputShapeOf layout.admits hpos keepdim (maskOf layout.rank picked)
  have hadmitsReduction := admits_pick layout.admits hpos true (maskOf layout.rank picked)
  refine ⟨{
    inputLayout := layout
    logicalStrides := TensorLayout.contiguousStrides layout.shape
    axes := (List.range layout.rank).filter (· ∈ picked)
    reduced := maskOf layout.rank picked
    outputShape := outputShapeOf keepdim (maskOf layout.rank picked) layout.shape
    outputNumel := Shape.count (outputShapeOf keepdim (maskOf layout.rank picked) layout.shape)
    reductionNumel := Shape.count (pick true (maskOf layout.rank picked) layout.shape)
    keepdim
    contiguousReduction := layout.isContiguous &&
      trailing layout.rank ((List.range layout.rank).filter (· ∈ picked)) }, ?_, ?_⟩
  -- the three layouts that are built have admissible shapes
  · unfold ofLayout
    rw [hnone, hloop]
    refine check_ok.2 ⟨require_ok.2 (by simpa using hvalid.ne_nil), ?_⟩
    show (TensorLayout.ofShape _ >>= _) = _
    rw [hsorted, hreductionShape]
    refine bind_ok.2 ⟨_, TensorLayout.ofShape_ok.2 ⟨hadmitsOutput, rfl⟩, ?_⟩
    refine bind_ok.2 ⟨_, TensorLayout.ofShape_ok.2 ⟨hadmitsReduction, rfl⟩, ?_⟩
    exact bind_ok.2 ⟨_, TensorLayout.ofShape_ok.2 ⟨layout.admits, rfl⟩, rfl⟩
  · refine {
      inputLayout := rfl, logicalStrides := rfl, axes := ?_, reduced := rfl, length := hlength
      outputShape := rfl, outputNumel := count_outputShapeOf hlength, reductionNumel := ?_
      keepdim := rfl, contiguousReduction := rfl }
    · refine List.filter_congr fun d hmem => ?_
      rw [getD_maskOf (List.mem_range.1 hmem)]
    · show (Shape.dims (pick true _ layout.shape)).prod = _
      rw [Shape.dims, map_pick]
      rfl

/-! ## The loops over the dimensions -/

/-- A kept axis stands among the picked ones at its rank. -/
theorem getD_pick {α : Type} {mask : List Bool} {xs : List α} {d : Nat} (z : α)
    (hkept : mask[d]? = some false) (hinside : d < xs.length) :
    (pick false mask xs).getD ((mask.take d).count false) z = xs.getD d z := by
  induction mask generalizing xs d with
  | nil => cases hkept
  | cons m mask ih => cases xs with
    | nil => cases hinside
    | cons x xs => cases d with
      | zero =>
        cases hkept
        rfl
      | succ d =>
        have htail := @ih xs d hkept (Nat.lt_of_succ_lt_succ hinside)
        cases m with
        | true => exact htail
        | false =>
          show (x :: pick false mask xs).getD ((false :: mask.take d).count false) z = xs.getD d z
          rw [List.count_cons_self]
          exact htail

/-- A kept axis stays in place under `keepdim`. -/
theorem getD_keep {α : Type} {mask : List Bool} {xs : List α} {d : Nat} (w z : α)
    (hkept : mask[d]? = some false) (hinside : d < xs.length) :
    (keep w mask xs).getD d z = xs.getD d z := by
  induction mask generalizing xs d with
  | nil => cases hkept
  | cons m mask ih => cases xs with
    | nil => cases hinside
    | cons x xs => cases d with
      | zero =>
        cases hkept
        rfl
      | succ d => exact @ih xs d hkept (Nat.lt_of_succ_lt_succ hinside)

/-- One more axis adds its entry iff it is of the picked kind. -/
theorem pick_take_succ {α : Type} (b : Bool) {mask : List Bool} {xs : List α} {d : Nat}
    {m : Bool} {x : α} (hflag : mask[d]? = some m) (hentry : xs[d]? = some x) :
    pick b (mask.take (d + 1)) (xs.take (d + 1)) =
      pick b (mask.take d) (xs.take d) ++ if m = b then [x] else [] := by
  obtain ⟨hinside, -⟩ := List.getElem?_eq_some_iff.1 hflag
  obtain ⟨hinside', -⟩ := List.getElem?_eq_some_iff.1 hentry
  rw [List.take_add_one, List.take_add_one, hflag, hentry,
    pick_append b (by rw [List.length_take, List.length_take]; omega)]
  rfl

section Reduces

variable {layout : TensorLayout} {mask : List Bool} {keepdim : Bool} {it : ReductionIterator}
  (h : Reduces layout mask keepdim it)

include h

theorem Reduces.mask_eq : (List.range layout.rank).map (mask.getD · false) = mask := by
  refine List.ext_getElem (by simp [h.length]) fun d hbefore hafter => ?_
  rw [List.getElem_map, List.getElem_range, List.getD_eq_getElem?_getD,
    List.getElem?_eq_getElem hafter]
  rfl

/-- The extent of a dimension that is not reduced. -/
theorem Reduces.extent {d : Nat} (hkept : mask[d]? = some false) (hinside : d < layout.rank) :
    it.outputShape.getD (if keepdim then d else (mask.take d).count false) 0 =
      layout.shape.getD d 0 := by
  rw [h.outputShape, outputShapeOf_eq]
  cases keepdim with
  | true => exact getD_keep 1 0 hkept hinside
  | false => exact getD_pick 0 hkept hinside

/-- The first loop yields the offset along the axes that are not reduced. -/
theorem Reduces.outputOffset {strides : Strides} (hwidth : strides.length = layout.rank)
    {d outDim : Nat} (hle : d ≤ layout.rank)
    (hcounted : keepdim = false → outDim = (mask.take d).count false) (index : Nat) {result : Nat}
    (hsmall : result < 2 ^ 64) :
    it.outputOffset strides d outDim index result =
      (result + dot (pick false (mask.take d) ((TensorLayout.strideNats strides).take d))
        (coordinates (pick false (mask.take d) (layout.dims.take d)) index)) % 2 ^ 64 := by
  induction d generalizing outDim index result with
  | zero => exact (Nat.mod_eq_of_lt hsmall).symm
  -- the flag, the extent and the stride of the last axis that is left
  | succ d ih =>
    obtain ⟨m, hflag⟩ : ∃ m, mask[d]? = some m :=
      ⟨_, List.getElem?_eq_getElem (by rw [h.length]; exact hle)⟩
    have hextent : layout.dims[d]? = some (layout.shape.getD d 0).toNat := by
      rw [TensorLayout.dims, Shape.dims, List.getElem?_map, List.getD_eq_getElem?_getD,
        List.getElem?_eq_getElem (show d < layout.shape.length from hle)]
      rfl
    have hstride : (TensorLayout.strideNats strides)[d]? = some (strides.getD d 0).toNat := by
      rw [TensorLayout.strideNats, List.getElem?_map, List.getD_eq_getElem?_getD,
        List.getElem?_eq_getElem (show d < strides.length by omega)]
      rfl
    have hreduced : it.reduced.getD d false = m := by
      rw [h.reduced, List.getD_eq_getElem?_getD, hflag]
      rfl
    rw [ReductionIterator.outputOffset, hreduced, pick_take_succ false hflag hextent,
      pick_take_succ false hflag hstride]
    cases m with
    -- a reduced axis does not move the output
    | true =>
      have hsame : (mask.take (d + 1)).count false = (mask.take d).count false := by
        rw [List.take_add_one, hflag, List.count_append]
        rfl
      rw [if_pos rfl, if_neg (by decide), List.append_nil, if_neg (by decide), List.append_nil]
      exact ih (by omega) (fun hno => (hcounted hno).trans hsame) index hsmall
    -- a kept axis moves it by its coordinate
    | false =>
      have hmore : (mask.take (d + 1)).count false = (mask.take d).count false + 1 := by
        rw [List.take_add_one, hflag, List.count_append]
        rfl
      have hmapped : (if it.keepdim then d else if it.keepdim then outDim else outDim - 1) =
          if keepdim then d else (mask.take d).count false := by
        rw [h.keepdim]
        cases keepdim with
        | true => rfl
        | false =>
          have := hcounted rfl
          show outDim - 1 = (mask.take d).count false
          omega
      have hwidth' : (pick false (mask.take d) (layout.dims.take d)).length =
          (pick false (mask.take d) ((TensorLayout.strideNats strides).take d)).length := by
        rw [length_pick, length_pick]
        · rw [List.length_take, List.length_take, TensorLayout.strideNats, List.length_map,
            hwidth, h.length]
        · rw [List.length_take, List.length_take, h.length, length_dims]
      rw [if_neg (by decide), if_pos rfl, if_pos rfl, coordinates_append,
        dot_append _ _ ((length_coordinates ..).trans hwidth')]
      dsimp only
      rw [hmapped, h.extent hflag hle, ih (by omega) (fun hno => ?_) _ (Nat.mod_lt _ (by decide)),
        Nat.mod_add_mod]
      · simp only [coordinates, dot, List.prod_cons, List.prod_nil, Nat.mul_one,
          Nat.div_one, Nat.add_zero]
        rw [Nat.add_assoc, Nat.add_comm (_ * _)]
      · rw [h.keepdim, hno]
        have := hcounted hno
        show outDim - 1 = _
        omega

/-- The second loop adds the offset along the reduced axes. -/
theorem Reduces.reductionOffset (strides : Strides) (axes : List Nat) (index : Nat) {result : Nat}
    (hsmall : result < 2 ^ 64) :
    it.reductionOffset strides axes.reverse index result =
      (result + dot (axes.map fun axis => (strides.getD axis 0).toNat)
        (coordinates (axes.map fun axis => (layout.shape.getD axis 0).toNat) index)) % 2 ^ 64 := by
  induction axes using List.reverseRecOn generalizing index result with
  | nil => exact (Nat.mod_eq_of_lt hsmall).symm
  | append_singleton axes axis ih =>
    rw [List.reverse_append, List.reverse_singleton, List.singleton_append,
      ReductionIterator.reductionOffset, h.inputLayout, ih _ (Nat.mod_lt _ (by decide)),
      Nat.mod_add_mod, List.map_append, List.map_append, coordinates_append,
      dot_append _ _ (by simp)]
    simp only [List.map_cons, List.map_nil, coordinates, dot, List.prod_cons,
      List.prod_nil, Nat.mul_one, Nat.div_one, Nat.add_zero]
    rw [Nat.add_assoc, Nat.add_comm (_ * _)]

/-- **The loops compute the offset of an element of a group**, and nothing in them wraps. -/
theorem Reduces.offsetWithStrides {strides : Strides}
    (hwidth : strides.length = layout.rank) {o r : Nat} (ho : o < it.outputNumel)
    (hr : r < it.reductionNumel)
    (hfits : dot (TensorLayout.strideNats strides)
      (coordinates layout.dims (join mask layout.dims o r)) ≤
      sizeMax) :
    it.offsetWithStrides strides o r =
      .ok (dot (TensorLayout.strideNats strides)
        (coordinates layout.dims (join mask layout.dims o r))) := by
  have hlength : mask.length = layout.dims.length := by rw [h.length, length_dims]
  have hwidth' : (TensorLayout.strideNats strides).length = layout.rank := by
    rw [TensorLayout.strideNats, List.length_map, hwidth]
  have hcounted : keepdim = false →
    it.outputShape.length = (mask.take layout.rank).count false := by
    intro hno
    rw [h.outputShape, outputShapeOf_eq, hno, ← h.length, List.take_length]
    exact length_pick false h.length
  have hfirst := h.outputOffset hwidth (Nat.le_refl _) hcounted o (show 0 < 2 ^ 64 by decide)
  have hsecond := h.reductionOffset strides it.axes r (Nat.mod_lt
    (0 + dot (pick false mask (TensorLayout.strideNats strides))
      (coordinates (pick false mask layout.dims) o))
    (show 0 < 2 ^ 64 by decide))
  have haxes (xs : List Int) (hrank : xs.length = layout.rank) :
      it.axes.map (fun axis => (xs.getD axis 0).toNat) = pick true mask (xs.map Int.toNat) := by
    rw [← map_pick, ← h.mask_eq, ← hrank, ← map_getD_filter _ xs 0, List.map_map, h.axes, hrank]
    rfl
  rw [haxes strides hwidth, haxes layout.shape rfl] at hsecond
  rw [← h.length, List.take_length, h.length, List.take_of_length_le (Nat.le_of_eq hwidth'),
    List.take_of_length_le (Nat.le_of_eq (length_dims layout))] at hfirst
  rw [dot_join hlength (by rwa [← h.outputNumel]) (by rwa [← h.reductionNumel])
    (by rw [h.length, hwidth'])]
    at hfits ⊢
  refine check_ok.2 ⟨require_ok.2 (decide_eq_true ho),
    check_ok.2 ⟨require_ok.2 (decide_eq_true hr), ?_⟩⟩
  rw [h.inputLayout, hfirst, hsecond, Nat.mod_add_mod, Nat.zero_add]
  exact congrArg _ (Nat.mod_eq_of_lt (Nat.lt_succ_of_le hfits))

theorem Reduces.mask_length : mask.length = layout.dims.length := by rw [h.length, length_dims]

theorem Reduces.agree (i j : Nat) :
    pick false mask (coordinates layout.dims i) = pick false mask (coordinates layout.dims j) ↔
      ∀ d : Nat, mask[d]? = some false →
        (coordinates layout.dims i)[d]? = (coordinates layout.dims j)[d]? :=
  pick_eq_iff (by rw [length_coordinates, h.mask_length])
    (by rw [length_coordinates, h.mask_length])

/-! ## The innermost axes -/

omit h in
theorem trailing_eq {rank : Nat} {axes : List Nat} (hlast : trailing rank axes = true) :
    axes = List.range' (rank - axes.length) axes.length := by
  refine List.ext_getElem (by simp) fun i hbefore hafter => ?_
  have hentry : (axes[i], i) ∈ axes.zipIdx := by
    rw [List.mem_zipIdx_iff_getElem?]
    exact List.getElem?_eq_getElem hbefore
  have hhere := List.all_eq_true.1 hlast _ hentry
  rw [List.getElem_range']
  simpa using hhere

/-- The mask of the innermost axes. -/
theorem Reduces.trailing_mask (hlast : trailing layout.rank it.axes = true) :
    it.axes.length ≤ layout.rank ∧ mask = List.replicate (layout.rank - it.axes.length) false ++
      List.replicate it.axes.length true := by
  have hle : it.axes.length ≤ layout.rank := by
    rw [h.axes]
    exact Nat.le_trans (List.length_filter_le ..) (Nat.le_of_eq List.length_range)
  refine ⟨hle, List.ext_getElem (by simp [h.length, hle]) fun d hbefore hafter => ?_⟩
  have hinside : d < layout.rank := by rwa [h.length] at hbefore
  have hmember : d ∈ it.axes ↔ mask[d] = true := by
    rw [h.axes, List.mem_filter, List.mem_range, List.getD_eq_getElem?_getD,
      List.getElem?_eq_getElem hbefore]
    exact ⟨fun hmem => hmem.2, fun hflag => ⟨hinside, hflag⟩⟩
  rw [trailing_eq hlast, List.mem_range'_1] at hmember
  rw [List.getElem_append]
  split
  · rename_i houter
    rw [List.length_replicate] at houter
    rw [List.getElem_replicate, ← Bool.not_eq_true, ← hmember]
    omega
  · rename_i hinner
    rw [List.length_replicate] at hinner
    rw [List.getElem_replicate, ← hmember]
    omega

/-- The groups along the innermost axes are blocks. -/
theorem Reduces.join_block (hlast : trailing layout.rank it.axes = true) {o r : Nat}
    (ho : o < it.outputNumel) (hr : r < it.reductionNumel) :
    join mask layout.dims o r = o * it.reductionNumel + r := by
  obtain ⟨hle, hmask_eq⟩ := h.trailing_mask hlast
  rw [h.outputNumel] at ho
  rw [h.reductionNumel] at hr ⊢
  generalize it.axes.length = n at hle hmask_eq
  have hsplit := (List.take_append_drop (layout.rank - n) layout.dims).symm
  have houter : (layout.dims.take (layout.rank - n)).length = layout.rank - n := by
    rw [List.length_take, length_dims]
    omega
  have hinner : (layout.dims.drop (layout.rank - n)).length = n := by
    rw [List.length_drop, length_dims]
    omega
  generalize layout.dims.take (layout.rank - n) = ds at hsplit houter
  generalize layout.dims.drop (layout.rank - n) = es at hsplit hinner
  rw [← houter, ← hinner] at hmask_eq
  rw [hmask_eq, hsplit, pick_outer, pick_replicate_ne (by decide), List.append_nil] at ho
  rw [hmask_eq, hsplit, pick_outer_ne (by decide), pick_replicate] at hr ⊢
  exact join_trailing ho hr

end Reduces

/-! ## One axis -/

/-- The mask of one axis, with the sizes outside and inside of it. -/
theorem maskOf_single (outer inner : Nat) : maskOf (outer + inner + 1) [outer] =
    List.replicate outer false ++ true :: List.replicate inner false := by
  refine List.ext_getElem (by simp; omega) fun d hbefore hafter => ?_
  simp only [maskOf, List.getElem_map, List.getElem_range, List.getElem_append,
    List.length_replicate, List.mem_singleton, List.getElem_replicate, List.getElem_cons]
  rcases Nat.lt_trichotomy d outer with hless | hsame | hgreater
  · rw [dif_pos hless, decide_eq_false (Nat.ne_of_lt hless)]
  · rw [dif_neg (by omega), dif_pos (by omega), decide_eq_true hsame]
  · rw [dif_neg (by omega), dif_neg (by omega), decide_eq_false (by omega)]

/-- A layout around one of its axes. -/
theorem dims_single {layout : TensorLayout} {axis : Nat} (hinside : axis < layout.rank) :
    ∃ (ds es : List Nat), layout.dims = ds ++ (layout.shape.getD axis 0).toNat :: es ∧
      ds.length = axis ∧
      maskOf layout.rank [axis] = List.replicate ds.length false ++
        true :: List.replicate es.length false := by
  have hwithin : axis < layout.shape.length := hinside
  have hsplit : layout.shape = layout.shape.take axis ++
    layout.shape.getD axis 0 :: layout.shape.drop (axis + 1) := by
    rw [List.getD_eq_getElem?_getD, List.getElem?_eq_getElem hwithin, Option.getD_some,
      List.getElem_cons_drop, List.take_append_drop]
  refine ⟨Shape.dims (layout.shape.take axis),
    Shape.dims (layout.shape.drop (axis + 1)), ?_, ?_, ?_⟩
  · rw [TensorLayout.dims, Shape.dims]
    nth_rewrite 1 [hsplit]
    rw [List.map_append, List.map_cons]
    rfl
  · simp [Shape.dims]
    omega
  · have hrank : layout.rank = axis + (layout.rank - (axis + 1)) + 1 := by omega
    rw [hrank, maskOf_single]
    simp [Shape.dims, TensorLayout.rank, Nat.min_eq_left (Nat.le_of_lt hwithin)]

/-- A reduction over one axis has groups of that axis's extent. -/
theorem Reduces.reductionNumel_single {layout : TensorLayout} {keepdim : Bool}
    {it : ReductionIterator} {axis : Nat}
    (h : Reduces layout (maskOf layout.rank [axis]) keepdim it) (hinside : axis < layout.rank) :
    it.reductionNumel = (layout.shape.getD axis 0).toNat := by
  obtain ⟨ds, es, hdims, -, hmask⟩ := dims_single hinside
  rw [h.reductionNumel, hmask, hdims, pick_outer_ne (by decide), pick, if_pos rfl,
    pick_replicate_ne (by decide)]
  exact List.prod_singleton

/-! ## The groups -/

/-- The coordinates of an element in the output: 0 along a reduced axis that is kept. -/
def outputCoords (keepdim : Bool) (mask : List Bool) (coords : List Nat) : List Nat :=
  if keepdim then keep 0 mask coords else pick false mask coords

/-- The iterator visits the element of rank `index o r` as the `r`-th of group `o`. -/
structure Groups (layout : TensorLayout) (axes : List Int) (keepdim : Bool) (it : ReductionIterator)
    (index : Nat → Nat → Nat) : Prop where
  logical : ∀ o < it.outputNumel, ∀ r < it.reductionNumel,
    it.inputLogicalIndex o r = .ok (index o r)
  /-- Every element is visited once. -/
  bijOn : Set.BijOn (fun p : Nat × Nat => index p.1 p.2)
    {p | p.1 < it.outputNumel ∧ p.2 < it.reductionNumel} {i | i < layout.numel}
  /-- The elements of a group are those that agree on the other axes. -/
  group : ∀ o < it.outputNumel, ∀ r < it.reductionNumel, ∀ o' < it.outputNumel,
    ∀ r' < it.reductionNumel, o = o' ↔ ∀ d < layout.rank, d ∉ axisNats layout.rank axes →
      (coordinates layout.dims (index o r))[d]? = (coordinates layout.dims (index o' r'))[d]?
  outputIndex : ∀ o < it.outputNumel, ∀ r < it.reductionNumel,
    rank (Shape.dims it.outputShape) (outputCoords keepdim
      (maskOf layout.rank (axisNats layout.rank axes)) (coordinates layout.dims (index o r))) = o
  offset : ∀ o < it.outputNumel, ∀ r < it.reductionNumel, ∃ offset < layout.storageSpan,
    layout.storageOffset (index o r) = .ok offset ∧ it.inputOffset o r = .ok offset
  contiguous : it.contiguousReduction = true → ∀ o < it.outputNumel, ∀ r < it.reductionNumel,
    index o r = o * it.reductionNumel + r ∧ it.inputOffset o r = .ok (o * it.reductionNumel + r)

section Reduces

variable {layout : TensorLayout} {mask : List Bool} {keepdim : Bool} {it : ReductionIterator}
  (h : Reduces layout mask keepdim it) {o r : Nat} (ho : o < it.outputNumel)
    (hr : r < it.reductionNumel)

include h ho hr

theorem Reduces.join_lt : join mask layout.dims o r < layout.numel := by
  rw [h.outputNumel] at ho
  rw [h.reductionNumel] at hr
  exact Lib.Axes.join_lt h.mask_length ho hr

/-- The iterator's logical index is the joined position. -/
theorem Reduces.inputLogicalIndex : it.inputLogicalIndex o r = .ok (join mask layout.dims o r) := by
  have hinside := h.join_lt ho hr
  have hlogical : dot (TensorLayout.strideNats it.logicalStrides)
      (coordinates layout.dims (join mask layout.dims o r)) = join mask layout.dims o r := by
    rw [h.logicalStrides, TensorLayout.strideNats_contiguousStrides]
    exact (dot_contiguousStrides (length_coordinates ..)).trans (rank_coordinates hinside)
  have hle : join mask layout.dims o r ≤ sizeMax := by
    have := layout.admits.count_le
    unfold TensorLayout.numel at hinside
    omega
  have hwidth : it.logicalStrides.length = layout.rank := by
    rw [h.logicalStrides, TensorLayout.contiguousStrides, List.length_map, length_contiguousStrides]
    exact length_dims layout
  rw [ReductionIterator.inputLogicalIndex,
    h.offsetWithStrides hwidth ho hr (Nat.le_trans (Nat.le_of_eq hlogical) hle), hlogical]

/-- The iterator's offset is the storage offset of the joined position, inside the storage. -/
theorem Reduces.inputOffset : ∃ offset < layout.storageSpan,
    layout.storageOffset (join mask layout.dims o r) = .ok offset ∧
      it.inputOffset o r = .ok offset := by
  obtain ⟨hstored, hless⟩ := layout.storageOffset_eq (h.join_lt ho hr)
  refine ⟨_, hless, hstored, ?_⟩
  have hwidth : it.inputLayout.strides.length = layout.rank := by
    rw [h.inputLayout]; exact layout.rank_eq
  have hfits := layout.span_le
  unfold TensorLayout.storageSpan at hless
  rw [ReductionIterator.inputOffset, h.offsetWithStrides hwidth ho hr] <;> rw [h.inputLayout]
  exact Nat.le_of_lt (Nat.lt_of_lt_of_le hless hfits)

/-- Every member of a group has the group's output index. -/
theorem Reduces.outputIndex : rank (Shape.dims it.outputShape)
    (outputCoords keepdim mask (coordinates layout.dims (join mask layout.dims o r))) = o := by
  rw [h.outputNumel] at ho
  rw [h.reductionNumel] at hr
  have hnumber := rank_join h.mask_length ho hr
  rw [h.outputShape, outputShapeOf_eq, outputCoords]
  cases keepdim with
  | true =>
    show rank (Shape.dims (keep 1 mask layout.shape)) (keep 0 mask _) = o
    rw [Shape.dims, map_keep]
    exact (rank_keep h.mask_length (by rw [length_coordinates, h.mask_length])).trans hnumber
  | false =>
    show rank (Shape.dims (pick false mask layout.shape)) (pick false mask _) = o
    rw [Shape.dims, map_pick]
    exact hnumber

/-- In the contiguous case group `o` is the run of elements from `o * reductionNumel`. -/
theorem Reduces.contiguous (contiguous : it.contiguousReduction = true) :
    join mask layout.dims o r = o * it.reductionNumel + r ∧
      it.inputOffset o r = .ok (o * it.reductionNumel + r) := by
  rw [h.contiguousReduction, Bool.and_eq_true] at contiguous
  have hblock := h.join_block contiguous.2 ho hr
  refine ⟨hblock, ?_⟩
  have hstrides : it.inputLayout.strides = it.logicalStrides := by
    rw [h.inputLayout, h.logicalStrides]
    exact beq_iff_eq.1 contiguous.1
  rw [← hblock, ← h.inputLogicalIndex ho hr, ReductionIterator.inputOffset,
    ReductionIterator.inputLogicalIndex, hstrides]

end Reduces

/-- The iterator over distinct axes visits the groups along these. -/
theorem Reduces.groups {layout : TensorLayout} {axes : List Int} {keepdim : Bool}
    {it : ReductionIterator} (h : Reduces layout
      (maskOf layout.rank (axisNats layout.rank axes)) keepdim it) :
    Groups layout axes keepdim it
      (join (maskOf layout.rank (axisNats layout.rank axes)) layout.dims) where
  logical := fun _ ho _ hr => h.inputLogicalIndex ho hr
  bijOn := by
    rw [h.outputNumel, h.reductionNumel]
    exact bijOn_join h.mask_length
  group := by
    intro o ho r hr o' ho' r' hr'
    have hagree := h.agree (join (maskOf layout.rank (axisNats layout.rank axes)) layout.dims o r)
      (join (maskOf layout.rank (axisNats layout.rank axes)) layout.dims o' r')
    have hflag {d : Nat} : (maskOf layout.rank (axisNats layout.rank axes))[d]? = some false ↔
        d < layout.rank ∧ d ∉ axisNats layout.rank axes := by
      rw [maskOf, List.getElem?_map]
      by_cases hinside : d < layout.rank
      · rw [List.getElem?_range hinside]
        simp [hinside]
      · rw [List.getElem?_eq_none (by simpa using hinside)]
        simp [hinside]
    rw [h.outputNumel] at ho ho'
    rw [h.reductionNumel] at hr hr'
    constructor
    · rintro rfl d hinside hother
      refine hagree.1 ?_ d (hflag.2 ⟨hinside, hother⟩)
      rw [coordinates_join h.mask_length ho hr, coordinates_join h.mask_length ho hr',
        (pick_joinCoords h.mask_length ho hr).2.1, (pick_joinCoords h.mask_length ho hr').2.1]
    · intro hsame
      have hpicked := hagree.2 fun d hat => hsame d (hflag.1 hat).1 (hflag.1 hat).2
      rw [← rank_join h.mask_length ho hr, hpicked, rank_join h.mask_length ho' hr']
  outputIndex := fun _ ho _ hr => h.outputIndex ho hr
  offset := fun _ ho _ hr => h.inputOffset ho hr
  contiguous := fun hcontiguous _ ho _ hr => h.contiguous ho hr hcontiguous

end TinyInfer.ReductionIterator
