import TinyInfer.Backend.Cpu.ElementwiseExact
import TinyInfer.Backend.Cpu.OperatorMeaning

/-!
# The normalizations compute what their operators mean

`Softmax` and `LayerNorm` visit the groups along one axis. `group_values` says which elements
these are, and `softmaxOut_fill` and `layerNormImpl_fill` what the kernels store, also where
there are no elements at all.
-/

namespace TinyInfer

open Lib.RowMajor Lib.Axes

namespace TensorLayout

/-! ## A dimension less -/

theorem StridesFit.eraseAxis {ds es : List Nat} {n : Nat} (hpos : 0 < n)
    (hfits : StridesFit (ds ++ n :: es)) :
    StridesFit (ds ++ es) := by
  induction ds with
  | nil => exact hfits.2
  | cons d ds ih =>
    have hfewer : (ds ++ es).prod ≤ (ds ++ n :: es).prod := by
      rw [List.prod_append, List.prod_append, List.prod_cons, Nat.mul_left_comm]
      exact Nat.le_mul_of_pos_left _ hpos
    exact ⟨Nat.le_trans hfewer hfits.1, ih hfits.2⟩

/-- An admissible shape stays so without one positive axis. -/
theorem Admits.eraseAxis {outer inner : Shape} {n : Int} (hpos : 0 < n)
    (h : Admits (outer ++ n :: inner)) :
    Admits (outer ++ inner) where
  nonneg := fun d hmem => h.nonneg d (by
    rcases List.mem_append.1 hmem with hmem | hmem
    · exact List.mem_append_left _ hmem
    · exact List.mem_append_right _ (List.mem_cons_of_mem _ hmem))
  count_le := by
    refine Nat.le_trans ?_ h.count_le
    simp only [Shape.count, Shape.dims, List.map_append, List.map_cons, List.prod_append,
      List.prod_cons]
    rw [Nat.mul_left_comm]
    exact Nat.le_mul_of_pos_left _ (by omega)
  fits := by
    have hfits := h.fits
    simp only [Shape.dims, List.map_append, List.map_cons] at hfits ⊢
    exact hfits.eraseAxis (by omega)

end TensorLayout

namespace ReductionIterator

/-! ## The groups along an axis -/

variable {layout : TensorLayout} {axis : Nat} {given : Int}

/-- The constructor accepts an axis that has elements, also of a layout without any. -/
theorem ofLayout_empty (hempty : layout.numel = 0) (hinside : axis < layout.rank)
    (hnormalized : normalize layout.rank given = axis) (hpos : 0 < layout.shape.getD axis 0)
    (hint64 : Shape.Int64 layout.shape) :
    ∃ it, ofLayout layout [given] false = .ok it ∧ it.outputNumel = 0 ∧ it.reductionNumel ≠ 0 := by
  have hwithin : axis < layout.shape.length := hinside
  have hsplit : layout.shape = layout.shape.take axis ++
      layout.shape.getD axis 0 :: layout.shape.drop (axis + 1) := by
    rw [List.getD_eq_getElem?_getD, List.getElem?_eq_getElem hwithin, Option.getD_some,
      List.getElem_cons_drop, List.take_append_drop]
  have hmember : layout.shape.getD axis 0 ∈ layout.shape := by
    rw [List.getD_eq_getElem?_getD, List.getElem?_eq_getElem hwithin]
    exact List.getElem_mem hwithin
  generalize houterEq : layout.shape.take axis = outer at hsplit
  generalize hinnerEq : layout.shape.drop (axis + 1) = inner at hsplit
  generalize hextentEq : layout.shape.getD axis 0 = n at *
  have hsmall := hint64 n hmember
  have hlength : outer.length = axis := by
    rw [← houterEq, List.length_take]
    omega
  have hrank : layout.rank = outer.length + inner.length + 1 := by
    rw [TensorLayout.rank, hsplit, List.length_append, List.length_cons]
    omega
  have hadmitsOutput : TensorLayout.Admits (outer ++ inner) :=
    (hsplit ▸ layout.admits).eraseAxis hpos
  have hadmitsReduction : TensorLayout.Admits [n] := by
    refine ⟨by simpa using Int.le_of_lt hpos, ?_, ⟨by decide, trivial⟩⟩
    have hint64Max_le : int64Max ≤ sizeMax := by decide
    simp only [Shape.count, Shape.dims, List.map_cons, List.map_nil, List.prod_singleton]
    omega
  have houtputShape : outputShapeOf false (maskOf layout.rank [axis]) layout.shape =
    outer ++ inner := by
    rw [outputShapeOf_eq, hrank, ← hlength, maskOf_single, hsplit, if_neg (by decide),
      pick_outer, pick, if_neg (by decide), pick_replicate]
  have hreductionShape : ([axis].insertionSort (· ≤ ·)).map (layout.shape.getD · 0) = [n] := by
    rw [← hextentEq]
    rfl
  have hloop : [given].foldlM (addAxis layout.rank) (List.replicate layout.rank false, []) =
      .ok (maskOf layout.rank [axis], [axis]) := by
    have hnone : (List.replicate layout.rank false, ([] : List Nat)) =
      (maskOf layout.rank [], []) := by
      rw [maskOf]
      simp [List.map_const']
    have hpicked : axisNats layout.rank [given] = [axis] := by
      rw [axisNats, List.map_singleton, hnormalized, Int.toNat_natCast]
    have hinside' : ∀ axis ∈ [given],
        0 ≤ normalize layout.rank axis ∧ normalize layout.rank axis < layout.rank := by
      simp only [List.mem_singleton, forall_eq, hnormalized]
      omega
    have hnodup : (([] : List Nat) ++ axisNats layout.rank [given]).Nodup := by
      rw [hpicked]
      simp
    have hadded := foldlM_addAxis hinside' hnodup
    rw [hnone, hadded, hpicked]
    rfl
  have hcount : Shape.count (outer ++ inner) = 0 := by
    have htotal : layout.numel = n.toNat * Shape.count (outer ++ inner) := by
      rw [TensorLayout.numel, hsplit]
      simp only [Shape.count, Shape.dims, List.map_append, List.map_cons, List.prod_append,
        List.prod_cons]
      ring
    rw [hempty, eq_comm, Nat.mul_eq_zero] at htotal
    exact htotal.resolve_left (by omega)
  refine ⟨_, check_ok.2 ⟨rfl, bind_ok.2 ⟨_, hloop, bind_ok.2 ⟨.contiguous _ hadmitsOutput, ?_,
    bind_ok.2 ⟨.contiguous _ hadmitsReduction, ?_,
      bind_ok.2 ⟨_, TensorLayout.ofShape_ok.2 ⟨layout.admits, rfl⟩, rfl⟩⟩⟩⟩⟩, hcount, ?_⟩
  · exact TensorLayout.ofShape_ok.2 ⟨houtputShape ▸ hadmitsOutput, by simp only [houtputShape]⟩
  · exact TensorLayout.ofShape_ok.2
      ⟨hreductionShape ▸ hadmitsReduction, by simp only [hreductionShape]⟩
  · show Shape.count [n] ≠ 0
    simp only [Shape.count, Shape.dims, List.map_cons, List.map_nil, List.prod_singleton]
    omega

/-- The rank of the `r`-th member of a group along an axis. -/
theorem Reduces.join_single {it : ReductionIterator}
    (h : Reduces layout (maskOf layout.rank [axis]) false it) (hinside : axis < layout.rank)
    {o r : Nat} (ho : o < it.outputNumel) (hr : r < it.reductionNumel) :
    join (maskOf layout.rank [axis]) layout.dims o r =
      (o / Shape.count (layout.shape.drop (axis + 1)) * (layout.shape.getD axis 0).toNat + r) *
          Shape.count (layout.shape.drop (axis + 1)) +
        o % Shape.count (layout.shape.drop (axis + 1)) := by
  have hsingle := h.reductionNumel_single hinside
  obtain ⟨ds, es, hdims, hlength, hmask⟩ := dims_single hinside
  have hinner : Shape.count (layout.shape.drop (axis + 1)) = es.prod := by
    have hdropped : layout.dims.drop (axis + 1) = es := by
      rw [hdims, ← hlength, List.drop_append, List.drop_eq_nil_of_le (Nat.le_succ _)]
      simp
    rw [Shape.count, Shape.dims, List.map_drop]
    exact congrArg List.prod hdropped
  rw [h.outputNumel, hmask, hdims, pick_outer, pick, if_neg (by decide), pick_replicate,
    List.prod_append] at ho
  rw [hsingle] at hr
  rw [hmask, hdims, join_axis ho hr, hinner]
  ring

end ReductionIterator

namespace Ops

open ReductionIterator

variable {F : Type} [KernelScalar F] {input output : Tensor F} {axis : Nat} {it : ReductionIterator}

/-! ## Groups of values -/

theorem group_index {q n r r' inner s : Nat} (hr : r < n) (hs : s < inner) :
    (((q * n + r) * inner + s) / (n * inner) * n + r') * inner + ((q * n + r) * inner + s) % inner =
      (q * n + r') * inner + s := by
  have hquotient : ((q * n + r) * inner + s) / (n * inner) = q := by
    rw [Nat.mul_comm n, ← Nat.div_div_eq_div_mul, Nat.add_comm,
      Nat.add_mul_div_right _ _ (Nat.zero_lt_of_lt hs), Nat.div_eq_of_lt hs, Nat.zero_add,
      Nat.add_comm, Nat.add_mul_div_right _ _ (Nat.zero_lt_of_lt hr),
      Nat.div_eq_of_lt hr, Nat.zero_add]
  have hremainder : ((q * n + r) * inner + s) % inner = s := by
    rw [Nat.add_comm, Nat.add_mul_mod_self_right, Nat.mod_eq_of_lt hs]
  rw [hquotient, hremainder]

/-- The members of a group are the elements that differ along the axis. -/
theorem group_values (h : Reduces input.layout (maskOf input.layout.rank [axis]) false it)
    (hinside : axis < input.layout.rank) {o r : Nat} (ho : o < it.outputNumel)
    (hr : r < it.reductionNumel) :
    values input it (join (maskOf input.layout.rank [axis]) input.layout.dims) o =
      input.contents.group axis (join (maskOf input.layout.rank [axis]) input.layout.dims o r) := by
  have hsingle := h.reductionNumel_single hinside
  have hpositive : 0 < Shape.count (input.layout.shape.drop (axis + 1)) := by
    have hpos := pos_of_numel (Nat.zero_lt_of_lt (h.join_lt ho hr))
    refine List.prod_pos_iff_forall_pos_nat.2 fun d hmem => hpos d ?_
    rw [Shape.dims, List.map_drop] at hmem
    exact List.mem_of_mem_drop hmem
  unfold values TensorValue.group
  rw [hsingle]
  refine List.map_congr_left fun r' hmem => ?_
  have hr' : r' < it.reductionNumel := by
    rw [hsingle]
    exact List.mem_range.1 hmem
  refine (input.get_contents (h.join_lt ho hr')).symm.trans (congrArg input.contents.get ?_)
  rw [h.join_single hinside ho hr, h.join_single hinside ho hr']
  exact (group_index (hsingle ▸ hr) (Nat.mod_lt o hpositive)).symm

/-! ## The kernels -/

omit [KernelScalar F] in
/-- A kernel that stores through `setData`, by what it stores. -/
theorem eq_fill {data : Nat → F} {f : Nat → F} (hinside : ∀ i < output.numel, data i = f i)
    (houtside : ∀ i, output.numel ≤ i → data i = output.data i) :
    output.setData data = output.fill f := by
  refine congrArg output.setData (funext fun i => ?_)
  split
  · rename_i hless
    exact hinside i hless
  · rename_i hbeyond
    exact houtside i (Nat.not_lt.1 hbeyond)

omit [KernelScalar F] in
/-- There is nothing to store in a tensor without elements. -/
theorem fill_empty (hempty : output.numel = 0) (f : Nat → F) : output.fill f = output :=
  (eq_fill (fun i hless => by omega) fun _ _ => rfl : output.setData output.data =
    output.fill f).symm

omit [KernelScalar F] in
theorem requireLike_ok (what : String) (hfloat : input.dtype = .float32)
    (haccepts : Accepts output input.spec) :
    requireLike output input what = .ok () := by
  have hshape : output.shape = input.shape := haccepts.shape
  have hdtype : output.dtype = .float32 := haccepts.dtype.trans hfloat
  unfold requireLike
  rw [require_ok, hshape, hdtype, haccepts.contiguous]
  simp

omit [KernelScalar F] in
/-- A kernel that stores the elements of every group. -/
theorem fill_of_groups {axes : List Int} {keepdim : Bool} {index : Nat → Nat → Nat}
    {data f : Nat → F} (hgroups : Groups input.layout axes keepdim it index)
    (hnumel : output.numel = input.numel)
    (hstored : ∀ o < it.outputNumel, ∀ r < it.reductionNumel, data (index o r) = f (index o r))
    (hkept : ∀ i, input.numel ≤ i → data i = output.data i) :
    output.setData data = output.fill f := by
  refine eq_fill (fun i hless => ?_) fun i hbeyond => hkept i (hnumel ▸ hbeyond)
  rw [hnumel] at hless
  obtain ⟨⟨o, r⟩, ⟨ho, hr⟩, rfl⟩ := hgroups.bijOn.surjOn (show i < input.layout.numel from hless)
  exact hstored o ho r hr

theorem softmaxOut_setData {given : Int} {result : Tensor F}
    (h : softmaxOut output input given = .ok result) :
    ∃ data, result = output.setData data := by
  obtain ⟨-, h⟩ := check_ok.1 h
  obtain ⟨it, -, h⟩ := bind_ok.1 h
  obtain ⟨-, h⟩ := check_ok.1 h
  obtain ⟨-, h⟩ := check_ok.1 h
  obtain ⟨_, -, h⟩ := bind_ok.1 h
  obtain ⟨_, -, h⟩ := bind_ok.1 h
  obtain ⟨data, -, h⟩ := bind_ok.1 h
  cases h
  exact ⟨data, rfl⟩

theorem layerNormImpl_setData {weight bias : Option (Tensor F)} {epsilon : F} {result : Tensor F}
    (h : layerNormImpl output input weight bias epsilon = .ok result) :
    ∃ data, result = output.setData data := by
  obtain ⟨-, h⟩ := check_ok.1 h
  obtain ⟨-, h⟩ := check_ok.1 h
  obtain ⟨-, h⟩ := check_ok.1 h
  obtain ⟨-, h⟩ := check_ok.1 h
  obtain ⟨-, h⟩ := check_ok.1 h
  obtain ⟨-, h⟩ := check_ok.1 h
  obtain ⟨it, -, h⟩ := bind_ok.1 h
  obtain ⟨_, -, h⟩ := bind_ok.1 h
  obtain ⟨_, -, h⟩ := bind_ok.1 h
  obtain ⟨data, -, h⟩ := bind_ok.1 h
  cases h
  exact ⟨data, rfl⟩

/-- One axis of a layout. -/
theorem validAxes_single (layout : TensorLayout) {given : Int} (hinside : axis < layout.rank)
    (hnormalized : normalize layout.rank given = axis) :
    ValidAxes layout.rank [given] ∧ axisNats layout.rank [given] = [axis] := by
  refine ⟨⟨by simp, ?_, by simp⟩, ?_⟩
  · simp only [List.mem_singleton, forall_eq, hnormalized]
    omega
  · rw [axisNats, List.map_singleton, hnormalized, Int.toNat_natCast]

/-- `softmax_out` stores the softmax of every element in its group. -/
theorem softmaxOut_fill {given : Int} (hfloat : input.dtype = .float32)
    (hint64 : Shape.Int64 input.shape) (hinside : axis < input.rank)
    (hnormalized : normalize input.rank given = axis) (hpos : 0 < input.shape.getD axis 0)
    (haccepts : Accepts output input.spec) :
    softmaxOut output input given = .ok (output.fill fun i =>
      softmaxOf (input.contents.group axis i) (input.contents.get i)) := by
  have hlike :=
    requireLike_ok "softmax output must be contiguous and match the input" hfloat haccepts
  have hdtype : output.dtype = .float32 := haccepts.dtype.trans hfloat
  have hnumel : output.numel = input.numel := congrArg Shape.count haccepts.shape
  obtain ⟨hvalid, hpicked⟩ := validAxes_single input.layout hinside hnormalized
  rcases Nat.eq_zero_or_pos input.numel with hempty | hnonempty
  · obtain ⟨it, hbuilt, hnone, hsome⟩ := ofLayout_empty hempty hinside hnormalized hpos hint64
    rw [fill_empty (hnumel.trans hempty)]
    refine check_ok.2 ⟨requireF32_ok hfloat _, bind_ok.2 ⟨it, hbuilt, check_ok.2
      ⟨require_ok.2 (decide_eq_true hsome), check_ok.2 ⟨hlike, bind_ok.2 ⟨_, floats_ok hfloat,
        bind_ok.2 ⟨_, floats_ok hdtype, ?_⟩⟩⟩⟩⟩⟩
    rw [hnone]
    rfl
  · obtain ⟨it, hbuilt, hreduces⟩ := ofLayout_ok false hnonempty hvalid
    have hgroups := hreduces.groups
    rw [hpicked] at hreduces hgroups
    have hreduced : 0 < it.reductionNumel := by
      rw [hreduces.reductionNumel_single hinside]
      exact Int.pos_iff_toNat_pos.1 hpos
    obtain ⟨result, hdone, hstored, hkept⟩ :=
      softmaxOut_ok hbuilt hgroups hfloat hreduced rfl rfl hlike
    obtain ⟨data, rfl⟩ := softmaxOut_setData hdone
    refine hdone.trans (congrArg Except.ok
      (fill_of_groups hgroups hnumel (fun o ho r hr => ?_) hkept))
    refine (hstored o ho r hr).trans ?_
    rw [group_values hreduces hinside ho hr, input.get_contents (hreduces.join_lt ho hr)]

omit [KernelScalar F] in
/-- A parameter that was checked has an element for each of the last dimension. -/
theorem checkParameter_numel {width : Int} {parameter : Tensor F}
    (hchecked : checkParameter width parameter = .ok ()) : parameter.numel = width.toNat := by
  have hshape := beq_iff_eq.1 (require_ok.1 (check_ok.1 hchecked).2)
  have hnumel : parameter.numel = Shape.count parameter.shape := rfl
  rw [hnumel, hshape]
  exact List.prod_singleton

/-- The affine parameters enter at the element's place in its row. -/
theorem affineOf_eq {weight bias : Option (Tensor F)} {r : Nat}
    (hweights : ∀ p ∈ weight, r < p.numel) (hbiases : ∀ p ∈ bias, r < p.numel) (value : F) :
    affineOf weight bias r value = affineAt (weight.map Tensor.contents)
      (bias.map Tensor.contents) r value := by
  have helement {parameter : Option (Tensor F)} (hinside : ∀ p ∈ parameter, r < p.numel)
    (op : F → F → F)
      (value : F) : (parameter.elim value fun p => op value (p.logicalElement r)) =
        (parameter.map Tensor.contents).elim value fun v => op value (v.get r) := by
    cases parameter with
    | none => rfl
    | some p => exact congrArg (op value) (p.get_contents (hinside p rfl)).symm
  unfold affineOf affineAt
  dsimp only
  rw [helement hweights (· * ·), helement hbiases (· + ·)]

/-- `layer_norm_impl` stores every element normalized in its group. -/
theorem layerNormImpl_fill {weight bias : Option (Tensor F)} {epsilon : F}
    (hfloat : input.dtype = .float32) (hint64 : Shape.Int64 input.shape)
    (hpos : 0 < input.shape.getLastD 0) (hfinite : Scalar.isFinite epsilon = true ∧ ¬ epsilon < 0)
    (hweights : ∀ p ∈ weight, checkParameter (input.shape.getLastD 0) p = .ok ())
    (hbiases : ∀ p ∈ bias, checkParameter (input.shape.getLastD 0) p = .ok ())
    (haccepts : Accepts output input.spec) :
    layerNormImpl output input weight bias epsilon = .ok (output.fill fun i =>
      layerNormAt (input.contents.group (input.rank - 1) i) (weight.map Tensor.contents)
        (bias.map Tensor.contents) epsilon (i % (input.shape.getLastD 0).toNat)
        (input.contents.get i)) := by
  have hlike :=
    requireLike_ok "layer_norm output must be contiguous and match the input" hfloat haccepts
  have hdtype : output.dtype = .float32 := haccepts.dtype.trans hfloat
  have hnumel : output.numel = input.numel := congrArg Shape.count haccepts.shape
  -- the normalized axis is the last one
  have hlast : input.shape.getD (input.rank - 1) 0 = input.shape.getLastD 0 := by
    rw [List.getLastD_eq_getLast?, List.getLast?_eq_getElem?, List.getD_eq_getElem?_getD]
    rfl
  have hrank : 0 < input.rank := by
    by_contra hnone
    have hempty : input.shape = [] := List.eq_nil_of_length_eq_zero (Nat.eq_zero_of_not_pos hnone)
    rw [hempty] at hpos
    exact absurd hpos (by decide)
  have hinside : input.rank - 1 < input.layout.rank := Nat.sub_lt hrank Nat.one_pos
  have hnormalized : normalize input.layout.rank (-1) = (input.rank - 1 : Nat) := by
    unfold ReductionIterator.normalize
    rw [if_pos (by decide), show input.layout.rank = input.rank from rfl]
    omega
  rw [← hlast] at hpos
  obtain ⟨hvalid, hpicked⟩ := validAxes_single input.layout hinside hnormalized
  rcases Nat.eq_zero_or_pos input.numel with hempty | hnonempty
  -- no element: nothing is written
  · obtain ⟨it, hbuilt, hnone, hsome⟩ := ofLayout_empty hempty hinside hnormalized hpos hint64
    rw [fill_empty (hnumel.trans hempty)]
    refine check_ok.2 ⟨requireF32_ok hfloat _,
      check_ok.2 ⟨require_ok.2 (decide_eq_true (hlast ▸ hpos)), ?_⟩⟩
    refine check_ok.2 ⟨require_ok.2 (by simp [hfinite.1, hfinite.2]), ?_⟩
    refine check_ok.2 ⟨forM_ok.2 fun p hmem => hweights p (Option.mem_toList.1 hmem), ?_⟩
    refine check_ok.2 ⟨forM_ok.2 fun p hmem => hbiases p (Option.mem_toList.1 hmem),
      check_ok.2 ⟨hlike, ?_⟩⟩
    refine bind_ok.2 ⟨it, hbuilt,
      bind_ok.2 ⟨_, floats_ok hfloat, bind_ok.2 ⟨_, floats_ok hdtype, ?_⟩⟩⟩
    rw [hnone]
    rfl
  -- one group for each row
  · obtain ⟨it, hbuilt, hreduces⟩ := ofLayout_ok false hnonempty hvalid
    have hgroups := hreduces.groups
    rw [hpicked] at hreduces hgroups
    have hwidth := hreduces.reductionNumel_single hinside
    rw [show input.layout.shape = input.shape from rfl, hlast] at hwidth
    have hreduced : 0 < it.reductionNumel := by
      rw [hwidth, ← hlast]
      exact Int.pos_iff_toNat_pos.1 hpos
    obtain ⟨result, hdone, hstored, hkept⟩ :=
      layerNormImpl_ok hbuilt hgroups hfloat hwidth hreduced rfl rfl hlike hfinite hweights hbiases
    obtain ⟨data, rfl⟩ := layerNormImpl_setData hdone
    refine hdone.trans (congrArg Except.ok
      (fill_of_groups hgroups hnumel (fun o ho r hr => ?_) hkept))
    -- the member of a group that `gamma` and `beta` are taken at
    have hmember : join (maskOf input.layout.rank [input.rank - 1]) input.layout.dims o r %
        (input.shape.getLastD 0).toNat = r := by
      rw [hreduces.join_single hinside ho hr, ← hwidth]
      have hinner : input.layout.shape.drop (input.rank - 1 + 1) = [] := by
        rw [Nat.sub_add_cancel hrank]
        exact List.drop_eq_nil_of_le (Nat.le_refl _)
      rw [hinner, show Shape.count [] = 1 from rfl, Nat.mul_one, Nat.mod_one, Nat.add_zero,
        show (input.layout.shape.getD (input.rank - 1) 0).toNat = it.reductionNumel by
          rw [hwidth, ← hlast]; rfl,
        Nat.mul_comm, Nat.mul_add_mod, Nat.mod_eq_of_lt hr]
    refine (hstored o ho r hr).trans ?_
    rw [hmember, group_values hreduces hinside ho hr, ← input.get_contents (hreduces.join_lt ho hr)]
    exact affineOf_eq (fun p hmem => (checkParameter_numel (hweights p hmem)).symm ▸ hwidth ▸ hr)
      (fun p hmem => (checkParameter_numel (hbiases p hmem)).symm ▸ hwidth ▸ hr) _

end Ops

end TinyInfer
