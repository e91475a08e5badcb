import TinyInfer.Backend.Cuda.GemmDescriptor
import TinyInfer.Backend.Cuda.Kernels
import TinyInfer.Core.ReductionIteratorExact

/-!
# The elements that the CUDA kernels access

The kernels read the elements that the iterators of the CPU visit, write every element of the
output once, and compute no `int` that overflows (`kernel_indices`).
-/

namespace TinyInfer.Backend.Cuda

open Lib.RowMajor

/-! ## The parameters -/

theorem mapM_some {α β : Type} {f : α → Option β} (g : α → β) {as : List α}
    (heach : ∀ a ∈ as, f a = some (g a)) : as.mapM f = some (as.map g) := by
  induction as with
  | nil => rfl
  | cons a as ih =>
    obtain ⟨hhead, htail⟩ := List.forall_mem_cons.1 heach
    rw [List.mapM_cons, hhead, ih htail]
    rfl

/-- The first entries of an array. -/
theorem array4_some {values : List Nat} (hfits : values.length ≤ 4) :
    ∃ array, array4 values = some array ∧ ∀ d, d < values.length → array[d]? = values[d]? :=
  ⟨_, if_pos hfits, fun _ hinside => List.getElem?_append_left hinside⟩

theorem mapM_cast {shape : Shape} (hnonneg : ∀ d ∈ shape, 0 ≤ d)
    (hfits : ∀ d ∈ shape, d ≤ Machine.int32Max) :
    shape.mapM Machine.cast = some (Shape.dims shape) :=
  mapM_some Int.toNat fun d hmem => Machine.cast_of_le (hnonneg d hmem) (hfits d hmem)

/-- The parameters of an output that fits. -/
theorem baseParams_some {value : TensorDescriptor} (hfits : Fits value) :
    ∃ p, baseParams value.spec.shape = some p ∧ p.count = Shape.count value.spec.shape ∧
      p.rank = value.spec.shape.length ∧ p.inner = 1 ∧
      ∀ d, d < value.spec.shape.length → p.dims[d]? = (Shape.dims value.spec.shape)[d]? := by
  have hrank : (Shape.dims value.spec.shape).length ≤ 4 := by
    rw [Shape.dims, List.length_map]
    exact hfits.rank_le
  obtain ⟨dims, hmade, hentries⟩ := array4_some hrank
  refine ⟨{ count := Shape.count value.spec.shape, rank := value.spec.shape.length, dims }, ?_, rfl,
    rfl, rfl, fun d hinside => hentries d (by simpa [Shape.dims] using hinside)⟩
  rw [baseParams, Machine.cast_natCast hfits.count_le, mapM_cast hfits.admits.nonneg hfits.dims_le]
  show (array4 _ >>= _) = _
  rw [hmade]
  rfl

/-! ## Addition -/

/-- The strides that `broadcast` sets for the dimensions of an operand. -/
def kernelStrides (shape : Shape) (strides : Strides) : List Nat :=
  (shape.zip strides).map fun dimension => if dimension.1 ≠ 1 then dimension.2.toNat else 0

theorem length_kernelStrides {shape : Shape} {strides : Strides}
    (hwidth : strides.length = shape.length) :
    (kernelStrides shape strides).length = shape.length := by
  rw [kernelStrides, List.length_map, List.length_zip, hwidth, Nat.min_self]

/-- A dimension of extent one has stride zero instead of coordinate zero. -/
theorem dot_kernelStrides {shape : Shape} (hnonneg : ∀ d ∈ shape, 0 ≤ d) (strides : Strides)
    (coords : List Nat) :
    dot (kernelStrides shape strides) coords = dot (TensorLayout.strideNats strides)
      (List.zipWith (fun extent c => if extent = 1 then 0 else c) (Shape.dims shape) coords) := by
  induction shape generalizing strides coords with
  | nil =>
    cases strides <;> rfl
  | cons d shape ih => cases strides with
    | nil => rfl
    | cons s strides => cases coords with
      | nil => rfl
      | cons c coords =>
        obtain ⟨hhead, htail⟩ := List.forall_mem_cons.1 hnonneg
        have hone : d.toNat = 1 ↔ d = 1 := by omega
        show c * (if d ≠ 1 then s.toNat else 0) + dot (kernelStrides shape strides) coords =
          (if d.toNat = 1 then 0 else c) * s.toNat + dot _ _
        rw [ih htail]
        by_cases hhere : d = 1
        · rw [if_neg (not_not.2 hhere), if_pos (hone.2 hhere), Nat.mul_zero, Nat.zero_mul]
          rfl
        · rw [if_pos hhere, if_neg fun hsame => hhere (hone.1 hsame)]
          rfl

theorem mem_contiguousStrides_le {dims : List Nat} (hpos : ∀ d ∈ dims, 0 < d) {s : Nat}
    (hmem : s ∈ Lib.RowMajor.contiguousStrides dims) : s ≤ dims.prod := by
  induction dims with
  | nil => exact absurd hmem List.not_mem_nil
  | cons d dims ih =>
    obtain ⟨hhead, htail⟩ := List.forall_mem_cons.1 hpos
    rw [List.prod_cons]
    rcases List.mem_cons.1 hmem with hsame | hinner
    · rw [hsame]
      exact Nat.le_mul_of_pos_left _ hhead
    · exact Nat.le_trans (ih htail hinner) (Nat.le_mul_of_pos_left _ hhead)

theorem Fits.viewStrides {value : TensorDescriptor} (hfits : Fits value) :
    viewStrides value = TensorLayout.contiguousStrides value.spec.shape := by
  unfold Cuda.viewStrides
  cases hgiven : value.strides with
  | none => rfl
  | some strides => exact hfits.contiguous strides hgiven

/-- `broadcast` does not overflow for an operand with elements. -/
theorem broadcast_some {value : TensorDescriptor} (hfits : Fits value)
    (hpos : ∀ d ∈ Shape.dims value.spec.shape, 0 < d) {rank : Nat}
    (hle : value.spec.shape.length ≤ rank) (hsmall : rank ≤ 4) :
    ∃ strides, broadcast rank value = some strides ∧ ∀ d, d < rank →
      strides[d]? = (List.replicate (rank - value.spec.shape.length) 0 ++
        kernelStrides value.spec.shape (TensorLayout.contiguousStrides value.spec.shape))[d]? := by
  have hwidth : (TensorLayout.contiguousStrides value.spec.shape).length =
    value.spec.shape.length := by
    simp [TensorLayout.contiguousStrides, Shape.dims]
  have hlength : (List.replicate (rank - value.spec.shape.length) 0 ++
      kernelStrides value.spec.shape (TensorLayout.contiguousStrides value.spec.shape)).length =
        rank := by
    rw [List.length_append, List.length_replicate, length_kernelStrides hwidth]
    omega
  obtain ⟨strides, hmade, hentries⟩ := array4_some (Nat.le_trans (Nat.le_of_eq hlength) hsmall)
  refine ⟨strides, ?_, fun d hinside => hentries d (by rwa [hlength])⟩
  have heach : (value.spec.shape.zip (TensorLayout.contiguousStrides value.spec.shape)).mapM
    broadcastStride =
      some (kernelStrides value.spec.shape (TensorLayout.contiguousStrides value.spec.shape)) := by
    refine mapM_some _ fun dimension hmem => ?_
    obtain ⟨n, hentry, hsame⟩ := List.mem_map.1 (List.of_mem_zip hmem).2
    have hle := mem_contiguousStrides_le hpos hentry
    have hstride : dimension.2 = (n : Int) := hsame.symm
    unfold broadcastStride
    split
    · rw [hstride, Int.toNat_natCast]
      exact Machine.cast_natCast (Nat.le_trans hle hfits.count_le)
    · rfl
  rw [broadcast, hfits.viewStrides, heach]
  exact hmade

/-- The loop of the kernel is exact where the offsets fit. -/
theorem addIndices_some {p : Params} {dims as bs : List Nat} (hpos : ∀ d ∈ dims, 0 < d)
    (hdimsEq : ∀ d < dims.length, p.dims[d]? = dims[d]?)
    (hasEq : ∀ d < dims.length, p.aStrides[d]? = as[d]?)
    (hbsEq : ∀ d < dims.length, p.bStrides[d]? = bs[d]?) (hlengthA : as.length = dims.length)
    (hlengthB : bs.length = dims.length) {rank : Nat} (hle : rank ≤ dims.length)
    {remaining ai bi : Nat} (hfitsA : ai + dot (as.take rank)
      (coordinates (dims.take rank) remaining) ≤ Machine.int32Max) (hfitsB :
      bi + dot (bs.take rank) (coordinates (dims.take rank) remaining) ≤ Machine.int32Max) :
    addIndices p rank remaining ai bi =
      some (ai + dot (as.take rank) (coordinates (dims.take rank) remaining),
        bi + dot (bs.take rank) (coordinates (dims.take rank) remaining)) := by
  induction rank generalizing remaining ai bi with
  | zero => rfl
  | succ d ih =>
    have hless : d < dims.length := hle
    have hextent : 0 < dims[d] := hpos _ (List.getElem_mem hless)
    have hsnoc {xs : List Nat} (hlength : xs.length = dims.length) :
        dot (xs.take (d + 1)) (coordinates (dims.take (d + 1)) remaining) =
          dot (xs.take d) (coordinates (dims.take d) (remaining / dims[d])) +
            remaining % dims[d] * xs[d] := by
      have hshorter : (coordinates (dims.take d) (remaining / [dims[d]].prod)).length =
        (xs.take d).length := by
        rw [length_coordinates, List.length_take, List.length_take, hlength]
      rw [List.take_add_one, List.take_add_one, List.getElem?_eq_getElem hless,
        List.getElem?_eq_getElem (by omega), Option.toList_some, Option.toList_some,
        coordinates_append, dot_append _ _ hshorter]
      simp [coordinates, dot]
    rw [hsnoc hlengthA, ← Nat.add_assoc, Nat.add_right_comm] at hfitsA
    rw [hsnoc hlengthB, ← Nat.add_assoc, Nat.add_right_comm] at hfitsB
    rw [hsnoc hlengthA, hsnoc hlengthB, Nat.add_comm (dot (as.take d) _),
      Nat.add_comm (dot (bs.take d) _), ← Nat.add_assoc, ← Nat.add_assoc]
    have hproductA : remaining % dims[d] * as[d] ≤ Machine.int32Max := by omega
    have hproductB : remaining % dims[d] * bs[d] ≤ Machine.int32Max := by omega
    rw [addIndices, hdimsEq d hless, hasEq d hless, hbsEq d hless, List.getElem?_eq_getElem hless,
      List.getElem?_eq_getElem (show d < as.length by omega),
      List.getElem?_eq_getElem (show d < bs.length by omega)]
    simp only [Option.bind_eq_bind, Option.bind_some, Machine.mod_of_pos hextent,
      Machine.div_of_pos hextent, Machine.int_of_le hproductA, Machine.int_of_le hproductB]
    rw [Machine.int_of_le (by omega), Machine.int_of_le (by omega)]
    exact ih (by omega) hfitsA hfitsB

/-- What an inferred addition has established: an iterator over both operands. -/
theorem inferAdd_ok {inputs specs : List TensorSpec} {attributes : NodeAttributes}
    (h : inferOutputSpecs .add inputs attributes = .ok specs) :
    ∃ (lhs rhs : TensorSpec) (hadmits : TensorLayout.Admits lhs.shape)
      (hadmits' : TensorLayout.Admits rhs.shape) (it : TensorIterator), inputs = [lhs, rhs] ∧
        specs = [⟨it.shape, lhs.dtype⟩] ∧
        TensorIterator.ofOperands
          [.contiguous lhs.shape hadmits, .contiguous rhs.shape hadmits'] = .ok it := by
  obtain ⟨hfewest, hmost, -, out, rfl, hinferred⟩ := inferOutputSpecs_checked h
  obtain ⟨lhs, rhs, rfl⟩ := List.length_eq_two.1 (Nat.le_antisymm hmost hfewest)
  obtain ⟨-, hinferred⟩ := check_ok.1 hinferred
  obtain ⟨left, hbuiltLeft, hinferred⟩ := bind_ok.1 hinferred
  obtain ⟨right, hbuiltRight, hinferred⟩ := bind_ok.1 hinferred
  obtain ⟨it, hmade, hinferred⟩ := bind_ok.1 hinferred
  cases hinferred
  obtain ⟨hadmits, rfl⟩ := TensorLayout.ofShape_ok.1 hbuiltLeft
  obtain ⟨hadmits', rfl⟩ := TensorLayout.ofShape_ok.1 hbuiltRight
  exact ⟨lhs, rhs, hadmits, hadmits', it, rfl, rfl, hmade⟩

/-- The strides of the kernel give the offset of a broadcast operand. -/
theorem dot_broadcast {shape out : Shape} (hadmits : TensorLayout.Admits shape) (i : Nat) :
    dot (List.replicate (out.length - shape.length) 0 ++
        kernelStrides shape (TensorLayout.contiguousStrides shape))
          (coordinates (Shape.dims out) i) =
      TensorIterator.naiveOffset (.contiguous shape hadmits) out i := by
  rw [dot_replicate_zero, dot_kernelStrides hadmits.nonneg]
  rfl

section Add

variable {lhs rhs : TensorDescriptor} {it : TensorIterator}
    {hadmits : TensorLayout.Admits lhs.spec.shape}
  {hadmits' : TensorLayout.Admits rhs.spec.shape}
  (hmade : TensorIterator.ofOperands
    [.contiguous lhs.spec.shape hadmits, .contiguous rhs.spec.shape hadmits'] = .ok it)

include hmade

/-- An operand of a sum with elements. -/
theorem operand_of_add (hnonempty : 0 < it.numel) (value : TensorDescriptor) (operand : Nat)
    {hadmits₀ : TensorLayout.Admits value.spec.shape}
    (hfound : [TensorLayout.contiguous lhs.spec.shape hadmits,
      .contiguous rhs.spec.shape hadmits'][operand]? =
      some (.contiguous value.spec.shape hadmits₀)) :
    value.spec.shape.length ≤ it.shape.length ∧ (∀ d ∈ Shape.dims value.spec.shape, 0 < d) ∧
      ∀ i < it.numel, it.operandOffset operand i =
          .ok (TensorIterator.naiveOffset (.contiguous value.spec.shape hadmits₀) it.shape i) ∧
        TensorIterator.naiveOffset (.contiguous value.spec.shape hadmits₀) it.shape i <
          Shape.count value.spec.shape := by
  have hexact := TensorIterator.operandOffset_exact hmade
  have hbuilt := TensorIterator.ofOperands_built hmade
  have hspan : (TensorLayout.contiguous value.spec.shape hadmits₀).storageSpan =
    Shape.count value.spec.shape := by
    rw [TensorLayout.storageSpan, TensorLayout.contiguous,
      TensorLayout.strideNats_contiguousStrides]
    exact span_contiguousStrides _
  refine ⟨TensorIterator.rank_le_broadcastShape hbuilt.broadcast (List.mem_of_getElem? hfound), ?_,
    fun i hinside => ?_⟩
  · have hless := (hexact.offset operand _ hfound 0 hnonempty).2.1
    rw [hspan] at hless
    exact List.prod_pos_iff_forall_pos_nat.1 (Nat.zero_lt_of_lt hless)
  · obtain ⟨hoffset, hless, -⟩ := hexact.offset operand _ hfound i hinside
    rw [hspan] at hless
    exact ⟨hoffset, hless⟩

/-- The kernel adds the elements that the iterator visits. -/
theorem add_reads (hfitsL : Fits lhs) (hfitsR : Fits rhs) (hnonempty : 0 < it.numel)
    (hrank : it.shape.length ≤ 4) {p : Params}
    (hdims : ∀ d, d < it.shape.length → p.dims[d]? = (Shape.dims it.shape)[d]?) :
    ∃ aStrides bStrides, broadcast it.shape.length lhs = some aStrides ∧
      broadcast it.shape.length rhs = some bStrides ∧
      ∀ i < it.numel, ∃ ai bi, it.operandOffset 0 i = .ok ai ∧ it.operandOffset 1 i = .ok bi ∧
        ai < Shape.count lhs.spec.shape ∧ bi < Shape.count rhs.spec.shape ∧
        addIndices { p with aStrides, bStrides } it.shape.length i 0 0 = some (ai, bi) := by
  have hbuilt := TensorIterator.ofOperands_built hmade
  obtain ⟨hleL, hposL, hoffsetL⟩ := operand_of_add hmade hnonempty lhs 0 rfl
  obtain ⟨hleR, hposR, hoffsetR⟩ := operand_of_add hmade hnonempty rhs 1 rfl
  obtain ⟨aStrides, hmadeL, hentriesL⟩ := broadcast_some hfitsL hposL hleL hrank
  obtain ⟨bStrides, hmadeR, hentriesR⟩ := broadcast_some hfitsR hposR hleR hrank
  refine ⟨aStrides, bStrides, hmadeL, hmadeR, fun i hinside => ?_⟩
  obtain ⟨hvisitedL, hlessL⟩ := hoffsetL i hinside
  obtain ⟨hvisitedR, hlessR⟩ := hoffsetR i hinside
  refine ⟨_, _, hvisitedL, hvisitedR, hlessL, hlessR, ?_⟩
  have hlength : (Shape.dims it.shape).length = it.shape.length := by
    rw [Shape.dims, List.length_map]
  have hpos : ∀ d ∈ Shape.dims it.shape, 0 < d := by
    rw [hbuilt.numel] at hnonempty
    exact List.prod_pos_iff_forall_pos_nat.1 hnonempty
  have hlengths {shape : Shape} (hle : shape.length ≤ it.shape.length) :
      (List.replicate (it.shape.length - shape.length) 0 ++
        kernelStrides shape (TensorLayout.contiguousStrides shape)).length =
          (Shape.dims it.shape).length := by
    rw [List.length_append, List.length_replicate,
      length_kernelStrides (by simp [TensorLayout.contiguousStrides, Shape.dims]), hlength]
    omega
  have hwhole {xs : List Nat} (hsame : xs.length = (Shape.dims it.shape).length) :
      xs.take it.shape.length = xs := by
    rw [← hlength, ← hsame, List.take_length]
  have hloop := @addIndices_some { p with aStrides, bStrides } (Shape.dims it.shape) _ _ hpos
    (fun d hless => hdims d (by rwa [← hlength])) (fun d hless => hentriesL d (by rwa [← hlength]))
    (fun d hless => hentriesR d (by rwa [← hlength])) (hlengths hleL) (hlengths hleR)
      it.shape.length
    (Nat.le_of_eq hlength.symm) i 0 0
  rw [hwhole rfl, hwhole (hlengths hleL), hwhole (hlengths hleR), dot_broadcast hadmits,
    dot_broadcast hadmits', Nat.zero_add, Nat.zero_add] at hloop
  exact hloop (Nat.le_trans (Nat.le_of_lt hlessL) hfitsL.count_le)
    (Nat.le_trans (Nat.le_of_lt hlessR) hfitsR.count_le)

end Add

/-! ## Softmax -/

/-- What an inferred softmax has established: an axis and its groups. -/
theorem inferSoftmax_ok {inputs specs : List TensorSpec} {attributes : NodeAttributes}
    (h : inferOutputSpecs .softmax inputs attributes = .ok specs) :
    ∃ (input : TensorSpec) (axis : Nat), inputs = [input] ∧ specs = [input] ∧
      axis < input.shape.length ∧
      ReductionIterator.normalize input.shape.length
        (integerAttribute attributes "axis" (-1)) = axis := by
  obtain ⟨hfewest, hmost, -, out, rfl, hinferred⟩ := inferOutputSpecs_checked h
  obtain ⟨input, rfl⟩ := List.length_eq_one_iff.1 (Nat.le_antisymm hmost hfewest)
  obtain ⟨-, hinferred⟩ := check_ok.1 hinferred
  obtain ⟨axis, hnormalized, hinferred⟩ := bind_ok.1 hinferred
  cases hinferred
  obtain ⟨hinside, hnormalized⟩ := check_ok.1 hnormalized
  have hbounds := of_decide_eq_true (require_ok.1 hinside)
  refine ⟨out, (ReductionIterator.normalize out.shape.length
    (integerAttribute attributes "axis" (-1))).toNat, rfl, rfl, ?_, ?_⟩
  · exact (Int.toNat_lt hbounds.1).2 hbounds.2
  · exact (Int.toNat_of_nonneg hbounds.1).symm

/-- The loop that multiplies the extents inside of the axis. -/
theorem foldlM_inner {es : List Nat} (hpos : ∀ e ∈ es, 0 < e) {inner : Nat}
    (hfits : inner * es.prod ≤ Machine.int32Max) :
    es.foldlM (fun inner extent => Machine.int (inner * extent)) inner = some
      (inner * es.prod) := by
  induction es generalizing inner with
  | nil => simp
  | cons e es ih =>
    obtain ⟨hhead, htail⟩ := List.forall_mem_cons.1 hpos
    rw [List.prod_cons, ← Nat.mul_assoc] at hfits ⊢
    have hgrows : inner * e ≤ inner * e * es.prod :=
      Nat.le_mul_of_pos_right _ (List.prod_pos_iff_forall_pos_nat.2 htail)
    rw [List.foldlM_cons, Machine.int_of_le (Nat.le_trans hgrows hfits)]
    exact ih htail hfits

/-- The parameters of the axis between `ds` and `es`. -/
theorem softmaxParams_some {p : Params} {attributes : NodeAttributes}
    {dims ds es : List Nat} {n : Nat} (hpos : ∀ d ∈ dims, 0 < d)
    (hfits : dims.prod ≤ Machine.int32Max) (hcount : p.count = dims.prod)
    (hrank : p.rank = dims.length) (hinner : p.inner = 1)
    (hentries : ∀ d < dims.length, p.dims[d]? = dims[d]?) (hsplit : dims = ds ++ n :: es)
    (haxis : ReductionIterator.normalize dims.length
      (integerAttribute attributes "axis" (-1)) = ds.length) :
    softmaxParams p attributes = some { p with
      axisSize := n, inner := es.prod, groups := ds.prod * es.prod } := by
  have hfirst : p.dims.take p.rank = dims := by
    rw [hrank]
    refine List.ext_getElem? fun d => ?_
    rw [List.getElem?_take]
    split_ifs with hinside
    · exact hentries d hinside
    · exact (List.getElem?_eq_none (Nat.not_lt.1 hinside)).symm
  have hposN : 0 < n := hpos n (by simp [hsplit])
  have hposE : ∀ e ∈ es, 0 < e := fun e hmem => hpos e (by simp [hsplit, hmem])
  have hposD : 0 < ds.prod :=
    List.prod_pos_iff_forall_pos_nat.2 fun d hmem => hpos d (by simp [hsplit, hmem])
  have htotal : dims.prod = n * (ds.prod * es.prod) := by
    rw [hsplit, List.prod_append, List.prod_cons]
    ring
  have hextent : p.dims[ds.length]? = some n := by
    rw [hentries _ (by simp [hsplit]), hsplit,
      List.getElem?_append_right (Nat.le_refl _), Nat.sub_self]
    rfl
  have hinside : (dims.drop (ds.length + 1)) = es := by
    rw [hsplit, List.drop_append, List.drop_eq_nil_of_le (by omega)]
    simp
  have hsmall : 1 * es.prod ≤ Machine.int32Max := by
    have hgrows : es.prod ≤ n * (ds.prod * es.prod) :=
      Nat.le_trans (Nat.le_mul_of_pos_left _ hposD) (Nat.le_mul_of_pos_left _ hposN)
    omega
  have hplace : (if integerAttribute attributes "axis" (-1) < 0 then
      integerAttribute attributes "axis" (-1) +
        (p.rank : Int) else integerAttribute attributes "axis" (-1)) =
        (ds.length : Int) := by
    rw [hrank]
    exact haxis
  unfold softmaxParams
  dsimp only
  rw [hplace, if_neg (by omega), Int.toNat_natCast, hextent, hfirst, hinside, hinner]
  simp only [Option.bind_eq_bind, Option.bind_some, foldlM_inner hposE hsmall,
    Machine.div_of_pos hposN]
  rw [hcount, htotal, Nat.mul_div_cancel_left _ hposN, Nat.one_mul]

/-- The elements that a thread accesses are those of its group. -/
theorem softmax_some {p : Params} {ds es : List Nat} {n g : Nat} (hpos : ∀ d ∈ ds ++ n :: es, 0 < d)
    (hfits : (ds ++ n :: es).prod ≤ Machine.int32Max) (haxisSize : p.axisSize = n)
    (hinner : p.inner = es.prod) (hinside : g < ds.prod * es.prod) {members : List Nat}
    (hgroup : members = (List.range n).map (Lib.Axes.join
      (List.replicate ds.length false ++ true :: List.replicate es.length false)
      (ds ++ n :: es) g)) :
    softmax p g = some { a := members ++ members ++ members, writes := members } := by
  have hposE : 0 < es.prod :=
    List.prod_pos_iff_forall_pos_nat.2 fun e hmem => hpos e (by simp [hmem])
  have hposN : 0 < n := hpos n (by simp)
  have hbase : g / es.prod * (n * es.prod) = g / es.prod * n * es.prod := (Nat.mul_assoc ..).symm
  -- Every member is the rank of an element, so none of them overflows.
  have hmember {j : Nat} (hj : j < n) :
    g / es.prod * n * es.prod + g % es.prod + j * es.prod < (ds ++ n :: es).prod ∧
      Lib.Axes.join (List.replicate ds.length false ++ true :: List.replicate es.length false)
        (ds ++ n :: es) g j =
        g / es.prod * n * es.prod + g % es.prod + j * es.prod := by
    have hjoined := Lib.Axes.join_axis hinside hj
    rw [hbase] at hjoined
    refine ⟨?_, hjoined⟩
    rw [← hjoined]
    refine Lib.Axes.join_lt (by simp) ?_ ?_
    · rw [Lib.Axes.pick_outer, Lib.Axes.pick, if_neg (by decide), Lib.Axes.pick_replicate,
        List.prod_append]
      exact hinside
    · rw [Lib.Axes.pick_outer_ne (by decide), Lib.Axes.pick, if_pos rfl,
        Lib.Axes.pick_replicate_ne (by decide), List.prod_singleton]
      exact hj
  have hfirst := (hmember hposN).1
  have houter : g / es.prod * n ≤ g / es.prod * n * es.prod := Nat.le_mul_of_pos_right _ hposE
  have hnumber : g ≤ Machine.int32Max := by
    have hless : ds.prod * es.prod ≤ (ds ++ n :: es).prod := by
      rw [List.prod_append, List.prod_cons]
      exact Nat.mul_le_mul_left _ (Nat.le_mul_of_pos_left _ hposN)
    omega
  -- no product of the base wraps
  have hbaseSome : softmaxBase p g = some (g / es.prod * n * es.prod + g % es.prod) := by
    unfold softmaxBase
    rw [haxisSize, hinner, Machine.int_of_le hnumber]
    simp only [Option.bind_eq_bind, Option.bind_some, Machine.div_of_pos hposE,
      Machine.mod_of_pos hposE]
    rw [Machine.int_of_le (by omega)]
    simp only [Option.bind_some]
    rw [Machine.int_of_le (by omega)]
    exact Machine.int_of_le (by omega)
  have hmembersSome : softmaxMembers p (g / es.prod * n * es.prod + g % es.prod) =
    some members := by
    rw [softmaxMembers, haxisSize, hinner, hgroup]
    refine mapM_some _ fun j hmem => ?_
    obtain ⟨hless, hjoined⟩ := hmember (List.mem_range.1 hmem)
    rw [hjoined, Machine.int_of_le (by omega)]
    exact Machine.int_of_le (by omega)
  unfold softmax
  rw [hbaseSome]
  show (softmaxMembers p _ >>= _) = _
  rw [hmembersSome]
  rfl

/-! ## The epilogue -/

/-- The index of the kernel is the offset of the broadcast bias. -/
theorem biasIndex_some {p : Params} {m n : Int} {shape : Shape} (hfits : BiasFits m n shape)
    (hadmits : TensorLayout.Admits shape) (hcount : Shape.count [m, n] ≤ Machine.int32Max)
    (hcolumns : p.columns = n.toNat)
    (hextents : (shape = [] ∧ p.biasRows = 1 ∧ p.biasColumns = 1) ∨
      (∃ c : Int, shape = [c] ∧ p.biasRows = 1 ∧ p.biasColumns = c.toNat) ∨
      ∃ r c : Int, shape = [r, c] ∧ p.biasRows = r.toNat ∧ p.biasColumns = c.toNat)
    {i : Nat} (hinside : i < Shape.count [m, n])
    (hless : TensorIterator.naiveOffset (.contiguous shape hadmits) [m, n] i ≤ Machine.int32Max) :
    biasIndex p i = some (TensorIterator.naiveOffset (.contiguous shape hadmits) [m, n] i) := by
  have harea : Shape.count [m, n] = m.toNat * n.toNat := by simp [Shape.count, Shape.dims]
  rw [harea] at hinside hcount
  have hposN : 0 < n.toNat := Nat.pos_of_ne_zero fun hzero => by simp [hzero] at hinside
  have hrow : i / n.toNat < m.toNat := Nat.div_lt_of_lt_mul (by rwa [Nat.mul_comm])
  have hsplit : i / n.toNat * n.toNat + i % n.toNat = i := by
    rw [Nat.mul_comm]
    exact Nat.div_add_mod i _
  have hoffset := TensorIterator.naiveOffset_bias
    (show BiasFits m n (TensorLayout.contiguous shape hadmits).shape from hfits) hrow
      (Nat.mod_lt i hposN)
  rw [hsplit] at hoffset
  have hvalue : TensorIterator.naiveOffset (.contiguous shape hadmits) [m, n] i =
      (if p.biasRows = 1 then 0 else i / n.toNat) * p.biasColumns +
        if p.biasColumns = 1 then 0 else i % n.toNat := by
    rw [hoffset]
    have hone (d : Int) : d.toNat = 1 ↔ d = 1 := by omega
    have hclip (d : Int) : (max d 0).toNat = d.toNat := by omega
    rcases hextents with ⟨rfl, hrows, hcols⟩ | ⟨c, rfl, hrows, hcols⟩ | ⟨r, c, rfl, hrows, hcols⟩
    · rw [hrows, hcols]
      simp [TensorLayout.contiguous]
    · rw [hrows, hcols, if_pos rfl, Nat.zero_mul]
      by_cases hhere :
        c = 1 <;> simp [TensorLayout.contiguous, TensorLayout.contiguousStrides, Shape.dims,
          Lib.RowMajor.contiguousStrides, hhere, hone]
    · rw [hrows, hcols]
      by_cases hfirst : r = 1 <;> by_cases hsecond : c = 1 <;> simp [TensorLayout.contiguous,
        TensorLayout.contiguousStrides, Shape.dims, Lib.RowMajor.contiguousStrides, hfirst,
        hsecond, hone, hclip]
  rw [hvalue] at hless ⊢
  unfold biasIndex
  rw [hcolumns, Machine.int_of_le (by omega)]
  simp only [Option.bind_eq_bind, Option.bind_some, Machine.div_of_pos hposN,
    Machine.mod_of_pos hposN]
  rw [Machine.int_of_le (by omega)]
  exact Machine.int_of_le hless

/-! ## The threads -/

theorem flatMap_blocks (blocks : Nat) :
    ((List.range blocks).flatMap fun block => (List.range 256).map (block * 256 + ·)) =
      List.range (blocks * 256) := by
  induction blocks with
  | zero => rfl
  | succ blocks ih =>
    rw [@List.range_succ blocks, List.flatMap_append, ih, Nat.succ_mul, List.range_add]
    simp

theorem filter_range {count total : Nat} (hle : count ≤ total) :
    (List.range total).filter (· < count) = List.range count := by
  obtain ⟨rest, rfl⟩ := Nat.exists_eq_add_of_le hle
  rw [List.range_add, List.filter_append]
  have hall : (List.range count).filter (· < count) = List.range count :=
    List.filter_eq_self.2 fun i hmem => decide_eq_true (List.mem_range.1 hmem)
  have hnone : ((List.range rest).map (count + ·)).filter (· < count) = [] := by
    refine List.filter_eq_nil_iff.2 fun i hmem => ?_
    obtain ⟨j, -, rfl⟩ := List.mem_map.1 hmem
    simp
  rw [hall, hnone, List.append_nil]

/-- There is one thread for each number below `count`. -/
theorem threads_eq {count : Nat} (hfits : count ≤ Machine.int32Max) :
    threads count = List.range count := by
  unfold Machine.int32Max at hfits
  rw [threads, flatMap_blocks, filter_range]
  rw [Nat.mod_eq_of_lt (by omega)]
  omega

theorem mapM_range {β : Type} {g : Nat → Option β} {n : Nat} {P : Nat → β → Prop}
    (heach : ∀ i < n, ∃ a, g i = some a ∧ P i a) :
    ∃ as, (List.range n).mapM g = some as ∧ as.length = n ∧
      ∀ i < n, ∃ a, as[i]? = some a ∧ P i a := by
  induction n with
  | zero => exact ⟨[], rfl, rfl, fun i hnone => absurd hnone (Nat.not_lt_zero i)⟩
  | succ n ih =>
    obtain ⟨as, hmade, hlength, hentries⟩ := ih fun i hless => heach i (by omega)
    obtain ⟨a, hlast, hholds⟩ := heach n (by omega)
    refine ⟨as ++ [a], ?_, by rw [List.length_append, hlength, List.length_singleton],
      fun i hless => ?_⟩
    · rw [List.range_succ, List.mapM_append, hmade, List.mapM_cons, hlast]
      rfl
    · by_cases hhere : i = n
      · refine ⟨a, ?_, hhere ▸ hholds⟩
        rw [hhere, ← hlength, List.getElem?_append_right (Nat.le_refl _), Nat.sub_self]
        rfl
      · obtain ⟨b, hentry, hholds⟩ := hentries i (by omega)
        exact ⟨b, by rw [List.getElem?_append_left (by omega), hentry], hholds⟩

theorem flatMap_writes {as : List Accesses} {n : Nat} {w : Nat → List Nat} (hlength : as.length = n)
    (heach : ∀ i < n, ∃ a, as[i]? = some a ∧ a.writes = w i) :
    as.flatMap (·.writes) = (List.range n).flatMap w := by
  have hsame : as.map (·.writes) = (List.range n).map w := by
    refine List.ext_getElem? fun i => ?_
    by_cases hless : i < n
    · obtain ⟨a, hentry, hwrites⟩ := heach i hless
      rw [List.getElem?_map, List.getElem?_map, hentry, List.getElem?_range hless, Option.map_some,
        Option.map_some, hwrites]
    · rw [List.getElem?_eq_none (by rw [List.length_map]; omega),
        List.getElem?_eq_none (by rw [List.length_map, List.length_range]; omega)]
  rw [List.flatMap_def, List.flatMap_def, hsame]

/-- The elements of all groups. -/
theorem flatMap_perm {m n total : Nat} {index : Nat → Nat → Nat}
    (hbijOn : Set.BijOn (fun p : Nat × Nat => index p.1 p.2) {p | p.1 < m ∧ p.2 < n}
      {i | i < total}) :
    ((List.range m).flatMap fun g => (List.range n).map (index g)).Perm (List.range total) := by
  have hsame {g r g' r' : Nat} (hg : g < m) (hr : r < n) (hg' : g' < m) (hr' : r' < n)
      (heq : index g r = index g' r') : g = g' ∧ r = r' := by
    have hpair : (g, r) = (g', r') := hbijOn.injOn ⟨hg, hr⟩ ⟨hg', hr'⟩ heq
    exact ⟨congrArg Prod.fst hpair, congrArg Prod.snd hpair⟩
  refine (List.perm_ext_iff_of_nodup (List.nodup_flatMap.2 ⟨fun g hmem => ?_, ?_⟩)
    List.nodup_range).2 fun i => ?_
  · have hg := List.mem_range.1 hmem
    exact List.nodup_range.map_on fun r hr r' hr' heq =>
      (hsame hg (List.mem_range.1 hr) hg (List.mem_range.1 hr') heq).2
  · refine List.nodup_range.imp_of_mem fun {g g'} hmem hmem' hne i hleft hright => hne ?_
    obtain ⟨r, hr, rfl⟩ := List.mem_map.1 hleft
    obtain ⟨r', hr', heq⟩ := List.mem_map.1 hright
    exact (hsame (List.mem_range.1 hmem) (List.mem_range.1 hr) (List.mem_range.1 hmem')
      (List.mem_range.1 hr')
      heq.symm).1
  · rw [List.mem_flatMap, List.mem_range]
    constructor
    · rintro ⟨g, hmem, hmem'⟩
      obtain ⟨r, hr, rfl⟩ := List.mem_map.1 hmem'
      exact hbijOn.mapsTo (x := (g, r)) ⟨List.mem_range.1 hmem, List.mem_range.1 hr⟩
    · intro hless
      obtain ⟨⟨g, r⟩, ⟨hg, hr⟩, heq⟩ := hbijOn.surjOn hless
      exact ⟨g, List.mem_range.2 hg, List.mem_map.2 ⟨r, List.mem_range.2 hr, heq⟩⟩

/-! ## The kernels -/

/-- The number of elements of an operand. -/
def operandCount (query : CapabilityQuery) (operand : Nat) : Nat :=
  query.inputs[operand]?.elim 0 fun value => Shape.count value.spec.shape

/-- A thread stays inside of the operands and the output. -/
structure Inside (query : CapabilityQuery) (count : Nat) (access : Accesses) : Prop where
  a : ∀ i ∈ access.a, i < operandCount query 0
  b : ∀ i ∈ access.b, i < operandCount query 1
  bias : ∀ i ∈ access.bias, i < operandCount query 2
  output : ∀ i ∈ access.output, i < count

/-- The threads of a launch access the elements that the iterators of the CPU visit. -/
structure Agrees (query : CapabilityQuery) (output : TensorDescriptor) (accesses : List Accesses) :
    Prop where
  /-- Every element of the output is written once. -/
  writes : (accesses.flatMap (·.writes)).Perm (List.range (Shape.count output.spec.shape))
  inside : ∀ access ∈ accesses, Inside query (Shape.count output.spec.shape) access
  add : query.node.op = .add → ∃ operands it,
    query.inputs.mapM (fun value => TensorLayout.ofShape value.spec.shape) = .ok operands ∧
    TensorIterator.ofOperands operands = .ok it ∧ it.shape = output.spec.shape ∧
    ∀ i < Shape.count output.spec.shape, ∃ ai bi, it.operandOffset 0 i = .ok ai ∧
      it.operandOffset 1 i = .ok bi ∧ accesses[i]? = some { a := [ai], b := [bi], writes := [i] }
  softmax : query.node.op = .softmax → ∃ layout it index,
    TensorLayout.ofShape output.spec.shape = .ok layout ∧
    ReductionIterator.ofLayout layout [integerAttribute query.node.attributes "axis" (-1)]
      false = .ok it ∧
    ReductionIterator.Groups layout [integerAttribute query.node.attributes "axis" (-1)]
      false it index ∧
    accesses.length = it.outputNumel ∧
    ∀ g < it.outputNumel, ∃ members, members = (List.range it.reductionNumel).map (index g) ∧
      accesses[g]? = some { a := members ++ members ++ members, writes := members }
  bias : isMatrix query.node.op = true → ∀ value, query.inputs[2]? = some value →
    ∃ layout operand it, TensorLayout.ofShape output.spec.shape = .ok layout ∧
    TensorLayout.ofShape value.spec.shape = .ok operand ∧
    TensorIterator.ofOperands [layout, operand] = .ok it ∧ it.shape = output.spec.shape ∧
    ∀ i < Shape.count output.spec.shape, ∃ index, it.operandOffset 1 i = .ok index ∧
      accesses[i]?.map (·.bias) = some [index]
  unary : query.node.op = .reLU ∨ query.node.op = .tanh → ∀ i < Shape.count output.spec.shape,
    accesses[i]? = some { a := [i], writes := [i] }

/-- Threads that write one element each. -/
theorem writes_perm {as : List Accesses} {n : Nat} (hlength : as.length = n)
    (heach : ∀ i < n, ∃ a, as[i]? = some a ∧ a.writes = [i]) :
    (as.flatMap (·.writes)).Perm (List.range n) := by
  rw [flatMap_writes hlength heach, List.flatMap_singleton']

theorem inside_of_getElem? {as : List Accesses} {n : Nat} {P : Accesses → Prop}
    (hlength : as.length = n) (heach : ∀ i < n, ∃ a, as[i]? = some a ∧ P a) :
    ∀ access ∈ as, P access := by
  intro access hmem
  obtain ⟨i, hless, hsame⟩ := List.mem_iff_getElem.1 hmem
  obtain ⟨a, hentry, hholds⟩ := heach i (hlength ▸ hless)
  rw [List.getElem?_eq_getElem hless, Option.some.injEq, hsame] at hentry
  rw [hentry]
  exact hholds

theorem Contract.inferred {query : CapabilityQuery} (hcontract : Contract query) :
    inferOutputSpecs query.node.op (query.inputs.map (·.spec)) query.node.attributes =
      .ok (query.outputs.map (·.spec)) := hcontract.cpu.inferred

/-- A launch with one thread for each element of the output. -/
theorem launch_elementwise (query : CapabilityQuery) {count : Nat} {kind : Kernel} {p : Params}
    (hkind_ne : kind ≠ .softmax) (hsame : p.count = count) (hfits : count ≤ Machine.int32Max)
    {P : Nat → Accesses → Prop}
    (heach : ∀ i < count, ∃ access, elementwise kind p i = some access ∧ access.writes = [i] ∧
      Inside query count access ∧ P i access) :
    ∃ accesses, launch kind p = some accesses ∧
      (accesses.flatMap (·.writes)).Perm (List.range count) ∧
      (∀ access ∈ accesses, Inside query count access) ∧
      ∀ i < count, ∃ access, accesses[i]? = some access ∧ P i access := by
  obtain ⟨accesses, hrun, hlength, hentries⟩ := mapM_range heach
  refine ⟨accesses, ?_, writes_perm hlength fun i hless => ?_,
    inside_of_getElem? hlength fun i hless => ?_, fun i hless => ?_⟩
  · rw [launch, if_neg hkind_ne, hsame, threads_eq hfits, hrun]
  · obtain ⟨access, hentry, hwrites, -⟩ := hentries i hless
    exact ⟨access, hentry, hwrites⟩
  · obtain ⟨access, hentry, -, hinside, -⟩ := hentries i hless
    exact ⟨access, hentry, hinside⟩
  · obtain ⟨access, hentry, -, -, hholds⟩ := hentries i hless
    exact ⟨access, hentry, hholds⟩

/-- What holds of the parameters that every kernel has. -/
structure Base (output : TensorDescriptor) (p : Params) : Prop where
  made : baseParams output.spec.shape = some p
  count : p.count = Shape.count output.spec.shape
  rank : p.rank = output.spec.shape.length
  inner : p.inner = 1
  entries : ∀ d, d < output.spec.shape.length → p.dims[d]? = (Shape.dims output.spec.shape)[d]?

/-- The parameters of the epilogue. -/
def epilogueOf (p : Params) (d : GemmDescriptor) : Params :=
  { p with
    columns := d.columns.toNat, biasRows := d.biasRows.toNat, biasColumns := d.biasColumns.toNat
    zeroK := d.work == .zeroK, hasBias := d.hasBias, relu := d.relu
    alpha := d.epilogueAlpha, beta := d.epilogueBeta }

theorem epilogueParams_some (p : Params) {d : GemmDescriptor}
    (hcolumns : 0 ≤ d.columns ∧ d.columns ≤ Machine.int32Max)
    (hbiasRows : 0 ≤ d.biasRows ∧ d.biasRows ≤ Machine.int32Max)
    (hbiasColumns : 0 ≤ d.biasColumns ∧ d.biasColumns ≤ Machine.int32Max) :
    epilogueParams p d = some (epilogueOf p d) := by
  rw [epilogueParams, Machine.cast_of_le hcolumns.1 hcolumns.2,
    Machine.cast_of_le hbiasRows.1 hbiasRows.2, Machine.cast_of_le hbiasColumns.1 hbiasColumns.2]
  rfl

/-- An epilogue launch writes every output element once and reads inside its operands. -/
theorem launch_epilogue {query : CapabilityQuery} {output : TensorDescriptor} {p : Params}
    {d : GemmDescriptor} (hbase : Base output p) (hfits : Fits output) {P : Nat → List Nat → Prop}
    (hreads : ∀ i < Shape.count output.spec.shape, ∃ reads,
      (∀ j ∈ reads, j < operandCount query 2) ∧
      elementwise .epilogue (epilogueOf p d) i = some {
        bias := reads, output := if d.work == .zeroK then [] else [i], writes := [i] } ∧
        P i reads) :
    ∃ accesses, launch .epilogue (epilogueOf p d) = some accesses ∧
      (accesses.flatMap (·.writes)).Perm (List.range (Shape.count output.spec.shape)) ∧
      (∀ access ∈ accesses, Inside query (Shape.count output.spec.shape) access) ∧
      ∀ i < Shape.count output.spec.shape, ∃ access, accesses[i]? = some access ∧
      P i access.bias := by
  refine launch_elementwise query (show Kernel.epilogue ≠ .softmax by decide) (p := epilogueOf p d)
    hbase.count hfits.count_le fun i hless => ?_
  obtain ⟨bias, hinsideBias, hthread, hholds⟩ := hreads i hless
  refine ⟨_, hthread, rfl, ⟨by simp, by simp, hinsideBias, fun j hmem => ?_⟩, hholds⟩
  dsimp only at hmem
  split at hmem
  · cases hmem
  · rwa [List.mem_singleton.1 hmem]

section Launch

variable {query : CapabilityQuery} {output : TensorDescriptor} {p : Params}
    (hcontract : Contract query)
  (houtputs : query.outputs = [output]) (hbase : Base output p)
  (hnonempty : 0 < Shape.count output.spec.shape)

include hcontract houtputs hbase hnonempty

/-- An addition writes every output element once and reads inside its operands. -/
theorem launch_add (hop : query.node.op = .add) : ∃ kind p accesses, setup query = some (kind, p) ∧
    launch kind p = some accesses ∧ Agrees query output accesses := by
  have hfits := hcontract.outputs output (by rw [houtputs]; exact List.mem_singleton_self _)
  have hinferred := hcontract.inferred
  rw [hop, houtputs] at hinferred
  -- both operands are broadcast to the shape of the output
  obtain ⟨l, r, hadmits, hadmits', it, hinputs, hspecs, hiterator⟩ := inferAdd_ok hinferred
  obtain ⟨lhs, rest, hgiven, rfl, hothers⟩ := List.map_eq_cons_iff.1 hinputs
  obtain ⟨rhs, none, rfl, rfl, hlast⟩ := List.map_eq_cons_iff.1 hothers
  obtain rfl := List.map_eq_nil_iff.1 hlast
  have hshape : output.spec.shape = it.shape :=
    congrArg TensorSpec.shape (List.singleton_inj.1 hspecs)
  have hnumel : it.numel = Shape.count output.spec.shape := by
    rw [(TensorIterator.ofOperands_built hiterator).numel, hshape]
  obtain ⟨aStrides, bStrides, hleft, hright, hreads⟩ := add_reads hiterator
    (hcontract.inputs lhs (by rw [hgiven]; simp)) (hcontract.inputs rhs (by rw [hgiven]; simp))
    (by rwa [hnumel]) (by rw [← hshape]; exact hfits.rank_le) (fun d hless => by
      rw [← hshape] at hless ⊢
      exact hbase.entries d hless)
  rw [← hshape, ← hbase.rank] at hleft hright
  have hprepared : setup query = some (.add, { p with aStrides, bStrides }) := by
    unfold setup
    rw [houtputs]
    dsimp only
    rw [hbase.made, hop, hgiven]
    show ((broadcast p.rank lhs >>= _) : Option _) = _
    rw [hleft]
    show ((broadcast p.rank rhs >>= _) : Option _) = _
    rw [hright]
    rfl
  -- each element reads its two operands and writes itself
  obtain ⟨accesses, hrun, hwrites, hinside, hentries⟩ := launch_elementwise query
    (show Kernel.add ≠ .softmax by decide)
      (show ({ p with aStrides, bStrides } : Params).count = _ from hbase.count)
    hfits.count_le (P := fun i access => ∃ ai bi, it.operandOffset 0 i = .ok ai ∧
      it.operandOffset 1 i = .ok bi ∧ access = { a := [ai], b := [bi], writes := [i] }) (by
    intro i hless
    obtain ⟨ai, bi, hoffset, hoffset', hinsideA, hinsideB, hloop⟩ := hreads i (by rwa [hnumel])
    rw [← hshape, ← hbase.rank] at hloop
    refine ⟨{ a := [ai], b := [bi], writes := [i] }, ?_, rfl, ?_, ai, bi, hoffset, hoffset', rfl⟩
    · rw [elementwise, Machine.int_of_le (Nat.le_trans (Nat.le_of_lt hless) hfits.count_le)]
      show (addIndices _ p.rank i 0 0 >>= _) = _
      rw [hloop]
      rfl
    · constructor <;> simp [operandCount, hgiven, hinsideA, hinsideB])
  refine ⟨_, _, accesses, hprepared, hrun, hwrites, hinside, fun _ => ?_, fun hother => ?_,
    fun hother => ?_, fun hother => ?_⟩
  · refine ⟨[.contiguous lhs.spec.shape hadmits, .contiguous rhs.spec.shape hadmits'], it,
      ?_, hiterator, hshape.symm, fun i hless => ?_⟩
    · rw [hgiven]
      exact mapM_ok.2 (.cons (TensorLayout.ofShape_ok.2 ⟨hadmits, rfl⟩)
        (.cons (TensorLayout.ofShape_ok.2 ⟨hadmits', rfl⟩) .nil))
    · obtain ⟨access, hentry, ai, bi, hoffset, hoffset', rfl⟩ := hentries i hless
      exact ⟨ai, bi, hoffset, hoffset', hentry⟩
  · rw [hop] at hother; cases hother
  · rw [hop] at hother; cases hother
  · rw [hop] at hother; rcases hother with hother | hother <;> cases hother

omit hnonempty in
/-- A unary launch writes every output element once and reads inside its input. -/
theorem launch_unary (hop : query.node.op = .reLU ∨ query.node.op = .tanh) :
    ∃ kind p accesses, setup query = some (kind, p) ∧ launch kind p = some accesses ∧
      Agrees query output accesses := by
  have hfits := hcontract.outputs output (by rw [houtputs]; exact List.mem_singleton_self _)
  have hinferred := hcontract.inferred
  obtain ⟨input, hgiven, hspec⟩ : ∃ input, query.inputs = [input] ∧ input.spec = output.spec := by
    rw [houtputs] at hinferred
    obtain ⟨hfewest, hmost, -, out, hspecs, hinferred⟩ := inferOutputSpecs_checked hinferred
    have hone : (query.inputs.map (·.spec)).length = 1 := by
      rcases hop with hop | hop <;> rw [hop] at hfewest hmost <;>
        exact Nat.le_antisymm hmost hfewest
    rw [List.length_map] at hone
    obtain ⟨input, hgiven⟩ := List.length_eq_one_iff.1 hone
    refine ⟨input, hgiven, ?_⟩
    rw [List.map_singleton, List.singleton_inj] at hspecs
    rw [hgiven] at hinferred
    rcases hop with hop | hop <;> rw [hop] at hinferred <;> cases hinferred <;> exact hspecs.symm
  have hunary (kind : Kernel) (heither : kind = .relu ∨ kind = .tanh)
      (hprepared : setup query = some (kind, p)) : ∃ kind p accesses, setup query = some (kind, p) ∧
        launch kind p = some accesses ∧ Agrees query output accesses := by
    have hne : kind ≠ .softmax := by rcases heither with rfl | rfl <;> decide
    obtain ⟨accesses, hrun, hwrites, hinside, hentries⟩ := launch_elementwise query hne hbase.count
      hfits.count_le (P := fun i access => access = { a := [i], writes := [i] }) (by
      intro i hless
      refine ⟨{ a := [i], writes := [i] }, ?_, rfl, ?_, rfl⟩
      · rcases heither with rfl | rfl <;> rfl
      · constructor <;> simp [operandCount, hgiven, hspec, hless])
    refine ⟨_, _, accesses, hprepared, hrun, hwrites, hinside, fun hother => ?_, fun hother => ?_,
      fun hother => ?_, fun _ i hless => ?_⟩
    · rcases hop with hop | hop <;> rw [hop] at hother <;> cases hother
    · rcases hop with hop | hop <;> rw [hop] at hother <;> cases hother
    · rcases hop with hop | hop <;> rw [hop] at hother <;> cases hother
    · obtain ⟨access, hentry, rfl⟩ := hentries i hless
      exact hentry
  rcases hop with hop | hop
  · refine hunary .relu (.inl rfl) ?_
    unfold setup
    rw [houtputs]
    dsimp only
    rw [hbase.made, hop]
    rfl
  · refine hunary .tanh (.inr rfl) ?_
    unfold setup
    rw [houtputs]
    dsimp only
    rw [hbase.made, hop]
    rfl

/-- A softmax launch writes every output element once and reads inside its input. -/
theorem launch_softmax (hop : query.node.op = .softmax) :
    ∃ kind p accesses, setup query = some (kind, p) ∧ launch kind p = some accesses ∧
      Agrees query output accesses := by
  have hfits := hcontract.outputs output (by rw [houtputs]; exact List.mem_singleton_self _)
  have hinferred := hcontract.inferred
  rw [hop, houtputs] at hinferred
  obtain ⟨spec, axis, hinputs, hspecs, hinside, hnormalized⟩ := inferSoftmax_ok hinferred
  obtain rfl : output.spec = spec := List.singleton_inj.1 hspecs
  obtain ⟨input, hgiven, hspec⟩ : ∃ input, query.inputs = [input] ∧ input.spec = output.spec := by
    obtain ⟨input, rest, hgiven, hspec, hnone⟩ := List.map_eq_cons_iff.1 hinputs
    obtain rfl := List.map_eq_nil_iff.1 hnone
    exact ⟨input, hgiven, hspec⟩
  -- The layout around the axis.
  let layout := TensorLayout.contiguous output.spec.shape hfits.admits
  have hwithin : axis < layout.rank := hinside
  obtain ⟨ds, es, hsplit, hlength, hmask⟩ := ReductionIterator.dims_single hwithin
  have hnumel : 0 < layout.numel := hnonempty
  have hpos := ReductionIterator.pos_of_numel hnumel
  have hdims : layout.dims = Shape.dims output.spec.shape := rfl
  have hrank : layout.dims.length = output.spec.shape.length := ReductionIterator.length_dims layout
  have hprepared :=
    softmaxParams_some hpos hfits.count_le hbase.count (hbase.rank.trans hrank.symm) hbase.inner
    (fun d hless => hbase.entries d (by rwa [← hrank])) hsplit (by rw [hrank, hnormalized, hlength])
  -- the query's one axis is valid, as its inference found it inside the rank
  have hvalid : ReductionIterator.ValidAxes layout.rank
      [integerAttribute query.node.attributes "axis" (-1)] := by
    refine ⟨List.cons_ne_nil _ _, fun axis' hmem => ?_, List.nodup_singleton _⟩
    rw [List.mem_singleton.1 hmem]
    have := hnormalized
    unfold layout TensorLayout.rank TensorLayout.contiguous
    dsimp only
    omega
  have hpicked : ReductionIterator.axisNats layout.rank
      [integerAttribute query.node.attributes "axis" (-1)] = [axis] := by
    rw [ReductionIterator.axisNats, List.map_singleton]
    exact congrArg (fun n : Int => [n.toNat]) hnormalized
  obtain ⟨it, hbuilt, hreduces⟩ := ReductionIterator.ofLayout_ok false hnumel hvalid
  have hgroups := hreduces.groups
  have houtputNumel := hreduces.outputNumel
  rw [hpicked] at hreduces houtputNumel hgroups
  have hreductionNumel := hreduces.reductionNumel_single hwithin
  rw [hmask, hsplit] at hgroups
  rw [hmask, hsplit, Lib.Axes.pick_outer, Lib.Axes.pick, if_neg (by decide),
    Lib.Axes.pick_replicate, List.prod_append] at houtputNumel
  rw [hsplit] at hpos
  have hsmall : (ds ++ (layout.shape.getD axis 0).toNat :: es).prod ≤ Machine.int32Max := by
    rw [← hsplit]
    exact hfits.count_le
  have hcount : ds.prod * es.prod ≤ Machine.int32Max := by
    rw [List.prod_append, List.prod_cons] at hsmall
    have hposN : 0 < (layout.shape.getD axis 0).toNat := hpos _ (by simp)
    exact Nat.le_trans (Nat.mul_le_mul_left _ (Nat.le_mul_of_pos_left _ hposN)) hsmall
  -- each thread runs over the members of its group, three times to read and once to write
  obtain ⟨accesses, hrun, htotal, hentries⟩ := mapM_range (n := ds.prod * es.prod)
    (P := fun g access => ∃ members, members = (List.range it.reductionNumel).map (Lib.Axes.join
        (List.replicate ds.length false ++ true :: List.replicate es.length false)
        (ds ++ (layout.shape.getD axis 0).toNat :: es) g) ∧
      access = { a := members ++ members ++ members, writes := members }) fun g hless =>
    ⟨_, softmax_some (p := { p with
      axisSize := (layout.shape.getD axis 0).toNat, inner := es.prod, groups := ds.prod * es.prod })
      hpos hsmall rfl rfl hless rfl, _, by rw [hreductionNumel], rfl⟩
  rw [← houtputNumel] at htotal hentries
  have hinside (access : Accesses) (hmem : access ∈ accesses) :
      Inside query (Shape.count output.spec.shape) access := by
    refine inside_of_getElem?
      (P := fun access => Inside query (Shape.count output.spec.shape) access) htotal
      (fun g hless => ?_) access hmem
    obtain ⟨access, hentry, members, heq, rfl⟩ := hentries g hless
    refine ⟨_, hentry, ?_⟩
    -- a member of a group is an element of the input
    have hmember {i : Nat} (hmem : i ∈ members) : i < Shape.count output.spec.shape := by
      rw [heq] at hmem
      obtain ⟨r, hr, rfl⟩ := List.mem_map.1 hmem
      exact hgroups.bijOn.mapsTo (x := (g, r)) ⟨hless, List.mem_range.1 hr⟩
    constructor
    · intro i hmem
      rw [List.mem_append, List.mem_append, or_assoc] at hmem
      rw [operandCount, hgiven]
      show i < Shape.count input.spec.shape
      rw [hspec]
      rcases hmem with hmem | hmem | hmem <;> exact hmember hmem
    · simp
    · simp
    · simp
  refine ⟨.softmax, { p with
      axisSize := (layout.shape.getD axis 0).toNat, inner := es.prod, groups := ds.prod * es.prod },
    accesses, ?_, ?_, ?_, hinside, fun hother => ?_, fun _ => ?_, fun hother =>
      ?_, fun hother => ?_⟩
  · unfold setup
    rw [houtputs]
    dsimp only
    rw [hbase.made, hop, hgiven]
    show ((softmaxParams p query.node.attributes >>= _) : Option _) = _
    rw [hprepared]
    rfl
  · rw [launch, if_pos rfl, threads_eq hcount]
    exact hrun
  -- every element is in one group, so it is written once
  · rw [flatMap_writes htotal fun g hless => ?_]
    · exact flatMap_perm hgroups.bijOn
    · obtain ⟨access, hentry, members, heq, rfl⟩ := hentries g hless
      exact ⟨_, hentry, heq⟩
  -- a softmax is none of the other kinds
  · rw [hop] at hother; cases hother
  · refine ⟨layout, it, _, TensorLayout.ofShape_ok.2 ⟨hfits.admits, rfl⟩, hbuilt, hgroups, htotal,
      fun g hless => ?_⟩
    obtain ⟨access, hentry, members, heq, rfl⟩ := hentries g hless
    exact ⟨members, heq, hentry⟩
  · rw [hop] at hother; cases hother
  · rw [hop] at hother; rcases hother with hother | hother <;> cases hother

omit hnonempty in
/-- A matrix launch's epilogue writes every output element once and reads inside its operands. -/
theorem launch_matrix (hmatrix : isMatrix query.node.op = true) {d : GemmDescriptor}
    (hdescribed : makeGemmDescriptor query = .ok d) {a b : Int × Int} {bias : List TensorDescriptor}
    (hshapes : MatrixQuery query a b bias) (hdescribes : Describes query a b d) :
    ∃ kind p accesses, setup query = some (kind, p) ∧ launch kind p = some accesses ∧
      Agrees query output accesses := by
  have hfits := hcontract.outputs output (by rw [houtputs]; exact List.mem_singleton_self _)
  obtain ⟨lhs, rhs, hgiven, -, -⟩ := hshapes.inputs
  obtain ⟨out, hspecs, hinferred⟩ := hshapes.output
  obtain rfl : output.spec = out := by
    rw [houtputs] at hspecs
    exact List.singleton_inj.1 hspecs
  have hshape : output.spec.shape = [d.rows, d.columns] := by
    rw [hinferred.out, hdescribes.rows, hdescribes.columns]
  have hnonneg : ∀ n ∈ output.spec.shape, 0 ≤ n ∧ n ≤ Machine.int32Max :=
    fun n hmem => ⟨hfits.admits.nonneg n hmem, hfits.dims_le n hmem⟩
  have hcolumns := hnonneg d.columns (by rw [hshape]; simp)
  -- with its parameters made, the launch is the epilogue's
  have hprepared {q : Params} (hmade : epilogueParams p d = some q) :
    setup query = some (.epilogue, q) := by
    unfold setup
    rw [houtputs]
    dsimp only
    rw [hbase.made]
    simp only [Option.bind_eq_bind, Option.bind_some, hmatrix, if_true, hdescribed, hmade]
  have hdescribed := hdescribes.bias
  have hone : (1 : Int) ≤ Machine.int32Max := by decide
  cases bias with
  -- without a bias the epilogue reads nothing more
  | nil =>
    have hnone : query.inputs[2]? = none := by rw [hgiven]; rfl
    simp only [hnone] at hdescribed
    obtain ⟨hasBias, hrows, hcols⟩ := hdescribed
    have hreads : ∀ i < Shape.count output.spec.shape, ∃ reads,
      (∀ j ∈ reads, j < operandCount query 2) ∧
        elementwise .epilogue (epilogueOf p d) i = some {
          bias := reads, output := if d.work == .zeroK then [] else [i], writes := [i] } ∧ True :=
      fun i _ => ⟨[], by simp, by simp only [elementwise, epilogueOf, hasBias]; rfl, trivial⟩
    obtain ⟨accesses, hrun, hwrites, hinside, -⟩ := launch_epilogue hbase hfits hreads
    refine ⟨_, _, accesses, hprepared
      (epilogueParams_some p hcolumns (by rw [hrows]; exact ⟨by decide, hone⟩)
      (by rw [hcols]; exact ⟨by decide, hone⟩)), hrun, hwrites, hinside, fun hother =>
        ?_, fun hother => ?_,
      fun _ value hsome => ?_, fun hother => ?_⟩
    · rw [hother] at hmatrix; cases hmatrix
    · rw [hother] at hmatrix; cases hmatrix
    · rw [hnone] at hsome; cases hsome
    · rcases hother with hother | hother <;> rw [hother] at hmatrix <;> cases hmatrix
  -- with a bias, its extents are one or those of the output
  | cons value rest =>
    have hfound : query.inputs[2]? = some value := by rw [hgiven]; rfl
    simp only [hfound] at hdescribed
    obtain ⟨hasBias, hextents⟩ := hdescribed
    have hfitsV := hcontract.inputs value (List.mem_of_getElem? hfound)
    have hbounds : ∀ n ∈ value.spec.shape, 0 ≤ n ∧ n ≤ Machine.int32Max :=
      fun n hmem => ⟨hfitsV.admits.nonneg n hmem, hfitsV.dims_le n hmem⟩
    have hsizes : (0 ≤ d.biasRows ∧ d.biasRows ≤ Machine.int32Max) ∧
        0 ≤ d.biasColumns ∧ d.biasColumns ≤ Machine.int32Max := by
      rcases hextents with ⟨-, hrows, hcols⟩ | ⟨heq, hrows⟩ | heq
      · rw [hrows, hcols]
        exact ⟨⟨by decide, hone⟩, by decide, hone⟩
      · rw [hrows]
        exact ⟨⟨by decide, hone⟩, hbounds _ (by rw [heq]; simp)⟩
      · exact ⟨hbounds _ (by rw [heq]; simp), hbounds _ (by rw [heq]; simp)⟩
    have hbroadcasts : BiasFits d.rows d.columns value.spec.shape := by
      rw [hdescribes.rows, hdescribes.columns]
      exact hinferred.bias value.spec (by simp)
    obtain ⟨it, hiterator, hitShape⟩ := TensorIterator.ofOperands_bias
      (show (TensorLayout.contiguous output.spec.shape hfits.admits).shape = _ from hshape)
      (show BiasFits _ _ (TensorLayout.contiguous value.spec.shape hfitsV.admits).shape
        from hbroadcasts)
    have hnumel : it.numel = Shape.count output.spec.shape := by
      rw [(TensorIterator.ofOperands_built hiterator).numel, hitShape, hshape]
    have hoffsets := (TensorIterator.operandOffset_exact hiterator).offset 1 _ rfl
    -- each thread reads the bias at the iterator's offset
    have hreads : ∀ i < Shape.count output.spec.shape, ∃ reads,
      (∀ j ∈ reads, j < operandCount query 2) ∧
        elementwise .epilogue (epilogueOf p d) i = some {
          bias := reads, output := if d.work == .zeroK then [] else [i], writes := [i] } ∧
        ∃ index, it.operandOffset 1 i = .ok index ∧ reads = [index] := by
      intro i hless
      obtain ⟨hoffset, hinside, -⟩ := hoffsets i (by rwa [hnumel])
      rw [TensorLayout.storageSpan, TensorLayout.contiguous,
        TensorLayout.strideNats_contiguousStrides] at hinside
      have hinside := Nat.lt_of_lt_of_eq hinside (span_contiguousStrides _)
      rw [hitShape] at hoffset hinside
      have hindex := biasIndex_some (p := epilogueOf p d) hbroadcasts hfitsV.admits
        (by rw [← hshape]; exact hfits.count_le) rfl (by
          rcases hextents with ⟨heq, hrows, hcols⟩ | ⟨heq, hrows⟩ | heq
          · exact .inl ⟨heq, by rw [epilogueOf, hrows]; rfl, by rw [epilogueOf, hcols]; rfl⟩
          · exact .inr (.inl ⟨d.biasColumns, heq, by rw [epilogueOf, hrows]; rfl, rfl⟩)
          · exact .inr (.inr ⟨d.biasRows, d.biasColumns, heq, rfl, rfl⟩))
        (by rwa [← hshape]) (Nat.le_trans (Nat.le_of_lt hinside) hfitsV.count_le)
      refine ⟨_, fun j hmem => ?_, ?_, _, hoffset, rfl⟩
      · rw [List.mem_singleton.1 hmem, operandCount, hfound]
        exact hinside
      · have hflag : (epilogueOf p d).hasBias = true := hasBias
        simp only [elementwise, hflag, if_true, hindex, Option.bind_eq_bind, Option.bind_some]
        rfl
    obtain ⟨accesses, hrun, hwrites, hinside, hentries⟩ := launch_epilogue hbase hfits hreads
    refine ⟨_, _, accesses, hprepared (epilogueParams_some p hcolumns hsizes.1 hsizes.2), hrun,
      hwrites, hinside, fun hother => ?_, fun hother => ?_, fun _ value' hsome =>
        ?_, fun hother => ?_⟩
    -- a matrix operator is none of the other kinds
    · rw [hother] at hmatrix; cases hmatrix
    · rw [hother] at hmatrix; cases hmatrix
    · rw [hfound] at hsome
      cases hsome
      refine ⟨_, _, it, TensorLayout.ofShape_ok.2 ⟨hfits.admits, rfl⟩,
        TensorLayout.ofShape_ok.2 ⟨hfitsV.admits, rfl⟩, hiterator, hitShape.trans hshape.symm,
        fun i hless => ?_⟩
      obtain ⟨access, hentry, index, hoffset, hreads⟩ := hentries i hless
      exact ⟨index, hoffset, by rw [hentry, Option.map_some, hreads]⟩
    · rcases hother with hother | hother <;> rw [hother] at hmatrix <;> cases hmatrix

end Launch

/-- **The kernels access the elements that the iterators of the CPU visit.** For an accepted
query with elements no `int` overflows, every element of the output is written once, and no
thread leaves the operands. -/
theorem kernel_indices {query : CapabilityQuery} {capability : NodeCapability}
    (hanswered : validateOperatorContract query = .ok capability)
    (hsupported : capability.supported = true)
    (hnonempty : ∀ output ∈ query.outputs, 0 < Shape.count output.spec.shape) :
    ∃ output kind p accesses, query.outputs = [output] ∧ setup query = some (kind, p) ∧
      launch kind p = some accesses ∧ Agrees query output accesses := by
  have hcontract := contract_of_supported hanswered hsupported
  obtain ⟨spec, hspecs⟩ := inferOutputSpecs_ok hcontract.inferred
  obtain ⟨output, houtputs⟩ : ∃ output, query.outputs = [output] := by
    obtain ⟨output, rest, houtputs, -, hnone⟩ := List.map_eq_cons_iff.1 hspecs
    obtain rfl := List.map_eq_nil_iff.1 hnone
    exact ⟨output, houtputs⟩
  have hmem : output ∈ query.outputs := by rw [houtputs]; exact List.mem_singleton_self _
  obtain ⟨p, hmade, hcount, hrank, hinner, hentries⟩ :=
    baseParams_some (hcontract.outputs output hmem)
  have hbase : Base output p := ⟨hmade, hcount, hrank, hinner, hentries⟩
  have hnonempty := hnonempty output hmem
  refine ⟨output, ?_⟩
  by_cases hmatrix : isMatrix query.node.op = true
  · obtain ⟨a, b, bias, hshapes⟩ := hcontract.matrixQuery hmatrix
    have hdescribed : makeGemmDescriptor query =
      .ok (gemmDescriptor query.node.op query.node.attributes
        (query.inputs.map (·.spec))) :=
      bind_ok.2 ⟨capability, hanswered,
        check_ok.2 ⟨require_ok.2 hsupported, check_ok.2 ⟨require_ok.2 hmatrix, rfl⟩⟩⟩
    obtain ⟨kind, p, accesses, hprepared, hrun, hagrees⟩ :=
      launch_matrix hcontract houtputs hbase hmatrix hdescribed hshapes
        (hshapes.describes hcontract)
    exact ⟨kind, p, accesses, houtputs, hprepared, hrun, hagrees⟩
  · have hoperator := hcontract.operator
    unfold initialOperator at hoperator
    simp only [Bool.or_eq_true, beq_iff_eq, or_assoc] at hoperator
    rcases hoperator with hop | hop | hop | hop | hop
    · exact absurd hop hmatrix
    · obtain ⟨kind, p, accesses, hprepared, hrun, hagrees⟩ :=
        launch_add hcontract houtputs hbase hnonempty hop
      exact ⟨kind, p, accesses, houtputs, hprepared, hrun, hagrees⟩
    · obtain ⟨kind, p, accesses, hprepared, hrun, hagrees⟩ :=
        launch_unary hcontract houtputs hbase (.inl hop)
      exact ⟨kind, p, accesses, houtputs, hprepared, hrun, hagrees⟩
    · obtain ⟨kind, p, accesses, hprepared, hrun, hagrees⟩ :=
        launch_unary hcontract houtputs hbase (.inr hop)
      exact ⟨kind, p, accesses, houtputs, hprepared, hrun, hagrees⟩
    · obtain ⟨kind, p, accesses, hprepared, hrun, hagrees⟩ :=
        launch_softmax hcontract houtputs hbase hnonempty hop
      exact ⟨kind, p, accesses, houtputs, hprepared, hrun, hagrees⟩

/-- The epilogue of the transposed Gemm. -/
theorem kernel_indices_transposed :
    ∃ output kind p accesses, transposedGemm.outputs = [output] ∧
      setup transposedGemm = some (kind, p) ∧
      launch kind p = some accesses ∧ Agrees transposedGemm output accesses :=
  kernel_indices (show validateOperatorContract transposedGemm = .ok _ from rfl)
    (by rfl) (by decide)

end TinyInfer.Backend.Cuda
