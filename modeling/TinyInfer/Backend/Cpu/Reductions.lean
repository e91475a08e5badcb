import TinyInfer.Backend.Cpu.BasicOps
import TinyInfer.Core.ReductionIteratorExact
import TinyInfer.Lib.Pointwise

/-!
# The elements that the reductions visit

Each kernel visits every element of every group once and in order, where it computes the
offsets itself as where it asks the `ReductionIterator` (`reduction_groups`).

Main definitions:
* `values`: the elements of a group.
* `softmaxOf`, `layerNormOf`: what an element of a group becomes.
-/

namespace TinyInfer.Ops

open Lib.Pointwise ReductionIterator

variable {F : Type} [Scalar F]

/-- The elements of a group, in order. -/
def values (input : Tensor F) (it : ReductionIterator) (index : Nat → Nat → Nat) (o : Nat) :
    List F :=
  (List.range it.reductionNumel).map fun r => input.logicalElement (index o r)

def maximumOf : List F → F
  | [] => 0
  | x :: xs => xs.foldl maximum x

def softmaxOf (group : List F) (x : F) : F :=
  Scalar.exp (x - maximumOf group) /
    (group.map fun y => Scalar.exp (y - maximumOf group)).foldl (· + ·) 0

def meanOf (group : List F) (value : F → F) : F :=
  group.foldl (fun result x => result + value x) 0 / Scalar.ofNat group.length

/-- The affine transform by the elements of the parameters at `r`. -/
def affineOf (weight bias : Option (Tensor F)) (r : Nat) (value : F) : F :=
  let value := weight.elim value fun weight => value * weight.logicalElement r
  bias.elim value fun bias => value + bias.logicalElement r

def layerNormOf (group : List F) (weight bias : Option (Tensor F)) (epsilon : F) (r : Nat) (x : F) :
    F :=
  let mean := meanOf group id
  let variance := meanOf group fun x => (x - mean) * (x - mean)
  affineOf weight bias r ((x - mean) * (1 / Scalar.sqrt (variance + epsilon)))

/-! ## Loops over the groups -/

omit [Scalar F] in
/-- Rounds that do not throw, and store at different cells. -/
theorem foldlM_stores {m n : Nat} {step : (Nat → F) → Nat → Except Exn (Nat → F)}
    {index : Nat → Nat → Nat} {f : Nat → Nat → F → F}
    (heach : ∀ o < m, ∃ T, (∀ out, step out o = .ok (T out)) ∧ Stores T n (index o) (f o))
    (hinjective : ∀ o < m, ∀ r < n, ∀ o' < m, ∀ r' < n, index o r = index o' r' → o = o')
    (out : Nat → F) :
    ∃ result, (List.range m).foldlM step out = .ok result ∧
      (∀ o < m, ∀ r < n, result (index o r) = f o r (out (index o r))) ∧
      ∀ i, (∀ o < m, ∀ r < n, i ≠ index o r) → result i = out i := by
  choose T hsteps hstores using heach
  let body (o : Nat) : (Nat → F) → Nat → F := if ho : o < m then T o ho else id
  have hbody_eq {o : Nat} (ho : o < m) : body o = T o ho := dif_pos ho
  refine ⟨_, foldlM_ok (fun out o => body o out) (fun o hmem out => ?_) out,
    Stores.groups (fun o ho => ?_) hinjective out⟩
  · have ho := List.mem_range.1 hmem
    rw [hbody_eq ho]
    exact hsteps o ho out
  · rw [hbody_eq ho]
    exact hstores o ho

/-- The loop of `softmax` that stores and adds. -/
theorem foldl_storeAdd (index : Nat → Nat) (e : Nat → F) (rs : List Nat) (out : Nat → F) (sum : F) :
    rs.foldl (fun s r => (Function.update s.1 (index r) (e r), s.2 + e r)) (out, sum) =
      (rs.foldl (fun out r => Function.update out (index r) (e r)) out,
        (rs.map e).foldl (· + ·) sum) := by
  induction rs generalizing out sum with
  | nil => rfl
  | cons r rs ih => exact ih _ _

omit [Scalar F] in
theorem applyParameter_ok (op : F → F → F) {parameter : Option (Tensor F)} {r : Nat}
    (hinside : ∀ p ∈ parameter, r < p.numel) (value : F) :
    applyParameter op parameter r value =
      .ok (parameter.elim value fun p => op value (p.logicalElement r)) := by
  cases parameter with
  | none => rfl
  | some p =>
    obtain ⟨offset, hstored, helement⟩ := p.logicalElement_eq (hinside p rfl)
    exact bind_ok.2 ⟨offset, hstored, by rw [← helement]; rfl⟩

theorem affine_ok {weight bias : Option (Tensor F)} {r : Nat} (hweights : ∀ p ∈ weight, r < p.numel)
    (hbiases : ∀ p ∈ bias, r < p.numel) (value : F) :
    affine weight bias r value = .ok (affineOf weight bias r value) :=
  bind_ok.2 ⟨_, applyParameter_ok _ hweights value, applyParameter_ok _ hbiases _⟩

section Groups

variable {input : Tensor F} {axes : List Int} {keepdim : Bool} {it : ReductionIterator}
  {index : Nat → Nat → Nat} (hgroups : Groups input.layout axes keepdim it index) {o : Nat}
  (ho : o < it.outputNumel)

include hgroups

omit [Scalar F] in
/-- No element belongs to two groups or twice to one. -/
theorem index_injective : ∀ o < it.outputNumel, ∀ r < it.reductionNumel, ∀ o' < it.outputNumel,
    ∀ r' < it.reductionNumel, index o r = index o' r' → o = o' ∧ r = r' := by
  intro o ho r hr o' ho' r' hr' hsame
  have hpair : (o, r) = (o', r') := hgroups.bijOn.injOn ⟨ho, hr⟩ ⟨ho', hr'⟩ hsame
  exact ⟨congrArg Prod.fst hpair, congrArg Prod.snd hpair⟩

include ho

omit [Scalar F] in
/-- Both ways to an element of a group. -/
theorem visit_eq {r : Nat} (hr : r < it.reductionNumel) :
    ∃ offset, visit it o r = .ok offset ∧ input.data offset = input.logicalElement (index o r) := by
  have hinside : index o r < input.numel := hgroups.bijOn.mapsTo (x := (o, r)) ⟨ho, hr⟩
  obtain ⟨offset, -, hstored, hgiven⟩ := hgroups.offset o ho r hr
  obtain ⟨offset', hstored', helement⟩ := input.logicalElement_eq hinside
  rw [hstored] at hstored'
  cases hstored'
  refine ⟨offset, ?_, helement.symm⟩
  unfold visit
  split
  · rename_i hcontiguous
    rw [← (hgroups.contiguous hcontiguous o ho r hr).2, hgiven]
  · exact hgiven

omit [Scalar F] in
theorem visitLogical_eq {r : Nat} (hr : r < it.reductionNumel) :
    visitLogical it o r = .ok (index o r) := by
  unfold visitLogical
  split
  · rename_i hcontiguous
    rw [(hgroups.contiguous hcontiguous o ho r hr).1]
  · exact hgroups.logical o ho r hr

omit [Scalar F] in
/-- A fold over a group folds its members in order. -/
theorem foldGroup_ok (first : Nat) (op : F → F → F) (init : F) :
    foldGroup it input.data o first op init =
      .ok (((values input it index o).drop first).foldl op init) := by
  have hrange : List.range' first (it.reductionNumel - first) =
      (List.range it.reductionNumel).drop first := by
    rw [List.range_eq_range', List.drop_range']
    simp
  unfold foldGroup
  rw [hrange, values, ← List.map_drop, List.foldl_map]
  refine foldlM_ok _ (fun r hmem result => ?_) init
  obtain ⟨offset, hvisited, helement⟩ :=
    visit_eq hgroups ho (List.mem_range.1 (List.mem_of_mem_drop hmem))
  exact bind_ok.2 ⟨offset, hvisited, by rw [helement]⟩

/-- The maximum of a nonempty group is computed over all of it. -/
theorem groupMaximum_ok (hnonempty : 0 < it.reductionNumel) :
    groupMaximum it input.data o = .ok (maximumOf (values input it index o)) := by
  obtain ⟨offset, hvisited, helement⟩ := visit_eq hgroups ho hnonempty
  refine bind_ok.2 ⟨offset, hvisited, ?_⟩
  rw [foldGroup_ok hgroups ho, helement]
  obtain ⟨n, hmore⟩ := Nat.exists_eq_add_of_lt hnonempty
  rw [Nat.zero_add] at hmore
  rw [values, hmore, List.range_succ_eq_map]
  rfl

theorem groupMean_ok (value : F → F) :
    groupMean it input.data o value = .ok (meanOf (values input it index o) value) := by
  refine bind_ok.2 ⟨_, foldGroup_ok hgroups ho 0 _ 0, ?_⟩
  rw [List.drop_zero, meanOf, values, List.length_map, List.length_range]

/-- The exponentials of a group are stored at its members. -/
theorem storeExp_ok (m : F) (out : Nat → F) :
    storeExp it input.data out o m = .ok
      ((List.range it.reductionNumel).foldl (fun out r => Function.update out (index o r)
          (Scalar.exp (input.logicalElement (index o r) - m))) out,
        ((values input it index o).map fun x => Scalar.exp (x - m)).foldl (· + ·) 0) := by
  have hpair :=
    foldl_storeAdd (index o) (fun r => Scalar.exp (input.logicalElement (index o r) - m))
    (List.range it.reductionNumel) out 0
  rw [values, List.map_map]
  refine Eq.trans (foldlM_ok _ (fun r hmem s => ?_) (out, 0)) (congrArg Except.ok hpair)
  have hr := List.mem_range.1 hmem
  obtain ⟨offset, hvisited, helement⟩ := visit_eq hgroups ho hr
  refine bind_ok.2 ⟨offset, hvisited, bind_ok.2 ⟨_, visitLogical_eq hgroups ho hr, ?_⟩⟩
  dsimp only
  rw [helement, Function.update_self]

/-- One softmax group writes its own members only. -/
theorem softmaxGroup_ok (hnonempty : 0 < it.reductionNumel) :
    ∃ T, (∀ out, softmaxGroup it input.data out o = .ok (T out)) ∧
      Stores T it.reductionNumel (index o) fun r _ =>
        softmaxOf (values input it index o) (input.logicalElement (index o r)) := by
  have hinjective : ∀ r < it.reductionNumel, ∀ r' < it.reductionNumel,
    index o r = index o r' → r = r' :=
    fun r hr r' hr' hsame => (index_injective hgroups o ho r hr o ho r' hr' hsame).2
  -- The second loop divides what the first has stored.
  have hstores := (Stores.foldl (fun r (_ : F) => Scalar.exp (input.logicalElement (index o r) -
      maximumOf (values input it index o))) hinjective).seq
    (Stores.foldl (fun _ (v : F) => v / ((values input it index o).map fun x =>
      Scalar.exp (x - maximumOf (values input it index o))).foldl (· + ·) 0) hinjective)
  refine ⟨_, fun out => ?_, hstores⟩
  refine bind_ok.2 ⟨_, groupMaximum_ok hgroups ho hnonempty,
    bind_ok.2 ⟨_, storeExp_ok hgroups ho _ out, ?_⟩⟩
  refine foldlM_ok _ (fun r hmem out => ?_) _
  exact bind_ok.2 ⟨_, visitLogical_eq hgroups ho (List.mem_range.1 hmem), rfl⟩

/-- One normalization group writes its own members only. -/
theorem layerNormGroup_ok {weight bias : Option (Tensor F)}
    (hweights : ∀ parameter ∈ weight, it.reductionNumel ≤ parameter.numel)
    (hbiases : ∀ parameter ∈ bias, it.reductionNumel ≤ parameter.numel) (epsilon : F) :
    ∃ T, (∀ out, layerNormGroup it input.data weight bias epsilon out o = .ok (T out)) ∧
      Stores T it.reductionNumel (index o) fun r _ =>
        layerNormOf (values input it index o) weight bias epsilon r
          (input.logicalElement (index o r)) := by
  have hinjective : ∀ r < it.reductionNumel, ∀ r' < it.reductionNumel,
    index o r = index o r' → r = r' :=
    fun r hr r' hr' hsame => (index_injective hgroups o ho r hr o ho r' hr' hsame).2
  refine ⟨_, fun out => ?_,
    Stores.foldl (fun r _ => layerNormOf (values input it index o) weight bias
    epsilon r (input.logicalElement (index o r))) hinjective⟩
  refine bind_ok.2 ⟨_, groupMean_ok hgroups ho id, bind_ok.2 ⟨_, groupMean_ok hgroups ho _, ?_⟩⟩
  refine foldlM_ok _ (fun r hmem out => ?_) out
  have hr := List.mem_range.1 hmem
  obtain ⟨offset, hvisited, helement⟩ := visit_eq hgroups ho hr
  refine bind_ok.2 ⟨offset, hvisited,
    bind_ok.2 ⟨_, visitLogical_eq hgroups ho hr, bind_ok.2 ⟨_, ?_, rfl⟩⟩⟩
  rw [helement]
  exact affine_ok (fun p hmem => Nat.lt_of_lt_of_le hr (hweights p hmem))
    (fun p hmem => Nat.lt_of_lt_of_le hr (hbiases p hmem)) _

end Groups

/-! ## The kernels -/

theorem zeros_ok {shape : Shape} (hadmits : TensorLayout.Admits shape)
    (hbytes : Shape.count shape * DataType.float32.size ≤ sizeMax) :
    ∃ output : Tensor F, zeros shape = .ok output ∧ output.shape = shape ∧
      output.dtype = .float32 := by
  unfold zeros
  rw [TensorLayout.ofShape_ok.2 ⟨hadmits, rfl⟩]
  exact ⟨_, dif_pos hbytes, rfl, rfl⟩

/-- What the kernels compute from the groups of an iterator. -/
structure Visits (input : Tensor F) (axes : List Int) (keepdim : Bool) (it : ReductionIterator)
    (index : Nat → Nat → Nat) : Prop where
  reduceSum : ∃ output, Ops.reduceSum input axes keepdim = .ok output ∧
    output.shape = it.outputShape ∧
    ∀ o < it.outputNumel, output.data o = (values input it index o).foldl (· + ·) 0
  reduceMax : ∃ output, Ops.reduceMax input axes keepdim = .ok output ∧
    output.shape = it.outputShape ∧
    ∀ o < it.outputNumel, output.data o = maximumOf (values input it index o)
  softmax : ∀ axis : Int, axes = [axis] → keepdim = false → ∀ output : Tensor F,
    requireLike output input "softmax output must be contiguous and match the input" = .ok () →
    ∃ result, softmaxOut output input axis = .ok result ∧
      (∀ o < it.outputNumel, ∀ r < it.reductionNumel, result.data (index o r) =
        softmaxOf (values input it index o) (input.logicalElement (index o r))) ∧
      ∀ i, input.numel ≤ i → result.data i = output.data i
  layerNorm : axes = [-1] → keepdim = false →
    ∀ (output : Tensor F) (weight bias : Option (Tensor F))
    (epsilon : F),
    requireLike output input "layer_norm output must be contiguous and match the input" = .ok () →
    Scalar.isFinite epsilon = true ∧ ¬ epsilon < 0 →
    (∀ p ∈ weight, checkParameter (input.shape.getLastD 0) p = .ok ()) →
    (∀ p ∈ bias, checkParameter (input.shape.getLastD 0) p = .ok ()) →
    ∃ result, layerNormImpl output input weight bias epsilon = .ok result ∧
      (∀ o < it.outputNumel, ∀ r < it.reductionNumel, result.data (index o r) =
        layerNormOf (values input it index o) weight bias epsilon r
          (input.logicalElement (index o r))) ∧
      ∀ i, input.numel ≤ i → result.data i = output.data i

section Kernels

variable {input : Tensor F} {axes : List Int} {keepdim : Bool} {it : ReductionIterator}
  {index : Nat → Nat → Nat} (hbuilt : ofLayout input.layout axes keepdim = .ok it)
  (hgroups : Groups input.layout axes keepdim it index) (hfloat32 : input.dtype = .float32)

include hgroups

omit [Scalar F] in
/-- No store of a group is outside of the elements. -/
theorem index_ne {i : Nat} (houtside : input.numel ≤ i) :
    ∀ o < it.outputNumel, ∀ r < it.reductionNumel, i ≠ index o r := by
  rintro o ho r hr rfl
  have hinside : index o r < input.numel := hgroups.bijOn.mapsTo (x := (o, r)) ⟨ho, hr⟩
  omega

omit hgroups

omit [Scalar F] in
theorem floats_ok {t : Tensor F} (hfloat32 : t.dtype = .float32) : t.floats = .ok t.data :=
  check_ok.2 ⟨require_ok.2 (by rw [hfloat32]; rfl), rfl⟩

omit [Scalar F] in
theorem requireF32_ok {t : Tensor F} (hfloat32 : t.dtype = .float32) (operation : String) :
    requireF32 t operation = .ok () := require_ok.2 (by rw [hfloat32]; rfl)

omit [Scalar F] in
/-- A loop that stores one value for each group. -/
theorem foldlM_values {m : Nat} (value : Nat → Except Exn F) (v : Nat → F)
    (heach : ∀ o < m, value o = .ok (v o)) (out : Nat → F) :
    ∃ result, (List.range m).foldlM (fun out o => do .ok (Function.update out o (← value o))) out =
      .ok result ∧ ∀ o < m, result o = v o := by
  have hstores : Stores _ m id fun o (_ : F) => v o := Stores.foldl _ fun _ _ _ _ hsame => hsame
  refine ⟨_, foldlM_ok (fun out o => Function.update out o (v o)) (fun o hmem out => ?_) out,
    (hstores out).1⟩
  exact bind_ok.2 ⟨_, heach o (List.mem_range.1 hmem), rfl⟩

include hbuilt hgroups hfloat32

/-- `reduce_sum` returns the sum of each group. -/
theorem reduceSum_ok (hadmits : TensorLayout.Admits it.outputShape)
    (hbytes : Shape.count it.outputShape * DataType.float32.size ≤ sizeMax) :
    ∃ output, Ops.reduceSum input axes keepdim = .ok output ∧ output.shape = it.outputShape ∧
      ∀ o < it.outputNumel, output.data o = (values input it index o).foldl (· + ·) 0 := by
  obtain ⟨output, hmade, hshape, hdtype⟩ := zeros_ok (F := F) hadmits hbytes
  obtain ⟨result, hloop, heach⟩ := foldlM_values
    (fun o => foldGroup it input.data o 0 (· + ·) 0) _ (fun o ho => foldGroup_ok hgroups ho 0 _ 0)
    output.data
  refine ⟨output.setData result, ?_, hshape, heach⟩
  refine check_ok.2 ⟨requireF32_ok hfloat32 _,
    bind_ok.2 ⟨it, hbuilt, bind_ok.2 ⟨output, hmade, ?_⟩⟩⟩
  exact bind_ok.2 ⟨_, floats_ok hfloat32,
    bind_ok.2 ⟨_, floats_ok hdtype, bind_ok.2 ⟨result, hloop, rfl⟩⟩⟩

/-- `reduce_max` returns the maximum of each group, where groups are not empty. -/
theorem reduceMax_ok (hnonempty : 0 < it.reductionNumel)
    (hadmits : TensorLayout.Admits it.outputShape)
    (hbytes : Shape.count it.outputShape * DataType.float32.size ≤ sizeMax) :
    ∃ output, Ops.reduceMax input axes keepdim = .ok output ∧ output.shape = it.outputShape ∧
      ∀ o < it.outputNumel, output.data o = maximumOf (values input it index o) := by
  obtain ⟨output, hmade, hshape, hdtype⟩ := zeros_ok (F := F) hadmits hbytes
  obtain ⟨result, hloop, heach⟩ := foldlM_values
    (fun o => groupMaximum it input.data o) _ (fun o ho => groupMaximum_ok hgroups ho hnonempty)
    output.data
  refine ⟨output.setData result, ?_, hshape, heach⟩
  refine check_ok.2 ⟨requireF32_ok hfloat32 _,
    bind_ok.2 ⟨it, hbuilt, check_ok.2 ⟨require_ok.2 ?_, ?_⟩⟩⟩
  · exact decide_eq_true (Nat.ne_of_gt hnonempty)
  · refine bind_ok.2 ⟨output, hmade, ?_⟩
    exact bind_ok.2 ⟨_, floats_ok hfloat32,
      bind_ok.2 ⟨_, floats_ok hdtype, bind_ok.2 ⟨result, hloop, rfl⟩⟩⟩

/-- The softmax kernel visits every group and writes each member once. -/
theorem softmaxOut_ok (hnonempty : 0 < it.reductionNumel) {axis : Int} (hsingle : axes = [axis])
    (hdropped : keepdim = false) {output : Tensor F}
    (hlike : requireLike output input
      "softmax output must be contiguous and match the input" = .ok ()) :
    ∃ result, softmaxOut output input axis = .ok result ∧
      (∀ o < it.outputNumel, ∀ r < it.reductionNumel, result.data (index o r) =
        softmaxOf (values input it index o) (input.logicalElement (index o r))) ∧
      ∀ i, input.numel ≤ i → result.data i = output.data i := by
  rw [hsingle, hdropped] at hbuilt
  have hdtype : output.dtype = .float32 := by
    have := require_ok.1 hlike
    rw [Bool.and_eq_true, Bool.and_eq_true] at this
    exact beq_iff_eq.1 this.1.2
  obtain ⟨result, hloop, hstored, hkept⟩ :=
    foldlM_stores (fun o ho => softmaxGroup_ok hgroups ho hnonempty)
    (fun o ho r hr o' ho' r' hr' hsame => (index_injective hgroups o ho r hr o' ho' r' hr' hsame).1)
      output.data
  refine ⟨output.setData result, ?_, hstored, fun i houtside => hkept i (index_ne hgroups houtside)⟩
  refine check_ok.2 ⟨requireF32_ok hfloat32 _,
    bind_ok.2 ⟨it, hbuilt, check_ok.2 ⟨require_ok.2 ?_, ?_⟩⟩⟩
  · exact decide_eq_true (Nat.ne_of_gt hnonempty)
  · refine check_ok.2 ⟨hlike, ?_⟩
    exact bind_ok.2 ⟨_, floats_ok hfloat32,
      bind_ok.2 ⟨_, floats_ok hdtype, bind_ok.2 ⟨result, hloop, rfl⟩⟩⟩

/-- The normalization kernel visits every row and writes each element once. -/
theorem layerNormImpl_ok (hwidth : it.reductionNumel = (input.shape.getLastD 0).toNat)
    (hnonempty : 0 < it.reductionNumel) (hlast : axes = [-1]) (hdropped : keepdim = false)
    {output : Tensor F} {weight bias : Option (Tensor F)} {epsilon : F}
    (hlike : requireLike output input
      "layer_norm output must be contiguous and match the input" = .ok ())
    (hfinite : Scalar.isFinite epsilon = true ∧ ¬ epsilon < 0)
    (hweights : ∀ p ∈ weight, checkParameter (input.shape.getLastD 0) p = .ok ())
    (hbiases : ∀ p ∈ bias, checkParameter (input.shape.getLastD 0) p = .ok ()) :
    ∃ result, layerNormImpl output input weight bias epsilon = .ok result ∧
      (∀ o < it.outputNumel, ∀ r < it.reductionNumel, result.data (index o r) =
        layerNormOf (values input it index o) weight bias epsilon r
          (input.logicalElement (index o r))) ∧
      ∀ i, input.numel ≤ i → result.data i = output.data i := by
  rw [hlast, hdropped] at hbuilt
  have hdtype : output.dtype = .float32 := by
    have := require_ok.1 hlike
    rw [Bool.and_eq_true, Bool.and_eq_true] at this
    exact beq_iff_eq.1 this.1.2
  have hwide {p : Tensor F} (hchecked : checkParameter (input.shape.getLastD 0) p = .ok ()) :
      it.reductionNumel ≤ p.numel := by
    have hshape := beq_iff_eq.1 (require_ok.1 (check_ok.1 hchecked).2)
    have hnumel : p.numel = Shape.count p.shape := rfl
    rw [hnumel, hshape, hwidth]
    exact Nat.le_of_eq (List.prod_singleton).symm
  obtain ⟨result, hloop, hstored, hkept⟩ := foldlM_stores
    (fun o ho => layerNormGroup_ok hgroups ho (fun p hmem => hwide (hweights p hmem))
      (fun p hmem => hwide (hbiases p hmem)) epsilon)
    (fun o ho r hr o' ho' r' hr' hsame => (index_injective hgroups o ho r hr o' ho' r' hr' hsame).1)
      output.data
  refine ⟨output.setData result, ?_, hstored, fun i houtside => hkept i (index_ne hgroups houtside)⟩
  refine check_ok.2 ⟨requireF32_ok hfloat32 _,
    check_ok.2 ⟨require_ok.2 (decide_eq_true (by omega)), ?_⟩⟩
  refine check_ok.2 ⟨require_ok.2 (by simp [hfinite.1, hfinite.2]), ?_⟩
  refine check_ok.2 ⟨forM_ok.2 fun p hmem => hweights p (Option.mem_toList.1 hmem), ?_⟩
  refine check_ok.2 ⟨forM_ok.2 fun p hmem => hbiases p (Option.mem_toList.1 hmem),
    check_ok.2 ⟨hlike, ?_⟩⟩
  refine bind_ok.2 ⟨it, hbuilt, ?_⟩
  exact bind_ok.2 ⟨_, floats_ok hfloat32,
    bind_ok.2 ⟨_, floats_ok hdtype, bind_ok.2 ⟨result, hloop, rfl⟩⟩⟩

end Kernels

/-- **The iterator over distinct axes partitions the elements of a layout into groups**, and the
kernels visit every element of each group once. -/
theorem reduction_groups {layout : TensorLayout} (hnonempty : 0 < layout.numel) {axes : List Int}
    (hvalid : ValidAxes layout.rank axes) (keepdim : Bool) :
    ∃ it index, ofLayout layout axes keepdim = .ok it ∧ Groups layout axes keepdim it index ∧
      ∀ (F : Type) [Scalar F] (input : Tensor F), input.layout = layout → input.dtype = .float32 →
        Visits input axes keepdim it index := by
  obtain ⟨it, hbuilt, hreduces⟩ := ofLayout_ok keepdim hnonempty hvalid
  refine ⟨it, _, hbuilt, hreduces.groups, ?_⟩
  intro F _ input hsame hfloat32
  subst hsame
  have hpos := pos_of_numel hnonempty
  have hreduced : 0 < it.reductionNumel := by
    rw [hreduces.reductionNumel]
    exact List.prod_pos_iff_forall_pos_nat.2 fun d hmem => hpos d (Lib.Axes.mem_of_mem_pick hmem)
  have hadmits : TensorLayout.Admits it.outputShape := by
    rw [hreduces.outputShape]
    exact admits_outputShapeOf input.layout.admits hpos keepdim _
  have hbytes : Shape.count it.outputShape * DataType.float32.size ≤ sizeMax := by
    have hle : Shape.count it.outputShape ≤ input.numel := by
      rw [hreduces.outputShape, count_outputShapeOf hreduces.length]
      exact prod_pick_le hpos false _
    have hfits := input.bytes_le
    rw [hfloat32] at hfits
    exact Nat.le_trans (Nat.mul_le_mul_right _ hle) hfits
  refine {
    reduceSum := reduceSum_ok hbuilt hreduces.groups hfloat32 hadmits hbytes
    reduceMax := reduceMax_ok hbuilt hreduces.groups hfloat32 hreduced hadmits hbytes
    softmax := fun _ hsingle hdropped _ hlike =>
      softmaxOut_ok hbuilt hreduces.groups hfloat32 hreduced hsingle hdropped hlike
    layerNorm := fun hlast hdropped _ _ _ _ hlike hfinite hweights hbiases =>
      layerNormImpl_ok hbuilt hreduces.groups hfloat32 ?_ hreduced hlast hdropped hlike hfinite
        hweights hbiases }
  have hrank : 0 < input.layout.rank := by
    have := hvalid.inside (-1) (by rw [hlast]; exact List.mem_singleton_self _)
    omega
  have haxis : axisNats input.layout.rank axes = [input.layout.rank - 1] := by
    rw [hlast, axisNats, List.map_singleton, ReductionIterator.normalize, if_pos (by decide)]
    congr 1
    omega
  rw [haxis] at hreduces
  rw [hreduces.reductionNumel_single (by omega), List.getLastD_eq_getLast?,
    List.getLast?_eq_getElem?, List.getD_eq_getElem?_getD]
  rfl

/-- A transposed 2 by 3 by 1 tensor. -/
def transposedLayout : TensorLayout where
  shape := [3, 2, 1]
  strides := [1, 3, 1]
  admits := by decide
  strides_nonneg := by decide
  rank_eq := rfl
  span_le := by decide

/-- A transposed layout reduced over both axes, given in reverse order. -/
theorem reduction_groups_transposed :
    ∃ it index, ofLayout transposedLayout [-1, 0] true = .ok it ∧
      Groups transposedLayout [-1, 0] true it index ∧
      ∀ (F : Type) [Scalar F] (input : Tensor F), input.layout = transposedLayout →
        input.dtype = .float32 → Visits input [-1, 0] true it index :=
  reduction_groups (by decide) (by decide) true

end TinyInfer.Ops
