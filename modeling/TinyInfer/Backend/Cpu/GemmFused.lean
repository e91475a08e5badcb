import TinyInfer.Backend.Cpu.MatMulAgree
import TinyInfer.Core.TensorIteratorExact

/-!
# The fused epilogue of a Gemm

The epilogue in the registers of the packed kernel, the one that reads the bias at its own
strides, and the one that reads it through a `TensorIterator` compute the same matrix
(`gemm_fused`).

- `BiasFits`: the shapes of the biases that broadcast to a matrix; `make_ok`,
  `broadcastShape_bias`: both the descriptor and a `TensorIterator` accept these.
- `Bound`: what a bound descriptor says about its bias.
- `epilogued`: a matrix after the epilogue of each element.
-/

namespace TinyInfer

open Lib.Pointwise

/-- A bias of at most two dimensions, each of extent one or as in the output. -/
def BiasFits (m n : Int) : Shape → Prop
  | [] => True
  | [c] => c = 1 ∨ c = n
  | [r, c] => (r = 1 ∨ r = m) ∧ (c = 1 ∨ c = n)
  | _ => False

namespace TensorIterator

/-! ## A bias that is broadcast over a matrix -/

theorem broadcastExtent_ok {result operand : Int} :
    broadcastExtent result operand = .ok result ↔ operand = 1 ∨ operand = result := by
  unfold broadcastExtent
  split_ifs with hone hother
  · subst hone
    simp [or_self]
  · simp [hother.1, hother.2]
  · simp only [true_iff]
    by_contra hneither
    rw [not_or] at hneither
    exact hother hneither

theorem broadcastStride_ok {operand output : Int} (h : operand = 1 ∨ operand = output)
    (stride : Int) :
    ∃ s, broadcastStride operand stride output = .ok s := by
  unfold broadcastStride
  split_ifs with same other
  · exact ⟨_, rfl⟩
  · exact absurd h (by omega)
  · exact ⟨_, rfl⟩

/-- An operand that does not change the shape. -/
theorem broadcastTail_ok {result operand : Shape} (hlength : operand.length = result.length) :
    broadcastTail result operand = .ok result ↔
      List.Forall₂ (fun r o => o = 1 ∨ o = r) result operand := by
  induction result generalizing operand with
  | nil =>
    cases operand with
    | nil => exact ⟨fun _ => .nil, fun _ => rfl⟩
    | cons => cases hlength
  | cons r result ih =>
    cases operand with
    | nil => cases hlength
    | cons o operand =>
      rw [List.forall₂_cons, ← ih (Nat.succ.inj hlength), ← broadcastExtent_ok,
        broadcastTail, bind_ok]
      constructor
      · rintro ⟨extent, hhead, h⟩
        obtain ⟨rest, htail, heq⟩ := bind_ok.1 h
        cases heq
        exact ⟨hhead, htail⟩
      · rintro ⟨hhead, htail⟩
        exact ⟨_, hhead, bind_ok.2 ⟨_, htail, rfl⟩⟩

variable {m n : Int} {output bias : TensorLayout}

/-- A bias of rank at most two broadcasts into the matrix iff its shape fits. -/
theorem broadcastInto_matrix {operand : Shape} (hrank : operand.length ≤ 2) :
    broadcastInto [m, n] operand = .ok [m, n] ↔ BiasFits m n operand := by
  rcases operand with _ | ⟨r, _ | ⟨c, _ | ⟨d, rest⟩⟩⟩
  · exact ⟨fun _ => trivial, fun _ => rfl⟩
  · have htail : broadcastTail [n] [r] = .ok [n] ↔ (r = 1 ∨ r = n) := by
      refine (broadcastTail_ok (show [r].length = [n].length from rfl)).trans ?_
      rw [List.forall₂_cons, and_iff_left .nil]
    rw [BiasFits, ← htail]
    refine bind_ok.trans ⟨?_, fun h => ⟨_, h, rfl⟩⟩
    rintro ⟨rest, h, heq⟩
    cases heq
    exact h
  · have htail : broadcastTail [m, n] [r, c] = .ok [m, n] ↔ (r = 1 ∨ r = m) ∧ (c = 1 ∨ c = n) := by
      refine (broadcastTail_ok (show [r, c].length = [m, n].length from rfl)).trans ?_
      rw [List.forall₂_cons, List.forall₂_cons, ← and_assoc, and_iff_left .nil]
    rw [BiasFits, ← htail]
    refine bind_ok.trans ⟨?_, fun h => ⟨_, h, rfl⟩⟩
    rintro ⟨rest, h, heq⟩
    cases heq
    exact h
  · simp at hrank

/-- The dimensions of the output come first, and those of the bias do not change them. -/
theorem broadcastShape_matrix (hshape : output.shape = [m, n]) (hrank : bias.shape.length ≤ 2) :
    broadcastShape [output, bias] = broadcastInto [m, n] bias.shape := by
  have hranks : ([output, bias].map TensorLayout.rank).foldl max 0 = 2 := by
    simp only [List.map_cons, List.map_nil, List.foldl_cons, List.foldl_nil,
      TensorLayout.rank, hshape, List.length_cons, List.length_nil]
    omega
  have hfirst : broadcastInto [1, 1] output.shape = .ok [m, n] := by
    rw [hshape]
    rfl
  unfold broadcastShape
  rw [hranks, List.map_cons, List.map_cons, List.map_nil, List.foldlM_cons,
    show List.replicate 2 (1 : Int) = [1, 1] from rfl, hfirst]
  show [bias.shape].foldlM broadcastInto [m, n] = _
  rw [List.foldlM_cons]
  exact bind_pure _

theorem broadcastShape_bias (hshape : output.shape = [m, n]) :
    broadcastShape [output, bias] = .ok [m, n] ↔ BiasFits m n bias.shape := by
  by_cases hrank : bias.shape.length ≤ 2
  · rw [broadcastShape_matrix hshape hrank, broadcastInto_matrix hrank]
  · constructor
    · intro h
      have := rank_le_broadcastShape h (List.mem_cons_of_mem _ List.mem_cons_self)
      exact absurd this hrank
    · intro hfits
      rcases hfound : bias.shape with _ | ⟨r, _ | ⟨c, _ | ⟨d, rest⟩⟩⟩ <;> simp [hfound] at hrank
      · rw [hfound] at hfits
        exact hfits.elim

theorem broadcastStridesTail_some {dims : List (Int × Int)} {outputs : Shape}
    (h : List.Forall₂ (fun (r : Int) (d : Int × Int) => d.1 = 1 ∨ d.1 = r) outputs dims) :
    ∃ strides, broadcastStridesTail dims outputs = .ok strides := by
  induction h with
  | nil => exact ⟨_, rfl⟩
  | cons hhead _ ih =>
    obtain ⟨s, hfirst⟩ := broadcastStride_ok hhead _
    obtain ⟨rest, htail⟩ := ih
    exact ⟨_, bind_ok.2 ⟨s, hfirst, bind_ok.2 ⟨rest, htail, rfl⟩⟩⟩

theorem broadcastStrides_some {layout : TensorLayout} (hfits : BiasFits m n layout.shape) :
    ∃ strides, broadcastStrides layout [m, n] = .ok strides := by
  have htail : ∃ strides, broadcastStridesTail (layout.shape.zip layout.strides)
      ([m, n].drop ([m, n].length - layout.rank)) = .ok strides := by
    refine broadcastStridesTail_some ?_
    have hlength := layout.rank_eq
    unfold TensorLayout.rank
    rcases hshape :
      layout.shape with _ | ⟨r, _ | ⟨c, _ | ⟨d, rest⟩⟩⟩ <;> rw [hshape] at hfits hlength
    · exact .nil
    · obtain ⟨a, hstrides⟩ := List.length_eq_one_iff.1 hlength
      rw [hstrides]
      exact .cons hfits .nil
    · obtain ⟨a, b, hstrides⟩ := List.length_eq_two.1 hlength
      rw [hstrides]
      exact .cons hfits.1 (.cons hfits.2 .nil)
    · exact hfits.elim
  obtain ⟨strides, htail⟩ := htail
  exact ⟨_, bind_ok.2 ⟨strides, htail, rfl⟩⟩

/-- The iterator of a matrix and a bias that fits. -/
theorem ofOperands_bias (hshape : output.shape = [m, n]) (hfits : BiasFits m n bias.shape) :
    ∃ it, ofOperands [output, bias] = .ok it ∧ it.shape = [m, n] := by
  have hwhole : BiasFits m n output.shape := by
    rw [hshape]
    exact ⟨.inr rfl, .inr rfl⟩
  obtain ⟨s, hfirst⟩ := broadcastStrides_some hwhole
  obtain ⟨s', hsecond⟩ := broadcastStrides_some hfits
  have hadmits : TensorLayout.Admits [m, n] := hshape ▸ output.admits
  refine ⟨_, bind_ok.2 ⟨(), rfl, bind_ok.2 ⟨_, (broadcastShape_bias hshape).2 hfits, bind_ok.2 ⟨_,
    TensorLayout.ofShape_ok.2 ⟨hadmits, rfl⟩, bind_ok.2 ⟨[s, s'], ?_, rfl⟩⟩⟩⟩, rfl⟩
  exact mapM_ok.2 (.cons hfirst (.cons hsecond .nil))

/-- The check of a bias in shape inference. -/
theorem broadcast_matrix {c : Shape} (hadmits : TensorLayout.Admits [m, n])
    (hadmits' : TensorLayout.Admits c) {message : Exn} (spec : TensorSpec) :
    (do
      let iterator ← ofOperands [← TensorLayout.ofShape [m, n], ← TensorLayout.ofShape c]
      require (iterator.shape == [m, n]) message
      .ok spec) = Except.ok spec ↔ BiasFits m n c := by
  have hfirst := TensorLayout.ofShape_ok.2 ⟨hadmits, rfl⟩
  have hsecond := TensorLayout.ofShape_ok.2 ⟨hadmits', rfl⟩
  rw [hfirst, hsecond]
  show (ofOperands [.contiguous [m, n] hadmits, .contiguous c hadmits'] >>= fun iterator =>
    require (iterator.shape == [m, n]) message >>= fun _ => .ok spec) = Except.ok spec ↔ _
  refine bind_ok.trans ⟨?_, fun hfits => ?_⟩
  · rintro ⟨it, hmade, hchecked⟩
    have hshape := eq_of_beq (require_ok.1 (check_ok.1 hchecked).1)
    have hbroadcast := (ofOperands_built hmade).broadcast
    rw [hshape] at hbroadcast
    exact (broadcastShape_bias rfl).1 hbroadcast
  · obtain ⟨it, hmade, hshape⟩ :
      ∃ it, ofOperands [.contiguous [m, n] hadmits, .contiguous c hadmits'] =
        .ok it ∧ it.shape = [m, n] := ofOperands_bias rfl hfits
    exact ⟨it, hmade, check_ok.2 ⟨require_ok.2 (by rw [hshape, beq_self_eq_true]), rfl⟩⟩

/-- The offset of the bias of an element, by its row and column. -/
theorem naiveOffset_bias (hfits : BiasFits m n bias.shape) {row column : Nat} (hr : row < m.toNat)
    (hc : column < n.toNat) :
    naiveOffset bias [m, n] (row * n.toNat + column) =
      row * (if bias.shape.length = 2 ∧
        bias.shape.getD 0 0 ≠ 1 then (bias.strides.getD 0 0).toNat else 0) +
      column * (if bias.shape.length > 0 ∧ bias.shape.getLastD 0 ≠ 1 then
        (bias.strides.getLastD 0).toNat else 0) := by
  have hlength := bias.rank_eq
  have hinside : Lib.RowMajor.Inside (Shape.dims [m, n]) [row, column] := ⟨hr, hc, trivial⟩
  have hcoordinate : Lib.RowMajor.coordinates (Shape.dims [m, n]) (row * n.toNat + column) =
      [row, column] := by
    rw [← Lib.RowMajor.coordinates_rank hinside]
    simp [Lib.RowMajor.rank, Shape.dims]
  have hone (d : Int) : d.toNat = 1 ↔ d = 1 := by omega
  unfold naiveOffset TensorLayout.rank TensorLayout.dims
  rw [hcoordinate]
  rcases hshape : bias.shape with _ | ⟨r, _ | ⟨c, _ | ⟨d, rest⟩⟩⟩ <;> rw [hshape] at hfits hlength
  · have hstrides : bias.strides = [] := List.eq_nil_of_length_eq_zero hlength
    simp [hstrides, Shape.dims, TensorLayout.strideNats, Lib.RowMajor.dot]
  · obtain ⟨a, hstrides⟩ := List.length_eq_one_iff.1 hlength
    simp [hstrides, Shape.dims, TensorLayout.strideNats, Lib.RowMajor.dot, hone]
  · obtain ⟨a, b, hstrides⟩ := List.length_eq_two.1 hlength
    simp [hstrides, Shape.dims, TensorLayout.strideNats, Lib.RowMajor.dot, hone]
  · exact hfits.elim

end TensorIterator

namespace Cpu

/-! ## The descriptor -/

namespace GemmEpilogue

section

variable {α : Type}

theorem layoutOf_ne_none (rows columns : Int) : layoutOf rows columns ≠ .none := by
  unfold layoutOf
  split_ifs <;> simp

variable {output : Tensor α} {bias : Option (Tensor α)} {biasShape : Option Shape} {alpha beta : α}
  {relu : Bool} {prototype epilogue : GemmEpilogue α}

/-- A descriptor that is bound to the bias of an output. -/
structure Bound (output : Tensor α) (bias : Option (Tensor α)) (alpha beta : α) (relu : Bool)
    (epilogue : GemmEpilogue α) : Prop where
  rank : output.rank = 2
  rows_eq : epilogue.rows = output.extent 0
  columns_eq : epilogue.columns = output.extent 1
  alpha_eq : epilogue.alpha = alpha
  beta_eq : epilogue.beta = beta
  relu_eq : epilogue.relu = relu
  bias_eq : epilogue.bias = bias
  unbiased : epilogue.layout = .none ↔ bias = none
  float : ∀ b ∈ bias, b.dtype = .float32
  fits : ∀ b ∈ bias, ∀ m n, output.shape = [m, n] → BiasFits m n b.shape
  offset : ∀ b ∈ bias, ∀ row < output.extent 0, ∀ column < output.extent 1,
    row * epilogue.rowStride + column * epilogue.columnStride =
      TensorIterator.naiveOffset b.layout output.shape (row * output.extent 1 + column)

/-- The constructor accepts a bias that fits. -/
theorem make_some {m n : Int} {s : Shape} (hm : 0 ≤ m) (hn : 0 ≤ n) :
    (∃ e, make [m, n] (some s) alpha beta relu = .ok e) ↔ BiasFits m n s := by
  rcases s with _ | ⟨r, _ | ⟨c, _ | ⟨d, rest⟩⟩⟩ <;>
    simp [make, check_ok, require_ok, BiasFits, hm, hn]

/-- What binding a bias establishes: the epilogue reads that bias at its broadcast offsets. -/
theorem bind_bound (hmade : make output.shape biasShape alpha beta relu = .ok prototype)
    (hbound : prototype.bind bias = .ok epilogue) : Bound output bias alpha beta relu epilogue := by
  have haccepted := hmade
  unfold make at hmade
  obtain ⟨hmatrix, hmade⟩ := check_ok.1 hmade
  have hmatrix := require_ok.1 hmatrix
  simp only [Bool.and_eq_true, beq_iff_eq, decide_eq_true_eq] at hmatrix
  obtain ⟨hrank, hm, hn⟩ := hmatrix
  obtain ⟨m, n, hshape⟩ := List.length_eq_two.1 hrank
  cases biasShape with
  -- no bias
  | none =>
    cases hmade
    unfold bind at hbound
    obtain ⟨hunbound, hbound⟩ := check_ok.1 hbound
    cases hbound
    obtain rfl := Option.isNone_iff_eq_none.1 (require_ok.1 hunbound)
    exact ⟨hrank, rfl, rfl, rfl, rfl, rfl, rfl, by simp, by simp, by simp, by simp⟩
  -- a bias, of a shape that broadcasts
  | some s =>
    rw [hshape] at haccepted hm hn
    have hfits := (make_some hm hn).1 ⟨_, haccepted⟩
    obtain ⟨-, hmade⟩ := check_ok.1 hmade
    obtain ⟨-, hmade⟩ := check_ok.1 hmade
    cases hmade
    unfold bind at hbound
    rw [if_neg (layoutOf_ne_none _ _)] at hbound
    cases bias with
    | none => cases hbound
    | some b =>
      obtain ⟨hmetadata, hbound⟩ := check_ok.1 hbound
      have hmetadata := require_ok.1 hmetadata
      cases hbound
      simp only [Bool.and_eq_true, Bool.or_eq_true, beq_iff_eq, bne_iff_ne] at hmetadata
      obtain ⟨⟨⟨hfloat, hsame_rank⟩, hsame_rows⟩, hsame_columns⟩ := hmetadata
      -- the bias that is bound has the shape the prototype was made for
      have hsame : b.shape = s := by
        have hlength : b.shape.length = s.length := hsame_rank
        rcases s with _ | ⟨r, _ | ⟨c, _ | ⟨d, rest⟩⟩⟩
        · exact List.eq_nil_of_length_eq_zero hlength
        · obtain ⟨a, hfound⟩ := List.length_eq_one_iff.1 hlength
          simp [hfound] at hsame_columns ⊢
          exact hsame_columns
        · obtain ⟨a, a', hfound⟩ := List.length_eq_two.1 hlength
          simp [hfound] at hsame_rows hsame_columns ⊢
          exact ⟨hsame_rows, hsame_columns⟩
        · exact hfits.elim
      subst hsame
      refine ⟨hrank, rfl, rfl, rfl, rfl, rfl, rfl, ?_, ?_, ?_, ?_⟩
      · simp [layoutOf_ne_none]
      · rintro _ ⟨⟩
        exact hfloat
      · rintro _ ⟨⟩ m' n' h
        rw [hshape] at h
        cases h
        exact hfits
      -- the bias element of a row and a column
      · rintro _ ⟨⟩ row hr column hc
        unfold Tensor.extent at hr hc ⊢
        rw [hshape] at hr hc ⊢
        refine Eq.trans ?_ (TensorIterator.naiveOffset_bias hfits hr hc).symm
        refine congrArg₂ (row * · + column * ·) (if_ctx_congr (and_congr_right fun htwo => ?_)
          (fun _ => rfl) fun _ => rfl)
            (if_ctx_congr (and_congr_right fun hsome => ?_) (fun _ => rfl)
            fun _ => rfl)
        · exact not_congr (iff_of_eq (congrArg (· = 1) (if_pos htwo)))
        · exact not_congr (iff_of_eq (congrArg (· = 1) (if_pos hsome)))

theorem Bound.setData {epilogue : GemmEpilogue α} (h : Bound output bias alpha beta relu epilogue)
    (data : Nat → α) : Bound (output.setData data) bias alpha beta relu epilogue :=
  ⟨h.rank, h.rows_eq, h.columns_eq, h.alpha_eq, h.beta_eq, h.relu_eq, h.bias_eq,
    h.unbiased, h.float, h.fits, h.offset⟩

theorem Bound.validate {epilogue : GemmEpilogue α} (h : Bound output bias alpha beta relu epilogue)
    (hfloat : output.dtype = .float32) (hcontiguous : output.isContiguous = true) :
    epilogue.validate output = .ok () := by
  refine check_ok.2 ⟨require_ok.2 ?_, require_ok.2 ?_⟩
  · simp [hfloat, h.rank, hcontiguous, h.rows_eq, h.columns_eq]
  · cases bias with
    | none => simp [h.unbiased.2 rfl]
    | some b => simp [h.bias_eq]

end

variable {α : Type} [Zero α] [One α] [Add α] [Mul α] [LT α] [DecidableLT α] [DecidableEq α]
  {epilogue : GemmEpilogue α}

/-- The lanes compute the epilogue of the scalars. -/
theorem finishLane_eq (hone_mul : ∀ x : α, 1 * x = x)
    (hcommutes : ∀ x : α, x * epilogue.alpha = epilogue.alpha * x)
    (hfused : epilogue.supportsFusion = true) (value : α) (row column : Nat) :
    epilogue.finishLane value row column = epilogue.finish value row column := by
  simp only [supportsFusion, supportsSpecialization, Bool.and_eq_true, Bool.or_eq_true, beq_iff_eq,
    decide_eq_true_eq] at hfused
  obtain ⟨⟨-, hstride⟩, hspecial⟩ := hfused
  unfold finishLane finish
  by_cases hbiased : epilogue.layout = .none
  · simp only [hbiased, ne_eq, not_true_eq_false, if_false, hcommutes]
  · obtain ⟨halpha, hbeta⟩ := hspecial.resolve_left hbiased
    have haddress : (row * epilogue.rowStride + if epilogue.columnStride = 0 then 0 else column) =
        row * epilogue.rowStride + column * epilogue.columnStride := by
      split_ifs with hbroadcast
      · rw [hbroadcast, Nat.mul_zero]
      · rw [show epilogue.columnStride = 1 by omega, Nat.mul_one]
    have hmul_one (x : α) : x * 1 = x := by
      rw [← halpha, hcommutes, halpha, hone_mul]
    simp only [ne_eq, hbiased, not_false_eq_true, if_true, halpha, hbeta, hone_mul, hmul_one,
      haddress, ite_self]

end GemmEpilogue

variable {α : Type} [Zero α] [One α] [Add α] [Mul α] [LT α] [DecidableLT α] [DecidableEq α]
  {epilogue : GemmEpilogue α} {output : Tensor α} {bias : Option (Tensor α)}
    {alpha beta : α} {relu : Bool}

/-- A matrix after the epilogue of each element. -/
def epilogued (epilogue : GemmEpilogue α) (output : Tensor α) : Tensor α :=
  output.setData fun j =>
    if j < output.numel then
      epilogue.finish (output.data j) (j / output.extent 1) (j % output.extent 1)
    else output.data j

omit [Zero α] [One α] [Add α] [Mul α] [LT α] [DecidableLT α] [DecidableEq α] in
/-- A loop over the elements of a tensor. -/
theorem acts_elements (n : Nat) (f : Nat → α → α) :
    Acts (fun data => forRange 0 n (fun j data => Function.update data j (f j (data j))) data)
      (fun j => j < n) f := by
  have heach (j : Nat) : 0 ≤ j → j < n →
      Acts (fun data => Function.update data j (f j (data j))) (fun i => True ∧ i = j) f := by
    intro _ _
    refine (Acts.update j (f j)).congr (fun i => (iff_of_eq (true_and _)).symm) ?_
    rintro i v ⟨-, rfl⟩
    rfl
  exact (Acts.forRange (fun j => j) heach).cells fun j => by simp

omit [One α] [DecidableEq α] in
theorem applyBias_ok {data biasData : Nat → α} {offset : Nat → Except Exn Nat} {offsets : Nat → Nat}
    {indices : List Nat} (hfound : ∀ j ∈ indices, offset j = .ok (offsets j)) :
    Ops.applyBias data biasData alpha beta relu offset indices =
      .ok (indices.foldl (fun data j =>
        let value := alpha * data j + beta * biasData (offsets j)
        Function.update data j (if relu then maxZero value else value)) data) := by
  induction indices generalizing data with
  | nil => rfl
  | cons j rest ih =>
    obtain ⟨hhead, htail⟩ := List.forall_mem_cons.1 hfound
    exact bind_ok.2 ⟨_, hhead, ih htail⟩

/-- A loop that has computed the epilogue of each element. -/
theorem setData_epilogued {T : (Nat → α) → Nat → α} {φ : Nat → α → α}
    (hacts : Acts T (fun j => j < output.numel) φ) (hsame : ∀ j, j < output.numel →
      φ j (output.data j) =
      epilogue.finish (output.data j) (j / output.extent 1) (j % output.extent 1)) :
    output.setData (T output.data) = epilogued epilogue output := by
  refine congrArg output.setData ((hacts.run _).trans (funext fun j => ?_))
  split
  · rename_i hinside
    exact hsame j hinside
  · rfl

/-- `ops::detail::apply_gemm_epilogue` -/
theorem ops_applyGemmEpilogue (h : epilogue.Bound output bias alpha beta relu)
    (hfloat : output.dtype = .float32) :
    Ops.applyGemmEpilogue output bias alpha beta relu = .ok (epilogued epilogue output) := by
  have hfloats (t : Tensor α) (hfloat : t.dtype = .float32) : t.floats = .ok t.data :=
    check_ok.2 ⟨require_ok.2 (by rw [hfloat]; rfl), rfl⟩
  refine bind_ok.2 ⟨_, hfloats output hfloat, ?_⟩
  cases bias with
  | none =>
    have hunbiased : epilogue.layout = .none := h.unbiased.2 rfl
    dsimp only
    split
    · rename_i hscaled
      refine congrArg Except.ok (setData_epilogued (acts_elements output.numel fun j value =>
        if relu then maxZero (alpha * value) else alpha * value) fun j _ => ?_)
      simp only [GemmEpilogue.finish, hunbiased, h.alpha_eq, h.relu_eq, ne_eq,
        not_true_eq_false, if_false, if_pos hscaled]
    · rename_i hunscaled
      refine congrArg Except.ok
        (setData_epilogued (T := fun data => data) (φ := fun _ v => v) ?_ ?_)
      · exact fun data j => ⟨fun _ => rfl, fun _ => rfl⟩
      · intro j _
        rw [not_or] at hunscaled
        simp [GemmEpilogue.finish, hunbiased, h.alpha_eq, h.relu_eq, hunscaled]
  | some b =>
    have hbiased : epilogue.layout ≠ .none := fun hnone => by cases h.unbiased.1 hnone
    obtain ⟨m, n, hshape⟩ := List.length_eq_two.1 (show output.shape.length = 2 from h.rank)
    obtain ⟨it, hmade, hit_shape⟩ := TensorIterator.ofOperands_bias hshape (h.fits b rfl m n hshape)
    rw [← hshape] at hit_shape
    have hbuilt := TensorIterator.ofOperands_built hmade
    have hcount : it.numel = output.numel := by
      rw [hbuilt.numel, hit_shape]
      rfl
    have hfound (j : Nat) (hmem : j ∈ List.range it.numel) : it.operandOffset 1 j =
        .ok (j / output.extent 1 * epilogue.rowStride + j % output.extent 1 *
          epilogue.columnStride) := by
      have hinside := List.mem_range.1 hmem
      rw [(hbuilt.operandOffset (p := 1) rfl hinside).1, hit_shape]
      rw [hcount, Tensor.numel_matrix h.rank, ← inside_iff] at hinside
      rw [h.offset b rfl _ hinside.1 _ hinside.2, Nat.mul_comm, Nat.div_add_mod]
    have hshapes : (it.shape == output.shape) = true := by rw [hit_shape, beq_self_eq_true]
    refine bind_ok.2 ⟨it, hmade,
      check_ok.2 ⟨require_ok.2 hshapes,
        bind_ok.2 ⟨_, hfloats b (h.float b rfl),
          bind_ok.2 ⟨_, applyBias_ok hfound, congrArg Except.ok ?_⟩⟩⟩⟩
    rw [hcount, ← forRange_eq_foldl]
    refine setData_epilogued (acts_elements output.numel fun j value =>
      let sum := alpha * value + beta * b.data
        (j / output.extent 1 * epilogue.rowStride + j % output.extent 1 * epilogue.columnStride)
      if relu then maxZero sum else sum) fun j _ => ?_
    simp only [GemmEpilogue.finish, GemmEpilogue.biasData, ne_eq, hbiased,
      not_false_eq_true, if_true, h.alpha_eq, h.beta_eq, h.relu_eq, h.bias_eq]

/-- `cpu::apply_gemm_epilogue` -/
theorem cpu_applyGemmEpilogue (h : epilogue.Bound output bias alpha beta relu)
    (hfloat : output.dtype = .float32) (hcontiguous : output.isContiguous = true) :
    applyGemmEpilogue output epilogue = .ok (epilogued epilogue output) := by
  refine check_ok.2 ⟨h.validate hfloat hcontiguous, ?_⟩
  split
  · rw [h.bias_eq, h.alpha_eq, h.beta_eq, h.relu_eq]
    exact ops_applyGemmEpilogue h hfloat
  · have hacts : Acts _ (fun j => j < output.extent 0 * output.extent 1) _ :=
      acts_matrix fun row column value => epilogue.finish value row column
    refine congrArg Except.ok (setData_epilogued (hacts.cells fun j => ?_) fun j _ => rfl)
    rw [Tensor.numel_matrix h.rank]

/-! ## The fused kernel -/

variable {simd : Simd} {lhs : Tensor α} {rhs : PackedMatMulRhs α} {blockSize : MatMulBlockSize}

theorem operands_of_runPacked {fused : Option (GemmEpilogue α)} {result : Tensor α}
    (hran : runPacked simd fused lhs rhs output blockSize = .ok result) :
    PackedOperands lhs rhs output ∧ blockSize.check = .ok () := by
  obtain ⟨hvalid, hran⟩ := check_ok.1 hran
  exact ⟨validatePackedMatmul_ok.1 hvalid, (check_ok.1 hran).1⟩

/-- The fused kernel computes the epilogue of what the kernel without it computes. -/
theorem runPacked_epilogued (h : epilogue.Bound output bias alpha beta relu)
    (hlanes : ∀ v row column, epilogue.finishLane v row column = epilogue.finish v row column)
    (hoperands : PackedOperands lhs rhs output) (hpositive : blockSize.check = .ok ())
    (hlhs64 : Shape.Int64 lhs.shape) (houtput64 : Shape.Int64 output.shape) {product : Tensor α}
    (hunfused : runPacked simd none lhs rhs output blockSize = .ok product) :
    runPacked simd (some epilogue) lhs rhs output blockSize = .ok (epilogued epilogue product) := by
  have hcolumns_lt : rhs.columns < 2 ^ 63 := hoperands.columns_eq ▸ Tensor.extent_le houtput64 1
  by_cases hzero : lhs.extent 0 = 0 ∨ rhs.inner = 0 ∨ rhs.columns = 0
  · obtain ⟨-, hunfused⟩ := check_ok.1 hunfused
    obtain ⟨-, hunfused⟩ := check_ok.1 hunfused
    simp only [if_pos hzero] at hunfused
    cases hunfused
    refine check_ok.2 ⟨validatePackedMatmul_ok.2 hoperands, check_ok.2 ⟨hpositive, ?_⟩⟩
    simp only [if_pos hzero]
    exact cpu_applyGemmEpilogue (h.setData _) hoperands.output_float hoperands.contiguous
  · have hran : runPacked simd (some epilogue) lhs rhs output blockSize = _ :=
      runPacked_eq (fun e hfused => by cases hfused; exact hlanes) hoperands hpositive
        hlhs64 hcolumns_lt
        fun _ => by omega
    have hran' : runPacked simd none lhs rhs output blockSize = _ :=
      runPacked_eq (fun e hfused => by cases hfused) hoperands hpositive hlhs64 hcolumns_lt
        fun hfused => by cases hfused
    cases hran'.symm.trans hunfused
    refine hran.trans (congrArg (fun data => Except.ok (output.setData data)) (funext fun j => ?_))
    have hcolumns : (output.setData fun j => if j < output.numel then finishFinal none true
        (packedDot simd blockSize lhs rhs (j / rhs.columns) (j % rhs.columns)) (j / rhs.columns)
          (j % rhs.columns) else output.data j).extent 1 = rhs.columns := hoperands.columns_eq
    rw [hcolumns]
    refine if_ctx_congr Iff.rfl (fun hinside => ?_) fun houtside => ?_
    · exact congrArg (epilogue.finish · _ _) (if_pos hinside).symm
    · exact (if_neg houtside).symm

/-- The three ways to compute a Gemm agree. -/
structure Fused (simd : Simd) (lhs : Tensor α) (rhs : PackedMatMulRhs α) (output : Tensor α)
    (bias : Option (Tensor α)) (alpha beta : α) (relu : Bool) (epilogue : GemmEpilogue α)
    (blockSize : MatMulBlockSize) : Prop where
  accepts : (∃ result, matmulPackedGemm simd lhs rhs output epilogue blockSize = .ok result) ↔
    ∃ product, matmulPackedSimd simd lhs rhs output blockSize = .ok product
  legacy : ∀ product, matmulPackedSimd simd lhs rhs output blockSize = .ok product →
    Ops.applyGemmEpilogue product bias alpha beta relu = .ok (epilogued epilogue product)
  specialized : ∀ product, matmulPackedSimd simd lhs rhs output blockSize = .ok product →
    applyGemmEpilogue product epilogue = .ok (epilogued epilogue product)
  fused : ∀ product, matmulPackedSimd simd lhs rhs output blockSize = .ok product →
    matmulPackedGemm simd lhs rhs output epilogue blockSize = .ok (epilogued epilogue product)

/-- An identity leaves a matrix as it is. -/
theorem epilogued_identity (hidentity : epilogue.isIdentity = true) (output : Tensor α) :
    epilogued epilogue output = output := by
  simp only [GemmEpilogue.isIdentity, Bool.and_eq_true, beq_iff_eq, Bool.not_eq_true'] at hidentity
  obtain ⟨⟨hunbiased, hone⟩, hlinear⟩ := hidentity
  have hsame (j : Nat) (value : α) (row column : Nat) :
    epilogue.finish value row column = value := by
    simp [GemmEpilogue.finish, hunbiased, hone, hlinear]
  refine congrArg output.setData (funext fun j => ?_)
  split
  · exact hsame j _ _ _
  · rfl

/-- With a bound epilogue the fused product is the unfused one followed by the epilogue. -/
theorem fused_of_bound (hone_mul : ∀ x : α, 1 * x = x) (hcommutes : ∀ x : α, x * alpha = alpha * x)
    (h : epilogue.Bound output bias alpha beta relu) (hlhs64 : Shape.Int64 lhs.shape)
    (houtput64 : Shape.Int64 output.shape) :
    Fused simd lhs rhs output bias alpha beta relu epilogue blockSize := by
  have hcomputed (hoperands : PackedOperands lhs rhs output)
    (hpositive : blockSize.check = .ok ()) :
      ∃ data, matmulPackedSimd simd lhs rhs output blockSize = .ok (output.setData data) :=
    ⟨_, runPacked_eq (fun e hfused => by cases hfused) hoperands hpositive hlhs64
      (hoperands.columns_eq ▸ Tensor.extent_le houtput64 1) fun hfused => by cases hfused⟩
  have hmade {product : Tensor α}
    (hran : matmulPackedSimd simd lhs rhs output blockSize = .ok product) :
      PackedOperands lhs rhs output ∧ blockSize.check = .ok () ∧
      ∃ data, product = output.setData data := by
    obtain ⟨hoperands, hpositive⟩ := operands_of_runPacked hran
    obtain ⟨data, hagain⟩ := hcomputed hoperands hpositive
    exact ⟨hoperands, hpositive, data, Except.ok.inj (hran.symm.trans hagain)⟩
  have hfused (product : Tensor α)
    (hran : matmulPackedSimd simd lhs rhs output blockSize = .ok product) :
      matmulPackedGemm simd lhs rhs output epilogue blockSize =
        .ok (epilogued epilogue product) := by
    obtain ⟨hoperands, hpositive, data, rfl⟩ := hmade hran
    refine check_ok.2 ⟨h.validate hoperands.output_float hoperands.contiguous, ?_⟩
    by_cases hidentity : epilogue.isIdentity = true
    · rw [if_pos hidentity, epilogued_identity hidentity, hran]
    · rw [if_neg hidentity]
      by_cases hfusion : epilogue.supportsFusion = true
      · rw [if_neg (by simp [hfusion])]
        exact runPacked_epilogued h
          (GemmEpilogue.finishLane_eq hone_mul (h.alpha_eq ▸ hcommutes) hfusion)
          hoperands hpositive hlhs64 houtput64 hran
      · rw [if_pos (by simp [hfusion])]
        exact bind_ok.2 ⟨_, hran, cpu_applyGemmEpilogue (h.setData data) hoperands.output_float
          hoperands.contiguous⟩
  refine ⟨⟨?_, fun ⟨product, hran⟩ => ⟨_, hfused product hran⟩⟩, ?_, ?_, hfused⟩
  · rintro ⟨result, hran⟩
    obtain ⟨-, hran⟩ := check_ok.1 hran
    split at hran
    · exact ⟨_, hran⟩
    · split at hran
      · obtain ⟨product, hran, -⟩ := bind_ok.1 hran
        exact ⟨product, hran⟩
      · obtain ⟨hoperands, hpositive⟩ := operands_of_runPacked hran
        obtain ⟨data, hran⟩ := hcomputed hoperands hpositive
        exact ⟨_, hran⟩
  · intro product hran
    obtain ⟨hoperands, -, data, rfl⟩ := hmade hran
    exact ops_applyGemmEpilogue (h.setData data) hoperands.output_float
  · intro product hran
    obtain ⟨hoperands, -, data, rfl⟩ := hmade hran
    exact cpu_applyGemmEpilogue (h.setData data) hoperands.output_float hoperands.contiguous

/-! ## Shape inference -/

/-- Shape inference accepts a bias that fits. -/
theorem inferGemm_bias {a b c output : TensorSpec} {attributes : NodeAttributes}
    (hunbiased : inferGemm a b none attributes = .ok output)
    (hadmits : TensorLayout.Admits output.shape) (hadmits' : TensorLayout.Admits c.shape)
    (hsame : a.dtype = c.dtype) :
    ∃ m n, output.shape = [m, n] ∧ 0 ≤ m ∧ 0 ≤ n ∧
      (inferGemm a b (some c) attributes = .ok output ↔ BiasFits m n c.shape) := by
  unfold inferGemm at hunbiased ⊢
  obtain ⟨hdtypes, hunbiased⟩ := check_ok.1 hunbiased
  have hdtypes := require_ok.1 hdtypes
  simp only [Option.all_none, Bool.and_true] at hdtypes
  rcases hlhs : a.shape with _ | ⟨a₀, _ | ⟨a₁, _ | ⟨d, rest⟩⟩⟩ <;> rw [hlhs] at hunbiased
  · cases hunbiased
  · cases hunbiased
  · rcases hrhs : b.shape with _ | ⟨b₀, _ | ⟨b₁, _ | ⟨d, rest⟩⟩⟩ <;> rw [hrhs] at hunbiased
    · cases hunbiased
    · cases hunbiased
    · obtain ⟨htransposes, hunbiased⟩ := check_ok.1 hunbiased
      obtain ⟨hinner, hunbiased⟩ := check_ok.1 hunbiased
      cases hunbiased
      refine ⟨_, _, rfl, hadmits.nonneg _ List.mem_cons_self,
        hadmits.nonneg _ (List.mem_cons_of_mem _ List.mem_cons_self), ?_⟩
      have hallDtypes : (a.dtype == b.dtype && (some c).all (a.dtype == ·.dtype)) = true := by
        rw [Option.all_some, hdtypes, hsame, beq_self_eq_true, Bool.and_true]
      rw [check_ok, and_iff_right (require_ok.2 hallDtypes)]
      refine check_ok.trans ((and_iff_right htransposes).trans
        (check_ok.trans ((and_iff_right hinner).trans ?_)))
      exact TensorIterator.broadcast_matrix hadmits hadmits' _
    · cases hunbiased
  · cases hunbiased

/-- A third input that shape inference accepts. -/
theorem inferOutputSpecs_bias {op : OpType} (hgemm : op = .gemm ∨ op = .fusedGemmActivation)
    {a b c output : TensorSpec} {attributes : NodeAttributes}
    (hunbiased : inferOutputSpecs op [a, b] attributes = .ok [output])
    (hadmits : TensorLayout.Admits output.shape) (hvalid : c.Valid) (hfloat : c.dtype = .float32) :
    ∃ m n, output.shape = [m, n] ∧ 0 ≤ m ∧ 0 ≤ n ∧
      (inferOutputSpecs op [a, b, c] attributes = .ok [output] ↔ BiasFits m n c.shape) := by
  unfold inferOutputSpecs at hunbiased ⊢
  obtain ⟨-, hunbiased⟩ := check_ok.1 hunbiased
  obtain ⟨hspecs, hunbiased⟩ := check_ok.1 hunbiased
  obtain ⟨hattributesValid, hunbiased⟩ := check_ok.1 hunbiased
  obtain ⟨hfloats, hunbiased⟩ := check_ok.1 hunbiased
  obtain ⟨spec, hinferred, heq⟩ := bind_ok.1 hunbiased
  cases heq
  have hspecs' : [a, b, c].forM validateSpec = .ok () := by
    rw [forM_ok] at hspecs ⊢
    exact List.forall_mem_cons.2 ⟨hspecs a List.mem_cons_self, List.forall_mem_cons.2
      ⟨hspecs b (List.mem_cons_of_mem _ List.mem_cons_self),
        List.forall_mem_cons.2 ⟨validateSpec_ok.2 hvalid, fun _ hnone =>
          absurd hnone List.not_mem_nil⟩⟩⟩
  have hdtypes := require_ok.1 hfloats
  simp only [List.all_cons, List.all_nil, Bool.and_true, Bool.and_eq_true, beq_iff_eq] at hdtypes
  have hfloats' : requireFloat32 (operatorSchema op) [a, b, c] = .ok () :=
    require_ok.2 (by simp [hdtypes, hfloat])
  have harity : require (decide ((operatorSchema op).minimumInputs ≤ [a, b, c].length) &&
      decide ([a, b, c].length ≤ (operatorSchema op).maximumInputs)) (.invalidArgument
        ((operatorSchema op).name ++ " received the wrong number of inputs")) = .ok () := by
    rcases hgemm with rfl | rfl <;> rfl
  have hlast : ∃ m n, output.shape = [m, n] ∧ 0 ≤ m ∧ 0 ≤ n ∧
      (inferOperator op [a, b, c] attributes = .ok output ↔ BiasFits m n c.shape) := by
    rcases hgemm with rfl | rfl
    · exact inferGemm_bias hinferred hadmits hvalid.1 (hdtypes.1.trans hfloat.symm)
    · obtain ⟨hactivation, hinferred⟩ := check_ok.1 hinferred
      obtain ⟨m, n, hshape, hm, hn, hiff⟩ :=
        inferGemm_bias hinferred hadmits hvalid.1 (hdtypes.1.trans hfloat.symm)
      exact ⟨m, n, hshape, hm, hn, check_ok.trans ((and_iff_right hactivation).trans hiff)⟩
  obtain ⟨m, n, hshape, hm, hn, hiff⟩ := hlast
  refine ⟨m, n, hshape, hm, hn, Iff.trans ?_ hiff⟩
  refine check_ok.trans ((and_iff_right harity).trans (check_ok.trans ((and_iff_right hspecs').trans
    (check_ok.trans ((and_iff_right hattributesValid).trans
      (check_ok.trans ((and_iff_right hfloats').trans
      (bind_ok.trans ?_))))))))
  constructor
  · rintro ⟨_, h, heq⟩
    cases heq
    exact h
  · exact fun h => ⟨_, h, rfl⟩

/-- What the fused epilogue and its descriptor promise. -/
structure FusedGemm (output : Tensor α) (alpha beta : α) (relu : Bool) : Prop where
  kernels : ∀ (simd : Simd) (lhs : Tensor α) (rhs : PackedMatMulRhs α) (bias : Option (Tensor α))
    (biasShape : Option Shape) (prototype epilogue : GemmEpilogue α) (blockSize : MatMulBlockSize),
    GemmEpilogue.make output.shape biasShape alpha beta relu = .ok prototype →
    prototype.bind bias = .ok epilogue →
    Shape.Int64 lhs.shape → Shape.Int64 output.shape →
    Fused simd lhs rhs output bias alpha beta relu epilogue blockSize
  biases : ∀ (op : OpType) (a b c : TensorSpec) (attributes : NodeAttributes),
    op = .gemm ∨ op = .fusedGemmActivation →
    inferOutputSpecs op [a, b] attributes = .ok [output.spec] → c.Valid → c.dtype = .float32 →
    (inferOutputSpecs op [a, b, c] attributes = .ok [output.spec] ↔
      ∃ e, GemmEpilogue.make output.shape (some c.shape) alpha beta relu = .ok e)

/-- The fused paths compute what the product followed by the epilogue computes. -/
theorem gemm_fused (hone_mul : ∀ x : α, 1 * x = x) (output : Tensor α) {alpha : α} (beta : α)
    (relu : Bool) (hcommutes : ∀ x : α, x * alpha = alpha * x) :
    FusedGemm output alpha beta relu := by
  constructor
  · intro simd lhs rhs bias biasShape prototype epilogue blockSize hmade hbound hlhs64 houtput64
    exact fused_of_bound hone_mul hcommutes (GemmEpilogue.bind_bound hmade hbound) hlhs64 houtput64
  · intro op a b c attributes hgemm hunbiased hvalid hfloat
    obtain ⟨m, n, hshape, hm, hn, hiff⟩ :=
      inferOutputSpecs_bias hgemm hunbiased output.layout.admits hvalid hfloat
    rw [hiff, ← GemmEpilogue.make_some hm hn, ← hshape]
    rfl

/-- Over the integers, a two by two output with a rectifier. -/
theorem gemm_fused_int : FusedGemm (matrix 2 2 Int.ofNat) 2 3 true :=
  gemm_fused Int.one_mul _ 3 true fun x => Int.mul_comm x 2

/-- The lanes multiply by `alpha` on the right. The descriptor accepts a bias of more bytes
than `size_t` counts, where the output is empty. -/
theorem gemm_fused_word :
    ((∀ x : Word, 1 * x = x) ∧ ¬ FusedGemm (matrix 1 4 fun _ => 0) (Word.mk [5]) 0 false) ∧
    inferOutputSpecs .gemm [⟨[0, 0], .float32⟩, ⟨[0, 2 ^ 62], .float32⟩] [] =
      .ok [⟨[0, 2 ^ 62], .float32⟩] ∧
    inferOutputSpecs .gemm [⟨[0, 0], .float32⟩, ⟨[0, 2 ^ 62], .float32⟩, ⟨[2 ^ 62], .float32⟩] [] =
      .error (.overflowError "tensor byte size overflows size_t") ∧
    ∃ e, GemmEpilogue.make [0, 2 ^ 62] (some [2 ^ 62]) (Word.mk [1]) 0 false = .ok e := by
  refine ⟨⟨fun _ => rfl, fun h => ?_⟩, rfl, rfl, _, rfl⟩
  have hvectors :=
    (h.kernels .sse2 (matrix 1 1 fun _ => ⟨[2]⟩) ⟨1, 4, fun _ => ⟨[3]⟩⟩ none none _ _ {} rfl rfl
    (by decide : Shape.Int64 [1, 1]) (by decide : Shape.Int64 [1, 4])).fused _ rfl
  have hlane : (⟨[0, 0, 2, 3, 5]⟩ : Word) = ⟨[5, 0, 0, 2, 3]⟩ :=
    Except.ok.inj (congrArg (Except.map fun t : Tensor Word => t.data 0) hvectors)
  cases hlane

end Cpu

end TinyInfer
