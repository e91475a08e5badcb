import TinyInfer.Core.Tensor
import TinyInfer.Core.TensorIteratorExact

/-!
# What a tensor holds

The elements of a tensor in row-major order, without its strides and its storage. The operators
of a graph are functions of these (`Ops.eval`), and the kernels compute them from tensors of any
layout.

Main definitions:
- `TensorValue`: a spec, and as many elements as its shape has.
- `Tensor.contents`: what a tensor holds.
- `TensorValue.broadcast`: an element of an operand that is broadcast to a shape.
-/

namespace TinyInfer

open Lib.RowMajor

structure TensorValue (F : Type) where
  spec : TensorSpec
  /-- In row-major order. -/
  elements : List F
  length_eq : elements.length = Shape.count spec.shape
  deriving DecidableEq

namespace TensorValue

variable {F : Type}

/-- The value with these elements. -/
def tabulate (spec : TensorSpec) (f : Nat → F) : TensorValue F where
  spec := spec
  elements := (List.range (Shape.count spec.shape)).map f
  length_eq := by rw [List.length_map, List.length_range]

/-- A tabulated value depends only on the indices of its shape. -/
theorem tabulate_congr {spec : TensorSpec} {f f' : Nat → F}
    (hsame : ∀ i < Shape.count spec.shape, f i = f' i) : tabulate spec f = tabulate spec f' := by
  unfold tabulate
  congr 1
  exact List.map_congr_left fun i hmem => hsame i (List.mem_range.1 hmem)

variable [Zero F]

def get (v : TensorValue F) (i : Nat) : F := v.elements.getD i 0

/-- Reading a tabulated value gives the tabulated function. -/
theorem get_tabulate {spec : TensorSpec} (f : Nat → F) {i : Nat}
    (hinside : i < Shape.count spec.shape) :
    (tabulate spec f).get i = f i := by
  have hlength : i < (tabulate spec f).elements.length := by rwa [(tabulate spec f).length_eq]
  rw [get, List.getD_eq_getElem?_getD, List.getElem?_eq_getElem hlength]
  simp [tabulate]

/-! ## Broadcasting -/

/-- The element of an operand that is read for an element of a shape it is broadcast to. -/
def broadcastIndex (operand shape : Shape) (index : Nat) : Nat :=
  rank (Shape.dims operand)
    (List.zipWith (fun extent c => if extent = 1 then 0 else c) (Shape.dims operand)
      ((coordinates (Shape.dims shape) index).drop (shape.length - operand.length)))

def broadcast (v : TensorValue F) (shape : Shape) (index : Nat) : F :=
  v.get (broadcastIndex v.spec.shape shape index)

/-! ## Matrices -/

/-- The extents of a matrix. -/
def rows (v : TensorValue F) : Nat := (v.spec.shape.getD 0 0).toNat

def columns (v : TensorValue F) : Nat := (v.spec.shape.getD 1 0).toNat

/-- An element of a matrix, or of its transpose. -/
def entry (v : TensorValue F) (transpose : Bool) (i j : Nat) : F :=
  if transpose then v.get (j * v.columns + i) else v.get (i * v.columns + j)

/-! ## Groups along an axis -/

/-- The elements that differ from an element in the coordinate of an axis only. -/
def group (v : TensorValue F) (axis index : Nat) : List F :=
  let extent := (v.spec.shape.getD axis 0).toNat
  let inner := Shape.count (v.spec.shape.drop (axis + 1))
  (List.range extent).map fun r =>
    v.get ((index / (extent * inner) * extent + r) * inner + index % inner)

end TensorValue

namespace Tensor

variable {F : Type} (t : Tensor F)

/-- What a tensor holds. -/
def contents : TensorValue F where
  spec := t.spec
  elements := t.elements
  length_eq := t.length_elements

@[simp] theorem spec_contents : t.contents.spec = t.spec := rfl

theorem contents_eq_tabulate : t.contents = TensorValue.tabulate t.spec t.logicalElement := rfl

/-- The contents of a tensor at an index are its logical element there. -/
theorem get_contents [Zero F] {i : Nat} (hinside : i < t.numel) :
    t.contents.get i = t.logicalElement i := TensorValue.get_tabulate _ hinside

/-- The elements of a contiguous tensor lie in row-major order. -/
theorem logicalElement_contiguous {t : Tensor F} (hcontiguous : t.isContiguous = true) {i : Nat}
    (hinside : i < t.numel) : t.logicalElement i = t.data i := by
  have hstrides : t.strides = TensorLayout.contiguousStrides t.layout.shape := eq_of_beq hcontiguous
  rw [logicalElement, elementAt, hstrides, TensorLayout.strideNats_contiguousStrides]
  rw [show Shape.dims t.layout.shape = t.layout.dims from rfl,
    dot_contiguousStrides (length_coordinates ..),
    rank_coordinates (show i < t.layout.dims.prod from hinside)]

/-- The same view, with `f` stored in every element. -/
def fill (f : Nat → F) : Tensor F := t.setData fun i => if i < t.numel then f i else t.data i

@[simp] theorem layout_fill (f : Nat → F) : (t.fill f).layout = t.layout := rfl

/-- A filled tensor depends only on the indices it has. -/
theorem fill_congr {f f' : Nat → F} (hsame : ∀ i < t.numel, f i = f' i) : t.fill f = t.fill f' := by
  unfold fill
  congr 1
  funext i
  split
  · rename_i hinside
    exact hsame i hinside
  · rfl

/-- Filling a contiguous tensor stores exactly the tabulated values. -/
theorem contents_fill {t : Tensor F} (hcontiguous : t.isContiguous = true) (f : Nat → F) :
    (t.fill f).contents = TensorValue.tabulate t.spec f := by
  rw [contents_eq_tabulate]
  refine TensorValue.tabulate_congr fun i hinside => ?_
  rw [logicalElement_contiguous (t := t.fill f) hcontiguous hinside]
  exact if_pos hinside

/-- The elements of a matrix. -/
theorem logicalElement_matrix {t : Tensor F} (hrank : t.rank = 2) {i j : Nat} (hi : i < t.extent 0)
    (hj : j < t.extent 1) :
    t.logicalElement (i * t.extent 1 + j) = t.data (i * t.stride 0 + j * t.stride 1) ∧
      i * t.extent 1 + j < t.numel := by
  obtain ⟨m, n, hshape⟩ := List.length_eq_two.1 (show t.shape.length = 2 from hrank)
  obtain ⟨a, b, hstrides⟩ := List.length_eq_two.1
    (show t.strides.length = 2 from t.layout.rank_eq.trans hrank)
  have hdims : t.layout.dims = [t.extent 0, t.extent 1] := by
    simp [extent, hshape, Shape.dims, TensorLayout.dims, show t.layout.shape = t.shape from rfl]
  have hinside : Inside [t.extent 0, t.extent 1] [i, j] := ⟨hi, hj, trivial⟩
  have hplace : Lib.RowMajor.rank [t.extent 0, t.extent 1] [i, j] = i * t.extent 1 + j := by
    simp [Lib.RowMajor.rank]
  have hnumel : t.numel = [t.extent 0, t.extent 1].prod := by rw [← hdims]; rfl
  constructor
  · rw [logicalElement, elementAt, hdims, ← hplace, coordinates_rank hinside]
    simp [dot, TensorLayout.strideNats, hstrides, stride]
  · rw [hnumel, ← hplace]
    exact rank_lt hinside

end Tensor

/-! ## Broadcast operands -/

namespace TensorIterator

variable {F : Type} [Zero F] {operands : List TensorLayout} {it : TensorIterator} {p i : Nat}

/-- The offset of an operand is that of the element it is broadcast from. -/
theorem Built.broadcast_contents (h : Built operands it) {t : Tensor F}
    (hfound : operands[p]? = some t.layout) (hinside : i < it.numel) :
    t.contents.broadcast it.shape i = t.data (naiveOffset t.layout it.shape i) := by
  obtain ⟨s, hhere⟩ := h.of_layout hfound
  obtain ⟨layout, hthere, hmem, hstep⟩ := h.of_strides hhere
  rw [hfound] at hthere
  cases hthere
  have hrank_le := rank_le_broadcastShape h.broadcast hmem
  have hinside' : i < Shape.count it.shape := h.numel ▸ hinside
  unfold broadcastStrides at hstep
  obtain ⟨tail, heq, -⟩ := bind_ok.1 hstep
  have hcoords : Inside (Shape.dims (it.shape.drop (it.shape.length - t.layout.rank)))
      ((coordinates (Shape.dims it.shape) i).drop (it.shape.length - t.layout.rank)) := by
    rw [Shape.dims, List.map_drop]
    exact (inside_coordinates hinside').drop _
  obtain ⟨-, hwithin, -⟩ := broadcastStridesTail_eq t.layout.rank_eq
    (by rw [List.length_drop]; show t.layout.rank = _; omega) heq _ hcoords t.layout.admits.nonneg
    fun d hmem => h.admits.nonneg d (List.mem_of_mem_drop hmem)
  have hless := rank_lt hwithin
  rw [TensorValue.broadcast, TensorValue.broadcastIndex]
  refine (t.get_contents hless).trans ?_
  rw [Tensor.logicalElement, Tensor.elementAt,
    show t.layout.dims = Shape.dims t.layout.shape from rfl]
  refine congrArg (fun c => t.data (dot (TensorLayout.strideNats t.strides) c)) ?_
  exact coordinates_rank hwithin

end TensorIterator

end TinyInfer
