import TinyInfer.Graph.OperatorSchema

/-!
# Tensors (`core/tensor.cpp`)

A tensor is a layout over the elements of a storage, of which `data` reads the
`n`-th after the start of the view. Only `float` elements are ever read, so `α`
stands for these; the elements of the other types are not modelled.
-/

namespace TinyInfer

structure Tensor (α : Type) where
  layout : TensorLayout
  dtype : DataType
  data : Nat → α
  /-- `size_bytes` did not throw in a constructor. -/
  bytes_le : layout.numel * dtype.size ≤ sizeMax

namespace Tensor

variable {α : Type} (t : Tensor α)

def shape : Shape := t.layout.shape

def strides : Strides := t.layout.strides

def rank : Nat := t.layout.rank

def numel : Nat := t.layout.numel

def isContiguous : Bool := t.layout.isContiguous

def spec : TensorSpec := ⟨t.shape, t.dtype⟩

/-- `shape()[d]`, as the kernels cast it. -/
def extent (d : Nat) : Nat := (t.shape.getD d 0).toNat

/-- `strides()[d]`, as the kernels cast it. -/
def stride (d : Nat) : Nat := (t.strides.getD d 0).toNat

/-- `data<float>()` -/
def floats : Except Exn (Nat → α) := do
  require (t.dtype == .float32)
    (.logicError "tensor dtype does not match requested C++ storage type")
  .ok t.data

/-- The same view, after its elements were written. -/
def setData (data : Nat → α) : Tensor α := { t with data }

/-- `at(indices)` of a `const` tensor -/
def atIndices (indices : Shape) : Except Exn α := do
  let data ← t.floats
  .ok (data (← t.layout.offset indices))

/-- The element at these coordinates. -/
def elementAt (coords : List Nat) : α :=
  t.data (Lib.RowMajor.dot (TensorLayout.strideNats t.strides) coords)

/-- The element of a rank in row-major order. -/
def logicalElement (index : Nat) : α := t.elementAt (Lib.RowMajor.coordinates t.layout.dims index)

/-- The elements in row-major order. -/
def elements : List α := (List.range t.numel).map t.logicalElement

theorem length_elements : t.elements.length = t.numel := by
  rw [elements, List.length_map, List.length_range]

/-- The elements of a contiguous tensor lie in row-major order. -/
theorem elements_contiguous {t : Tensor α} {shape : Shape} {hadmits : TensorLayout.Admits shape}
    (hlayout : t.layout = TensorLayout.contiguous shape hadmits) {es : List α} {default : α}
    (hdata : ∀ i, t.data i = es.getD i default) (hlength : es.length = t.numel) :
    t.elements = es := by
  refine List.ext_getElem (t.length_elements.trans hlength.symm) fun i hinside hinside' => ?_
  have hdims : t.layout.dims = Shape.dims shape := by rw [hlayout]; rfl
  have hstrides : TensorLayout.strideNats t.strides =
    Lib.RowMajor.contiguousStrides (Shape.dims shape) := by
    rw [← TensorLayout.strideNats_contiguousStrides, Tensor.strides, hlayout]
    rfl
  have hcount : i < (Shape.dims shape).prod := by
    rw [length_elements] at hinside
    rwa [← hdims]
  have helement : t.logicalElement i = es.getD i default := by
    rw [Tensor.logicalElement, Tensor.elementAt, hstrides, hdims,
      Lib.RowMajor.dot_contiguousStrides (Lib.RowMajor.inside_coordinates hcount).length_eq,
      Lib.RowMajor.rank_coordinates hcount, hdata]
  simp only [elements, List.getElem_map, List.getElem_range]
  rw [helement, List.getD_eq_getElem?_getD, List.getElem?_eq_getElem hinside', Option.getD_some]

/-- It is at the storage offset of the rank. -/
theorem logicalElement_eq {index : Nat} (hinside : index < t.numel) :
    ∃ offset, t.layout.storageOffset index = .ok offset ∧ t.logicalElement index = t.data offset :=
  ⟨_, (t.layout.storageOffset_eq hinside).1, rfl⟩

end Tensor

/-- The specs that pass `validateSpec`. -/
def TensorSpec.Valid (spec : TensorSpec) : Prop :=
  TensorLayout.Admits spec.shape ∧ Shape.count spec.shape * spec.dtype.size ≤ sizeMax

instance (spec : TensorSpec) : Decidable spec.Valid := inferInstanceAs (Decidable (_ ∧ _))

/-- `validate_spec` accepts exactly the valid specs. -/
theorem validateSpec_ok {spec : TensorSpec} : validateSpec spec = .ok () ↔ spec.Valid := by
  unfold validateSpec
  constructor
  · intro h
    obtain ⟨layout, hbuilt, h⟩ := bind_ok.1 h
    obtain ⟨hadmits, rfl⟩ := TensorLayout.ofShape_ok.1 hbuilt
    obtain ⟨bytes, hcounted, -⟩ := bind_ok.1 h
    exact ⟨hadmits, ((TensorLayout.sizeBytes_ok _).1 hcounted).1⟩
  · rintro ⟨hadmits, hbytes⟩
    exact bind_ok.2 ⟨_, TensorLayout.ofShape_ok.2 ⟨hadmits, rfl⟩,
      bind_ok.2 ⟨_, (TensorLayout.sizeBytes_ok _).2 ⟨hbytes, rfl⟩, rfl⟩⟩

/-- The spec of a tensor is valid. -/
theorem Tensor.spec_valid {α : Type} (t : Tensor α) : t.spec.Valid :=
  ⟨t.layout.admits, t.bytes_le⟩

end TinyInfer
