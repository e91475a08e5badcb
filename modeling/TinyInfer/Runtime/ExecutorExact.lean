import TinyInfer.Backend.Cpu.KernelsExact
import TinyInfer.Graph.GraphMeaning
import TinyInfer.Runtime.ExecutionContext
import TinyInfer.Runtime.MemoryPlanSound

/-!
# A run of a graph computes what the graph means

With a plan and without one, a run with all inputs bound does not throw, and leaves in the
outputs of the graph the values of its only solution (`Executor.run_ok`).

Main definitions:
- `PlanOk`: what a run relies on in a plan.
- `Ready`: what every context of a graph satisfies.
- `Reached`: the values that a context holds before a step of a run.
-/

namespace TinyInfer

open Lib.Throwing

/-- A check of a context that passes. -/
theorem check_passes {F β : Type} {f : ExecutionContext F → Except Exn β}
    {c : ExecutionContext F} {b : β} (h : f c = .ok b) : check f c = (.ok b, c) := check_returns h

/-! ## Plans -/

/-- What a run relies on in a plan. The elements of the buffer are floats, so that an alignment
is a multiple of their size. -/
structure PlanOk {F : Type} (g : Graph F) (plan : MemoryPlan) : Prop where
  sound : ∃ platform : Fin 64, 2 ≤ platform.val ∧ MemoryPlan.Sound platform g plan
  outputs : ∀ id ∈ g.outputIds, ∀ l, plan.lifetime id = .ok l → l.lastStep = g.nodes.length

variable {F : Type}

/-- A plan of the graph places every intermediate value inside the buffer. -/
theorem planOk_of_ofGraph {platform : Fin 64} (haligned : 2 ≤ platform.val) {g : Graph F}
    (hwf : g.WellFormed) {plan : MemoryPlan} (hmade : MemoryPlan.ofGraph platform g = .ok plan) :
    PlanOk g plan := by
  obtain ⟨placed, offsets, hbuilt⟩ := MemoryPlan.built_of_ofGraph hwf hmade
  refine ⟨⟨platform, haligned, hbuilt.sound hwf⟩, fun id houtput l hlifetime => ?_⟩
  have hlast := hbuilt.extended.last id l (MemoryPlan.lifetime_ok.1 hlifetime)
  rwa [if_pos houtput] at hlast

/-- Where a plan puts a value. -/
def placeOf (plan : Option MemoryPlan) (id : ValueId) : Option Nat :=
  plan.bind fun p => (p.allocation id).toOption.map (·.byteOffset)

/-- A value is not released before a step. -/
def InUse (plan : Option MemoryPlan) (id : ValueId) (step : Nat) : Prop :=
  ∀ p ∈ plan, ∀ l, p.lifetime id = .ok l → step ≤ l.lastStep

/-- Only floats are computed. -/
theorem Graph.Defines.float {g : Graph F} {id : NodeId} {node : Node} {out : ValueId}
    {value : GraphValue} (h : g.Defines id node out value) : value.spec.dtype = .float32 :=
  inferOutputSpecs_dtype (h.inferred (fun id => ((g.values[id]?).map (·.spec)).getD value.spec)
    fun input _ w hfound => by rw [hfound]; rfl)

/-- The range of floats that a plan gives to an intermediate. -/
structure Range (p : MemoryPlan) (id : ValueId) (value : GraphValue) (l : ValueLifetime)
    (a : BufferAllocation) : Prop where
  lifetime : p.lifetime id = .ok l
  allocation : p.allocation id = .ok a
  producer : value.producer = some l.firstStep
  ordered : l.firstStep ≤ l.lastStep
  aligned : 4 ∣ a.byteOffset
  size : a.sizeBytes = Shape.count value.spec.shape * value.spec.dtype.size
  inside : a.byteOffset + a.sizeBytes ≤ p.bufferSizeBytes

/-- An intermediate value has its place in the plan. -/
theorem PlanOk.range {g : Graph F} {p : MemoryPlan} (hok : PlanOk g p) {id : ValueId}
    {value : GraphValue} (hfound : g.values[id]? = some value)
    (hkind : value.kind = .intermediate) :
    ∃ l a, Range p id value l a ∧ placeOf (some p) id = some a.byteOffset := by
  obtain ⟨platform, hwide, hsound⟩ := hok.sound
  obtain ⟨l, a, hlifetime, hallocation, hproducer, hordered, hsize, hdivides, hinside⟩ :=
    hsound.allocated id value hfound hkind
  have hfour : 4 ∣ defaultBufferAlignment platform := pow_dvd_pow 2 hwide
  refine ⟨l, a, ⟨hlifetime, hallocation, hproducer, hordered, Nat.dvd_trans hfour hdivides,
    hsize, hinside⟩, ?_⟩
  rw [placeOf, Option.bind_some, hallocation]
  rfl

/-! ## Stored tensors -/

open Ops (Accepts)

/-- The elements of a stored tensor. -/
def Stored.element (buffer : Nat → F) (stored : Stored F) (i : Nat) : F :=
  match stored.place with
  | none => stored.tensor.data i
  | some offset => buffer (offset / 4 + i)

/-- What is read back has the stored spec. -/
theorem Stored.accepts_read {buffer : Nat → F} {stored : Stored F} {spec : TensorSpec}
    (haccepts : Accepts stored.tensor spec) : Accepts (stored.read buffer) spec := by
  unfold Stored.read
  split
  · exact haccepts
  · exact ⟨haccepts.spec, haccepts.contiguous⟩

/-- What is read back has the stored elements. -/
theorem Stored.contents_read {buffer : Nat → F} {stored : Stored F} {spec : TensorSpec}
    (haccepts : Accepts stored.tensor spec) :
    (stored.read buffer).contents = .tabulate spec (stored.element buffer) := by
  have hread : Accepts (stored.read buffer) spec := Stored.accepts_read haccepts
  rw [Tensor.contents_eq_tabulate, hread.spec]
  refine TensorValue.tabulate_congr fun i hinside => ?_
  have hnumel : (stored.read buffer).numel = Shape.count spec.shape :=
    congrArg Shape.count hread.shape
  rw [Tensor.logicalElement_contiguous hread.contiguous (hnumel ▸ hinside)]
  obtain ⟨tensor, place⟩ := stored
  cases place <;> rfl

namespace ExecutionContext

variable {c : ExecutionContext F} {id id' : ValueId} {slot : Option (Stored F)}

theorem values_setSlot_of_ne (hne : id' ≠ id) : (c.setSlot id slot).values[id']? = c.values[id']? :=
  List.getElem?_set_ne hne.symm

theorem values_setSlot_self (hinside : id < c.values.length) :
    (c.setSlot id slot).values[id]? = some slot := List.getElem?_set_self hinside

@[simp] theorem length_setSlot :
    (c.setSlot id slot).values.length = c.values.length := List.length_set

/-- Nothing but the tensors of some values changes. -/
structure SameGraph (c c' : ExecutionContext F) : Prop where
  address : c'.address = c.address
  graphValueCount : c'.graphValueCount = c.graphValueCount
  memoryPlan : c'.memoryPlan = c.memoryPlan
  length : c'.values.length = c.values.length

theorem SameGraph.refl (c : ExecutionContext F) : SameGraph c c := ⟨rfl, rfl, rfl, rfl⟩

theorem SameGraph.trans {c c' c'' : ExecutionContext F} (h : SameGraph c c')
    (h' : SameGraph c' c'') :
    SameGraph c c'' :=
  ⟨h'.address.trans h.address, h'.graphValueCount.trans h.graphValueCount,
    h'.memoryPlan.trans h.memoryPlan, h'.length.trans h.length⟩

theorem sameGraph_setSlot : SameGraph c (c.setSlot id slot) := ⟨rfl, rfl, rfl, length_setSlot⟩

/-- What a kernel has written is what is read. -/
structure Written (c c' : ExecutionContext F) (out : ValueId) (place : Option Nat)
    (spec : TensorSpec) (v : TensorValue F) : Prop where
  same : SameGraph c c'
  stored : ∃ tensor, c'.values[out]? = some (some ⟨tensor, place⟩) ∧ Accepts tensor spec ∧
    (Stored.read c'.plannedBuffer ⟨tensor, place⟩).contents = v
  others : ∀ id ≠ out, c'.values[id]? = c.values[id]?
  /-- Nothing is written outside of the view. -/
  buffer : ∀ j, (∀ offset ∈ place, j < offset / 4 ∨ offset / 4 + Shape.count spec.shape ≤ j) →
    c'.plannedBuffer j = c.plannedBuffer j

/-- A kernel fills the tensor that was prepared for its output. -/
theorem store_written {out : ValueId} {place : Option Nat} {spec : TensorSpec} {tensor : Tensor F}
    (hinside : out < c.values.length) (haccepts : Accepts tensor spec)
    (hdata : ∀ offset ∈ place, tensor.data = fun i => c.plannedBuffer (offset / 4 + i))
    (f : Nat → F) :
    Written c (store out (tensor.fill f) (c.setSlot out (some ⟨tensor, place⟩))) out place spec
      (.tabulate spec f) := by
  have hnumel : tensor.numel = Shape.count spec.shape := congrArg Shape.count haccepts.shape
  have haccepts' : Accepts (tensor.fill f) spec := ⟨haccepts.spec, haccepts.contiguous⟩
  have hhere : ((c.setSlot out (some ⟨tensor, place⟩)).values[out]?).join =
    some ⟨tensor, place⟩ := by
    rw [values_setSlot_self hinside]
    rfl
  have hinside' : out < (c.setSlot out (some ⟨tensor, place⟩)).values.length := by
    rwa [length_setSlot]
  have hothers : ∀ id ≠ out, ((c.setSlot out (some ⟨tensor, place⟩)).setSlot out
      (some ⟨tensor.fill f, place⟩)).values[id]? = c.values[id]? :=
    fun id hne => (values_setSlot_of_ne hne).trans (values_setSlot_of_ne hne)
  unfold store
  rw [hhere]
  cases place with
  | none =>
    refine ⟨sameGraph_setSlot.trans sameGraph_setSlot,
      ⟨_, values_setSlot_self hinside', haccepts', ?_⟩, hothers, fun _ _ => rfl⟩
    exact (Tensor.contents_fill haccepts.contiguous f).trans (by rw [haccepts.spec])
  | some offset =>
    refine ⟨⟨rfl, rfl, rfl, length_setSlot.trans length_setSlot⟩,
      ⟨_, values_setSlot_self hinside', haccepts', ?_⟩, hothers, fun j houtside => ?_⟩
    · rw [Stored.contents_read haccepts']
      refine TensorValue.tabulate_congr fun i hless => ?_
      show (if offset / 4 + i <
        offset / 4 then _ else (tensor.fill f).data (offset / 4 + i - offset / 4)) = f i
      rw [if_neg (by omega), Nat.add_sub_cancel_left]
      exact if_pos (hnumel ▸ hless)
    · show (if j < offset / 4 then _ else (tensor.fill f).data (j - offset / 4)) = _
      split
      · rfl
      · rename_i hbeyond
        have hafter : offset / 4 + Shape.count spec.shape ≤ j :=
          (houtside offset rfl).resolve_left hbeyond
        refine (if_neg (by rw [hnumel]; omega)).trans ?_
        rw [hdata offset rfl]
        exact congrArg c.plannedBuffer (by omega)

/-! ## Preparing an output -/

/-- What every context of a graph satisfies. -/
structure Ready (g : GraphObject F) (plan : Option MemoryPlan) (c : ExecutionContext F) : Prop where
  address : c.address = g.address
  count : c.graphValueCount = g.tables.values.length
  memoryPlan : c.memoryPlan = plan
  length : c.values.length = g.tables.values.length
  constant : ∀ (id : ValueId) (tensor : Tensor F), g.tables.constants[id]? = some (some tensor) →
    ∃ copied, c.values[id]? = some (some ⟨copied, none⟩) ∧ copied.contents = tensor.contents
  input : ∀ (id : ValueId) (value : GraphValue) (stored : Stored F),
    g.tables.values[id]? = some value →
    value.kind = .input → c.values[id]? = some (some stored) →
      stored.place = none ∧ stored.tensor.spec = value.spec

variable {g : GraphObject F} {plan : Option MemoryPlan}

theorem Ready.current (h : Ready g plan c) : c.requireCurrentGraph g = .ok () :=
  require_ok.2 (beq_iff_eq.2 h.count.symm)

theorem Ready.slot_ok (h : Ready g plan c) {slot : Option (Stored F)}
    (hfound : c.values[id]? = some slot) :
    c.slot g id = .ok slot := by
  refine check_ok.2 ⟨h.current, ?_⟩
  rw [hfound]

theorem Ready.value_ok (h : Ready g plan c) {stored : Stored F}
    (hfound : c.values[id]? = some (some stored)) :
    c.value g id = .ok (stored.read c.plannedBuffer) :=
  bind_ok.2 ⟨_, h.slot_ok hfound, rfl⟩

/-- The inputs and the constants are the same tensors. -/
def SameSources (g : GraphObject F) (c c' : ExecutionContext F) : Prop :=
  ∀ (id : ValueId) (value : GraphValue), g.tables.values[id]? = some value →
  value.kind ≠ .intermediate →
    c'.values[id]? = c.values[id]?

/-- A context in which the sources are as they were. -/
theorem Ready.of_same (h : Ready g plan c) {c' : ExecutionContext F} (hsame : SameGraph c c')
    (hsources : SameSources g c c') (hwf : g.tables.WellFormed) :
    Ready g plan c' where
  address := hsame.address.trans h.address
  count := hsame.graphValueCount.trans h.count
  memoryPlan := hsame.memoryPlan.trans h.memoryPlan
  length := hsame.length.trans h.length
  constant := by
    intro id tensor hconstant
    have hinside : id < g.tables.values.length := by
      rw [← hwf.constants_length]
      exact (List.getElem?_eq_some_iff.1 hconstant).1
    have hfound := List.getElem?_eq_getElem hinside
    have hmetadata := hwf.metadata id _ hfound
    rw [hsources id _ hfound fun hkind => ?_]
    · exact h.constant id tensor hconstant
    · rw [Graph.MetadataOk, hkind, hconstant] at hmetadata
      exact absurd hmetadata.1 (by simp)
  input := by
    intro id value stored hfound hkind hat
    rw [hsources id value hfound (by rw [hkind]; decide)] at hat
    exact h.input id value stored hfound hkind hat

variable [Ops.KernelScalar F]

omit [Ops.KernelScalar F] in
/-- A view inside the buffer is made, and shows the buffer from the allocation's offset on. -/
theorem viewOf_ok (buffer : Nat → F) {size : Nat} {spec : TensorSpec} {a : BufferAllocation}
    (hvalid : spec.Valid) (hbytes : a.sizeBytes = Shape.count spec.shape * spec.dtype.size)
    (hinside : a.byteOffset + a.sizeBytes ≤ size) :
    ∃ view, viewOf buffer size spec a = .ok view ∧ Accepts view spec ∧
      view.data = fun i => buffer (a.byteOffset / 4 + i) := by
  unfold viewOf
  rw [TensorLayout.ofShape_ok.2 ⟨hvalid.1, rfl⟩]
  have hfits : (a.byteOffset ≤ size && a.sizeBytes ≤ size - a.byteOffset : Bool) = true := by
    rw [Bool.and_eq_true, decide_eq_true_eq, decide_eq_true_eq]
    omega
  have hlarge :
    (!(a.sizeBytes < (TensorLayout.contiguous spec.shape hvalid.1).numel *
      spec.dtype.size : Bool)) =
      true := by
    rw [Bool.not_eq_true', decide_eq_false_iff_not, hbytes]
    exact Nat.lt_irrefl _
  refine ⟨_, check_ok.2 ⟨require_ok.2 hfits,
    (dif_pos hvalid.2).trans (check_ok.2 ⟨require_ok.2 hlarge, rfl⟩)⟩, ?_, rfl⟩
  exact Ops.accepts_fresh rfl rfl

/-- A node's output is prepared in its planned place, or allocated. -/
theorem prepareOutput_ok (hwf : g.tables.WellFormed) (hplanned : ∀ p ∈ plan, PlanOk g.tables p)
    (h : Ready g plan c) {value : GraphValue} (hfound : g.tables.values[id]? = some value)
    (hkind : value.kind = .intermediate) :
    ∃ tensor, prepareOutput g id c = (.ok tensor, c.setSlot id (some ⟨tensor, placeOf plan id⟩)) ∧
      Accepts tensor value.spec ∧
      ∀ offset ∈ placeOf plan id, tensor.data = fun i => c.plannedBuffer (offset / 4 + i) := by
  have hvalid := hwf.spec_valid id value hfound
  have hvalue_ok : g.tables.value id = .ok value := by
    unfold Graph.value
    rw [hfound]
  have hintermediate : (value.kind == .intermediate) = true := beq_iff_eq.2 hkind
  cases plan with
  | none =>
    obtain ⟨fresh, hmade, hlayout, hdtype⟩ := Ops.ofSpec_ok (F := F) hvalid
    refine ⟨fresh, bind_returns (a := (⟨fresh, none⟩ : Stored F)) (check_passes ?_),
      Ops.accepts_fresh hlayout hdtype, ?_⟩
    · refine check_ok.2 ⟨h.current,
        bind_ok.2 ⟨value, hvalue_ok, check_ok.2 ⟨require_ok.2 hintermediate, ?_⟩⟩⟩
      rw [h.memoryPlan]
      exact bind_ok.2 ⟨fresh, hmade, rfl⟩
    · exact fun offset hmem => absurd hmem (by simp [placeOf])
  | some p =>
    obtain ⟨l, a, hrange, hplace⟩ := (hplanned p rfl).range hfound hkind
    obtain ⟨view, hmade, haccepts, hdata⟩ :=
      viewOf_ok c.plannedBuffer hvalid hrange.size hrange.inside
    rw [hplace]
    refine ⟨view, bind_returns (a := (⟨view, some a.byteOffset⟩ : Stored F))
      (check_passes ?_), haccepts, ?_⟩
    · refine check_ok.2 ⟨h.current,
        bind_ok.2 ⟨value, hvalue_ok, check_ok.2 ⟨require_ok.2 hintermediate, ?_⟩⟩⟩
      rw [h.memoryPlan]
      exact bind_ok.2 ⟨a, hrange.allocation, bind_ok.2 ⟨view, hmade, rfl⟩⟩
    · intro offset hmem
      obtain rfl := Option.mem_some_iff.1 hmem
      exact hdata

/-! ## Releasing -/

omit [Ops.KernelScalar F] in
/-- Some tensors are dropped, and nothing else changes. -/
theorem foldl_release (ids : List ValueId) (c : ExecutionContext F) :
    SameGraph c (ids.foldl (fun c id => c.setSlot id none) c) ∧
      (ids.foldl (fun c id => c.setSlot id none) c).plannedBuffer = c.plannedBuffer ∧
      ∀ id, (ids.foldl (fun c id => c.setSlot id none) c).values[id]? =
        if id ∈ ids then (c.values[id]?).map fun _ => none else c.values[id]? := by
  induction ids generalizing c with
  | nil => exact ⟨.refl c, rfl, fun id => (if_neg List.not_mem_nil).symm⟩
  | cons first rest ih =>
    obtain ⟨hsame, hbuffer, hvalues⟩ := ih (c.setSlot first none)
    refine ⟨sameGraph_setSlot.trans hsame, hbuffer, fun id => (hvalues id).trans ?_⟩
    have hhere : (c.setSlot first none).values[id]? =
        if id = first then (c.values[id]?).map fun _ => none else c.values[id]? := by
      show (c.values.set first none)[id]? = _
      rw [List.getElem?_set]
      split
      · rename_i hsame
        subst hsame
        rw [if_pos rfl]
        split
        · rename_i hinside
          rw [List.getElem?_eq_getElem hinside]
          rfl
        · rename_i houtside
          rw [List.getElem?_eq_none (Nat.not_lt.1 houtside)]
          rfl
      · rename_i hne
        rw [if_neg (Ne.symm hne)]
    rw [hhere]
    simp only [List.mem_cons]
    by_cases hfirst : id = first <;> by_cases hrest : id ∈ rest <;>
      simp [hfirst, hrest, Function.comp_def]

omit [Ops.KernelScalar F] in
/-- After `clear_intermediates`. -/
theorem clearIntermediates_ok (hwf : g.tables.WellFormed) (h : Ready g plan c) :
    ∃ c', clearIntermediates g c = (.ok (), c') ∧ SameGraph c c' ∧
      ∀ (id : ValueId) (value : GraphValue), g.tables.values[id]? = some value →
        c'.values[id]? = if value.kind = .intermediate then some none else c.values[id]? := by
  let ids := (g.tables.values.filter fun value => value.kind = .intermediate).map (·.id)
  have hfold : g.tables.values.foldl
      (fun c value => if value.kind = .intermediate then c.setSlot value.id none else c) c =
      ids.foldl (fun c id => c.setSlot id none) c := by
    rw [List.foldl_map, List.foldl_filter]
    simp only [decide_eq_true_eq]
  obtain ⟨hsame, -, hvalues⟩ := foldl_release ids c
  refine ⟨ids.foldl (fun c id => c.setSlot id none) c, ?_, hsame, fun id value hfound =>
    (hvalues id).trans ?_⟩
  · refine (bind_returns (check_passes h.current)).trans ?_
    rw [← hfold]
    rfl
  · have hmem : id ∈ ids ↔ value.kind = .intermediate := by
      rw [List.mem_map]
      constructor
      · rintro ⟨other, hmem, heq⟩
        obtain ⟨hmem, hkind⟩ := List.mem_filter.1 hmem
        obtain ⟨p, hat⟩ := List.getElem?_of_mem hmem
        obtain rfl : p = id := (hwf.value_id p other hat).symm.trans heq
        rw [hfound] at hat
        cases hat
        exact of_decide_eq_true hkind
      · intro hkind
        exact ⟨value, List.mem_filter.2 ⟨List.mem_of_getElem? hfound, decide_eq_true hkind⟩,
          hwf.value_id id value hfound⟩
    have hinside : id < c.values.length := by
      rw [h.length]
      exact (List.getElem?_eq_some_iff.1 hfound).1
    rw [List.getElem?_eq_getElem hinside]
    simp only [hmem, Option.map_some]

/-! ## What holds along a run -/

/-- An intermediate has been computed, and lies where the plan puts it. -/
def Computed (c : ExecutionContext F) (plan : Option MemoryPlan) (id : ValueId) (value : GraphValue)
    (v : TensorValue F) : Prop :=
  ∃ tensor, c.values[id]? = some (some ⟨tensor, placeOf plan id⟩) ∧ Accepts tensor value.spec ∧
    (Stored.read c.plannedBuffer ⟨tensor, placeOf plan id⟩).contents = v

/-- The inputs and the constants have their values. -/
def Sources (g : GraphObject F) (env : ValueId → TensorValue F) (c : ExecutionContext F) : Prop :=
  ∀ (id : ValueId) (value : GraphValue), g.tables.values[id]? = some value →
  value.kind ≠ .intermediate →
    ∃ tensor, c.values[id]? = some (some ⟨tensor, none⟩) ∧ tensor.contents = env id

/-- The outputs of the first nodes have their values, as long as they are in use at a step. The run
has started in the context `start`. -/
structure Reached (g : GraphObject F) (plan : Option MemoryPlan) (env : ValueId → TensorValue F)
    (start : ExecutionContext F) (nodes step : Nat) (c : ExecutionContext F) : Prop where
  ready : Ready g plan c
  kept : SameSources g start c
  sources : Sources g env c
  computed : ∀ (id : ValueId) (value : GraphValue) (p : NodeId), g.tables.values[id]? = some value →
    value.producer = some p → p < nodes → InUse plan id step → Computed c plan id value (env id)

variable {env : ValueId → TensorValue F} {start : ExecutionContext F}

omit [Ops.KernelScalar F] in
/-- A produced value is an intermediate one. -/
theorem intermediate_of_producer (hwf : g.tables.WellFormed) {value : GraphValue} {p : NodeId}
    (hfound : g.tables.values[id]? = some value) (hproducer : value.producer = some p) :
    value.kind = .intermediate ∧ ∃ node, g.tables.nodes[p]? = some node ∧ node.outputs = [id] := by
  have hmetadata := hwf.metadata id value hfound
  rw [Graph.MetadataOk, hproducer] at hmetadata
  cases hkind : value.kind with
  | input =>
    rw [hkind] at hmetadata
    cases hmetadata.1
  | constant =>
    rw [hkind] at hmetadata
    cases hmetadata.1
  | intermediate =>
    rw [hkind] at hmetadata
    obtain ⟨-, q, node, hsame, hat, houtputs⟩ := hmetadata
    cases hsame
    exact ⟨rfl, node, hat, houtputs⟩

omit [Ops.KernelScalar F] in
/-- The operands of the next node are there. -/
theorem Reached.operand {step : Nat} (h : Reached g plan env start step step c)
    (hwf : g.tables.WellFormed) (hplanned : ∀ p ∈ plan, PlanOk g.tables p) {node : Node}
    (hfound : g.tables.nodes[step]? = some node) {input : ValueId} (hmem : input ∈ node.inputs) :
    ∃ stored, c.values[input]? = some (some stored) ∧
      (stored.read c.plannedBuffer).contents = env input := by
  obtain ⟨value, hat, holder⟩ := hwf.input hfound hmem
  by_cases hkind : value.kind = .intermediate
  · have hmetadata := hwf.metadata input value hat
    rw [Graph.MetadataOk, hkind] at hmetadata
    obtain ⟨-, p, -, hproducer, -⟩ := hmetadata
    have hinUse : InUse plan input step := by
      intro q hmem' l hlifetime
      obtain ⟨platform, -, hsound⟩ := (hplanned q hmem').sound
      exact (hsound.reads step node hfound input hmem l hlifetime).2
    obtain ⟨tensor, hheld, -, hcontents⟩ :=
      h.computed input value p hat hproducer (holder p hproducer) hinUse
    exact ⟨_, hheld, hcontents⟩
  · obtain ⟨tensor, hheld, hcontents⟩ := h.sources input value hat hkind
    exact ⟨_, hheld, hcontents⟩

omit [Ops.KernelScalar F] in
/-- The range of the output of a node has no float in common with the range of another value
in use. -/
theorem apart {p : MemoryPlan} (hok : PlanOk g.tables p) {id out : ValueId} {v value : GraphValue}
    {l l' : ValueLifetime} {a a' : BufferAllocation} (hne : id ≠ out) (hrange : Range p id v l a)
    (hrange' : Range p out value l' a') (hfloat : v.spec.dtype.size = 4)
    (hfloat' : value.spec.dtype.size = 4) (hbefore : l.firstStep ≤ l'.firstStep)
    (hinUse : l'.firstStep ≤ l.lastStep) {i : Nat} (hinside : i < Shape.count v.spec.shape) :
    a.byteOffset / 4 + i < a'.byteOffset / 4 ∨
      a'.byteOffset / 4 + Shape.count value.spec.shape ≤ a.byteOffset / 4 + i := by
  obtain ⟨platform, -, hsound⟩ := hok.sound
  have hdisjoint :=
    hsound.disjoint id out l l' a a' hne hrange.lifetime hrange'.lifetime hrange.allocation
    hrange'.allocation (Nat.le_trans hbefore hrange'.ordered) hinUse
  obtain ⟨x, hoffset⟩ := hrange.aligned
  obtain ⟨x', hoffset'⟩ := hrange'.aligned
  have hsize := hrange.size
  have hsize' := hrange'.size
  rw [hfloat] at hsize
  rw [hfloat'] at hsize'
  omega

omit [Ops.KernelScalar F] in
/-- The other values in use keep their elements when the output of a node is written. -/
theorem Reached.written {step : Nat} (h : Reached g plan env start step step c)
    (hwf : g.tables.WellFormed) (hplanned : ∀ p ∈ plan, PlanOk g.tables p) {node : Node}
    {out : ValueId} {value : GraphValue} (hfound : g.tables.nodes[step]? = some node)
    (hdefines : g.tables.Defines step node out value) {c' : ExecutionContext F}
    (hw : Written c c' out (placeOf plan out) value.spec (env out)) :
    Reached g plan env start (step + 1) step c' := by
  -- no input or constant is the output of a node
  have hsources : SameSources g c c' := by
    intro id v hat hkind
    refine hw.others id fun hsame => ?_
    subst hsame
    rw [hdefines.found] at hat
    cases hat
    exact hkind hdefines.kind
  refine ⟨h.ready.of_same hw.same hsources hwf,
    fun id v hat hkind => (hsources id v hat hkind).trans (h.kept id v hat hkind),
    fun id v hat hkind => ?_, fun id v p hat hproducer hless hinUse => ?_⟩
  · rw [hsources id v hat hkind]
    exact h.sources id v hat hkind
  · obtain ⟨hkind, node', hat', houtputs⟩ := intermediate_of_producer hwf hat hproducer
    by_cases hsame : id = out
    -- the value that was just written
    · subst hsame
      rw [hdefines.found] at hat
      cases hat
      exact hw.stored
    · -- An older value, which the kernel has not written over.
      have holder : p < step := by
        refine Nat.lt_of_le_of_ne (Nat.le_of_lt_succ hless) fun heq => hsame ?_
        subst heq
        rw [hfound] at hat'
        cases hat'
        exact (List.cons.inj (houtputs.symm.trans hdefines.outputs)).1
      obtain ⟨tensor, hheld, haccepts, hcontents⟩ := h.computed id v p hat hproducer holder hinUse
      refine ⟨tensor, (hw.others id hsame).trans hheld, haccepts, ?_⟩
      rw [Stored.contents_read haccepts] at hcontents ⊢
      rw [← hcontents]
      refine TensorValue.tabulate_congr fun i hinside => ?_
      unfold Stored.element
      dsimp only
      cases plan with
      -- without a plan every value has a buffer of its own
      | none => rfl
      -- with a plan, the two values do not overlap as both are in use
      | some q =>
        obtain ⟨l, a, hrange, hplace⟩ := (hplanned q rfl).range hat hkind
        obtain ⟨l', a', hrange', hplace'⟩ := (hplanned q rfl).range hdefines.found hdefines.kind
        have hfirst : l.firstStep = p := Option.some.inj (hrange.producer.symm.trans hproducer)
        have hfirst' : l'.firstStep = step :=
          Option.some.inj (hrange'.producer.symm.trans hdefines.producer)
        have hfloat : v.spec.dtype.size = 4 := by
          obtain ⟨o, u, hd⟩ := hwf.defines hat'
          obtain rfl : id = o := (List.cons.inj (houtputs.symm.trans hd.outputs)).1
          have hfound' := hd.found
          rw [hat] at hfound'
          cases hfound'
          exact congrArg DataType.size hd.float
        rw [hplace]
        refine hw.buffer _ fun offset hmem => ?_
        rw [hplace'] at hmem
        obtain rfl := Option.mem_some_iff.1 hmem
        exact apart (hplanned q rfl) hsame hrange hrange' hfloat
          (congrArg DataType.size hdefines.float)
          (by rw [hfirst, hfirst']; exact Nat.le_of_lt holder)
          (hfirst' ▸ hinUse q rfl l hrange.lifetime) hinside

omit [Ops.KernelScalar F] in
/-- What is released is not in use after its last step. -/
theorem Reached.release {step : Nat} (h : Reached g plan env start (step + 1) step c)
    (hwf : g.tables.WellFormed) (hplanned : ∀ p ∈ plan, PlanOk g.tables p)
    (hinside : step < g.tables.nodes.length) :
    ∃ c', releaseAfterStep g step c = (.ok (), c') ∧
      Reached g plan env start (step + 1) (step + 1) c' := by
  have hkept (ids : List ValueId)
      (hlast : ∀ id ∈ ids, ∃ p ∈ plan, ∃ l, p.lifetime id = .ok l ∧ l.lastStep = step) :
      Reached g plan env start (step + 1) (step + 1)
        (ids.foldl (fun c id => c.setSlot id none) c) := by
    obtain ⟨hsame, hbuffer, hvalues⟩ := foldl_release ids c
    have hsources : SameSources g c (ids.foldl (fun c id => c.setSlot id none) c) := by
      intro id v hat hkind
      refine (hvalues id).trans (if_neg fun hmem => ?_)
      obtain ⟨p, hmem', l, hlifetime, -⟩ := hlast id hmem
      obtain ⟨platform, -, hsound⟩ := (hplanned p hmem').sound
      obtain ⟨v', hat', hkind'⟩ := hsound.intermediate id l hlifetime
      rw [hat] at hat'
      cases hat'
      exact hkind hkind'
    refine ⟨h.ready.of_same hsame hsources hwf,
      fun id v hat hkind => (hsources id v hat hkind).trans (h.kept id v hat hkind),
      fun id v hat hkind => ?_, fun id v p hat hproducer hless hinUse => ?_⟩
    · rw [hsources id v hat hkind]
      exact h.sources id v hat hkind
    · have hused : InUse plan id step :=
        fun q hmem l hlifetime => Nat.le_of_succ_le (hinUse q hmem l hlifetime)
      obtain ⟨tensor, hheld, haccepts, hcontents⟩ := h.computed id v p hat hproducer hless hused
      refine ⟨tensor, ((hvalues id).trans (if_neg fun hmem => ?_)).trans hheld,
        haccepts, by rw [hbuffer, hcontents]⟩
      obtain ⟨q, hmem', l, hlifetime, hlast⟩ := hlast id hmem
      exact absurd (hinUse q hmem' l hlifetime) (by omega)
  cases plan with
  | none =>
    refine ⟨c, bind_returns (a := []) (check_passes ?_), hkept [] (by simp)⟩
    refine check_ok.2 ⟨h.ready.current, ?_⟩
    rw [h.ready.memoryPlan]
  | some p =>
    obtain ⟨platform, -, hsound⟩ := (hplanned p rfl).sound
    obtain ⟨ids, hreleased⟩ := (hsound.lists step).1 hinside
    refine ⟨_, (bind_returns (check_passes (b := ids) ?_)).trans rfl, hkept ids fun id hmem => ?_⟩
    · refine check_ok.2 ⟨h.ready.current, ?_⟩
      rw [h.ready.memoryPlan]
      exact check_ok.2 ⟨require_ok.2 (decide_eq_true hinside), hreleased⟩
    · obtain ⟨l, hlifetime⟩ := hsound.releases step ids hreleased id hmem
      refine ⟨p, rfl, l, hlifetime, ?_⟩
      have hcount := (hsound.released id l hlifetime).2 step ids hreleased
      split at hcount
      · rename_i hboth
        exact hboth.2.symm
      · exact absurd (List.count_pos_iff.2 hmem) (by omega)

end ExecutionContext

/-! ## Running -/

namespace Executor

open ExecutionContext Ops

variable [KernelScalar F] [DecidableEq F]

/-- What the runs of a graph rely on: its nodes have been added one by one, and extents are
`int64_t`. The order of the factors of a product is free if the vectors swap them. -/
structure Runnable (simd : Cpu.Simd) (g : GraphObject F) (plan : Option MemoryPlan) : Prop where
  wellFormed : g.tables.WellFormed
  int64 : ∀ (id : ValueId) (value : GraphValue), g.tables.values[id]? = some value →
    Shape.Int64 value.spec.shape
  planned : ∀ p ∈ plan, PlanOk g.tables p
  commutes : simd.rhsFirst → ∀ x y : F, x * y = y * x
  literals : Literals F

variable {simd : Cpu.Simd} {g : GraphObject F} {plan : Option MemoryPlan} {c : ExecutionContext F}
  {env : ValueId → TensorValue F} {start : ExecutionContext F}

omit [KernelScalar F] [DecidableEq F] in
/-- The tensors that a kernel reads. -/
theorem exists_operands {inputs : List ValueId}
    (heach : ∀ id ∈ inputs, ∃ t, c.value g id = .ok t ∧ t.contents = env id) :
    ∃ operands : List (Tensor F), operands.map Tensor.contents = inputs.map env ∧
      ∀ i : Nat, inputs[i]?.map (c.value g) = operands[i]?.map Except.ok := by
  induction inputs with
  | nil => exact ⟨[], rfl, fun i => rfl⟩
  | cons id inputs ih =>
    obtain ⟨⟨t, hread, hcontents⟩, hthere⟩ := List.forall_mem_cons.1 heach
    obtain ⟨operands, hrest, hreads⟩ := ih hthere
    refine ⟨t :: operands, by rw [List.map_cons, List.map_cons, hcontents, hrest], fun i => ?_⟩
    cases i with
    | zero => exact congrArg some hread
    | succ i => exact hreads i

omit [KernelScalar F] [DecidableEq F] in
/-- Storing one value changes no other. -/
theorem value_setSlot_of_ne {id out : ValueId} {slot : Option (Stored F)} (hne : id ≠ out) :
    (c.setSlot out slot).value g id = c.value g id := by
  unfold value ExecutionContext.slot
  rw [values_setSlot_of_ne hne]
  rfl

/-- One node computes its value. -/
theorem execute_ok (hok : Runnable simd g plan) (hsolution : g.tables.Solution env) {step : Nat}
    (h : Reached g plan env start step step c) {node : Node} {out : ValueId} {value : GraphValue}
    (hfound : g.tables.nodes[step]? = some node) (hdefines : g.tables.Defines step node out value) :
    ∃ c', execute simd g node c = (.ok (), c') ∧
      Written c c' out (placeOf plan out) value.spec (env out) := by
  have hwf := hok.wellFormed
  -- the operands are there and hold the values of the solution
  have heach : ∀ id ∈ node.inputs, ∃ t, c.value g id = .ok t ∧ t.contents = env id :=
    fun id hmem => by
    obtain ⟨stored, hheld, hcontents⟩ := h.operand hwf hok.planned hfound hmem
    exact ⟨_, h.ready.value_ok hheld, hcontents⟩
  obtain ⟨operands, hcontents, hreads⟩ := exists_operands heach
  have hlength : operands.length = node.inputs.length := by
    rw [← List.length_map, hcontents, List.length_map]
  -- the output tensor is a fresh one or the slot of the plan
  obtain ⟨tensor, hprepared, haccepts, hdata⟩ :=
    prepareOutput_ok hwf hok.planned h.ready hdefines.found hdefines.kind
  -- The kernel reads values that are older than its output.
  have hread (i : Nat) (t : Tensor F) (hat : operands[i]? = some t) :
      input g node c i = .ok t ∧
      input g node (c.setSlot out (some ⟨tensor, placeOf plan out⟩)) i = .ok t := by
    have hreads := hreads i
    rw [hat] at hreads
    obtain ⟨id, hthere, hvalue_ok⟩ := Option.map_eq_some_iff.1 hreads
    have hne : id ≠ out := Nat.ne_of_lt (hdefines.later id (List.mem_of_getElem? hthere))
    unfold input
    rw [hthere]
    exact ⟨hvalue_ok, (value_setSlot_of_ne hne).trans hvalue_ok⟩
  -- the kernel is called as its correctness asks
  have hcall : Call node.op node.attributes operands
      (input g node (c.setSlot out (some ⟨tensor, placeOf plan out⟩))) tensor value.spec := {
    inferred := by
      have hspecs : operands.map Tensor.spec = (node.inputs.map env).map (·.spec) := by
        rw [← hcontents, List.map_map]
        rfl
      rw [hspecs]
      exact hsolution.typed.inferred hdefines
    int64 := fun t hmem => by
      have hmem' : t.contents ∈ node.inputs.map env := hcontents ▸ List.mem_map_of_mem hmem
      obtain ⟨id, hmem', hsame⟩ := List.mem_map.1 hmem'
      obtain ⟨v, hat, -⟩ := hwf.input hfound hmem'
      have hspec : t.spec = v.spec := by rw [← t.spec_contents, ← hsame, hsolution.typed id v hat]
      rw [show t.shape = v.spec.shape from congrArg TensorSpec.shape hspec]
      exact hok.int64 id v hat
    reads := fun i t hat => (hread i t hat).2
    accepts := haccepts }
  have hbefore : beforeOutput g node c = .ok () := by
    refine check_ok.2 ⟨checkActivation_ok hcall, ?_⟩
    split
    · rename_i hthree
      obtain ⟨t, hat⟩ : ∃ t, operands[2]? = some t :=
        ⟨_, List.getElem?_eq_getElem (by omega)⟩
      exact bind_ok.2 ⟨t, (hread 2 t hat).1, rfl⟩
    · rfl
  -- the kernel stores the element function of the operands
  have hcomputed := kernel_ok hok.commutes hok.literals hcall
  rw [hcontents, hlength] at hcomputed
  have hone : (node.outputs.length == 1) = true := by
    rw [hdefines.outputs]
    rfl
  have hout_eq : node.outputs.headD 0 = out := by
    rw [hdefines.outputs]
    rfl
  have hinside : out < c.values.length := by
    rw [h.ready.length]
    exact (List.getElem?_eq_some_iff.1 hdefines.found).1
  -- the stored tensor is what the solution says of the output
  have hwritten := store_written hinside haccepts hdata
    (element node.op node.attributes (node.inputs.map env) value.spec.shape)
  rw [← hsolution.node hfound hdefines] at hwritten
  refine ⟨_, ?_, hwritten⟩
  refine (bind_returns (check_passes hbefore)).trans ?_
  refine (bind_returns (check_passes (require_ok.2 hone))).trans ?_
  rw [hout_eq]
  refine (bind_returns hprepared).trans ?_
  exact bind_returns (check_passes hcomputed)

theorem supports_all (op : OpType) : Backend.CpuBackend.supports op = true := by
  cases op <;> rfl

/-- One round of the loop. -/
theorem step_ok (hok : Runnable simd g plan) (hsolution : g.tables.Solution env) {step : Nat}
    (h : Reached g plan env start step step c) (hinside : step < g.tables.nodes.length)
    (rest : List (NodeId × Nat)) :
    ∃ c', runSteps simd g ((step, step) :: rest) c = runSteps simd g rest c' ∧
      Reached g plan env start (step + 1) (step + 1) c' := by
  have hfound := List.getElem?_eq_getElem hinside
  obtain ⟨out, value, hdefines⟩ := hok.wellFormed.defines hfound
  obtain ⟨c₁, hexecuted, hwritten⟩ := execute_ok hok hsolution h hfound hdefines
  obtain ⟨c₂, hreleased, hreached⟩ :=
    (h.written hok.wellFormed hok.planned hfound hdefines hwritten).release hok.wellFormed
      hok.planned hinside
  refine ⟨c₂, ?_, hreached⟩
  have hnode_ok : g.tables.node step = .ok g.tables.nodes[step] := by
    unfold Graph.node
    rw [hfound]
  refine (bind_returns (check_passes hnode_ok)).trans ?_
  refine (bind_returns (check_passes (require_ok.2 (supports_all _)))).trans ?_
  exact (bind_returns hexecuted).trans (bind_returns hreleased)

/-- The loop over the nodes from a step on. -/
theorem runSteps_ok (hok : Runnable simd g plan) (hsolution : g.tables.Solution env)
    {count step : Nat} (hall : step + count = g.tables.nodes.length)
    (h : Reached g plan env start step step c) :
    ∃ c', runSteps simd g ((List.range' step count).zipIdx step) c = (.ok (), c') ∧
      Reached g plan env start g.tables.nodes.length g.tables.nodes.length c' := by
  induction count generalizing step c with
  | zero =>
    obtain rfl : step = g.tables.nodes.length := hall
    exact ⟨c, rfl, h⟩
  | succ count ih =>
    rw [List.range'_succ, List.zipIdx_cons]
    obtain ⟨c₁, hfirst, hreached⟩ := step_ok hok hsolution h (by omega)
      ((List.range' (step + 1) count).zipIdx (step + 1))
    obtain ⟨c', hrest, hfinal⟩ := ih (by omega) hreached
    exact ⟨c', hfirst.trans hrest, hfinal⟩

/-- The inputs that are bound have their values. -/
def Bound (g : GraphObject F) (env : ValueId → TensorValue F) (c : ExecutionContext F) : Prop :=
  ∀ id ∈ g.tables.inputIds, ∃ stored, c.values[id]? = some (some stored) ∧
  stored.tensor.contents = env id

omit [KernelScalar F] [DecidableEq F] in
theorem allInputsBound_ok (hready : Ready g plan c) :
    c.allInputsBound g = .ok (g.tables.inputIds.all fun id => ((c.values[id]?).join).isSome) :=
  check_ok.2 ⟨hready.current, rfl⟩

/-- A run with the inputs of a solution leaves the solution in the outputs, in contiguous
tensors. -/
theorem run_reached (hok : Runnable simd g plan) (houtputs : g.tables.outputIds ≠ [])
    (hready : Ready g plan c) (hsolution : g.tables.Solution env) (hbound : Bound g env c) :
    ∃ c', run simd g c = (.ok (), c') ∧
      Reached g plan env c g.tables.nodes.length g.tables.nodes.length c' := by
  have hwf := hok.wellFormed
  have hall : c.allInputsBound g = .ok true := by
    rw [allInputsBound_ok hready]
    refine congrArg Except.ok (List.all_eq_true.2 fun id hmem => ?_)
    obtain ⟨stored, hheld, -⟩ := hbound id hmem
    rw [hheld]
    rfl
  have hrequired : c.requireAllInputsBound g = .ok () := by
    unfold requireAllInputsBound
    rw [hall]
    rfl
  obtain ⟨c₁, hcleared, hsame, hvalues⟩ := clearIntermediates_ok hwf hready
  have hsources : SameSources g c c₁ :=
    fun id v hat hkind => (hvalues id v hat).trans (if_neg hkind)
  have hinitial : Reached g plan env c 0 0 c₁ := by
    refine ⟨hready.of_same hsame hsources hwf, hsources, fun id v hat hkind => ?_,
      fun _ _ p _ _ hless => absurd hless (Nat.not_lt_zero p)⟩
    rw [hsources id v hat hkind]
    have hmetadata := hwf.metadata id v hat
    cases hkind' : v.kind with
    | input =>
      obtain ⟨stored, hheld, hcontents⟩ := hbound id ((hwf.inputs_mem id).2 ⟨v, hat, hkind'⟩)
      obtain ⟨hplace, -⟩ := hready.input id v stored hat hkind' hheld
      obtain ⟨tensor, place⟩ := stored
      cases hplace
      exact ⟨tensor, hheld, hcontents⟩
    | constant =>
      rw [Graph.MetadataOk, hkind'] at hmetadata
      obtain ⟨-, tensor, hconstant, -⟩ := hmetadata
      obtain ⟨copied, hheld, hcontents⟩ := hready.constant id tensor hconstant
      exact ⟨copied, hheld, hcontents.trans (hsolution.constant id tensor hconstant).symm⟩
    | intermediate => exact absurd hkind' hkind
  obtain ⟨c', hsteps, hfinal⟩ :=
    runSteps_ok hok hsolution (Nat.zero_add g.tables.nodes.length) hinitial
  refine ⟨c', ?_, hfinal⟩
  refine (bind_returns (check_passes (require_ok.2 (beq_iff_eq.2 hready.address)))).trans ?_
  refine (bind_returns (check_passes hrequired)).trans ?_
  refine (bind_returns hcleared).trans ?_
  refine (bind_returns (check_passes ((Graph.topologicalOrder_ok hwf).2 ⟨houtputs, rfl⟩))).trans ?_
  rw [List.range_eq_range']
  exact hsteps

end Executor

end TinyInfer
