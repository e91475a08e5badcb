import TinyInfer.Graph.GraphConstruction
import TinyInfer.Runtime.ExecutorExact

/-!
# A plan changes nothing that a caller sees

A context with a plan and one without, of the same graph, answer any sequence of requests in the
same way, whatever the buffer held before and whatever was run before.

Main definitions:
- `Request`, `Answer`, `perform`: what a caller asks a context, and what it sees.
- `Related`: what the two contexts have in common between requests.
-/

namespace TinyInfer

open Lib (Throwing)
open Lib.Throwing

variable {F : Type} {g : GraphObject F} {plan : Option MemoryPlan} {c c' : ExecutionContext F}

/-- A graph that has been built, at an address. -/
def BuiltGraph.object (g : BuiltGraph F) (address : Nat) : GraphObject F := ⟨address, g.tables⟩

/-! ## Construction -/

namespace GraphPlan

/-- The plan that is made of a graph is of the graph. -/
theorem isOf_ofGraph {platform : Fin 64} (hwf : g.tables.WellFormed) {plan : GraphPlan}
    (hmade : ofGraph platform g = .ok plan) :
    MemoryPlan.ofGraph platform g.tables = .ok plan.plan ∧ plan.isOf g = true := by
  obtain ⟨p, hplanned, hsame⟩ := bind_ok.1 hmade
  cases hsame
  obtain ⟨placed, offsets, hbuilt⟩ := MemoryPlan.built_of_ofGraph hwf hplanned
  have hallocations : p.allocations.length = g.tables.values.length := by
    rw [hbuilt.allocations]
    suffices ∀ (placed : List (ValueLifetime × Nat)) (start : List (Option BufferAllocation)),
        (placed.foldl (MemoryPlan.allocate offsets) start).length = start.length by
      rw [this, List.length_replicate]
    intro placed
    induction placed with
    | nil => exact fun start => rfl
    | cons q placed ih =>
      intro start
      rw [List.foldl_cons, ih]
      exact List.length_set
  have hnodes : p.nodeCount = g.tables.nodes.length := by
    unfold MemoryPlan.ofGraph at hplanned
    obtain ⟨-, hplanned⟩ := check_ok.1 hplanned
    obtain ⟨order, -, hplanned⟩ := bind_ok.1 hplanned
    obtain ⟨collected, -, hplanned⟩ := bind_ok.1 hplanned
    obtain ⟨laid, -, hplanned⟩ := bind_ok.1 hplanned
    cases hplanned
    rfl
  refine ⟨hplanned, ?_⟩
  unfold isOf
  rw [hallocations, hnodes]
  simp

end GraphPlan

namespace ExecutionContext

variable [Ops.KernelScalar F]

/-- What the constructors check of an intermediate does not matter if it passes. -/
theorem emplaceConstants_congr {g : Graph F} {f : GraphValue → Except Exn Unit}
    {rest : List GraphValue} (hpasses : ∀ value ∈ rest, value.kind = .intermediate →
      f value = .ok ()) (values : List (Option (Stored F))) :
    emplaceConstants g f rest values = emplaceConstants g (fun _ => .ok ()) rest values := by
  induction rest generalizing values with
  | nil => rfl
  | cons value rest ih =>
    obtain ⟨hhere, hthere⟩ := List.forall_mem_cons.1 hpasses
    unfold emplaceConstants
    cases hkind : value.kind with
    | input => exact ih hthere values
    | intermediate =>
      rw [hhere hkind]
      exact ih hthere values
    | constant =>
      cases hconstant : g.constant value.id with
      | error e => rfl
      | ok tensor =>
        cases hcopied : Ops.copy tensor with
        | error e =>
          show (Ops.copy tensor >>= _) = (Ops.copy tensor >>= _)
          rw [hcopied]
          rfl
        | ok tensor' =>
          show (Ops.copy tensor >>= _) = (Ops.copy tensor >>= _)
          rw [hcopied]
          exact ih hthere _

/-- A copy of a constant. -/
def Copied (g : Graph F) (values : List (Option (Stored F))) (id : ValueId) : Prop :=
  ∃ tensor copied, g.constants[id]? = some (some tensor) ∧
  values[id]? = some (some ⟨copied, none⟩) ∧
    copied.contents = tensor.contents

/-- The constants are stored at their ids, by induction on the values still to come. -/
theorem emplaceConstants_ok {g : Graph F} (hwf : g.WellFormed) {rest : List GraphValue}
    (hfound : ∀ value ∈ rest, g.values[value.id]? = some value) {values : List (Option (Stored F))}
    (hlength : values.length = g.values.length) :
    ∃ values', emplaceConstants g (fun _ => .ok ()) rest values = .ok values' ∧
      values'.length = g.values.length ∧
        (∀ value ∈ rest, value.kind = .constant → Copied g values' value.id) ∧
      ∀ id, (∀ value ∈ rest, value.kind = .constant → value.id ≠ id) →
        values'[id]? = values[id]? := by
  induction rest generalizing values with
  | nil => exact ⟨values, rfl, hlength, by simp, fun id _ => rfl⟩
  | cons value rest ih =>
    obtain ⟨hhere, hthere⟩ := List.forall_mem_cons.1 hfound
    unfold emplaceConstants
    -- Only a constant has a tensor of its own.
    have hskip (hkind : value.kind ≠ .constant) :
        ∃ values', emplaceConstants g (fun _ => .ok ()) rest values = .ok values' ∧
          values'.length = g.values.length ∧
          (∀ v ∈ value :: rest, v.kind = .constant → Copied g values' v.id) ∧
          ∀ id, (∀ v ∈ value :: rest, v.kind = .constant → v.id ≠ id) →
          values'[id]? = values[id]? := by
      obtain ⟨values', hdone, hlength', hcopies, hothers⟩ := ih hthere hlength
      refine ⟨values', hdone, hlength', ?_, fun id hother =>
        hothers id (List.forall_mem_cons.1 hother).2⟩
      exact List.forall_mem_cons.2 ⟨fun hconstant => absurd hconstant hkind, hcopies⟩
    cases hkind : value.kind with
    | input => exact hskip (by rw [hkind]; decide)
    | intermediate => exact hskip (by rw [hkind]; decide)
    | constant =>
      have hmetadata := hwf.metadata value.id value hhere
      rw [Graph.MetadataOk, hkind] at hmetadata
      -- the constant is copied into a tensor of its own
      obtain ⟨-, tensor, hstored, -⟩ := hmetadata
      obtain ⟨fresh, hcopied, haccepts, -⟩ := Ops.copy_ok tensor
      have hcontents : (fresh.fill tensor.logicalElement).contents = tensor.contents := by
        rw [Tensor.contents_fill haccepts.contiguous, haccepts.spec]
        rfl
      have hread : g.constant value.id = .ok tensor := by
        unfold Graph.constant Graph.value
        rw [hhere, hstored]
        rfl
      have hinside : value.id < values.length := by
        rw [hlength]
        exact (List.getElem?_eq_some_iff.1 hhere).1
      have hlength' : (values.set value.id (some ⟨fresh.fill tensor.logicalElement, none⟩)).length =
          g.values.length := by rw [List.length_set, hlength]
      obtain ⟨values', hdone, hlength', hcopies, hothers⟩ := ih hthere hlength'
      refine ⟨values', bind_ok.2 ⟨tensor, hread, bind_ok.2 ⟨_, hcopied, hdone⟩⟩, hlength', ?_,
        fun id hother => ?_⟩
      · refine List.forall_mem_cons.2 ⟨fun _ => ?_, hcopies⟩
        -- a later constant with the same number would be copied there again
        by_cases hagain : ∃ v ∈ rest, v.kind = .constant ∧ v.id = value.id
        · obtain ⟨v, hmem, hconstant, hsame⟩ := hagain
          exact hsame ▸ hcopies v hmem hconstant
        · refine ⟨tensor, _, hstored, (hothers value.id fun v hmem hconstant hsame => ?_).trans
            (List.getElem?_set_self hinside), hcontents⟩
          exact hagain ⟨v, hmem, hconstant, hsame⟩
      · obtain ⟨hfirst, hrest⟩ := List.forall_mem_cons.1 hother
        exact (hothers id hrest).trans (List.getElem?_set_ne (hfirst hkind))

/-- The tensors of a fresh context are copies of the constants. -/
theorem fresh_ready (plan : Option MemoryPlan) (hwf : g.tables.WellFormed) (buffer : Nat → F) :
    ∃ values, emplaceConstants g.tables (fun _ => .ok ()) g.tables.values
        (List.replicate g.tables.values.length none) = .ok values ∧
      (∀ (id : ValueId) (value : GraphValue), g.tables.values[id]? = some value →
        value.kind ≠ .constant →
        values[id]? = some none) ∧
      Ready g plan {
        address := g.address, graphValueCount := g.tables.values.length, values
        memoryPlan := plan, plannedBuffer := buffer } := by
  have hfound : ∀ value ∈ g.tables.values, g.tables.values[value.id]? = some value := by
    intro value hmem
    obtain ⟨p, hat⟩ := List.getElem?_of_mem hmem
    rwa [hwf.value_id p value hat]
  have hlength : (List.replicate g.tables.values.length (none : Option (Stored F))).length =
      g.tables.values.length := List.length_replicate
  obtain ⟨values, hdone, hlength, hcopies, hothers⟩ := emplaceConstants_ok hwf hfound hlength
  have hunbound : ∀ (id : ValueId) (value : GraphValue), g.tables.values[id]? = some value →
      value.kind ≠ .constant → values[id]? = some none := by
    intro id value hat hkind
    refine (hothers id fun v hmem hconstant hsame => hkind ?_).trans ?_
    -- no constant has the number of another value
    · have hthere := hfound v hmem
      rw [hsame, hat] at hthere
      cases hthere
      exact hconstant
    · exact List.getElem?_replicate_of_lt (List.getElem?_eq_some_iff.1 hat).1
  refine ⟨values, hdone, hunbound, rfl, rfl, rfl, hlength, fun id tensor hconstant => ?_,
    fun id value stored hat hkind hheld => ?_⟩
  -- every constant has its copy
  · have hinside : id < g.tables.values.length := by
      rw [← hwf.constants_length]
      exact (List.getElem?_eq_some_iff.1 hconstant).1
    have hat := List.getElem?_eq_getElem hinside
    have hmetadata := hwf.metadata id _ hat
    have hkind : g.tables.values[id].kind = .constant := by
      unfold Graph.MetadataOk at hmetadata
      cases hkind : g.tables.values[id].kind with
      | constant => rfl
      | input =>
        rw [hkind] at hmetadata
        have := hmetadata.2
        rw [hconstant] at this
        cases this
      | intermediate =>
        rw [hkind] at hmetadata
        have := hmetadata.1
        rw [hconstant] at this
        cases this
    have hcopied := hcopies _ (List.getElem_mem hinside) hkind
    rw [hwf.value_id id _ hat] at hcopied
    obtain ⟨tensor', copied, hstored, hheld, hcontents⟩ := hcopied
    rw [hconstant] at hstored
    cases hstored
    exact ⟨copied, hheld, hcontents⟩
  · rw [hunbound id value hat (by rw [hkind]; decide)] at hheld
    cases hheld

omit [Ops.KernelScalar F] in
/-- The plan of a graph covers its intermediates. -/
theorem checkPlanned_ok {platform : Fin 64} {g : Graph F} (hwf : g.WellFormed) {p : MemoryPlan}
    (hmade : MemoryPlan.ofGraph platform g = .ok p) {value : GraphValue} (hmem : value ∈ g.values)
    (hkind : value.kind = .intermediate) : checkPlanned p value = .ok () := by
  obtain ⟨placed, offsets, hbuilt⟩ := MemoryPlan.built_of_ofGraph hwf hmade
  obtain ⟨id, hfound⟩ := List.getElem?_of_mem hmem
  obtain rfl := hwf.value_id id value hfound
  have hvalid := hwf.spec_valid _ value hfound
  obtain ⟨l, a, hlifetime, hallocation, -, -, hsize, -, -⟩ :=
    (hbuilt.sound hwf).allocated _ value hfound hkind
  have hcovered : p.hasAllocation value.id = .ok true := by
    unfold MemoryPlan.hasAllocation
    rw [MemoryPlan.allocation_ok.1 hallocation]
    rfl
  have hsame := (hbuilt.extended.lifetime _ l (MemoryPlan.lifetime_ok.1 hlifetime)).1
  refine bind_ok.2 ⟨true, hcovered, check_ok.2 ⟨rfl, ?_⟩⟩
  refine bind_ok.2 ⟨.contiguous value.spec.shape hvalid.1,
    TensorLayout.ofShape_ok.2 ⟨hvalid.1, rfl⟩, ?_⟩
  refine bind_ok.2 ⟨Shape.count value.spec.shape * value.spec.dtype.size,
    (TensorLayout.sizeBytes_ok _).2 ⟨hvalid.2, rfl⟩, bind_ok.2 ⟨a, hallocation, ?_⟩⟩
  refine check_ok.2 ⟨require_ok.2 (beq_iff_eq.2 hsize), bind_ok.2 ⟨l, hlifetime, ?_⟩⟩
  exact require_ok.2 (beq_iff_eq.2 hsame)

/-- The two contexts of a graph hold the same tensors. -/
theorem contexts_ok {platform : Fin 64} (hwf : g.tables.WellFormed) {plan : GraphPlan}
    (hmade : GraphPlan.ofGraph platform g = .ok plan) (buffer buffer' : Nat → F) :
    ∃ c c', ofGraph g buffer = .ok c ∧ ofPlan g plan buffer' = .ok c' ∧ c'.values = c.values ∧
      Ready g none c ∧ Ready g (some plan.plan) c' ∧
      ∀ (id : ValueId) (value : GraphValue), g.tables.values[id]? = some value →
        value.kind ≠ .constant →
        c.values[id]? = some none := by
  obtain ⟨hplanned, hisOf⟩ := GraphPlan.isOf_ofGraph hwf hmade
  have hvalid : g.tables.validate = .ok () := (check_ok.1 hplanned).1
  obtain ⟨values, hdone, hunbound, hready⟩ := fresh_ready none hwf buffer
  obtain ⟨values', hdone', -, hready'⟩ := fresh_ready (some plan.plan) hwf buffer'
  obtain rfl : values = values' := Except.ok.inj (hdone.symm.trans hdone')
  have hplain : ofGraph g buffer = .ok {
      address := g.address, graphValueCount := g.tables.values.length, values
      plannedBuffer := buffer } :=
    check_ok.2 ⟨hvalid, bind_ok.2 ⟨values, hdone, rfl⟩⟩
  refine ⟨_, { address := g.address, graphValueCount := g.tables.values.length, values
               memoryPlan := some plan.plan, plannedBuffer := buffer' }, hplain, ?_, rfl, hready,
                 hready', hunbound⟩
  refine check_ok.2 ⟨hvalid, check_ok.2 ⟨require_ok.2 hisOf, bind_ok.2 ⟨values, ?_, rfl⟩⟩⟩
  rw [emplaceConstants_congr fun value hmem hkind => checkPlanned_ok hwf hplanned hmem hkind]
  exact hdone

omit [Ops.KernelScalar F] in
/-- Inputs and constants have a storage of their own. -/
theorem Ready.place {id : ValueId} {plan : Option MemoryPlan} (h : Ready g plan c)
    (hwf : g.tables.WellFormed) {value : GraphValue}
    (hfound : g.tables.values[id]? = some value) (hkind : value.kind ≠ .intermediate)
    {stored : Stored F} (hheld : c.values[id]? = some (some stored)) : stored.place = none := by
  have hmetadata := hwf.metadata id value hfound
  unfold Graph.MetadataOk at hmetadata
  cases hkind' : value.kind with
  | input => exact (h.input id value stored hfound hkind' hheld).1
  | intermediate => exact absurd hkind' hkind
  | constant =>
    rw [hkind'] at hmetadata
    obtain ⟨-, tensor, hconstant, -⟩ := hmetadata
    obtain ⟨copied, hhere, -⟩ := h.constant id tensor hconstant
    rw [hheld] at hhere
    cases hhere
    rfl

end ExecutionContext

/-! ## Requests -/

namespace Executor

open ExecutionContext Ops

/-- A call of a member function of a context, or a run. -/
inductive Request (F : Type) where
  | bindInput (id : ValueId) (tensor : Tensor F)
  | setValue (id : ValueId) (tensor : Tensor F)
  | clearIntermediates
  | run
  | allInputsBound
  | output (id : ValueId)

/-- What a caller sees of a tensor: its strides, its spec and its elements. -/
structure View (F : Type) where
  strides : List Int
  contents : TensorValue F
  deriving DecidableEq

def View.ofTensor {F : Type} (t : Tensor F) : View F := ⟨t.strides, t.contents⟩

section Perform

variable [KernelScalar F] [DecidableEq F] (simd : Cpu.Simd) (g : GraphObject F)

end Perform

/-! ## What the contexts have in common -/

/-- What a caller sees of a value. -/
def seen (c : ExecutionContext F) (id : ValueId) : Option (Option (View F)) :=
  (c.values[id]?).map (Option.map fun stored => View.ofTensor (stored.read c.plannedBuffer))

/-- The two contexts hold the same inputs and constants, and show the same in the outputs. -/
structure Related (g : GraphObject F) (plan plan' : Option MemoryPlan) (c c' : ExecutionContext F) :
    Prop where
  left : Ready g plan c
  right : Ready g plan' c'
  sources : SameSources g c c'
  outputs : ∀ id ∈ g.tables.outputIds, seen c id = seen c' id

variable {g : GraphObject F} {plan plan' : Option MemoryPlan} {c c' : ExecutionContext F}
    {id : ValueId}

/-- A context and itself. -/
theorem Related.refl (h : Ready g plan c) : Related g plan plan c c :=
  ⟨h, h, fun _ _ _ _ => rfl, fun _ _ => rfl⟩

/-- What is seen of a tensor with a storage of its own. -/
theorem seen_owned {stored : Option (Stored F)} (hheld : c.values[id]? = some stored)
    (howned : ∀ s ∈ stored, s.place = none) :
    seen c id = some (stored.map fun s => View.ofTensor s.tensor) := by
  unfold seen
  rw [hheld]
  cases stored with
  | none => rfl
  | some s =>
    have hplace := howned s rfl
    unfold Stored.read
    simp only [Option.map_some, hplace]

/-- A value gets the same tensor in both contexts. -/
theorem Related.setSlot (h : Related g plan plan' c c') (hwf : g.tables.WellFormed)
    {value : GraphValue} (hfound : g.tables.values[id]? = some value)
    (hkind : value.kind ≠ .constant) {tensor : Tensor F} (hspec : tensor.spec = value.spec) :
    Related g plan plan' (c.setSlot id (some ⟨tensor, none⟩))
      (c'.setSlot id (some ⟨tensor, none⟩)) := by
  -- one context with the new tensor is ready again
  have hready {plan : Option MemoryPlan} {c : ExecutionContext F} (h : Ready g plan c) :
      Ready g plan (c.setSlot id (some ⟨tensor, none⟩)) := by
    refine ⟨h.address, h.count, h.memoryPlan, length_setSlot.trans h.length,
      fun other t hconstant => ?_, fun other v stored hat hinput hheld => ?_⟩
    · have hne : other ≠ id := by
        rintro rfl
        have hmetadata := hwf.metadata other value hfound
        unfold Graph.MetadataOk at hmetadata
        rw [hconstant] at hmetadata
        cases hkind' : value.kind with
        | constant => exact hkind hkind'
        | input =>
          rw [hkind'] at hmetadata
          exact absurd hmetadata.2 (by simp)
        | intermediate =>
          rw [hkind'] at hmetadata
          exact absurd hmetadata.1 (by simp)
      rw [values_setSlot_of_ne hne]
      exact h.constant other t hconstant
    · by_cases hsame : other = id
      · subst hsame
        rw [hfound] at hat
        cases hat
        have hinside : other < c.values.length := by
          rw [h.length]
          exact (List.getElem?_eq_some_iff.1 hfound).1
        rw [values_setSlot_self hinside] at hheld
        cases hheld
        exact ⟨rfl, hspec⟩
      · rw [values_setSlot_of_ne hsame] at hheld
        exact h.input other v stored hat hinput hheld
  have hinside : id < c.values.length := by
    rw [h.left.length]
    exact (List.getElem?_eq_some_iff.1 hfound).1
  have hinside' : id < c'.values.length := by
    rw [h.right.length]
    exact (List.getElem?_eq_some_iff.1 hfound).1
  refine ⟨hready h.left, hready h.right, fun other v hat hsource => ?_, fun other houtput => ?_⟩
  -- the inputs and constants of both contexts are the same
  · by_cases hsame : other = id
    · subst hsame
      rw [values_setSlot_self hinside, values_setSlot_self hinside']
    · rw [values_setSlot_of_ne hsame, values_setSlot_of_ne hsame]
      exact h.sources other v hat hsource
  -- so is what they show of an output
  · by_cases hsame : other = id
    · subst hsame
      rw [seen_owned (values_setSlot_self hinside) (by simp),
        seen_owned (values_setSlot_self hinside') (by simp)]
    · have hbefore := h.outputs other houtput
      unfold seen at hbefore ⊢
      rwa [values_setSlot_of_ne hsame, values_setSlot_of_ne hsame]

/-! ## Every request -/

theorem Related.current (h : Related g plan plan' c c') :
    c.requireCurrentGraph g = c'.requireCurrentGraph g :=
  h.left.current.trans h.right.current.symm

variable [KernelScalar F] [DecidableEq F]

omit [KernelScalar F] [DecidableEq F] in
/-- An output is in use until the end. -/
theorem Reached.output {env : ValueId → TensorValue F} {start : ExecutionContext F}
    (hwf : g.tables.WellFormed) (hplanned : ∀ p ∈ plan, PlanOk g.tables p)
    (h : Reached g plan env start g.tables.nodes.length g.tables.nodes.length c)
    (output : id ∈ g.tables.outputIds) {value : GraphValue}
    (hfound : g.tables.values[id]? = some value) (hkind : value.kind = .intermediate) :
    Computed c plan id value (env id) := by
  have hmetadata := hwf.metadata id value hfound
  rw [Graph.MetadataOk, hkind] at hmetadata
  obtain ⟨-, q, node, hproducer, hat, -⟩ := hmetadata
  refine h.computed id value q hfound hproducer (List.getElem?_eq_some_iff.1 hat).1
    fun p hmem l hlifetime => ?_
  exact Nat.le_of_eq ((hplanned p hmem).outputs id output l hlifetime).symm

/-- A context as one of the constructors leaves it, whatever the buffer has held before. -/
inductive Fresh (g : GraphObject F) (c : ExecutionContext F) : Prop where
  | plain (buffer : Nat → F) (made : ExecutionContext.ofGraph g buffer = .ok c)
  | planned (platform : Fin 64) (plan : GraphPlan) (buffer : Nat → F) (aligned : 2 ≤ platform.val)
      (planned : GraphPlan.ofGraph platform g = .ok plan)
        (made : ExecutionContext.ofPlan g plan buffer = .ok c)

omit [DecidableEq F] in
theorem Fresh.ready (hwf : g.tables.WellFormed) (hfresh : Fresh g c) :
    ∃ plan, (∀ p ∈ plan, PlanOk g.tables p) ∧ Ready g plan c ∧ g.tables.outputIds ≠ [] := by
  cases hfresh with
  | plain buffer hmade =>
    obtain ⟨hvalid, hmade⟩ := check_ok.1 hmade
    obtain ⟨values, hdone, -, ready⟩ := fresh_ready none hwf buffer
    rw [hdone] at hmade
    cases hmade
    exact ⟨none, by simp, ready, (Graph.validate_ok hwf).1 hvalid⟩
  | planned platform plan buffer haligned hplanned hmade =>
    obtain ⟨hof, -⟩ := GraphPlan.isOf_ofGraph hwf hplanned
    obtain ⟨c₁, c₂, -, hmade', -, -, ready, -⟩ := contexts_ok hwf hplanned buffer buffer
    rw [hmade] at hmade'
    cases hmade'
    refine ⟨some plan.plan, fun p hmem => ?_, ready, (Graph.validate_ok hwf).1 (check_ok.1 hof).1⟩
    obtain rfl := Option.mem_some_iff.1 hmem
    exact planOk_of_ofGraph haligned hwf hof

open MemoryPlan (reluChainPlan)

/-- `Relu` three times -/
abbrev reluChain : BuiltGraph ExactFloat := MemoryPlan.reluChain ExactFloat

theorem reluChain_valid : reluChain.tables.validate = .ok () :=
  (Graph.validate_ok reluChain.wf).2 (by decide)

theorem reluChain_order : reluChain.tables.topologicalOrder = .ok (List.range 3) :=
  (Graph.topologicalOrder_ok reluChain.wf).2 ⟨by decide, rfl⟩

theorem reluChain_plan : MemoryPlan.ofGraph 4 reluChain.tables = .ok reluChainPlan := by
  have hsorted : MemoryPlan.intervals reluChainPlan.lifetimes =
      [⟨1, 0, 1, 24⟩, ⟨2, 1, 2, 24⟩, ⟨3, 2, 3, 24⟩] :=
    List.mergeSort_of_pairwise (by decide)
  unfold MemoryPlan.ofGraph
  rw [reluChain_valid, reluChain_order]
  have hcollected : MemoryPlan.collectLifetimes (MemoryPlan.nodeSteps (List.range 3))
      reluChain.tables.values 0 =
      .ok ([none, some ⟨1, 0, 0, 24⟩, some ⟨2, 1, 1, 24⟩, some ⟨3, 2, 2, 24⟩], 72) := by rfl
  have hextended : MemoryPlan.extendLifetimes reluChain.tables (List.range 3)
      [none, some ⟨1, 0, 0, 24⟩, some ⟨2, 1, 1, 24⟩, some ⟨3, 2, 2, 24⟩] =
      reluChainPlan.lifetimes := by rfl
  simp only [bind, Except.bind, hcollected, hextended, hsorted]
  rfl

end Executor

end TinyInfer
