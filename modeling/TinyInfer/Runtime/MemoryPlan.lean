import TinyInfer.Graph.GraphInvariant
import TinyInfer.Lib.Slots
import Mathlib.Algebra.GroupWithZero.Nat

/-!
# The memory plan of a graph (`runtime/memory_plan.cpp`)

Intermediates get byte ranges of one buffer. A `MemoryPlan` computes the lifetime of
each from the order of the nodes, assigns slots of the buffer to the lifetimes, and
lays the slots out one after another.
-/

namespace TinyInfer

open Lib (Slots.Slot Slots.Interval)

structure ValueLifetime where
  value : ValueId
  firstStep : Nat
  lastStep : Nat
  sizeBytes : Nat
  deriving DecidableEq, Repr

structure BufferAllocation where
  slot : Nat
  byteOffset : Nat
  sizeBytes : Nat
  deriving DecidableEq, Repr

structure MemoryPlan where
  nodeCount : Nat
  bufferSizeBytes : Nat
  naiveIntermediateBytes : Nat
  lifetimes : List (Option ValueLifetime)
  allocations : List (Option BufferAllocation)
  slotCapacities : List Nat
  releases : List (List ValueId)
  deriving DecidableEq, Repr

/-- `kDefaultBufferAlignment`: the alignment of `std::max_align_t`, a power of two that
the platform chooses. -/
def defaultBufferAlignment (platform : Fin 64) : Nat := 2 ^ platform.val

def ValueLifetime.interval (l : ValueLifetime) : Slots.Interval :=
  ⟨l.firstStep, l.lastStep, l.sizeBytes⟩

namespace MemoryPlan

variable {α : Type} (platform : Fin 64)

def alignUp (value alignment : Nat) : Except Exn Nat :=
  if value > sizeMax - (alignment - 1) then .error (.overflowError "memory plan size overflow")
  else .ok ((value + alignment - 1) &&& (sizeMax ^^^ (alignment - 1)))

/-! ## Lifetimes -/

/-- `node_steps` -/
def nodeSteps (order : List NodeId) : NodeId → Nat :=
  order.zipIdx.foldl (fun steps p => Function.update steps p.1 p.2) fun _ => 0

/-- The loop over the values, which are in the order of their ids: the lifetimes of the
intermediates from the steps of their producers, and `naive_intermediate_bytes_`. -/
def collectLifetimes (steps : NodeId → Nat) :
    List GraphValue → Nat → Except Exn (List (Option ValueLifetime) × Nat)
  | [], naive => .ok ([], naive)
  | value :: values, naive =>
    if value.kind = .intermediate then do
      let start := value.producer.elim 0 steps
      let bytes ← (← TensorLayout.ofShape value.spec.shape).sizeBytes value.spec.dtype
      if bytes > sizeMax - naive then .error (.overflowError "intermediate memory size overflow")
      else
        let (rest, total) ← collectLifetimes steps values (naive + bytes)
        .ok (some ⟨value.id, start, start, bytes⟩ :: rest, total)
    else do
      let (rest, total) ← collectLifetimes steps values naive
      .ok (none :: rest, total)

/-- A change of the last step of a value. -/
def updateLast (f : Nat → Nat) (lifetimes : List (Option ValueLifetime)) (id : ValueId) :
    List (Option ValueLifetime) :=
  lifetimes.modify id (Option.map fun l => { l with lastStep := f l.lastStep })

/-- The node at a step reads its inputs. -/
def readInputs (g : Graph α) (lifetimes : List (Option ValueLifetime)) (p : NodeId × Nat) :
    List (Option ValueLifetime) :=
  ((g.nodes[p.1]?).elim [] Node.inputs).foldl (updateLast (max · p.2)) lifetimes

/-- The lifetimes up to the last reader, and to the end of the run for an output. -/
def extendLifetimes (g : Graph α) (order : List NodeId) (lifetimes : List (Option ValueLifetime)) :
    List (Option ValueLifetime) :=
  g.outputIds.foldl (updateLast fun _ => order.length) (order.zipIdx.foldl (readInputs g) lifetimes)

def release (steps : Nat) (releases : List (List ValueId)) (lifetime : Option ValueLifetime) :
    List (List ValueId) :=
  match lifetime with
  | some l => if l.lastStep < steps then releases.modify l.lastStep (· ++ [l.value]) else releases
  | none => releases

/-! ## Slots -/

def startsBefore (lhs rhs : ValueLifetime) : Bool :=
  if lhs.firstStep ≠ rhs.firstStep then lhs.firstStep < rhs.firstStep else lhs.value ≤ rhs.value

def intervals (lifetimes : List (Option ValueLifetime)) : List ValueLifetime :=
  (lifetimes.filterMap id).mergeSort startsBefore

/-- A free slot is taken if it grows less than the best one so far. -/
def considerSlot (interval : ValueLifetime) (best : Nat × Nat) (p : Slots.Slot × Nat) : Nat × Nat :=
  if p.1.availableAfter ≥ interval.firstStep then best
  else
    let growth :=
      if interval.sizeBytes > p.1.capacity then interval.sizeBytes - p.1.capacity else 0
    if growth < best.2 then (p.2, growth) else best

def selectSlot (slots : List Slots.Slot) (interval : ValueLifetime) : Nat :=
  (slots.zipIdx.foldl (considerSlot interval) (slots.length, sizeMax)).1

/-- The loop over the intervals: `value_slots`, and the slots at the end. -/
def assignSlots : List ValueLifetime → List Slots.Slot →
    List (ValueLifetime × Nat) × List Slots.Slot
  | [], slots => ([], slots)
  | interval :: rest, slots =>
    let selected := selectSlot slots interval
    let (placed, slots) := assignSlots rest (Lib.Slots.put slots selected interval.interval)
    ((interval, selected) :: placed, slots)

/-- The loop over the slots: `slot_offsets`, and the size of the buffer. -/
def layoutSlots : List Nat → Nat → Except Exn (List Nat × Nat)
  | [], size => .ok ([], size)
  | capacity :: capacities, size => do
    let offset ← alignUp size (defaultBufferAlignment platform)
    if capacity > sizeMax - offset then .error (.overflowError "memory plan buffer size overflow")
    else
      let (offsets, size) ← layoutSlots capacities (offset + capacity)
      .ok (offset :: offsets, size)

def allocate (offsets : List Nat) (allocations : List (Option BufferAllocation))
    (p : ValueLifetime × Nat) : List (Option BufferAllocation) :=
  allocations.set p.1.value (some ⟨p.2, offsets.getD p.2 0, p.1.sizeBytes⟩)

/-! ## The plan -/

/-- The constructor. -/
def ofGraph (g : Graph α) : Except Exn MemoryPlan := do
  g.validate
  let order ← g.topologicalOrder
  let (started, naive) ← collectLifetimes (nodeSteps order) g.values 0
  let lifetimes := extendLifetimes g order started
  let (placed, slots) := assignSlots (intervals lifetimes) []
  let (offsets, size) ← layoutSlots platform (slots.map (·.capacity)) 0
  .ok {
    nodeCount := g.nodes.length
    bufferSizeBytes := size
    naiveIntermediateBytes := naive
    lifetimes
    allocations := placed.foldl (allocate offsets) (List.replicate g.values.length none)
    slotCapacities := slots.map (·.capacity)
    releases := lifetimes.foldl (release order.length) (List.replicate g.nodes.length []) }

variable (plan : MemoryPlan)

def allocation (value : ValueId) : Except Exn BufferAllocation :=
  match plan.allocations[value]? with
  | none => .error (.outOfRange "memory plan ValueId is out of range")
  | some none => .error (.invalidArgument "graph value has no planned allocation")
  | some (some a) => .ok a

def lifetime (value : ValueId) : Except Exn ValueLifetime :=
  match plan.lifetimes[value]? with
  | none => .error (.outOfRange "memory plan ValueId is out of range")
  | some none => .error (.invalidArgument "graph value has no intermediate lifetime")
  | some (some l) => .ok l

def valuesReleasedAfterStep (step : Nat) : Except Exn (List ValueId) :=
  match plan.releases[step]? with
  | none => .error (.outOfRange "execution step is out of range")
  | some values => .ok values

end MemoryPlan

end TinyInfer
