import TinyInfer.Runtime.MemoryPlanSound
import TinyInfer.Lib.Throwing

/-!
# The arena of a device context (`execution_plan.cpp` of `backend/cuda` and `backend/metal`)

Both backends run a model with the same loop: every node is enqueued on the device, into
the slot of its output in one arena, and before a slot is reused the loop waits for the
operations up to the last step of its previous occupant.

The effects of an operation happen at any time between its `enqueued` and its `waited`
event. `arena_safe` says that a slot is given away only when all operations on its
earlier occupants have been waited for.

Main definitions:
* `Arena.run`: the loop, with a trace of what it asks of the device.
* `EventSafe`: what may happen after a trace.
* `ArenaInv`: what holds between two nodes.
-/

namespace TinyInfer

open Lib (Throwing)
open Lib.Throwing (get modify throw)

inductive ArenaEvent where
  | enqueued (step : Nat)
  /-- `pending.at(index)` -/
  | accessed (index : Nat)
  | waited (step : Nat)
  deriving DecidableEq, Repr

/-- The locals of `run`, and its trace, oldest event first. -/
structure Arena where
  /-- The number of completions in `pending`. -/
  pending : Nat := 0
  waited : Nat := 0
  occupants : List (Option ValueId)
  trace : List ArenaEvent := []

/-- The exceptions that the device throws. -/
structure ArenaFaults where
  execute : Nat → Option Exn := fun _ => none
  wait : Nat → Option Exn := fun _ => none
  synchronize : Option Exn := none

def ArenaFaults.Throws (faults : ArenaFaults) (e : Exn) : Prop :=
  (∃ step, faults.execute step = some e) ∨ (∃ step, faults.wait step = some e) ∨
    faults.synchronize = some e

namespace Arena

variable {α : Type} (g : Graph α) (plan : MemoryPlan) (faults : ArenaFaults)

def record (event : ArenaEvent) : Throwing Exn Arena Unit :=
  modify fun s => { s with trace := s.trace ++ [event] }

/-- A call of the device that may throw. -/
def call (fault : Option Exn) : Throwing Exn Arena Unit :=
  match fault with
  | some e => throw e
  | none => pure ()

/-- `pending.at(waited++).wait();` -/
def waitNext : Throwing Exn Arena Unit := do
  let s ← get
  modify fun s => { s with waited := s.waited + 1 }
  record (.accessed s.waited)
  if s.waited < s.pending then
    call (faults.wait s.waited)
    record (.waited s.waited)
  else throw (.outOfRange "vector::_M_range_check")

/-- `rounds` rounds of the loop that waits. -/
def waitRounds : Nat → Throwing Exn Arena Unit
  | 0 => pure ()
  | rounds + 1 => do
    waitNext faults
    waitRounds rounds

/-- `while (waited < end) pending.at(waited++).wait();` -/
def waitUntil (stop : Nat) : Throwing Exn Arena Unit := do
  let s ← get
  waitRounds faults (stop - s.waited)

/-- Turn a result into a program. -/
def lift {β : Type} (x : Except Exn β) : Throwing Exn Arena β := fun s => (x, s)

/-- Wait for the operations on the previous occupant of a slot. -/
def waitForSlot (previous : Option ValueId) : Throwing Exn Arena Unit :=
  match previous with
  | none => pure ()
  | some previous => do
    let lifetime ← lift (plan.lifetime previous)
    waitUntil faults (lifetime.lastStep + 1)

/-- The node at a step. -/
def runNode (step : Nat) (id : NodeId) : Throwing Exn Arena Unit := do
  let out ← lift (((g.nodes[id]?).bind (·.outputs.head?)).elim
    (.error (.outOfRange "vector::_M_range_check")) .ok)
  let a ← lift (plan.allocation out)
  let s ← get
  waitForSlot plan faults (s.occupants[a.slot]?).join
  call (faults.execute step)
  modify fun s => { s with
    pending := s.pending + 1
    occupants := s.occupants.set a.slot (some out) }
  record (.enqueued step)

def runNodes : List (NodeId × Nat) → Throwing Exn Arena Unit
  | [] => pure ()
  | (id, step) :: nodes => do
    runNode g plan faults step id
    runNodes nodes

def run (order : List NodeId) : Throwing Exn Arena Unit := do
  runNodes g plan faults order.zipIdx
  let s ← get
  waitUntil faults s.pending
  call faults.synchronize

/-- The locals at the start of a run. -/
def start : Arena := { occupants := List.replicate plan.slotCapacities.length none }

end Arena

/-! ## Safety -/

namespace Arena

variable {α : Type} (g : Graph α) (plan : MemoryPlan)

/-- The output of the node at a step. -/
def Produces (step : Nat) (v : ValueId) : Prop :=
  ∃ node, g.nodes[step]? = some node ∧ node.outputs = [v]

/-- The node at a step reads or writes a value. -/
def Touches (step : Nat) (v : ValueId) : Prop :=
  ∃ node, g.nodes[step]? = some node ∧ (v ∈ node.inputs ∨ v ∈ node.outputs)

/-- An earlier occupant of the slot of the output of a step. -/
def EarlierOccupant (step : Nat) (v : ValueId) : Prop :=
  ∃ r out a a', r < step ∧ Produces g r v ∧ Produces g step out ∧ plan.allocation v = .ok a ∧
    plan.allocation out = .ok a' ∧ a.slot = a'.slot

/-- What an event asks of the trace before it. -/
def EventSafe (trace : List ArenaEvent) : ArenaEvent → Prop
  | .enqueued step => ∀ v, EarlierOccupant g plan step v → ∀ s, .enqueued s ∈ trace →
      Touches g s v →
      .waited s ∈ trace
  | .accessed index => .enqueued index ∈ trace
  | .waited _ => True

/-- Every event of a trace is safe. -/
def TraceSafe (trace : List ArenaEvent) : Prop :=
  ∀ before event after, trace = before ++ event :: after → EventSafe g plan before event

variable {g plan}

theorem TraceSafe.nil : TraceSafe g plan [] := by
  intro before event after heq
  cases before <;> cases heq

theorem TraceSafe.concat {trace : List ArenaEvent} {event : ArenaEvent} (h : TraceSafe g plan trace)
    (hsafe : EventSafe g plan trace event) : TraceSafe g plan (trace ++ [event]) := by
  intro before event' after heq
  rcases List.eq_nil_or_concat after with rfl | ⟨after, last, rfl⟩
  · obtain ⟨rfl, hsame⟩ := List.append_inj' heq rfl
    cases hsame
    exact hsafe
  · rw [List.concat_eq_append, ← List.cons_append, ← List.append_assoc] at heq
    exact h before event' after (List.append_inj' heq rfl).1

/-- What holds when `k` nodes are enqueued. -/
structure ArenaInv (g : Graph α) (plan : MemoryPlan) (k : Nat) (s : Arena) : Prop where
  pending : s.pending = k
  enqueued : ∀ t, .enqueued t ∈ s.trace ↔ t < k
  waited : ∀ t, .waited t ∈ s.trace ↔ t < s.waited
  occupants : s.occupants.length = plan.slotCapacities.length
  occupant : ∀ (slot : Nat) (v : ValueId), s.occupants[slot]? = some (some v) →
    ∃ r a, r < k ∧ Produces g r v ∧ plan.allocation v = .ok a ∧ a.slot = slot
  newest : ∀ (r : Nat) (v : ValueId) (a : BufferAllocation), r < k → Produces g r v →
    plan.allocation v = .ok a → ∃ r' v', s.occupants[a.slot]? = some (some v') ∧
    Produces g r' v' ∧ r ≤ r'
  safe : TraceSafe g plan s.trace

theorem ArenaInv.start (g : Graph α) (plan : MemoryPlan) : ArenaInv g plan 0 (start plan) where
  pending := rfl
  enqueued t := by simp [Arena.start]
  waited t := by simp [Arena.start]
  occupants := List.length_replicate
  occupant slot v hfound := by
    rw [Arena.start, List.getElem?_replicate] at hfound
    split at hfound <;> cases hfound
  newest r v a hlt := absurd hlt (Nat.not_lt_zero r)
  safe := .nil

/-- An exception of the device, after a safe trace. -/
def Stopped (g : Graph α) (plan : MemoryPlan) (faults : ArenaFaults) (e : Exn) (s : Arena) : Prop :=
  TraceSafe g plan s.trace ∧ faults.Throws e

variable {faults : ArenaFaults} {s : Arena} {k : Nat}

theorem wp_call {fault : Option Exn} {Q : Unit → Arena → Prop} {E : Exn → Arena → Prop}
    (hok : Q () s) (herror : ∀ e, fault = some e → E e s) : (call fault).wp Q E s := by
  cases fault with
  | none => exact hok
  | some e => exact herror e rfl

theorem wp_lift {β : Type} {x : Except Exn β} {b : β} {Q : β → Arena → Prop}
    {E : Exn → Arena → Prop} (heq : x = .ok b) (hok : Q b s) : (lift x).wp Q E s := by
  subst heq
  exact hok

/-- One wait, for an operation that is in flight. -/
theorem ArenaInv.waitNext (h : ArenaInv g plan k s) (hinside : s.waited < k) :
    (waitNext faults).wp (fun _ s' => ArenaInv g plan k s' ∧ s'.waited = s.waited + 1 ∧
      s'.occupants = s.occupants) (Stopped g plan faults) s := by
  have haccessed : TraceSafe g plan (s.trace ++ [.accessed s.waited]) :=
    h.safe.concat ((h.enqueued _).2 hinside)
  unfold Arena.waitNext
  simp only [record, Throwing.wp_bind, Throwing.wp_get, Throwing.wp_modify]
  rw [if_pos (by rw [h.pending]; exact hinside)]
  simp only [Throwing.wp_bind, Throwing.wp_modify]
  refine wp_call ⟨⟨h.pending, ?_, ?_, h.occupants, h.occupant, h.newest, haccessed.concat trivial⟩,
    rfl, rfl⟩
    fun e hthrows => ⟨haccessed, .inr (.inl ⟨_, hthrows⟩)⟩
  · intro t
    simp [h.enqueued]
  · intro t
    simp only [List.append_assoc, List.mem_append, h.waited, List.mem_cons, reduceCtorEq, false_or,
      ArenaEvent.waited.injEq, List.not_mem_nil, or_false]
    omega

/-- Waiting keeps the invariant and only moves the event waited for. -/
theorem ArenaInv.waitRounds {rounds : Nat} (h : ArenaInv g plan k s)
    (hinside : s.waited + rounds ≤ k) :
    (waitRounds faults rounds).wp (fun _ s' => ArenaInv g plan k s' ∧
      s'.waited = s.waited + rounds ∧
      s'.occupants = s.occupants) (Stopped g plan faults) s := by
  induction rounds generalizing s with
  | zero => exact ⟨h, rfl, rfl⟩
  | succ rounds ih =>
    rw [Arena.waitRounds, Throwing.wp_bind]
    refine (h.waitNext (by omega)).mono (fun _ s₁ ⟨hinv, hwaited, hoccupants⟩ => ?_)
      fun _ _ hstopped => hstopped
    refine (ih hinv (by omega)).mono (fun _ s₂ ⟨hinv', hwaited', hoccupants'⟩ => ?_)
      fun _ _ hstopped => hstopped
    exact ⟨hinv', by omega, hoccupants'.trans hoccupants⟩

/-- The loop that waits stays inside of `pending`. -/
theorem ArenaInv.waitUntil {stop : Nat} (h : ArenaInv g plan k s) (hle : s.waited ≤ k)
    (hinside : stop ≤ k) :
    (waitUntil faults stop).wp (fun _ s' => ArenaInv g plan k s' ∧ s'.waited ≤ k ∧
      stop ≤ s'.waited ∧
      s'.occupants = s.occupants) (Stopped g plan faults) s := by
  unfold Arena.waitUntil
  rw [Throwing.wp_bind, Throwing.wp_get]
  refine (h.waitRounds (by omega)).mono (fun _ s' ⟨hinv, hwaited, hoccupants⟩ => ?_)
    fun _ _ hstopped => hstopped
  exact ⟨hinv, by omega, by omega, hoccupants⟩

/-! ## The plan of the arena -/

variable {platform : Fin 64} {placed : List (ValueLifetime × Nat)} {offsets : List Nat}

open MemoryPlan (Built)

/-- The output of a node is in use from the step of the node. -/
theorem Produces.planned (hwf : g.WellFormed)
    (hbuilt : Built platform g plan placed offsets) {r : Nat} {v : ValueId} (h : Produces g r v) :
    ∃ l a, plan.lifetime v = .ok l ∧ plan.allocation v = .ok a ∧
      l.firstStep = r ∧ l.firstStep ≤ l.lastStep ∧ a.slot < plan.slotCapacities.length := by
  obtain ⟨node, hfound, houtputs⟩ := h
  obtain ⟨out, value, specs, houtputs', hat, hkind, hproducer, -⟩ := (hwf.node r node hfound).output
  rw [houtputs] at houtputs'
  cases houtputs'
  obtain ⟨l, a, hlifetime, hallocation, hproducer', hordered, -⟩ :=
    (hbuilt.sound hwf).allocated v value hat hkind
  obtain ⟨slot, offset, capacity, -, -, hinside, -, heq⟩ := hbuilt.allocation hlifetime
  rw [hallocation] at heq
  cases heq
  rw [hproducer] at hproducer'
  cases hproducer'
  exact ⟨l, _, hlifetime, hallocation, rfl, hordered, (List.getElem?_eq_some_iff.1 hinside).1⟩

/-- No operation touches a value after its last step. -/
theorem Touches.le_last (hwf : g.WellFormed)
    (hbuilt : Built platform g plan placed offsets) {t : Nat} {v : ValueId} (h : Touches g t v)
    {l : ValueLifetime} (hlifetime : plan.lifetime v = .ok l) :
    t ≤ l.lastStep := by
  obtain ⟨node, hfound, hreads | hwrites⟩ := h
  · exact ((hbuilt.sound hwf).reads t node hfound v hreads l hlifetime).2
  · obtain ⟨out, value, specs, houtputs, -⟩ := (hwf.node t node hfound).output
    rw [houtputs, List.mem_singleton] at hwrites
    subst hwrites
    obtain ⟨l', a, hlifetime', -, hfirst, hordered, -⟩ :=
      Produces.planned hwf hbuilt ⟨node, hfound, houtputs⟩
    rw [hlifetime] at hlifetime'
    cases hlifetime'
    rw [← hfirst]
    exact hordered

/-- The wait before a slot is reused covers all of its earlier occupants. -/
theorem ArenaInv.waitForSlot (hwf : g.WellFormed) (hbuilt : Built platform g plan placed offsets)
    (h : ArenaInv g plan k s) (hle : s.waited ≤ k) {out : ValueId} (hproduces : Produces g k out)
    {a : BufferAllocation} (hallocation : plan.allocation out = .ok a) :
    (waitForSlot plan faults (s.occupants[a.slot]?).join).wp (fun _ s' => ArenaInv g plan k s' ∧
      s'.waited ≤ k ∧ s'.occupants = s.occupants ∧ ∀ v, EarlierOccupant g plan k v →
        ∀ t, Touches g t v → t < s'.waited) (Stopped g plan faults) s := by
  obtain ⟨l, a', hlifetime, hallocation', hfirst, -, hinside⟩ := hproduces.planned hwf hbuilt
  rw [hallocation] at hallocation'
  cases hallocation'
  -- An earlier occupant is in the table, or an occupant after it.
  have hrecorded (v : ValueId) (hearlier : EarlierOccupant g plan k v) :
      ∃ r r' v', r < k ∧ Produces g r v ∧ (s.occupants[a.slot]?).join = some v' ∧ Produces g r' v' ∧
        r ≤ r' ∧ ∃ b, plan.allocation v = .ok b ∧ b.slot = a.slot := by
    obtain ⟨r, out', b, a', hbefore, hmade, hmade', hfound, hfound', hshares⟩ := hearlier
    obtain ⟨node, hat, houtputs⟩ := hproduces
    obtain ⟨node', hat', houtputs'⟩ := hmade'
    rw [hat] at hat'
    cases hat'
    rw [houtputs] at houtputs'
    cases houtputs'
    rw [hallocation] at hfound'
    cases hfound'
    obtain ⟨r', v', hentry, hmade'', hle⟩ := h.newest r v b hbefore hmade hfound
    exact ⟨r, r', v', hbefore, hmade, by rw [← hshares, hentry]; rfl, hmade'', hle, b,
      hfound, hshares⟩
  unfold Arena.waitForSlot
  cases hprevious : (s.occupants[a.slot]?).join with
  -- no occupant so far: nothing to wait for
  | none =>
    refine ⟨h, hle, rfl, fun v hearlier => ?_⟩
    obtain ⟨r, r', v', -, -, hentry, -⟩ := hrecorded v hearlier
    rw [hprevious] at hentry
    cases hentry
  -- the device waits until the previous occupant was last read
  | some p =>
    obtain ⟨rp, b, hbefore, hmade, hfound, hshares⟩ :=
      h.occupant a.slot p (Option.join_eq_some_iff.1 hprevious)
    obtain ⟨lp, b', hlifetime', hfound', hfirstp, -⟩ := hmade.planned hwf hbuilt
    rw [hfound] at hfound'
    cases hfound'
    -- the previous occupant ended before this step
    have hended : lp.lastStep < k := by
      have := hbuilt.ended hlifetime' hlifetime hfound hallocation hshares (by omega)
      omega
    simp only [Throwing.wp_bind]
    refine wp_lift hlifetime' ((h.waitUntil hle (by omega : lp.lastStep + 1 ≤ k)).mono
      (fun _ s' hended' => ?_) fun _ _ hstopped => hstopped)
    obtain ⟨hinv, hle', hwaited, hoccupants⟩ := hended'
    refine ⟨hinv, hle', hoccupants, fun v hearlier t htouches => ?_⟩
    obtain ⟨r, r', v', hbefore', hmade', hentry, hmade'', hle'', b', hfound', hshares'⟩ :=
      hrecorded v hearlier
    rw [hprevious] at hentry
    cases hentry
    obtain ⟨lv, b'', hlifetimev, hfoundv, hfirstv, -⟩ := hmade'.planned hwf hbuilt
    rw [hfound'] at hfoundv
    cases hfoundv
    obtain ⟨lp', -, hlifetimep', -, hfirstp', horderedp, -⟩ := hmade''.planned hwf hbuilt
    rw [hlifetime'] at hlifetimep'
    cases hlifetimep'
    have htouch := htouches.le_last hwf hbuilt hlifetimev
    -- It ended before the previous occupant began, or it is the previous occupant.
    rcases Nat.lt_or_eq_of_le hle'' with hlt | hsame
    · have :=
        hbuilt.ended hlifetimev hlifetime' hfound' hfound (hshares'.trans hshares.symm) (by omega)
      omega
    · obtain ⟨node, hat, houtputs⟩ := hmade'
      obtain ⟨node', hat', houtputs'⟩ := hmade''
      rw [hsame, hat'] at hat
      cases hat
      rw [houtputs'] at houtputs
      cases houtputs
      rw [hlifetime'] at hlifetimev
      cases hlifetimev
      omega

/-- A node that is enqueued after the wait. -/
theorem ArenaInv.enqueue (h : ArenaInv g plan k s) {out : ValueId} (hproduces : Produces g k out)
    {a : BufferAllocation} (hallocation : plan.allocation out = .ok a)
    (hinside : a.slot < plan.slotCapacities.length)
    (hwaited : ∀ v, EarlierOccupant g plan k v → ∀ t, Touches g t v → t < s.waited) :
    ArenaInv g plan (k + 1) { s with
      pending := s.pending + 1
      occupants := s.occupants.set a.slot (some out)
      trace := s.trace ++ [.enqueued k] } := by
  have hslot : a.slot < s.occupants.length := h.occupants ▸ hinside
  constructor
  · exact congrArg (· + 1) h.pending
  · intro t
    simp only [List.mem_append, h.enqueued, List.mem_singleton, ArenaEvent.enqueued.injEq]
    omega
  · intro t
    simp [h.waited]
  · simp [h.occupants]
  · intro j v hfound
    simp only at hfound
    by_cases hsame : a.slot = j
    · subst hsame
      rw [List.getElem?_set_self hslot] at hfound
      cases hfound
      exact ⟨k, a, Nat.lt_succ_self k, hproduces, hallocation, rfl⟩
    · rw [List.getElem?_set_ne hsame] at hfound
      obtain ⟨r, b, hbefore, hrest⟩ := h.occupant j v hfound
      exact ⟨r, b, Nat.lt_succ_of_lt hbefore, hrest⟩
  · intro r v b hbefore hmade hfound
    simp only
    by_cases hsame : a.slot = b.slot
    · exact ⟨k, out, by rw [← hsame, List.getElem?_set_self hslot], hproduces,
        Nat.le_of_lt_succ hbefore⟩
    · rw [List.getElem?_set_ne hsame]
      rcases Nat.lt_succ_iff_lt_or_eq.1 hbefore with hlt | rfl
      · exact h.newest r v b hlt hmade hfound
      · obtain ⟨node, hat, houtputs⟩ := hmade
        obtain ⟨node', hat', houtputs'⟩ := hproduces
        rw [hat] at hat'
        cases hat'
        rw [houtputs] at houtputs'
        cases houtputs'
        rw [hallocation] at hfound
        cases hfound
        exact absurd rfl hsame
  · exact h.safe.concat fun v hearlier t _ htouches =>
      (h.waited t).2 (hwaited v hearlier t htouches)

/-- One node keeps the invariant, whatever fails in it. -/
theorem ArenaInv.runNode (hwf : g.WellFormed) (hbuilt : Built platform g plan placed offsets)
    (h : ArenaInv g plan k s) (hle : s.waited ≤ k) (hinside : k < g.nodes.length) :
    (runNode g plan faults k k).wp (fun _ s' => ArenaInv g plan (k + 1) s' ∧ s'.waited ≤ k + 1)
      (Stopped g plan faults) s := by
  have hfound := List.getElem?_eq_getElem hinside
  obtain ⟨out, value, specs, houtputs, -⟩ := (hwf.node k _ hfound).output
  have hproduces : Produces g k out := ⟨_, hfound, houtputs⟩
  obtain ⟨l, a, hlifetime, hallocation, -, -, hslot⟩ := hproduces.planned hwf hbuilt
  unfold Arena.runNode
  simp only [Throwing.wp_bind]
  refine wp_lift (by rw [hfound, Option.bind_some, houtputs]; rfl) (wp_lift hallocation ?_)
  rw [Throwing.wp_get]
  refine (h.waitForSlot hwf hbuilt hle hproduces hallocation).mono
    (fun _ s₁ hfree => ?_) fun _ _ hstopped => hstopped
  obtain ⟨hinv, hle', hoccupants, hwaited⟩ := hfree
  refine wp_call ?_ fun e hthrows => ⟨hinv.safe, .inl ⟨_, hthrows⟩⟩
  simp only [record, Throwing.wp_modify]
  exact ⟨hinv.enqueue hproduces hallocation hslot hwaited, Nat.le_succ_of_le hle'⟩

/-- The invariant holds along the loop, by induction on the nodes left. -/
theorem ArenaInv.runNodes (hwf : g.WellFormed) (hbuilt : Built platform g plan placed offsets)
    {count : Nat} (h : ArenaInv g plan k s) (hle : s.waited ≤ k)
    (hinside : k + count = g.nodes.length) :
    (runNodes g plan faults ((List.range' k count).map fun i => (i, i))).wp
      (fun _ s' => ArenaInv g plan g.nodes.length s' ∧ s'.waited ≤ g.nodes.length)
      (Stopped g plan faults) s := by
  induction count generalizing k s with
  | zero =>
    obtain rfl : k = g.nodes.length := hinside
    exact ⟨h, hle⟩
  | succ count ih =>
    rw [List.range'_succ, List.map_cons, Arena.runNodes, Throwing.wp_bind]
    refine (h.runNode hwf hbuilt hle (by omega)).mono (fun _ s₁ hnext => ?_) fun _ _ hstopped =>
      hstopped
    exact ih hnext.1 hnext.2 (by omega)

/-- In every run of the loop over the nodes of a valid model, a slot is given away only
after the operations on its earlier occupants have been waited for, and `pending.at` stays
inside of `pending`; a run that returns has waited for every operation, and a run throws
only what the device throws. -/
theorem arena_safe (platform : Fin 64) (g : BuiltGraph α) (order : List NodeId) (plan : MemoryPlan)
    (faults : ArenaFaults) (hordered : g.tables.topologicalOrder = .ok order)
    (hplanned : MemoryPlan.ofGraph platform g.tables = .ok plan) :
    (run g.tables plan faults order).wp
      (fun _ s => TraceSafe g.tables plan s.trace ∧
        ∀ t, t < g.tables.nodes.length ↔ .enqueued t ∈ s.trace ∧ .waited t ∈ s.trace)
      (fun e s => TraceSafe g.tables plan s.trace ∧ faults.Throws e) (start plan) := by
  obtain ⟨-, rfl⟩ := (Graph.topologicalOrder_ok g.wf).1 hordered
  obtain ⟨placed, offsets, hbuilt⟩ := MemoryPlan.built_of_ofGraph g.wf hplanned
  have hsteps : (List.range g.tables.nodes.length).zipIdx =
      (List.range' 0 g.tables.nodes.length).map fun i => (i, i) := by
    refine List.ext_getElem (by simp) fun i _ _ => ?_
    simp
  unfold run
  rw [hsteps, Throwing.wp_bind]
  refine ((ArenaInv.start g.tables plan).runNodes g.wf hbuilt (Nat.zero_le 0) (Nat.zero_add _)).mono
    (fun _ s hdone => ?_) fun _ _ hstopped => hstopped
  obtain ⟨hinv, hle⟩ := hdone
  rw [Throwing.wp_bind, Throwing.wp_get, Throwing.wp_bind]
  refine (hinv.waitUntil hle hinv.pending.le).mono (fun _ s' hrest => ?_)
    fun _ _ hstopped => hstopped
  obtain ⟨hinv', -, hwaited, -⟩ := hrest
  refine wp_call ⟨hinv'.safe, fun t => ?_⟩ fun e hthrows => ⟨hinv'.safe, .inr (.inr hthrows)⟩
  rw [hinv'.enqueued, hinv'.waited]
  have := hinv.pending
  omega

open MemoryPlan (reluChain reluChainPlan reluChain_order reluChain_plan)

/-- The third node writes where the first one did: the operations of the first two are waited for
before it is enqueued. -/
theorem arena_safe_reluChain :
    (run (reluChain Int).tables reluChainPlan {} (List.range 3) (start reluChainPlan)).1 =
      .ok () ∧
    TraceSafe (reluChain Int).tables reluChainPlan
      [.enqueued 0, .enqueued 1, .accessed 0, .waited 0, .accessed 1, .waited 1, .enqueued 2,
        .accessed 2, .waited 2] := by
  have hsafe := arena_safe 4 (reluChain Int) (List.range 3) reluChainPlan {}
    reluChain_order reluChain_plan
  let done : Arena := {
    pending := 3
    waited := 3
    occupants := [some 3, some 2]
    trace := [.enqueued 0, .enqueued 1, .accessed 0, .waited 0, .accessed 1, .waited 1, .enqueued 2,
      .accessed 2, .waited 2] }
  have hrun : run (reluChain Int).tables reluChainPlan {} (List.range 3) (start reluChainPlan) =
      (.ok (), done) := by rfl
  exact ⟨congrArg Prod.fst hrun, (hsafe.ok hrun).1⟩

end Arena

end TinyInfer
