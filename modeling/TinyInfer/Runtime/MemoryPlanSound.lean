import TinyInfer.Runtime.MemoryPlan
import Mathlib.Data.Nat.Bitwise

/-!
# The memory plan is sound

For a valid graph the constructor of `MemoryPlan` returns or reports an overflow, and
what it returns is `Sound` (`ofGraph_sound`): intermediates that are in use at the same
time have disjoint bytes, and a value is released after its last reader.

Main definitions:
* `LifetimesOk`: the entries of `lifetimes_` are those of the intermediates.
* `Extended`: the lifetimes end at the last reader, or never for an output.
* `Laid`: the slots follow one another in the buffer.
-/

namespace TinyInfer.MemoryPlan

open Lib.Slots (Slot Free Shared)

variable {α : Type} {platform : Fin 64}

/-! ## Alignment -/

/-- Clearing the low bits rounds down. -/
theorem and_mask {x k : Nat} (hsmall : x < 2 ^ 64) (hk : k ≤ 64) :
    x &&& ((2 ^ 64 - 1) ^^^ (2 ^ k - 1)) = x / 2 ^ k * 2 ^ k := by
  rw [← Nat.shiftRight_eq_div_pow, ← Nat.shiftLeft_eq]
  refine Nat.eq_of_testBit_eq fun i => ?_
  rw [Nat.testBit_and, Nat.testBit_xor, Nat.testBit_two_pow_sub_one, Nat.testBit_two_pow_sub_one,
    Nat.testBit_shiftLeft, Nat.testBit_shiftRight]
  by_cases hlow : i < k
  · have : i < 64 := by omega
    simp [hlow, this, Nat.not_le.2 hlow]
  · have hhigh : k ≤ i := Nat.not_lt.1 hlow
    rw [Nat.add_sub_cancel' hhigh]
    by_cases hinside : i < 64
    · simp [hlow, hinside, hhigh]
    · have : x.testBit i = false :=
        Nat.testBit_lt_two_pow (hsmall.trans_le
          (Nat.pow_le_pow_right (by decide) (Nat.not_lt.1 hinside)))
      simp [this]

/-- An aligned size is a multiple of the alignment, not below the size, and fits. -/
theorem alignUp_ok {value aligned : Nat}
    (h : alignUp value (defaultBufferAlignment platform) = .ok aligned) :
    value ≤ aligned ∧ defaultBufferAlignment platform ∣ aligned ∧ aligned ≤ sizeMax := by
  unfold alignUp defaultBufferAlignment at h
  have hpos : 0 < 2 ^ platform.val := Nat.two_pow_pos _
  have hbound : 2 ^ platform.val ≤ 2 ^ 64 := Nat.pow_le_pow_right (by decide) platform.isLt.le
  split at h
  · cases h
  · rename_i hfits
    have hsmall : value + 2 ^ platform.val - 1 < 2 ^ 64 := by
      unfold sizeMax at hfits
      omega
    cases h
    rw [show sizeMax = 2 ^ 64 - 1 from rfl, and_mask hsmall platform.isLt.le]
    have hsplit := Nat.div_add_mod (value + 2 ^ platform.val - 1) (2 ^ platform.val)
    have hless := Nat.mod_lt (value + 2 ^ platform.val - 1) hpos
    rw [Nat.mul_comm] at hsplit
    exact ⟨by omega, Nat.dvd_mul_left _ _, by omega⟩

theorem alignUp_error {value alignment : Nat} {e : Exn} (h : alignUp value alignment = .error e) :
    ∃ message, e = .overflowError message := by
  unfold alignUp at h
  split at h
  · cases h
    exact ⟨_, rfl⟩
  · cases h

/-! ## Steps -/

theorem nodeSteps_range_succ (n : Nat) :
    nodeSteps (List.range (n + 1)) = Function.update (nodeSteps (List.range n)) n n := by
  unfold nodeSteps
  rw [List.range_succ, List.zipIdx_append, List.foldl_append]
  simp

/-- Nodes run in the order in which they were added. -/
theorem nodeSteps_range {n : Nat} {id : NodeId} (hinside : id < n) :
    nodeSteps (List.range n) id = id := by
  induction n with
  | zero => cases hinside
  | succ n ih =>
    rw [nodeSteps_range_succ]
    by_cases hsame : id = n
    · rw [hsame, Function.update_self]
    · rw [Function.update_of_ne hsame, ih (Nat.lt_of_le_of_ne (Nat.lt_succ_iff.1 hinside) hsame)]

/-! ## Lifetimes -/

/-- The lifetime of a value before its readers are known. -/
def started (steps : NodeId → Nat) (value : GraphValue) : Option ValueLifetime :=
  if value.kind = .intermediate then
    some ⟨value.id, value.producer.elim 0 steps, value.producer.elim 0 steps,
      Shape.count value.spec.shape * value.spec.dtype.size⟩
  else none

/-- The lifetimes start at the producers' steps, unless a size overflows. -/
theorem collectLifetimes_eq (steps : NodeId → Nat) {values : List GraphValue}
    (hvalid : ∀ value ∈ values, value.spec.Valid) (naive : Nat) :
    (∃ message, collectLifetimes steps values naive = .error (.overflowError message)) ∨
    ∃ total, collectLifetimes steps values naive = .ok (values.map (started steps), total) := by
  induction values generalizing naive with
  | nil => exact .inr ⟨naive, rfl⟩
  | cons value values ih =>
    obtain ⟨⟨hadmits, hbytes_le⟩, hothers⟩ := List.forall_mem_cons.1 hvalid
    rw [collectLifetimes, List.map_cons, started]
    by_cases hkind : value.kind = .intermediate
    · have hlayout : TensorLayout.ofShape value.spec.shape =
        .ok (.contiguous value.spec.shape hadmits) :=
        TensorLayout.ofShape_ok.2 ⟨hadmits, rfl⟩
      have hbytes : (TensorLayout.contiguous value.spec.shape hadmits).sizeBytes value.spec.dtype =
          .ok (Shape.count value.spec.shape * value.spec.dtype.size) :=
        (TensorLayout.sizeBytes_ok _).2 ⟨hbytes_le, rfl⟩
      rw [if_pos hkind, if_pos hkind, hlayout]
      show (_ ∨ ∃ total, (_ >>= _) = _)
      simp only [bind, Except.bind, hbytes]
      split
      · exact .inl ⟨_, rfl⟩
      · rcases ih hothers (naive + Shape.count value.spec.shape * value.spec.dtype.size) with
          ⟨message, hfailed⟩ | ⟨total, hdone⟩
        · exact .inl ⟨message, by rw [hfailed]⟩
        · exact .inr ⟨total, by rw [hdone]⟩
    · rw [if_neg hkind, if_neg hkind]
      rcases ih hothers naive with ⟨message, hfailed⟩ | ⟨total, hdone⟩
      · exact .inl ⟨message, by rw [hfailed]; rfl⟩
      · exact .inr ⟨total, by rw [hdone]; rfl⟩

/-- The intermediates, and only they, have lifetimes. -/
structure LifetimesOk (g : Graph α) (lifetimes : List (Option ValueLifetime)) : Prop where
  length : lifetimes.length = g.values.length
  intermediate : ∀ (id : ValueId) (value : GraphValue), g.values[id]? = some value →
    value.kind = .intermediate →
    ∃ l, lifetimes[id]? = some (some l)
  lifetime : ∀ (id : ValueId) (l : ValueLifetime), lifetimes[id]? = some (some l) →
    l.value = id ∧ l.firstStep ≤ l.lastStep ∧ ∃ value, g.values[id]? = some value ∧
      value.kind = .intermediate ∧ value.producer = some l.firstStep ∧
      l.sizeBytes = Shape.count value.spec.shape * value.spec.dtype.size

/-- The first lifetimes are those of the intermediate values, in id order. -/
theorem LifetimesOk.started {g : Graph α} (hwf : g.WellFormed) :
    LifetimesOk g (g.values.map (started (nodeSteps (List.range g.nodes.length)))) := by
  constructor
  · exact List.length_map _
  · intro id value hfound hkind
    rw [List.getElem?_map, hfound, Option.map_some, MemoryPlan.started, if_pos hkind]
    exact ⟨_, rfl⟩
  · intro id l hfound
    rw [List.getElem?_map] at hfound
    obtain ⟨value, hat, heq⟩ := Option.map_eq_some_iff.1 hfound
    unfold MemoryPlan.started at heq
    split at heq
    · rename_i hkind
      cases heq
      have hmetadata := hwf.metadata id value hat
      unfold Graph.MetadataOk at hmetadata
      rw [hkind] at hmetadata
      obtain ⟨-, p, node, hproducer, hinside, -⟩ := hmetadata
      refine ⟨hwf.value_id id value hat, Nat.le_refl _, value, hat, hkind, ?_, rfl⟩
      show value.producer = some (value.producer.elim 0 _)
      rw [hproducer]
      exact congrArg some (nodeSteps_range (List.getElem?_eq_some_iff.1 hinside).1).symm
    · cases heq

/-- An update of the last step changes one lifetime. -/
theorem getElem?_updateLast (f : Nat → Nat) (lifetimes : List (Option ValueLifetime))
    (id j : ValueId) :
    (updateLast f lifetimes id)[j]? =
      if j = id then (lifetimes[j]?).map (Option.map fun l => { l with lastStep := f l.lastStep })
      else lifetimes[j]? := by
  unfold updateLast
  rw [List.getElem?_modify]
  by_cases hsame : j = id
  · subst hsame
    simp
  · have hother : id ≠ j := fun h => hsame h.symm
    simp [hsame, hother]

/-- A value that is updated twice by the same step is updated once. -/
theorem getElem?_foldl_updateLast {f : Nat → Nat} (hidem : ∀ n, f (f n) = f n) (ids : List ValueId)
    (lifetimes : List (Option ValueLifetime)) (j : ValueId) :
    (ids.foldl (updateLast f) lifetimes)[j]? =
      if j ∈ ids then (lifetimes[j]?).map (Option.map fun l => { l with lastStep := f l.lastStep })
      else lifetimes[j]? := by
  induction ids generalizing lifetimes with
  | nil => simp
  | cons id ids ih =>
    rw [List.foldl_cons, ih, getElem?_updateLast]
    by_cases hsame : j = id
    · subst hsame
      rw [if_pos rfl, if_pos List.mem_cons_self, Option.map_map]
      split
      · congr 1
        funext l
        cases l <;> simp [hidem]
      · rfl
    · simp only [List.mem_cons, hsame, false_or, if_false]

/-- An entry after the last steps of some values have grown. -/
theorem LifetimesOk.foldl_updateLast {g : Graph α} {lifetimes : List (Option ValueLifetime)}
    (h : LifetimesOk g lifetimes) {f : Nat → Nat} (hidem : ∀ n, f (f n) = f n) {ids : List ValueId}
    (hgrows : ∀ (id : ValueId) (l : ValueLifetime), lifetimes[id]? = some (some l) →
      l.lastStep ≤ f l.lastStep) :
    LifetimesOk g (ids.foldl (updateLast f) lifetimes) := by
  have hlength (ids : List ValueId) (lifetimes : List (Option ValueLifetime)) :
      (ids.foldl (updateLast f) lifetimes).length = lifetimes.length := by
    induction ids generalizing lifetimes with
    | nil => rfl
    | cons id ids ih => rw [List.foldl_cons, ih, updateLast, List.length_modify]
  constructor
  · rw [hlength, h.length]
  · intro id value hfound hkind
    obtain ⟨l, hentry⟩ := h.intermediate id value hfound hkind
    rw [getElem?_foldl_updateLast hidem, hentry]
    split
    · exact ⟨_, rfl⟩
    · exact ⟨_, rfl⟩
  · intro id l hfound
    rw [getElem?_foldl_updateLast hidem] at hfound
    split at hfound
    · obtain ⟨entry, hinside, heq⟩ := Option.map_eq_some_iff.1 hfound
      obtain ⟨l', rfl, rfl⟩ := Option.map_eq_some_iff.1 heq
      obtain ⟨hvalue, hordered, hrest⟩ := h.lifetime id l' hinside
      exact ⟨hvalue, Nat.le_trans hordered (hgrows id l' hinside), hrest⟩
    · exact h.lifetime id l hfound

/-- The lifetimes after the first `k` nodes have read their inputs. -/
structure ReadUpTo (g : Graph α) (k : Nat) (lifetimes : List (Option ValueLifetime)) : Prop
    extends LifetimesOk g lifetimes where
  last_lt : ∀ (id : ValueId) (l : ValueLifetime), lifetimes[id]? = some (some l) →
    l.lastStep < g.nodes.length
  reads : ∀ t < k, ∀ node : Node, g.nodes[t]? = some node → ∀ input ∈ node.inputs,
    ∀ l : ValueLifetime, lifetimes[input]? = some (some l) → t ≤ l.lastStep

/-- Before the first node nothing has been read. -/
theorem ReadUpTo.started {g : Graph α} (hwf : g.WellFormed) :
    ReadUpTo g 0 (g.values.map (MemoryPlan.started (nodeSteps (List.range g.nodes.length)))) := by
  refine ⟨.started hwf, fun id l hfound => ?_, fun t hlt => absurd hlt (Nat.not_lt_zero t)⟩
  obtain ⟨-, -, value, hat, hkind, hproducer, -⟩ := (LifetimesOk.started hwf).lifetime id l hfound
  have hmetadata := hwf.metadata id value hat
  unfold Graph.MetadataOk at hmetadata
  rw [hkind] at hmetadata
  obtain ⟨-, p, node, hproducer', hinside, -⟩ := hmetadata
  have hlast : l.lastStep = l.firstStep := by
    rw [List.getElem?_map] at hfound
    obtain ⟨value', -, heq⟩ := Option.map_eq_some_iff.1 hfound
    unfold MemoryPlan.started at heq
    split at heq
    · cases heq
      rfl
    · cases heq
  rw [hproducer] at hproducer'
  cases hproducer'
  rw [hlast]
  exact (List.getElem?_eq_some_iff.1 hinside).1

/-- One more node's reads move its inputs' last steps. -/
theorem ReadUpTo.readInputs {g : Graph α} {k : Nat} {lifetimes : List (Option ValueLifetime)}
    (h : ReadUpTo g k lifetimes) (hinside : k < g.nodes.length) :
    ReadUpTo g (k + 1) (readInputs g lifetimes (k, k)) := by
  have hidem : ∀ n, max (max n k) k = max n k := fun n => by omega
  have hfound : g.nodes[k]? = some g.nodes[k] := List.getElem?_eq_getElem hinside
  unfold MemoryPlan.readInputs
  simp only [hfound, Option.elim]
  have hentry (id : ValueId) (l : ValueLifetime)
      (h : (g.nodes[k].inputs.foldl (updateLast (max · k)) lifetimes)[id]? = some (some l)) :
      ∃ l', lifetimes[id]? = some (some l') ∧
        l.lastStep = if id ∈ g.nodes[k].inputs then max l'.lastStep k else l'.lastStep := by
    rw [getElem?_foldl_updateLast hidem] at h
    split at h
    · rename_i hmem
      obtain ⟨entry, hinside, heq⟩ := Option.map_eq_some_iff.1 h
      obtain ⟨l', rfl, rfl⟩ := Option.map_eq_some_iff.1 heq
      exact ⟨l', hinside, (if_pos hmem).symm⟩
    · rename_i hmem
      exact ⟨l, h, (if_neg hmem).symm⟩
  refine ⟨h.toLifetimesOk.foldl_updateLast hidem fun _ _ _ => Nat.le_max_left _ _, ?_, ?_⟩
  · intro id l hat
    obtain ⟨l', hold, hlast⟩ := hentry id l hat
    have := h.last_lt id l' hold
    rw [hlast]
    split <;> omega
  · intro t hlt node hat input hmem l hnow
    obtain ⟨l', hold, hlast⟩ := hentry input l hnow
    by_cases hbefore : t < k
    · have := h.reads t hbefore node hat input hmem l' hold
      rw [hlast]
      split <;> omega
    · obtain rfl : t = k := by omega
      rw [hfound] at hat
      cases hat
      rw [hlast, if_pos hmem]
      exact Nat.le_max_right _ _

/-- After `k` nodes the last steps are those of the reads so far, by induction on `k`. -/
theorem ReadUpTo.run {g : Graph α} {lifetimes : List (Option ValueLifetime)}
    (h : ReadUpTo g 0 lifetimes) {k : Nat} (hinside : k ≤ g.nodes.length) :
    ReadUpTo g k ((List.range k).zipIdx.foldl (MemoryPlan.readInputs g) lifetimes) := by
  induction k with
  | zero => exact h
  | succ k ih =>
    rw [List.range_succ, List.zipIdx_append, List.foldl_append]
    simpa using (ih (by omega)).readInputs hinside

/-- The lifetimes of the plan. -/
structure Extended (g : Graph α) (lifetimes : List (Option ValueLifetime)) : Prop
    extends LifetimesOk g lifetimes where
  last : ∀ (id : ValueId) (l : ValueLifetime), lifetimes[id]? = some (some l) →
    if id ∈ g.outputIds then l.lastStep = g.nodes.length else l.lastStep < g.nodes.length
  reads : ∀ (t : Nat) (node : Node), g.nodes[t]? = some node → ∀ input ∈ node.inputs,
    ∀ l : ValueLifetime, lifetimes[input]? = some (some l) → t ≤ l.lastStep

/-- In the end each lifetime reaches from the producer to the last reader. -/
theorem extendLifetimes_ok {g : Graph α} (hwf : g.WellFormed) :
    Extended g (extendLifetimes g (List.range g.nodes.length)
      (g.values.map (started (nodeSteps (List.range g.nodes.length))))) := by
  have hread := (ReadUpTo.started hwf).run (Nat.le_refl _)
  unfold extendLifetimes
  rw [List.length_range]
  generalize (List.range g.nodes.length).zipIdx.foldl _ _ = lifetimes at hread
  have hidem : ∀ _ : Nat, g.nodes.length = g.nodes.length := fun _ => rfl
  have hentry (id : ValueId) (l : ValueLifetime)
      (h : (g.outputIds.foldl (updateLast fun _ => g.nodes.length) lifetimes)[id]? =
        some (some l)) :
      ∃ l', lifetimes[id]? = some (some l') ∧
        l.lastStep = if id ∈ g.outputIds then g.nodes.length else l'.lastStep := by
    rw [getElem?_foldl_updateLast hidem] at h
    split at h
    · rename_i hmem
      obtain ⟨entry, hinside, heq⟩ := Option.map_eq_some_iff.1 h
      obtain ⟨l', rfl, rfl⟩ := Option.map_eq_some_iff.1 heq
      exact ⟨l', hinside, (if_pos hmem).symm⟩
    · rename_i hmem
      exact ⟨l, h, (if_neg hmem).symm⟩
  refine ⟨hread.toLifetimesOk.foldl_updateLast hidem fun id l hat => (hread.last_lt id l hat).le,
    ?_, ?_⟩
  · intro id l hnow
    obtain ⟨l', hold, hlast⟩ := hentry id l hnow
    split
    · rename_i hmem
      rw [hlast, if_pos hmem]
    · rename_i hmem
      rw [hlast, if_neg hmem]
      exact hread.last_lt id l' hold
  · intro t node hat input hmem l hnow
    have hinside : t < g.nodes.length := (List.getElem?_eq_some_iff.1 hat).1
    obtain ⟨l', hold, hlast⟩ := hentry input l hnow
    have := hread.reads t hinside node hat input hmem l' hold
    rw [hlast]
    split <;> omega

/-! ## Releases -/

/-- The lifetimes, in the order of their values. -/
def present (lifetimes : List (Option ValueLifetime)) : List ValueLifetime := lifetimes.filterMap id

theorem mem_present {lifetimes : List (Option ValueLifetime)} {l : ValueLifetime} :
    l ∈ present lifetimes ↔ some l ∈ lifetimes := by
  simp [present]

theorem LifetimesOk.mem_present {g : Graph α} {lifetimes : List (Option ValueLifetime)}
    (h : LifetimesOk g lifetimes) {l : ValueLifetime} :
    l ∈ present lifetimes ↔ lifetimes[l.value]? = some (some l) := by
  rw [MemoryPlan.mem_present]
  constructor
  · intro hmem
    obtain ⟨id, hfound⟩ := List.getElem?_of_mem hmem
    rwa [(h.lifetime id l hfound).1]
  · exact List.mem_of_getElem?

/-- A value has one lifetime. -/
theorem LifetimesOk.nodup_present {g : Graph α} {lifetimes : List (Option ValueLifetime)}
    (h : LifetimesOk g lifetimes) : ((present lifetimes).map (·.value)).Nodup := by
  refine List.pairwise_map.2 (List.pairwise_filterMap.2 (List.pairwise_iff_getElem.2 ?_))
  intro i j hi hj hlt l hsome_l l' hsome_l' hsame
  have hat : lifetimes[i]? = some (some l) :=
    (List.getElem?_eq_getElem hi).trans (congrArg some hsome_l)
  have hat' : lifetimes[j]? = some (some l') :=
    (List.getElem?_eq_getElem hj).trans (congrArg some hsome_l')
  rw [(h.lifetime i l hat).1, (h.lifetime j l' hat').1] at hsame
  exact absurd hsame (Nat.ne_of_lt hlt)

/-- The values that are released after a step. -/
theorem getElem?_releases (steps : Nat) (lifetimes : List (Option ValueLifetime))
    (releases : List (List ValueId)) (t : Nat) :
    (lifetimes.foldl (release steps) releases)[t]? = (releases[t]?).map (· ++
      ((present lifetimes).filter fun l => l.lastStep = t ∧ t < steps).map (·.value)) := by
  induction lifetimes generalizing releases with
  | nil => simp [present]
  | cons lifetime lifetimes ih =>
    rw [List.foldl_cons, ih]
    cases lifetime with
    | none => rfl
    | some l =>
      have hcons : present (some l :: lifetimes) = l :: present lifetimes := rfl
      rw [hcons, List.filter_cons, release]
      by_cases hinside : l.lastStep < steps
      · rw [if_pos hinside, List.getElem?_modify]
        by_cases hsame : l.lastStep = t
        · subst hsame
          cases releases[l.lastStep]? <;> simp [hinside]
        · simp [hsame]
      · rw [if_neg hinside]
        have hother : ¬ (l.lastStep = t ∧ t < steps) := fun h => hinside (h.1 ▸ h.2)
        simp [hother]

/-! ## Slots -/

/-- A slot that is chosen is free over the interval. -/
theorem considerSlot_free {slots : List Slot} {interval : ValueLifetime} {best : Nat × Nat}
    {p : Slot × Nat} (hfound : slots[p.2]? = some p.1)
    (hfree : Free slots best.1 interval.interval) :
    Free slots (considerSlot interval best p).1 interval.interval := by
  unfold considerSlot
  split
  · exact hfree
  · rename_i hbefore
    by_cases hbetter : (if interval.sizeBytes > p.1.capacity then interval.sizeBytes - p.1.capacity
        else 0) < best.2
    · rw [if_pos hbetter]
      exact .inr ⟨p.1, hfound, Nat.lt_of_not_le hbefore⟩
    · rw [if_neg hbetter]
      exact hfree

/-- The selected slot is free when the interval begins. -/
theorem selectSlot_free (slots : List Slot) (interval : ValueLifetime) :
    Free slots (selectSlot slots interval) interval.interval := by
  unfold selectSlot
  have hfound : ∀ p ∈ slots.zipIdx, slots[p.2]? = some p.1 := fun p hmem =>
    List.mem_zipIdx_iff_getElem?.1 hmem
  have hstart : Free slots (slots.length, sizeMax).1 interval.interval := .inl rfl
  generalize (slots.length, sizeMax) = best at hstart
  generalize slots.zipIdx = visited at hfound
  induction visited generalizing best with
  | nil => exact hstart
  | cons p rest ih =>
    obtain ⟨hhead, htail⟩ := List.forall_mem_cons.1 hfound
    exact ih _ (considerSlot_free hhead hstart) htail

theorem assignSlots_fst (intervals : List ValueLifetime) (slots : List Slot) :
    (assignSlots intervals slots).1.map (·.1) = intervals := by
  induction intervals generalizing slots with
  | nil => rfl
  | cons interval rest ih => simp [assignSlots, ih]

/-- The slots of all intervals, in the order in which they begin. -/
theorem assignSlots_shared {intervals : List ValueLifetime}
    (hsorted : intervals.Pairwise fun a b => a.firstStep ≤ b.firstStep)
    (hordered : ∀ l ∈ intervals, l.firstStep ≤ l.lastStep)
    {placed : List (Lib.Slots.Interval × Nat)} {slots : List Slot} {now : Nat}
    (h : Shared placed slots now) (hlater : ∀ l ∈ intervals, now ≤ l.firstStep) :
    ∃ last, Shared (placed ++ (assignSlots intervals slots).1.map fun p => (p.1.interval, p.2))
      (assignSlots intervals slots).2 last := by
  induction intervals generalizing placed slots now with
  | nil => exact ⟨now, by simpa [assignSlots] using h⟩
  | cons interval rest ih =>
    obtain ⟨hbefore, hrestSorted⟩ := List.pairwise_cons.1 hsorted
    obtain ⟨hhead, htail⟩ := List.forall_mem_cons.1 hordered
    have hnext := h.put (hlater interval List.mem_cons_self) hhead (selectSlot_free slots interval)
    obtain ⟨last, hshared⟩ := ih hrestSorted htail hnext hbefore
    exact ⟨last, by simpa [assignSlots] using hshared⟩

theorem startsBefore_iff {a b : ValueLifetime} :
    startsBefore a b = true ↔
      a.firstStep < b.firstStep ∨ (a.firstStep = b.firstStep ∧ a.value ≤ b.value) := by
  unfold startsBefore
  by_cases hsame : a.firstStep = b.firstStep <;> simp [hsame]

theorem startsBefore_trans (a b c : ValueLifetime) (hab : startsBefore a b = true)
    (hbc : startsBefore b c = true) : startsBefore a c = true := by
  rw [startsBefore_iff] at *
  rcases hab with hab' | ⟨hab', hle⟩ <;> rcases hbc with hbc' | ⟨hbc', hle'⟩
  · exact .inl (hab'.trans hbc')
  · exact .inl (hbc' ▸ hab')
  · exact .inl (hab' ▸ hbc')
  · exact .inr ⟨hab'.trans hbc', Nat.le_trans hle hle'⟩

/-- That order is total. -/
theorem startsBefore_total (a b : ValueLifetime) :
    (startsBefore a b || startsBefore b a) = true := by
  rw [Bool.or_eq_true, startsBefore_iff, startsBefore_iff]
  rcases Nat.lt_trichotomy a.firstStep b.firstStep with hlt | hsame | hlt
  · exact .inl (.inl hlt)
  · exact (Nat.le_total a.value b.value).imp (fun hle => .inr ⟨hsame, hle⟩) fun hle =>
      .inr ⟨hsame.symm, hle⟩
  · exact .inr (.inl hlt)

theorem sorted_intervals (lifetimes : List (Option ValueLifetime)) :
    (intervals lifetimes).Pairwise fun a b => a.firstStep ≤ b.firstStep := by
  refine (List.pairwise_mergeSort startsBefore_trans startsBefore_total _).imp fun {a b} h => ?_
  rcases startsBefore_iff.1 h with hlt | ⟨hsame, -⟩
  · exact hlt.le
  · exact hsame.le

theorem perm_intervals (lifetimes : List (Option ValueLifetime)) :
    (intervals lifetimes).Perm (present lifetimes) := List.mergeSort_perm _ _

/-! ## Offsets -/

/-- The slots follow one another, each at an aligned offset. -/
structure Laid (platform : Fin 64) (capacities offsets : List Nat) (start size : Nat) : Prop where
  length : offsets.length = capacities.length
  start_le : start ≤ size
  size_le : size ≤ sizeMax
  inside : ∀ i offset capacity : Nat, offsets[i]? = some offset → capacities[i]? = some capacity →
    defaultBufferAlignment platform ∣ offset ∧ start ≤ offset ∧ offset + capacity ≤ size
  apart : ∀ i j offset capacity offset' : Nat, offsets[i]? = some offset →
    capacities[i]? = some capacity →
    i < j → offsets[j]? = some offset' → offset + capacity ≤ offset'

/-- The slots are laid out one after another, or a size overflows. -/
theorem layoutSlots_ok (platform : Fin 64) (capacities : List Nat) {start : Nat}
    (hfits : start ≤ sizeMax) :
    (∃ message, layoutSlots platform capacities start = .error (.overflowError message)) ∨
    ∃ offsets size, layoutSlots platform capacities start = .ok (offsets, size) ∧
      Laid platform capacities offsets start size := by
  induction capacities generalizing start with
  | nil =>
    exact .inr ⟨[], start, rfl, rfl, Nat.le_refl _, hfits, by simp, by simp⟩
  | cons capacity capacities ih =>
    rw [layoutSlots]
    cases haligned : alignUp start (defaultBufferAlignment platform) with
    | error e =>
      obtain ⟨message, rfl⟩ := alignUp_error haligned
      exact .inl ⟨message, rfl⟩
    | ok offset =>
      obtain ⟨hle, hdivides, hsmall⟩ := alignUp_ok haligned
      by_cases hexceeds : capacity > sizeMax - offset
      · exact .inl ⟨_, if_pos hexceeds⟩
      · have hnext : offset + capacity ≤ sizeMax := by omega
        rcases ih hnext with ⟨message, hfailed⟩ | ⟨offsets, size, hlaid, h⟩
        · refine .inl ⟨message, ?_⟩
          show (if capacity > sizeMax - offset then _ else _) = _
          rw [if_neg hexceeds, hfailed]
          rfl
        · refine .inr ⟨offset :: offsets, size, ?_, ?_⟩
          · show (if capacity > sizeMax - offset then _ else _) = _
            rw [if_neg hexceeds, hlaid]
            rfl
          · have hstart_le := h.start_le
            refine ⟨by simp [h.length], by omega, h.size_le, ?_, ?_⟩
            · intro i o c hat hat'
              cases i with
              | zero =>
                cases hat
                cases hat'
                exact ⟨hdivides, hle, hstart_le⟩
              | succ i =>
                obtain ⟨hd, hlower, hupper⟩ := h.inside i o c hat hat'
                exact ⟨hd, by omega, hupper⟩
            · intro i j o c o' hat hat' hlt hat''
              cases j with
              | zero => cases hlt
              | succ j =>
                cases i with
                | zero =>
                  cases hat
                  cases hat'
                  have hinside : j < offsets.length := by
                    simpa using (List.getElem?_eq_some_iff.1 hat'').1
                  have hfound := List.getElem?_eq_getElem (h.length ▸ hinside)
                  exact (h.inside j o' _ hat'' hfound).2.1
                | succ i => exact h.apart i j o c o' hat hat' (by omega) hat''

/-! ## Allocations -/

/-- A value that is not placed gets no allocation. -/
theorem getElem?_allocate_of_notMem {offsets : List Nat} {placed : List (ValueLifetime × Nat)}
    {allocations : List (Option BufferAllocation)} {id : ValueId}
    (hother : id ∉ placed.map fun p => p.1.value) :
    (placed.foldl (allocate offsets) allocations)[id]? = allocations[id]? := by
  induction placed generalizing allocations with
  | nil => rfl
  | cons p placed ih =>
    rw [List.map_cons, List.mem_cons, not_or] at hother
    rw [List.foldl_cons, ih hother.2, allocate, List.getElem?_set_ne fun h => hother.1 h.symm]

/-- A value is allocated in its slot. -/
theorem getElem?_allocate {offsets : List Nat} {placed : List (ValueLifetime × Nat)}
    {allocations : List (Option BufferAllocation)} (hnodup : (placed.map fun p => p.1.value).Nodup)
    {p : ValueLifetime × Nat} (hmem : p ∈ placed) (hinside : p.1.value < allocations.length) :
    (placed.foldl (allocate offsets) allocations)[p.1.value]? =
      some (some ⟨p.2, offsets.getD p.2 0, p.1.sizeBytes⟩) := by
  induction placed generalizing allocations with
  | nil => cases hmem
  | cons q placed ih =>
    obtain ⟨hfresh, hrest⟩ := List.nodup_cons.1 hnodup
    rw [List.foldl_cons]
    rcases List.mem_cons.1 hmem with rfl | hmem
    · rw [getElem?_allocate_of_notMem hfresh, allocate, List.getElem?_set_self hinside]
    · exact ih hrest hmem (by rw [allocate, List.length_set]; exact hinside)

/-! ## The plan -/

/-- What a plan promises to a run of the graph. -/
structure Sound (platform : Fin 64) (g : Graph α) (plan : MemoryPlan) : Prop where
  /-- An intermediate has an aligned range of its size inside of the buffer. -/
  allocated : ∀ (id : ValueId) (value : GraphValue), g.values[id]? = some value →
    value.kind = .intermediate → ∃ l a, plan.lifetime id = .ok l ∧ plan.allocation id = .ok a ∧
      value.producer = some l.firstStep ∧ l.firstStep ≤ l.lastStep ∧
      a.sizeBytes = Shape.count value.spec.shape * value.spec.dtype.size ∧
      defaultBufferAlignment platform ∣ a.byteOffset ∧
      a.byteOffset + a.sizeBytes ≤ plan.bufferSizeBytes
  /-- Only intermediates have lifetimes. -/
  intermediate : ∀ (id : ValueId) (l : ValueLifetime), plan.lifetime id = .ok l →
    ∃ value, g.values[id]? = some value ∧ value.kind = .intermediate
  size_le : plan.bufferSizeBytes ≤ sizeMax
  /-- Intermediates that are in use at a common step have disjoint ranges. -/
  disjoint : ∀ (id id' : ValueId) (l l' : ValueLifetime) (a a' : BufferAllocation), id ≠ id' →
    plan.lifetime id = .ok l → plan.lifetime id' = .ok l' → plan.allocation id = .ok a →
    plan.allocation id' = .ok a' → l.firstStep ≤ l'.lastStep → l'.firstStep ≤ l.lastStep →
    a.byteOffset + a.sizeBytes ≤ a'.byteOffset ∨ a'.byteOffset + a'.sizeBytes ≤ a.byteOffset
  /-- A node runs, at the step of its id, while its inputs are in use. -/
  reads : ∀ (t : Nat) (node : Node), g.nodes[t]? = some node → ∀ input ∈ node.inputs,
    ∀ l : ValueLifetime, plan.lifetime input = .ok l → l.firstStep ≤ t ∧ t ≤ l.lastStep
  /-- There is a release list for each step. -/
  lists : ∀ t : Nat, t < g.nodes.length ↔ ∃ values, plan.valuesReleasedAfterStep t = .ok values
  /-- A value is released once, after its last step, unless it is an output. -/
  released : ∀ (id : ValueId) (l : ValueLifetime), plan.lifetime id = .ok l →
    (id ∉ g.outputIds → l.lastStep < g.nodes.length) ∧
    ∀ (t : Nat) (values : List ValueId), plan.valuesReleasedAfterStep t = .ok values →
      values.count id = if id ∉ g.outputIds ∧ t = l.lastStep then 1 else 0
  /-- Nothing else is released. -/
  releases : ∀ (t : Nat) (values : List ValueId), plan.valuesReleasedAfterStep t = .ok values →
    ∀ id ∈ values, ∃ l, plan.lifetime id = .ok l

theorem lifetime_ok {plan : MemoryPlan} {id : ValueId} {l : ValueLifetime} :
    plan.lifetime id = .ok l ↔ plan.lifetimes[id]? = some (some l) := by
  unfold lifetime
  split
  · rename_i hnone
    simp [hnone]
  · rename_i hnone
    simp [hnone]
  · rename_i hsome
    simp [hsome]

theorem allocation_ok {plan : MemoryPlan} {id : ValueId} {a : BufferAllocation} :
    plan.allocation id = .ok a ↔ plan.allocations[id]? = some (some a) := by
  unfold allocation
  split
  · rename_i hnone
    simp [hnone]
  · rename_i hnone
    simp [hnone]
  · rename_i hsome
    simp [hsome]

theorem valuesReleasedAfterStep_ok {plan : MemoryPlan} {t : Nat} {values : List ValueId} :
    plan.valuesReleasedAfterStep t = .ok values ↔ plan.releases[t]? = some values := by
  unfold valuesReleasedAfterStep
  split
  · rename_i hnone
    simp [hnone]
  · rename_i hsome
    simp [hsome]

/-- A node writes its output where none of its operands is, so that a kernel that reads
while it writes finds its operands as they were. -/
theorem Sound.operands_disjoint {platform : Fin 64} {g : Graph α} {plan : MemoryPlan}
    (hsound : Sound platform g plan) (hwf : g.WellFormed) {t : NodeId} {node : Node}
    (hnode : g.nodes[t]? = some node) {input output : ValueId} (hinput : input ∈ node.inputs)
    (houtput : output ∈ node.outputs) {l : ValueLifetime} (hl : plan.lifetime input = .ok l)
    {a b : BufferAllocation} (ha : plan.allocation input = .ok a)
    (hb : plan.allocation output = .ok b) :
    a.byteOffset + a.sizeBytes ≤ b.byteOffset ∨ b.byteOffset + b.sizeBytes ≤ a.byteOffset := by
  obtain ⟨out, value, -, hout, hvalue, hkind, hproducer, -, -, hbefore⟩ :=
    (hwf.node t node hnode).output
  rw [hout, List.mem_singleton] at houtput
  subst houtput
  obtain ⟨l', b', hl', hb', hfirst, hle, -⟩ := hsound.allocated output value hvalue hkind
  -- The lifetime of the output begins at the step of the node.
  have hbegins : l'.firstStep = t := Option.some.inj (hfirst.symm.trans hproducer)
  obtain ⟨hstarted, hlast⟩ := hsound.reads t node hnode input hinput l hl
  have hne : input ≠ output := (hbefore input hinput).ne
  exact hsound.disjoint input output l l' a b hne hl hl' ha hb (hstarted.trans (hbegins ▸ hle))
    (hbegins ▸ hlast)

/-- How the constructor arrives at a plan: `placed` are the lifetimes with their slots, in
the order in which they begin. -/
structure Built (platform : Fin 64) (g : Graph α) (plan : MemoryPlan)
    (placed : List (ValueLifetime × Nat)) (offsets : List Nat) : Prop where
  extended : Extended g plan.lifetimes
  members : (placed.map (·.1)).Perm (present plan.lifetimes)
  sorted : placed.Pairwise fun p q => p.1.firstStep ≤ q.1.firstStep
  shared : ∃ slots now, Shared (placed.map fun p => (p.1.interval, p.2)) slots now ∧
    plan.slotCapacities = slots.map (·.capacity)
  laid : Laid platform plan.slotCapacities offsets 0 plan.bufferSizeBytes
  allocations :
    plan.allocations = placed.foldl (allocate offsets) (List.replicate g.values.length none)
  releases : plan.releases =
    plan.lifetimes.foldl (release g.nodes.length) (List.replicate g.nodes.length [])

/-- On a valid graph the plan is built, or a size overflows. -/
theorem ofGraph_built (platform : Fin 64) {g : Graph α} (hwf : g.WellFormed)
    (hvalid : g.validate = .ok ()) :
    (∃ message, ofGraph platform g = .error (.overflowError message)) ∨
    ∃ plan placed offsets, ofGraph platform g = .ok plan ∧
      Built platform g plan placed offsets := by
  have horder : g.topologicalOrder = .ok (List.range g.nodes.length) :=
    (Graph.topologicalOrder_ok hwf).2 ⟨(Graph.validate_ok hwf).1 hvalid, rfl⟩
  have hvalues : ∀ value ∈ g.values, value.spec.Valid := by
    intro value hmem
    obtain ⟨id, hfound⟩ := List.getElem?_of_mem hmem
    exact hwf.spec_valid id value hfound
  unfold ofGraph
  rw [hvalid, horder]
  rcases collectLifetimes_eq (nodeSteps (List.range g.nodes.length)) hvalues 0 with
    ⟨message, hfailed⟩ | ⟨naive, hcollected⟩
  · exact .inl ⟨message, by simp only [bind, Except.bind, hfailed]⟩
  · have hextended := extendLifetimes_ok hwf
    generalize hlifetimes_eq :
      extendLifetimes g (List.range g.nodes.length) _ = lifetimes at hextended
    have hordered : ∀ l ∈ intervals lifetimes, l.firstStep ≤ l.lastStep := by
      intro l hmem
      exact (hextended.lifetime l.value l (hextended.toLifetimesOk.mem_present.1
        ((perm_intervals lifetimes).mem_iff.1 hmem))).2.1
    have hsorted := sorted_intervals lifetimes
    obtain ⟨now, hshared⟩ := assignSlots_shared hsorted hordered (.empty 0) fun _ _ => Nat.zero_le _
    have hplaced := assignSlots_fst (intervals lifetimes) []
    rcases layoutSlots_ok platform ((assignSlots (intervals lifetimes) []).2.map (·.capacity))
      (Nat.zero_le sizeMax) with
      ⟨message, hfailed⟩ | ⟨offsets, size, hdone, hlaid⟩
    · exact .inl ⟨message, by simp only [bind, Except.bind, hcollected, hlifetimes_eq, hfailed]⟩
    · refine .inr ⟨_, (assignSlots (intervals lifetimes) []).1, offsets,
        by simp only [bind, Except.bind, hcollected, hlifetimes_eq, hdone]; rfl, ?_⟩
      refine ⟨hextended, ?_, ?_, ⟨_, now, hshared, rfl⟩, hlaid, rfl, by rw [List.length_range]⟩
      · rw [hplaced]
        exact perm_intervals lifetimes
      · rw [← hplaced, List.pairwise_map] at hsorted
        exact hsorted

variable {g : Graph α} {plan : MemoryPlan} {placed : List (ValueLifetime × Nat)}
    {offsets : List Nat}

theorem Built.nodup (h : Built platform g plan placed offsets) :
    (placed.map fun p => p.1.value).Nodup := by
  have := (h.members.map (·.value)).nodup_iff.2 h.extended.nodup_present
  rwa [List.map_map] at this

/-- Where an intermediate is. -/
theorem Built.allocation (h : Built platform g plan placed offsets) {id : ValueId}
    {l : ValueLifetime} (hlifetime : plan.lifetime id = .ok l) :
    ∃ slot offset capacity, (l, slot) ∈ placed ∧ offsets[slot]? = some offset ∧
      plan.slotCapacities[slot]? = some capacity ∧ l.sizeBytes ≤ capacity ∧
      plan.allocation id = .ok ⟨slot, offset, l.sizeBytes⟩ := by
  have hentry := lifetime_ok.1 hlifetime
  obtain ⟨hsame, -, value, hfound, -⟩ := h.extended.lifetime id l hentry
  obtain ⟨p, hmem, rfl⟩ := List.mem_map.1
    (h.members.mem_iff.2 (h.extended.toLifetimesOk.mem_present.2 (hsame.symm ▸ hentry)))
  obtain ⟨slots, now, hshared, hcapacities⟩ := h.shared
  obtain ⟨slot, hat, -, hfits⟩ := hshared.slot _ (List.mem_map_of_mem hmem)
  have hcapacity : plan.slotCapacities[p.2]? = some slot.capacity := by
    rw [hcapacities, List.getElem?_map, hat]
    rfl
  have hinside : p.2 < offsets.length := by
    rw [h.laid.length]
    exact (List.getElem?_eq_some_iff.1 hcapacity).1
  refine ⟨p.2, offsets[p.2], slot.capacity, hmem, List.getElem?_eq_getElem hinside,
    hcapacity, hfits, allocation_ok.2 ?_⟩
  have hsmall : p.1.value <
    (List.replicate g.values.length (none : Option BufferAllocation)).length := by
    rw [List.length_replicate, hsame]
    exact (List.getElem?_eq_some_iff.1 hfound).1
  rw [h.allocations, ← hsame, getElem?_allocate h.nodup hmem hsmall, List.getD_eq_getElem?_getD,
    List.getElem?_eq_getElem hinside]
  rfl

/-- Values that share a slot have it one after the other. -/
theorem Built.ended (h : Built platform g plan placed offsets) {id id' : ValueId}
    {l l' : ValueLifetime} {a a' : BufferAllocation} (hlifetime : plan.lifetime id = .ok l)
    (hlifetime' : plan.lifetime id' = .ok l') (hallocation : plan.allocation id = .ok a)
    (hallocation' : plan.allocation id' = .ok a') (hshares : a.slot = a'.slot)
    (hbefore : l.firstStep < l'.firstStep) : l.lastStep < l'.firstStep := by
  obtain ⟨slot, offset, capacity, hmem, -, -, -, heq⟩ := h.allocation hlifetime
  obtain ⟨slot', offset', capacity', hmem', -, -, -, heq'⟩ := h.allocation hlifetime'
  rw [hallocation] at heq
  rw [hallocation'] at heq'
  cases heq
  cases heq'
  have hordered := (h.extended.lifetime id' l' (lifetime_ok.1 hlifetime')).2.1
  obtain ⟨slots, now, hshared, -⟩ := h.shared
  by_contra hmeets
  refine hshared.disjoint hmem hmem' (fun heq => ?_) ⟨?_, Nat.not_lt.1 hmeets⟩ hshares
  · rw [(Prod.mk.inj heq).1] at hbefore
    exact absurd hbefore (Nat.lt_irrefl _)
  · exact (hbefore.le.trans hordered : l.firstStep ≤ l'.lastStep)

/-- The values of a release list. -/
theorem Built.mem_released (h : Built platform g plan placed offsets) {t : Nat}
    {values : List ValueId} (hreleased : plan.valuesReleasedAfterStep t = .ok values)
    (id : ValueId) :
    t < g.nodes.length ∧ values.Nodup ∧
      (id ∈ values ↔ ∃ l, plan.lifetime id = .ok l ∧ l.lastStep = t) := by
  have hat := valuesReleasedAfterStep_ok.1 hreleased
  rw [h.releases, getElem?_releases] at hat
  obtain ⟨base, hinside, heq⟩ := Option.map_eq_some_iff.1 hat
  obtain ⟨hlt, hempty⟩ := List.getElem?_eq_some_iff.1 hinside
  rw [List.length_replicate] at hlt
  rw [List.getElem_replicate] at hempty
  subst hempty
  rw [List.nil_append] at heq
  subst heq
  refine ⟨hlt, h.extended.nodup_present.sublist (List.filter_sublist.map _), ?_⟩
  rw [List.mem_map]
  constructor
  · rintro ⟨l, hmem, rfl⟩
    obtain ⟨hmem, hlast⟩ := List.mem_filter.1 hmem
    exact ⟨l, lifetime_ok.2 (h.extended.toLifetimesOk.mem_present.1 hmem),
      (by simpa using hlast : _ ∧ _).1⟩
  · rintro ⟨l, hlifetime, hlast⟩
    have hentry := lifetime_ok.1 hlifetime
    have hsame := (h.extended.lifetime id l hentry).1
    refine ⟨l, List.mem_filter.2 ⟨h.extended.toLifetimesOk.mem_present.2 (hsame.symm ▸ hentry), ?_⟩,
      hsame⟩
    simpa using ⟨hlast, hlt⟩

/-- A plan that was built is sound. -/
theorem Built.sound (hwf : g.WellFormed) (h : Built platform g plan placed offsets) :
    Sound platform g plan := by
  constructor
  -- every intermediate value has a lifetime and a place in the arena
  · intro id value hfound hkind
    obtain ⟨l, hentry⟩ := h.extended.intermediate id value hfound hkind
    obtain ⟨-, hordered, value', hfound', -, hproducer, hsize⟩ := h.extended.lifetime id l hentry
    rw [hfound] at hfound'
    cases hfound'
    obtain ⟨slot, offset, capacity, -, hat, hat', hfits, hallocated⟩ :=
      h.allocation (lifetime_ok.2 hentry)
    obtain ⟨hdivides, -, hinside⟩ := h.laid.inside slot offset capacity hat hat'
    exact ⟨l, _, lifetime_ok.2 hentry, hallocated, hproducer, hordered, hsize, hdivides,
      by show offset + l.sizeBytes ≤ _; omega⟩
  · intro id l hlifetime
    obtain ⟨-, -, value, hfound, hkind, -⟩ := h.extended.lifetime id l (lifetime_ok.1 hlifetime)
    exact ⟨value, hfound, hkind⟩
  · exact h.laid.size_le
  -- two values that meet do not overlap
  · intro id id' l l' a a' hne hlifetime hlifetime' hallocation hallocation' hmeets hmeets'
    obtain ⟨slot, offset, capacity, hmem, hat, hat', hfits, heq⟩ := h.allocation hlifetime
    obtain ⟨slot', offset', capacity', hmem', hat₁, hat₁', hfits', heq'⟩ := h.allocation hlifetime'
    rw [hallocation] at heq
    rw [hallocation'] at heq'
    cases heq
    cases heq'
    have hsame := (h.extended.lifetime id l (lifetime_ok.1 hlifetime)).1
    have hsame' := (h.extended.lifetime id' l' (lifetime_ok.1 hlifetime')).1
    show offset + l.sizeBytes ≤ offset' ∨ offset' + l'.sizeBytes ≤ offset
    -- Values that meet have different slots.
    have hapart : slot ≠ slot' := by
      intro hshares
      obtain ⟨slots, now, hshared, -⟩ := h.shared
      refine hshared.disjoint hmem hmem' (fun heq => hne ?_) ⟨hmeets, hmeets'⟩ hshares
      rw [← hsame, ← hsame', (Prod.mk.inj heq).1]
    rcases Nat.lt_or_gt_of_ne hapart with hlt | hlt
    · have := h.laid.apart slot slot' offset capacity offset' hat hat' hlt hat₁
      exact .inl (by omega)
    · have := h.laid.apart slot' slot offset' capacity' offset hat₁ hat₁' hlt hat
      exact .inr (by omega)
  -- a value read at a step is alive there
  · intro t node hfound input hmem l hlifetime
    have hentry := lifetime_ok.1 hlifetime
    refine ⟨?_, h.extended.reads t node hfound input hmem l hentry⟩
    obtain ⟨value, hat, hbefore⟩ := (hwf.node t node hfound).inputs input hmem
    obtain ⟨-, -, value', hat', -, hproducer, -⟩ := h.extended.lifetime input l hentry
    rw [hat] at hat'
    cases hat'
    exact (hbefore l.firstStep hproducer).le
  -- every step of the plan has its list of releases
  · intro t
    constructor
    · intro hlt
      have hsome : (plan.releases[t]?).isSome := by
        rw [h.releases, getElem?_releases]
        simp [hlt]
      exact (Option.isSome_iff_exists.1 hsome).imp fun _ hfound =>
        valuesReleasedAfterStep_ok.2 hfound
    · rintro ⟨values, hreleased⟩
      exact (h.mem_released hreleased 0).1
  -- a value is released at its last step, once, unless it is an output
  · intro id l hlifetime
    have hlast := h.extended.last id l (lifetime_ok.1 hlifetime)
    refine ⟨fun hother => by rwa [if_neg hother] at hlast, fun t values hreleased => ?_⟩
    obtain ⟨hlt, hnodup, hmem⟩ := h.mem_released hreleased id
    rw [hnodup.count]
    refine if_congr ?_ rfl rfl
    rw [hmem]
    constructor
    · rintro ⟨l', hlifetime', rfl⟩
      rw [hlifetime] at hlifetime'
      cases hlifetime'
      refine ⟨fun houtput => ?_, rfl⟩
      rw [if_pos houtput] at hlast
      exact absurd hlast (Nat.ne_of_lt hlt)
    · rintro ⟨-, rfl⟩
      exact ⟨l, hlifetime, rfl⟩
  · intro t values hreleased id hmem
    obtain ⟨l, hlifetime, -⟩ := (h.mem_released hreleased id).2.2.1 hmem
    exact ⟨l, hlifetime⟩

/-- A plan that was returned was built. -/
theorem built_of_ofGraph {g : Graph α} (hwf : g.WellFormed)
    (hmade : ofGraph platform g = .ok plan) :
    ∃ placed offsets, Built platform g plan placed offsets := by
  have hvalid : g.validate = .ok () := (check_ok.1 hmade).1
  rcases ofGraph_built platform hwf hvalid with ⟨message, hfailed⟩ |
    ⟨plan', placed, offsets, hdone, hbuilt⟩
  · rw [hfailed] at hmade
    cases hmade
  · rw [hdone] at hmade
    cases hmade
    exact ⟨placed, offsets, hbuilt⟩

/-- For a valid graph the constructor returns a sound plan or reports an overflow. -/
theorem ofGraph_sound (platform : Fin 64) (g : BuiltGraph α) (hvalid : g.tables.validate = .ok ()) :
    (∃ plan, ofGraph platform g.tables = .ok plan ∧ Sound platform g.tables plan) ∨
    ∃ message, ofGraph platform g.tables = .error (.overflowError message) := by
  rcases ofGraph_built platform g.wf hvalid with ⟨message, hfailed⟩ |
    ⟨plan, placed, offsets, hdone, hbuilt⟩
  · exact .inr ⟨message, hfailed⟩
  · exact .inl ⟨plan, hdone, hbuilt.sound g.wf⟩

/-! ## A graph whose plan uses a range twice -/

/-- `Relu` three times -/
def reluChain (α : Type) : BuiltGraph α :=
  let input := BuiltGraph.addInput "x" ⟨[2, 3], .float32⟩ {}
  let first := BuiltGraph.addNode "first" .reLU [0] [] input.2
  let second := BuiltGraph.addNode "second" .reLU [1] [] first.2
  let third := BuiltGraph.addNode "third" .reLU [2] [] second.2
  (BuiltGraph.markOutput 3 third.2).2

theorem reluChain_valid : (reluChain Int).tables.validate = .ok () :=
  (Graph.validate_ok (reluChain Int).wf).2 (by decide)

theorem reluChain_order : (reluChain Int).tables.topologicalOrder = .ok (List.range 3) :=
  (Graph.topologicalOrder_ok (reluChain Int).wf).2 ⟨by decide, rfl⟩

/-- The third value has the range of the first. -/
def reluChainPlan : MemoryPlan where
  nodeCount := 3
  bufferSizeBytes := 56
  naiveIntermediateBytes := 72
  lifetimes := [none, some ⟨1, 0, 1, 24⟩, some ⟨2, 1, 2, 24⟩, some ⟨3, 2, 3, 24⟩]
  allocations := [none, some ⟨0, 0, 24⟩, some ⟨1, 32, 24⟩, some ⟨0, 0, 24⟩]
  slotCapacities := [24, 24]
  releases := [[], [1], [2]]

/-- The plan of the chain, in which the first slot gets a second value. -/
theorem reluChain_plan : ofGraph 4 (reluChain Int).tables = .ok reluChainPlan := by
  have hsorted : intervals reluChainPlan.lifetimes =
    [⟨1, 0, 1, 24⟩, ⟨2, 1, 2, 24⟩, ⟨3, 2, 3, 24⟩] :=
    List.mergeSort_of_pairwise (by decide)
  unfold ofGraph
  rw [reluChain_valid, reluChain_order]
  have hcollected : collectLifetimes (nodeSteps (List.range 3))
      (reluChain Int).tables.values 0 =
      .ok ([none, some ⟨1, 0, 0, 24⟩, some ⟨2, 1, 1, 24⟩, some ⟨3, 2, 2, 24⟩], 72) := by rfl
  have hextended : extendLifetimes (reluChain Int).tables (List.range 3)
      [none, some ⟨1, 0, 0, 24⟩, some ⟨2, 1, 1, 24⟩, some ⟨3, 2, 2, 24⟩] =
      reluChainPlan.lifetimes := by rfl
  simp only [bind, Except.bind, hcollected, hextended, hsorted]
  rfl

/-- A chain of three nodes, whose last output reuses the first slot. -/
theorem ofGraph_sound_reluChain : Sound 4 (reluChain Int).tables reluChainPlan := by
  rcases ofGraph_sound 4 (reluChain Int) reluChain_valid with
    ⟨plan, hplan, hsound⟩ | ⟨message, hthrown⟩
  · rw [reluChain_plan] at hplan
    cases hplan
    exact hsound
  · rw [reluChain_plan] at hthrown
    cases hthrown

end TinyInfer.MemoryPlan
