import TinyInfer.MiniPrefix.EngineTurn
import Mathlib.Data.List.Nodup
import Mathlib.Algebra.BigOperators.Group.List.Basic
import Mathlib.Algebra.GroupWithZero.Nat

/-!
# The invariant of the engine

`QueueInv` is the account of the accepted requests: each one is in the queue of
the engine with the events told so far, or is gone and ended. `Books` adds what
holds at every point of a call, `Mid` what holds while the plan runs, `Settled`
what holds between calls. `worldOf` is the world the active requests describe,
and `load` the work that is left.
-/

namespace TinyInfer.MiniPrefix

open Lib Engine

/-- The events of one request, in order. -/
def eventsOf (id : RequestId) (events : List GenerationEvent) : List GenerationEvent :=
  events.filter fun event => event.requestId = id

theorem eventsOf_append {id : RequestId} {events new : List GenerationEvent} :
    eventsOf id (events ++ new) = eventsOf id events ++ eventsOf id new := List.filter_append ..

theorem eventsOf_own {id : RequestId} {new : List GenerationEvent}
    (h : ∀ event ∈ new, event.requestId = id) : eventsOf id new = new :=
  List.filter_eq_self.mpr fun event he => decide_eq_true (h event he)

/-- Events of one request are none of another's. -/
theorem eventsOf_other {id other : RequestId} {new : List GenerationEvent}
    (h : ∀ event ∈ new, event.requestId = id) (hne : other ≠ id) : eventsOf other new = [] :=
  List.filter_eq_nil_iff.mpr fun event he => by
    rw [decide_eq_true_eq, h event he]
    exact hne.symm

namespace RunnerSpec

variable {σ L : Type} [Logit L] {model : ModelRunner σ L} {context : Int}
  {spec : RunnerSpec model context}

/-- What the caller was told about the request of a state in the queue. -/
def Told (spec : RunnerSpec model context) (state : State) (events : List GenerationEvent) : Prop :=
  if state.finished then spec.Ended state.request events
  else ∃ out, spec.Open state.request out ∧ events = out.map (tokenEvent state.request)

/-- A running request has been told its tokens and no end. -/
theorem Running.toldOpen {state : State} {events : List GenerationEvent}
    (h : spec.Running state events) : spec.Told state events := by
  rw [Told, if_neg (by rw [h.unfinished]; exact Bool.false_ne_true)]
  exact ⟨state.output, h.sofar, h.told⟩

/-- A finished request has been told its end. -/
theorem told_of_finished {state : State} {events : List GenerationEvent}
    (hfinished : state.finished = true) (h : spec.Ended state.request events) :
    spec.Told state events := by
  rw [Told, if_pos hfinished]
  exact h

/-- What a finished request was told is its whole output and its end. -/
theorem Told.ended {state : State} {events : List GenerationEvent} (h : spec.Told state events)
    (hfinished : state.finished = true) : spec.Ended state.request events := by
  rw [Told, if_pos hfinished] at h
  exact h

/-- What an unfinished request was told are its tokens so far. -/
theorem Told.open {state : State} {events : List GenerationEvent} (h : spec.Told state events)
    (hfinished : state.finished = false) :
    ∃ out, spec.Open state.request out ∧ events = out.map (tokenEvent state.request) := by
  rw [Told, if_neg (by rw [hfinished]; exact Bool.false_ne_true)] at h
  exact h

/-! ## The account of the accepted requests -/

structure QueueInv (spec : RunnerSpec model context) (accepted : List Request)
    (emitted : List GenerationEvent) (queue : List State) : Prop where
  distinct : (accepted.map Request.id).Nodup
  ids : (queue.map fun state => state.request.id).Nodup
  mem : ∀ state ∈ queue, state.request ∈ accepted
  told : ∀ state ∈ queue, spec.Told state (eventsOf state.request.id emitted)
  gone : ∀ r ∈ accepted, (∀ state ∈ queue, state.request.id ≠ r.id) →
    spec.Ended r (eventsOf r.id emitted)
  known : ∀ event ∈ emitted, ∃ r ∈ accepted, r.id = event.requestId

variable {accepted : List Request} {emitted new : List GenerationEvent}
  {queue before after : List State} {state state' : State}

/-- The order of the queue does not matter. -/
theorem QueueInv.perm {queue' : List State} (h : spec.QueueInv accepted emitted queue)
    (hperm : queue.Perm queue') : spec.QueueInv accepted emitted queue' where
  distinct := h.distinct
  ids := (hperm.map _).nodup_iff.mp h.ids
  mem s hs := h.mem s (hperm.mem_iff.mpr hs)
  told s hs := h.told s (hperm.mem_iff.mpr hs)
  gone r hr hq := h.gone r hr fun s hs => hq s (hperm.mem_iff.mp hs)
  known := h.known

/-- Two states of the queue are of different requests. -/
theorem QueueInv.ne_of_mem (h : spec.QueueInv accepted emitted (before ++ state :: after))
    {s : State} (hs : s ∈ before ++ after) : s.request.id ≠ state.request.id := by
  have hnodup := (List.perm_middle.map _).nodup_iff.mp h.ids
  rw [List.map_cons, List.nodup_cons] at hnodup
  exact fun heq => hnodup.1 (heq ▸ List.mem_map_of_mem hs)

/-- One state of the queue moves on and its request is told `new`. -/
theorem QueueInv.update (h : spec.QueueInv accepted emitted (before ++ state :: after))
    (hrequest : state'.request = state.request)
    (hnew : ∀ event ∈ new, event.requestId = state.request.id)
    (htold : spec.Told state' (eventsOf state.request.id emitted ++ new)) :
    spec.QueueInv accepted (emitted ++ new) (before ++ state' :: after) := by
  have hother : ∀ id, id ≠ state.request.id →
    eventsOf id (emitted ++ new) = eventsOf id emitted := by
    intro id hne
    rw [eventsOf_append, eventsOf_other hnew hne, List.append_nil]
  have hids : (before ++ state' :: after).map (fun s => s.request.id) =
      (before ++ state :: after).map fun s => s.request.id := by
    simp only [List.map_append, List.map_cons, hrequest]
  have hhold : state ∈ before ++ state :: after := List.mem_append_right _ List.mem_cons_self
  refine ⟨h.distinct, hids ▸ h.ids, fun s hs => ?_, fun s hs => ?_, fun r hr hq => ?_,
    fun event he => ?_⟩
  · rcases List.mem_cons.mp (List.perm_middle.mem_iff.mp hs) with rfl | hs
    · exact hrequest ▸ h.mem _ hhold
    · exact h.mem s (List.perm_middle.mem_iff.mpr (List.mem_cons_of_mem _ hs))
  · rcases List.mem_cons.mp (List.perm_middle.mem_iff.mp hs) with rfl | hs
    · rw [hrequest, eventsOf_append, eventsOf_own hnew]
      exact htold
    · rw [hother _ (h.ne_of_mem hs)]
      exact h.told s (List.perm_middle.mem_iff.mpr (List.mem_cons_of_mem _ hs))
  · have hne := hq state' (List.mem_append_right _ List.mem_cons_self)
    rw [hrequest] at hne
    rw [hother _ hne.symm]
    refine h.gone r hr fun s hs => ?_
    rcases List.mem_cons.mp (List.perm_middle.mem_iff.mp hs) with rfl | hs
    · exact hne
    · exact hq s (List.perm_middle.mem_iff.mpr (List.mem_cons_of_mem _ hs))
  · rcases List.mem_append.mp he with he | he
    · exact h.known event he
    · exact ⟨_, h.mem _ hhold, (hnew event he).symm⟩

/-- States that leave the queue finished leave their requests ended. -/
theorem QueueInv.sublist {queue' : List State} (h : spec.QueueInv accepted emitted queue)
    (hsub : queue'.Sublist queue)
    (hfinished : ∀ s ∈ queue, s ∈ queue' ∨ s.finished = true) :
    spec.QueueInv accepted emitted queue' where
  distinct := h.distinct
  ids := h.ids.sublist (hsub.map _)
  mem s hs := h.mem s (hsub.mem hs)
  told s hs := h.told s (hsub.mem hs)
  gone r hr hq := by
    by_cases hin : ∃ s ∈ queue, s.request.id = r.id
    · obtain ⟨s, hs, hid⟩ := hin
      rcases hfinished s hs with hs' | hs'
      · exact absurd hid (hq s hs')
      · obtain rfl : s.request = r := List.inj_on_of_nodup_map h.distinct (h.mem s hs) hr hid
        exact (h.told s hs).ended hs'
    · exact h.gone r hr fun s hs hid => hin ⟨s, hs, hid⟩
  known := h.known

/-- A request submitted under a new id. -/
theorem QueueInv.submit (h : spec.QueueInv accepted emitted queue) {r : Request}
    (hnew : ∀ r' ∈ accepted, r'.id ≠ r.id) (hpositive : 0 < r.generation.maxNewTokens) :
    spec.QueueInv (accepted ++ [r]) emitted (queue ++ [{ request := r }]) ∧
      eventsOf r.id emitted = [] := by
  have hevents : eventsOf r.id emitted = [] := by
    refine List.filter_eq_nil_iff.mpr fun event he => ?_
    obtain ⟨r', hr', hid⟩ := h.known event he
    rw [decide_eq_true_eq, ← hid]
    exact hnew r' hr'
  refine ⟨⟨?_, ?_, fun s hs => ?_, fun s hs => ?_, fun r' hr' hq => ?_, fun event he => ?_⟩,
    hevents⟩
  · rw [List.map_append, List.nodup_append]
    refine ⟨h.distinct, List.nodup_singleton _, ?_⟩
    rintro id hid _ hid' rfl
    obtain ⟨r', hr', rfl⟩ := List.mem_map.mp hid
    exact hnew r' hr' (by simpa using hid')
  · rw [List.map_append, List.nodup_append]
    refine ⟨h.ids, List.nodup_singleton _, ?_⟩
    rintro id hid _ hid' rfl
    obtain ⟨s, hs, rfl⟩ := List.mem_map.mp hid
    exact hnew s.request (h.mem s hs) (by simpa using hid')
  · rcases List.mem_append.mp hs with hs | hs
    · exact List.mem_append_left _ (h.mem s hs)
    · rw [List.mem_singleton.mp hs]
      exact List.mem_append_right _ (List.mem_singleton_self r)
  · rcases List.mem_append.mp hs with hs | hs
    · exact h.told s hs
    · rw [List.mem_singleton.mp hs]
      show spec.Told _ (eventsOf r.id emitted)
      rw [hevents, Told, if_neg Bool.false_ne_true]
      exact ⟨[], ⟨fun i token hi => by simp at hi, hpositive, fun _ ht =>
        (List.not_mem_nil ht).elim⟩, rfl⟩
  · rcases List.mem_append.mp hr' with hr' | hr'
    · exact h.gone r' hr' fun s hs => hq s (List.mem_append_left _ hs)
    · rw [List.mem_singleton.mp hr'] at hq
      exact absurd rfl (hq { request := r } (List.mem_append_right _ (List.mem_singleton_self _)))
  · obtain ⟨r', hr', hid⟩ := h.known event he
    exact ⟨r', List.mem_append_left _ hr', hid⟩

end RunnerSpec

/-! ## The world of the active requests -/

/-- What the active states say the runner holds. -/
def worldOf (active : List State) : World := fun id =>
  (active.find? fun state => state.request.id = id).bind State.slot

section World

variable {active before after : List State} {state state' : State}

theorem worldOf_eq_none {id : RequestId} (h : ∀ s ∈ active, s.request.id ≠ id) :
    worldOf active id = none := by
  rw [worldOf, List.find?_eq_none.mpr fun s hs => by simpa using h s hs]
  rfl

/-- An active request has its own sequence. -/
theorem worldOf_middle (hbefore : ∀ s ∈ before, s.request.id ≠ state.request.id) :
    worldOf (before ++ state :: after) state.request.id = state.slot := by
  rw [worldOf, List.find?_append,
    List.find?_eq_none.mpr fun s hs => by simpa using hbefore s hs, Option.none_or,
    List.find?_cons_of_pos (by simp)]
  rfl

/-- One active state moves on. -/
theorem worldOf_update (hbefore : ∀ s ∈ before, s.request.id ≠ state.request.id)
    (hrequest : state'.request = state.request) :
    worldOf (before ++ state' :: after) =
      Function.update (worldOf (before ++ state :: after)) state.request.id state'.slot := by
  funext id
  by_cases hid : id = state.request.id
  · subst hid
    rw [Function.update_self, ← hrequest]
    exact worldOf_middle fun s hs => hrequest ▸ hbefore s hs
  · rw [Function.update_of_ne hid]
    simp only [worldOf, List.find?_append, List.find?_cons, hrequest,
      decide_eq_false (Ne.symm hid)]

/-- A request is admitted. -/
theorem worldOf_snoc (hnew : ∀ s ∈ active, s.request.id ≠ state.request.id) :
    worldOf (active ++ [state]) =
      Function.update (worldOf active) state.request.id state.slot := by
  funext id
  by_cases hid : id = state.request.id
  · subst hid
    rw [Function.update_self]
    exact worldOf_middle hnew
  · rw [Function.update_of_ne hid]
    simp only [worldOf, List.find?_append, List.find?_cons, decide_eq_false (Ne.symm hid),
      List.find?_nil, Option.or_none]

/-- Finished states are in no world. -/
theorem worldOf_filter : ∀ {active : List State},
    (active.map fun s => s.request.id).Nodup →
      worldOf (active.filter fun state => !state.finished) = worldOf active
  | [], _ => rfl
  | state :: active, hids => by
    rw [List.map_cons, List.nodup_cons] at hids
    have ih := congrFun (worldOf_filter hids.2)
    funext id
    cases hfinished : state.finished with
    | false =>
      rw [List.filter_cons_of_pos (by simp [hfinished])]
      simp only [worldOf, List.find?_cons] at ih ⊢
      by_cases hid : state.request.id = id
      · simp only [hid, decide_true]
      · simp only [decide_eq_false hid]
        exact ih id
    | true =>
      rw [List.filter_cons_of_neg (by simp [hfinished]), ih id]
      by_cases hid : state.request.id = id
      · have hnone : ∀ s ∈ active, s.request.id ≠ id := by
          rintro s hs rfl
          exact hids.1 (hid ▸ List.mem_map_of_mem hs)
        rw [worldOf_eq_none hnone, ← hid]
        have hslot : state.slot = none := by rw [State.slot, if_pos hfinished]
        rw [← hslot]
        have hmiddle : worldOf ([] ++ state :: active) state.request.id = state.slot :=
          worldOf_middle fun _ h => (List.not_mem_nil h).elim
        exact hmiddle.symm
      · simp only [worldOf, List.find?_cons, decide_eq_false hid]

end World

/-! ## The work that is left -/

/-- What a state adds to the load. -/
def Engine.State.pending (state : State) : Nat := if state.finished then 0 else state.work

def load (states : List State) : Nat := (states.map State.pending).sum

@[simp] theorem load_nil : load [] = 0 := rfl

@[simp] theorem load_cons {state : State} {states : List State} :
    load (state :: states) = state.pending + load states := List.sum_cons ..

@[simp] theorem load_append {a b : List State} : load (a ++ b) = load a + load b := by
  rw [load, List.map_append, List.sum_append]
  rfl

/-- No request has more pending work than all together. -/
theorem pending_le_load {state : State} : ∀ {states : List State}, state ∈ states →
    state.pending ≤ load states
  | s :: states, h => by
    rw [load_cons]
    rcases List.mem_cons.mp h with rfl | h
    · exact Nat.le_add_right _ _
    · exact (pending_le_load h).trans (Nat.le_add_left _ _)

/-- Finished requests have no pending work. -/
theorem load_filter {states : List State} :
    load (states.filter fun state => !state.finished) = load states := by
  induction states with
  | nil => rfl
  | cons state states ih =>
    cases hfinished : state.finished with
    | false => rw [List.filter_cons_of_pos (by simp [hfinished]), load_cons, load_cons, ih]
    | true =>
      rw [List.filter_cons_of_neg (by simp [hfinished]), load_cons, ih, State.pending,
        if_pos hfinished, Nat.zero_add]

theorem Engine.State.pending_of_unfinished {state : State} (h : state.finished = false) :
    state.pending = state.work := by
  rw [State.pending, if_neg (by rw [h]; exact Bool.false_ne_true)]

end TinyInfer.MiniPrefix
