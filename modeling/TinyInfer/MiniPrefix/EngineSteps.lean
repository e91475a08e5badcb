import TinyInfer.MiniPrefix.EngineInvariant

/-!
# A step keeps the engine's invariant

`EngineInv` is what holds of an engine between calls, over any `RunnerSpec`.
The lemmas follow `step` in `engine.cpp`: one turn, the loop of turns, admission,
the outer handler.
-/

namespace TinyInfer.MiniPrefix

open Lib Engine Throwing

namespace RunnerSpec

variable {σ L : Type} [Logit L] {model : ModelRunner σ L} {context : Int}

/-- What holds at every point of every call. -/
structure Books (spec : RunnerSpec model context) (accepted : List Request)
    (polled : List GenerationEvent) (engine : Engine σ) : Prop where
  queue : spec.QueueInv accepted (polled ++ engine.events) (engine.waiting ++ engine.active)
  fresh : ∀ s ∈ engine.waiting, s = { request := s.request } ∧ spec.Valid s.request ∧
    eventsOf s.request.id (polled ++ engine.events) = []
  seen : ∀ id, id ∈ engine.seen ↔ ∃ r ∈ accepted, r.id = id
  context : engine.config.context = context

/-- What holds between the turns of a step. -/
structure Mid (spec : RunnerSpec model context) (accepted : List Request)
    (polled : List GenerationEvent) (engine : Engine σ) : Prop
    extends spec.Books accepted polled engine where
  active : ∀ s ∈ engine.active, s.finished = true ∨
    spec.Running s (eventsOf s.request.id (polled ++ engine.events))
  holds : spec.holds (worldOf engine.active) engine.runner

/-- What holds before and after the turns of a step. -/
structure Settled (spec : RunnerSpec model context) (accepted : List Request)
    (polled : List GenerationEvent) (engine : Engine σ) : Prop
    extends spec.Mid accepted polled engine where
  unfinished : ∀ s ∈ engine.active, s.finished = false

structure EngineInv (spec : RunnerSpec model context) (accepted : List Request)
    (polled : List GenerationEvent) (engine : Engine σ) : Prop
    extends spec.Settled accepted polled engine where
  failed : engine.failed = true → engine.waiting = [] ∧ engine.active = []

/-- A call threw inside a step. -/
structure Broken (spec : RunnerSpec model context) (accepted : List Request)
    (polled : List GenerationEvent) (e : Exn) (engine : Engine σ) : Prop
    extends spec.Books accepted polled engine where
  thrown : ∃ id w, spec.thrown id w e engine.runner

variable {spec : RunnerSpec model context} {accepted : List Request}
  {polled new : List GenerationEvent} {engine engine' : Engine σ} {before after : List State}
  {state state' : State}

/-! ## One state moves on -/

theorem Books.update (h : spec.Books accepted polled engine)
    (hactive : engine.active = before ++ state :: after)
    (hactive' : engine'.active = before ++ state' :: after)
    (hevents : engine'.events = engine.events ++ new) (hwaiting : engine'.waiting = engine.waiting)
    (hseen : engine'.seen = engine.seen) (hconfig : engine'.config = engine.config)
    (hrequest : state'.request = state.request)
    (hnew : ∀ event ∈ new, event.requestId = state.request.id)
    (htold : spec.Told state' (eventsOf state.request.id (polled ++ engine.events) ++ new)) :
    spec.Books accepted polled engine' := by
  have hqueue := h.queue
  rw [hactive, ← List.append_assoc] at hqueue
  refine ⟨?_, fun s hs => ?_, hseen ▸ h.seen, hconfig ▸ h.context⟩
  · rw [hactive', hevents, hwaiting, ← List.append_assoc, ← List.append_assoc]
    exact hqueue.update hrequest hnew htold
  · rw [hwaiting] at hs
    have hne := hqueue.ne_of_mem (List.mem_append_left _ (List.mem_append_left _ hs))
    obtain ⟨hfresh, hvalid, hevs⟩ := h.fresh s hs
    rw [hevents, ← List.append_assoc, eventsOf_append, eventsOf_other hnew hne, List.append_nil]
    exact ⟨hfresh, hvalid, hevs⟩

/-- The requests of other states are not the one of `state`. -/
theorem Books.other (h : spec.Books accepted polled engine)
    (hactive : engine.active = before ++ state :: after) {s : State} (hs : s ∈ before ++ after) :
    s.request.id ≠ state.request.id := by
  have hqueue := h.queue
  rw [hactive, ← List.append_assoc] at hqueue
  refine hqueue.ne_of_mem ?_
  rcases List.mem_append.mp hs with hs | hs
  · exact List.mem_append_left _ (List.mem_append_right _ hs)
  · exact List.mem_append_right _ hs

theorem Mid.update (h : spec.Mid accepted polled engine)
    (hactive : engine.active = before ++ state :: after)
    (hactive' : engine'.active = before ++ state' :: after)
    (hevents : engine'.events = engine.events ++ new) (hwaiting : engine'.waiting = engine.waiting)
    (hseen : engine'.seen = engine.seen) (hconfig : engine'.config = engine.config)
    (hrequest : state'.request = state.request)
    (hnew : ∀ event ∈ new, event.requestId = state.request.id)
    (hstate : (state'.finished = true ∧ spec.Ended state.request
        (eventsOf state.request.id (polled ++ engine.events) ++ new)) ∨
      spec.Running state' (eventsOf state.request.id (polled ++ engine.events) ++ new))
    (hholds : spec.holds (Function.update (worldOf engine.active) state.request.id state'.slot)
      engine'.runner) :
    spec.Mid accepted polled engine' := by
  have htold : spec.Told state' (eventsOf state.request.id (polled ++ engine.events) ++ new) := by
    rcases hstate with ⟨hfinished, hended⟩ | hrun
    · exact told_of_finished hfinished (hrequest.symm ▸ hended)
    · exact hrun.toldOpen
  refine ⟨h.toBooks.update hactive hactive' hevents hwaiting hseen hconfig hrequest hnew htold,
    fun s hs => ?_, ?_⟩
  · rw [hactive'] at hs
    rw [hevents, ← List.append_assoc, eventsOf_append]
    rcases List.mem_cons.mp (List.perm_middle.mem_iff.mp hs) with rfl | hs
    · rw [hrequest, eventsOf_own hnew]
      exact hstate.imp_left And.left
    · rw [eventsOf_other hnew (h.toBooks.other hactive hs), List.append_nil]
      refine h.active s ?_
      rw [hactive]
      exact List.perm_middle.mem_iff.mpr (List.mem_cons_of_mem _ hs)
  · rw [hactive', worldOf_update (fun s hs =>
      h.toBooks.other hactive (List.mem_append_left _ hs)) hrequest, ← hactive]
    exact hholds

/-- The world has the slot of each active state. -/
theorem Books.worldOf_slot (h : spec.Books accepted polled engine)
    (hactive : engine.active = before ++ state :: after) :
    worldOf engine.active state.request.id = state.slot := by
  rw [hactive]
  exact worldOf_middle fun s hs => h.other hactive (List.mem_append_left _ hs)

/-- Nothing is held for a waiting request. -/
theorem Books.worldOf_waiting (h : spec.Books accepted polled engine)
    (hs : state ∈ engine.waiting) :
    worldOf engine.active state.request.id = none := by
  refine worldOf_eq_none fun s hs' heq => ?_
  have hids := h.queue.ids
  rw [List.map_append, List.nodup_append] at hids
  exact hids.2.2 _ (List.mem_map_of_mem hs) _ (List.mem_map_of_mem hs') heq.symm

/-- Finished states leave the containers. -/
theorem Mid.removeFinished (h : spec.Mid accepted polled engine) (includeWaiting : Bool) :
    spec.Settled accepted polled (engine.removeFinished includeWaiting) := by
  have hwaiting : (engine.removeFinished includeWaiting).waiting = engine.waiting := by
    rw [Engine.removeFinished]
    cases includeWaiting with
    | false => rfl
    | true =>
      refine List.filter_eq_self.mpr fun s hs => ?_
      rw [(h.fresh s hs).1]
      rfl
  have hids : (engine.active.map fun s => s.request.id).Nodup := by
    have hids := h.queue.ids
    rw [List.map_append, List.nodup_append] at hids
    exact hids.2.1
  refine ⟨⟨⟨?_, hwaiting ▸ h.fresh, h.seen, h.context⟩, fun s hs => ?_, ?_⟩, fun s hs => ?_⟩
  · rw [hwaiting]
    refine h.queue.sublist (List.Sublist.append_left List.filter_sublist _) fun s hs => ?_
    rcases List.mem_append.mp hs with hs | hs
    · exact Or.inl (List.mem_append_left _ hs)
    · cases hfinished : s.finished with
      | true => exact Or.inr rfl
      | false =>
        exact Or.inl (List.mem_append_right _ (List.mem_filter.mpr ⟨hs, by simp [hfinished]⟩))
  · exact h.active s (List.mem_filter.mp hs).1
  · show spec.holds (worldOf (engine.active.filter _)) engine.runner
    rw [worldOf_filter hids]
    exact h.holds
  · have := (List.mem_filter.mp hs).2
    simpa using this

/-! ## The loop over the plan -/

/-- An index splits a list, and `set` there keeps both sides. -/
theorem exists_middle {α : Type} {l : List α} {i : Nat} {a : α} (h : l[i]? = some a) :
    ∃ before after, l = before ++ a :: after ∧ ∀ b, l.set i b = before ++ b :: after := by
  obtain ⟨hi, rfl⟩ := List.getElem?_eq_some_iff.mp h
  refine ⟨l.take i, l.drop (i + 1), ?_, fun b => ?_⟩
  · rw [List.getElem_cons_drop, List.take_append_drop]
  · rw [List.set_eq_take_append_cons_drop, if_pos hi]

/-- What the loop knows of the work it has not come to. -/
def Scheduled (order : List ScheduledRequest) (active : List State) : Prop :=
  ∀ work ∈ order, ∃ s, active[work.activeIndex]? = some s ∧ s.finished = false ∧
    s.phase = work.phase

/-- What one turn leaves of the iteration. -/
structure Advanced (spec : RunnerSpec model context) (accepted : List Request)
    (polled : List GenerationEvent) (it it' : Iteration σ) : Prop where
  mid : spec.Mid accepted polled it'.engine
  plan : it'.plan.Proper
  failed : it'.engine.failed = it.engine.failed
  waiting : it'.engine.waiting = it.engine.waiting

/-- An iteration that a call threw out of. -/
structure Thrown (spec : RunnerSpec model context) (accepted : List Request)
    (polled : List GenerationEvent) (failed : Bool) (e : Exn) (it : Iteration σ) : Prop where
  broken : spec.Broken accepted polled e it.engine
  calls : ∀ call ∈ it.plan.calls, call.Proper
  failed : it.engine.failed = failed

theorem turn_wp {it : Iteration σ} {work : ScheduledRequest} {state : State}
    (hmid : spec.Mid accepted polled it.engine) (hplan : it.plan.Proper)
    (hbudget : it.plan.remaining ≠ 0) (hget : it.engine.active[work.activeIndex]? = some state)
    (hunfinished : state.finished = false) (hphase : state.phase = work.phase) :
    (Iteration.turn model work).wp
      (fun _ it' => spec.Advanced accepted polled it it' ∧
        load it'.engine.active < load it.engine.active ∧
        ∃ state', it'.engine.active = it.engine.active.set work.activeIndex state')
      (spec.Thrown accepted polled it.engine.failed) it := by
  obtain ⟨before, after, hactive, hset⟩ := exists_middle hget
  have hmem : state ∈ it.engine.active := List.mem_of_getElem? hget
  have hrun := (hmid.active state hmem).resolve_left (by rw [hunfinished]; exact Bool.false_ne_true)
  have hslot := hmid.toBooks.worldOf_slot hactive
  let start : Turn σ := ⟨⟨it.engine.runner, it.engine.events, state⟩, it.plan, it.engine.stepStats⟩
  have hturn : (takeTurn model start.desk.state.phase).wp _ _ start :=
    takeTurn_wp hrun hplan hbudget hslot hmid.holds
  rw [wp, Iteration.turn, hget]
  simp only
  rw [← wp, wp_on, ← hphase]
  refine hturn.mono (fun _ turn' h => ?_) fun e turn' h => ?_
  · obtain ⟨hrequest, hplan', ⟨new, hevents, hnew, hend⟩, hholds⟩ := h
    refine ⟨⟨hmid.update hactive (hset _) hevents rfl rfl rfl hrequest hnew
      (hend.imp_right And.left) hholds, hplan', rfl, rfl⟩, ?_, _, rfl⟩
    rw [hset, hactive, load_append, load_append, load_cons, load_cons]
    have hpending : turn'.desk.state.pending < state.pending := by
      rw [State.pending_of_unfinished hunfinished]
      rcases hend with ⟨hfinished, -⟩ | ⟨hrun', hwork⟩
      · rw [State.pending, if_pos hfinished]
        exact Nat.succ_pos _
      · rw [State.pending_of_unfinished hrun'.unfinished]
        exact hwork
    omega
  · -- the events are as before the turn, whatever the state has become
    have htold : spec.Told turn'.desk.state
        (eventsOf state.request.id (polled ++ it.engine.events) ++ []) := by
      rw [Told, if_neg (by rw [h.unfinished]; exact Bool.false_ne_true), List.append_nil, h.request]
      exact ⟨state.output, hrun.sofar, hrun.told⟩
    exact ⟨⟨hmid.toBooks.update hactive (hset _) (h.events.trans (List.append_nil _).symm) rfl rfl
      rfl h.request (fun _ he => (List.not_mem_nil he).elim) htold, _, _, h.thrown⟩, h.plan.calls,
      rfl⟩

/-- The loop of turns: it does some work if it has any and the budget for it. -/
theorem turns_wp {order : List ScheduledRequest} {it : Iteration σ}
    (hmid : spec.Mid accepted polled it.engine) (hplan : it.plan.Proper)
    (hindices : (order.map ScheduledRequest.activeIndex).Nodup)
    (horder : Scheduled order it.engine.active) :
    (turns model order).wp
      (fun _ it' => spec.Advanced accepted polled it it' ∧
        load it'.engine.active ≤ load it.engine.active ∧
        (order ≠ [] → it.plan.remaining ≠ 0 → load it'.engine.active < load it.engine.active))
      (spec.Thrown accepted polled it.engine.failed) it := by
  induction order generalizing it with
  | nil =>
    rw [turns, wp_pure]
    exact ⟨⟨hmid, hplan, rfl, rfl⟩, le_refl _, fun h => absurd rfl h⟩
  | cons work order ih =>
    rw [turns, wp_bind, wp_get, wp_ite]
    refine ⟨fun hbudget => ?_, fun hbudget => ?_⟩
    · rw [wp_pure]
      refine ⟨⟨hmid, hplan, rfl, rfl⟩, le_refl _, fun _ hremaining => absurd hbudget ?_⟩
      simpa [SchedulePlan.hasBudget] using hremaining
    have hremaining : it.plan.remaining ≠ 0 := by simpa [SchedulePlan.hasBudget] using hbudget
    obtain ⟨state, hget, hunfinished, hphase⟩ := horder work List.mem_cons_self
    rw [List.map_cons, List.nodup_cons] at hindices
    rw [wp_bind]
    refine (turn_wp hmid hplan hremaining hget hunfinished hphase).mono ?_ fun _ _ h => h
    rintro _ it' ⟨hadvanced, hload, state', hset⟩
    -- the other work is untouched by this turn
    have horder' : Scheduled order it'.engine.active := by
      intro work' hwork'
      obtain ⟨s, hs, hrest⟩ := horder work' (List.mem_cons_of_mem _ hwork')
      refine ⟨s, ?_, hrest⟩
      have hne : work.activeIndex ≠ work'.activeIndex :=
        fun heq => hindices.1 (heq ▸ List.mem_map_of_mem hwork')
      rw [hset, List.getElem?_set_ne hne]
      exact hs
    refine (ih hadvanced.mid hadvanced.plan hindices.2 horder').mono ?_ fun e it'' h => ?_
    · rintro _ it'' ⟨hadvanced', hload', -⟩
      exact ⟨⟨hadvanced'.mid, hadvanced'.plan, hadvanced'.failed.trans hadvanced.failed,
        hadvanced'.waiting.trans hadvanced.waiting⟩, by omega, fun _ _ => by omega⟩
    · exact ⟨h.broken, h.calls, h.failed.trans hadvanced.failed⟩

/-! ## Admission -/

/-- What admission leaves: nothing is lost, and refusing is progress. -/
structure Admitted (spec : RunnerSpec model context) (accepted : List Request)
    (polled : List GenerationEvent) (slots : Nat) (engine engine' : Engine σ) : Prop where
  settled : spec.Settled accepted polled engine'
  failed : engine'.failed = engine.failed
  scheduler : engine'.scheduler = engine.scheduler
  active : engine.active ≠ [] → engine'.active ≠ []
  bounded : load (engine'.waiting ++ engine'.active) ≤ load (engine.waiting ++ engine.active)
  progress : engine'.active = [] → engine.waiting ≠ [] → slots ≠ 0 →
    load (engine'.waiting ++ engine'.active) < load (engine.waiting ++ engine.active)

/-- A waiting request that is refused or cancelled: it is told so and dropped. -/
theorem Settled.drop {waiting : List State} (h : spec.Settled accepted polled engine)
    (hwaiting : engine.waiting = before ++ state :: after)
    {event : GenerationEvent} (hid : event.requestId = state.request.id)
    (hended : spec.Ended state.request [event]) {runner : σ}
    (hholds : spec.holds (worldOf engine.active) runner)
    (hrest : waiting = before ++ after) :
    spec.Settled accepted polled
      { engine with runner, events := engine.events ++ [event], waiting } := by
  subst hrest
  have hqueue := h.queue
  rw [hwaiting, List.append_assoc, List.cons_append] at hqueue
  obtain ⟨hfresh, hvalid, hnone⟩ := h.fresh state (by rw [hwaiting]; simp)
  have hnew : ∀ e ∈ [event], e.requestId = state.request.id := fun e he => by
    rw [List.mem_singleton.mp he, hid]
  have htold : spec.Told state.over
      (eventsOf state.request.id (polled ++ engine.events) ++ [event]) := by
    rw [hnone]
    exact told_of_finished rfl hended
  have hupdated : spec.QueueInv accepted (polled ++ engine.events ++ [event])
      (before ++ state.over :: (after ++ engine.active)) := hqueue.update rfl hnew htold
  have hother : ∀ s ∈ before ++ (after ++ engine.active),
      eventsOf s.request.id (polled ++ engine.events ++ [event]) =
        eventsOf s.request.id (polled ++ engine.events) := by
    intro s hs
    rw [eventsOf_append, eventsOf_other hnew (hqueue.ne_of_mem hs), List.append_nil]
  refine ⟨⟨⟨?_, fun s hs => ?_, h.seen, h.context⟩, fun s hs => ?_, hholds⟩, h.unfinished⟩
  · show spec.QueueInv accepted (polled ++ (engine.events ++ [event])) _
    rw [← List.append_assoc]
    refine hupdated.sublist ?_ fun s hs => ?_
    · show (before ++ after ++ engine.active).Sublist _
      rw [List.append_assoc]
      exact List.Sublist.append_left (List.sublist_cons_self _ _) _
    · rcases List.mem_cons.mp (List.perm_middle.mem_iff.mp hs) with rfl | hs
      · exact Or.inr rfl
      · exact Or.inl (by rw [List.append_assoc]; exact hs)
  · have hmem : s ∈ engine.waiting := by
      rw [hwaiting]
      exact List.perm_middle.mem_iff.mpr (List.mem_cons_of_mem _ hs)
    have hs' : s ∈ before ++ (after ++ engine.active) := by
      rw [← List.append_assoc]
      exact List.mem_append_left _ hs
    show _ ∧ _ ∧ eventsOf _ (polled ++ (engine.events ++ [event])) = []
    rw [← List.append_assoc, hother s hs']
    exact h.fresh s hmem
  · have hs' : s ∈ before ++ (after ++ engine.active) := by
      rw [← List.append_assoc]
      exact List.mem_append_right _ hs
    show s.finished = true ∨ spec.Running s (eventsOf _ (polled ++ (engine.events ++ [event])))
    rw [← List.append_assoc, hother s hs']
    exact h.active s hs

/-- A waiting request is admitted. -/
theorem Settled.admitWaiting {waiting : List State} (h : spec.Settled accepted polled engine)
    (hwaiting : engine.waiting = state :: waiting) {runner : σ}
    (hholds : spec.holds ((worldOf engine.active).put state.request none) runner) :
    spec.Settled accepted polled
      { engine with runner, active := engine.active ++ [state], waiting } := by
  obtain ⟨hfresh, hvalid, hnone⟩ := h.fresh state (by rw [hwaiting]; exact List.mem_cons_self)
  have hqueue := h.queue
  rw [hwaiting] at hqueue
  have hunfinished : state.finished = false := by rw [hfresh]
  have hrun : spec.Running state (eventsOf state.request.id (polled ++ engine.events)) := by
    rw [hnone, hfresh]
    refine ⟨rfl, hvalid, fun _ => List.length_pos_iff.mpr hvalid.prompt, fun hne => absurd rfl hne,
      fun _ => rfl, ⟨fun i token hi => by simp at hi, hvalid.positive,
        fun _ ht => (List.not_mem_nil ht).elim⟩, rfl⟩
  refine ⟨⟨⟨hqueue.perm ?_, fun s hs => ?_, h.seen, h.context⟩, fun s hs => ?_, ?_⟩, fun s hs => ?_⟩
  · show (state :: waiting ++ engine.active).Perm (waiting ++ (engine.active ++ [state]))
    rw [← List.append_assoc]
    exact (List.perm_append_singleton state (waiting ++ engine.active)).symm
  · exact h.fresh s (by rw [hwaiting]; exact List.mem_cons_of_mem _ hs)
  · rcases List.mem_append.mp hs with hs | hs
    · exact h.active s hs
    · rw [List.mem_singleton.mp hs]
      exact Or.inr hrun
  · show spec.holds (worldOf (engine.active ++ [state])) runner
    have hslot : state.slot = some ⟨state.request, none⟩ := by
      rw [hfresh]
      rfl
    rw [worldOf_snoc, hslot]
    · exact hholds
    · refine fun s hs heq => ?_
      have hids := hqueue.ids
      rw [List.cons_append, List.map_cons, List.nodup_cons] at hids
      exact hids.1 (heq ▸ List.mem_map_of_mem (List.mem_append_right _ hs))
  · rcases List.mem_append.mp hs with hs | hs
    · exact h.unfinished s hs
    · rw [List.mem_singleton.mp hs]
      exact hunfinished

theorem Settled.withRunner (h : spec.Settled accepted polled engine) {runner : σ}
    (hholds : spec.holds (worldOf engine.active) runner) :
    spec.Settled accepted polled { engine with runner } :=
  ⟨⟨⟨h.queue, h.fresh, h.seen, h.context⟩, h.active, hholds⟩, h.unfinished⟩

/-- The runner gives up a reservation for a request it does not hold. -/
theorem holds_releaseReservation {w : World} {runner : σ} {id : RequestId}
    (hholds : spec.holds w runner) (hw : w id = none) :
    spec.holds w (model.releaseReservation id runner) := by
  have h := spec.releaseReservation hholds fun slot hslot => by rw [hw] at hslot; cases hslot
  rwa [World.drop_eq_self hw] at h

/-- `terminal` on a state without a sequence always returns. -/
theorem terminal_lazy_wp {reason : FinishReason} {message : String} {w : World} {runner : σ}
    {events : List GenerationEvent} (hholds : spec.holds w runner)
    (hw : w state.request.id = none) (hfinished : state.finished = false)
    (hlazy : state.resident = false) :
    (terminal model reason none message .releaseSequence).wp
      (fun _ desk => desk.state = state.over ∧
        desk.events = events ++ [⟨state.request.id, none, some reason, message⟩] ∧
        spec.holds w desk.runner)
      (fun _ _ => False) ⟨runner, events, state⟩ := by
  refine (terminal_wp (R := spec.holds w) (E := fun _ _ => False) hfinished
    (fun hresident => absurd (hlazy.symm.trans hresident) Bool.false_ne_true)
    fun _ => holds_releaseReservation hholds hw).mono (fun _ _ h => h) fun _ _ h => h.2.2

/-- Admission keeps the invariant, by induction on the waiting requests. -/
theorem admit_wp {waiting : List State} {slots : Nat} {progressed : Bool}
    (h : spec.Settled accepted polled engine) (hwaiting : engine.waiting = waiting) :
    (admitWaiting model waiting slots progressed).wp
      (fun _ engine' => spec.Admitted accepted polled slots engine engine')
      (fun e engine' => spec.Broken accepted polled e engine' ∧ engine'.failed = engine.failed)
      engine := by
  -- on the waiting requests, from the head of the queue
  induction waiting generalizing engine slots progressed with
  | nil =>
    rw [admitWaiting, wp_pure]
    exact ⟨h, rfl, rfl, id, le_refl _, fun _ hne => absurd hwaiting hne⟩
  | cons state waiting ih =>
    have hmem : state ∈ engine.waiting := by
      rw [hwaiting]
      exact List.mem_cons_self
    obtain ⟨hfresh, hvalid, -⟩ := h.fresh state hmem
    have hnone := h.toBooks.worldOf_waiting hmem
    have hunfinished : state.finished = false := by rw [hfresh]
    have hlazy : state.resident = false := by rw [hfresh]
    have hpending : 0 < state.pending := by
      rw [State.pending_of_unfinished hunfinished]
      exact Nat.succ_pos _
    rw [admitWaiting, wp_ite]
    refine ⟨fun hslots => ?_, fun hslots => ?_⟩
    -- no slot is left
    · rw [wp_pure]
      exact ⟨h, rfl, rfl, id, le_refl _, fun _ _ hne => absurd hslots hne⟩
    simp only [wp_bind, wp_call, wp_get]
    refine (spec.reserve h.holds hnone hvalid).mono (fun admission runner hreserve => ?_)
      fun e runner hthrown => ⟨⟨⟨h.queue, h.fresh, h.seen, h.context⟩, _, _, hthrown⟩, trivial⟩
    obtain ⟨hready, hrefused, himpossible, hwait⟩ := hreserve
    rw [wp_ite]
    refine ⟨fun hbusy => ?_, fun hbusy => ?_⟩
    · -- an active request will make room
      rw [wp_pure]
      exact ⟨h.withRunner (hrefused (by rw [hbusy.1]; exact fun heq => by cases heq)), rfl, rfl, id,
        le_refl _, fun hnil => absurd hnil hbusy.2⟩
    rw [wp_ite]
    refine ⟨fun hne => ?_, fun hne => ?_⟩
    -- impossible, or nothing active that could make room: the request ends here
    · have hwhy : spec.failure state.request
          (if admission = .impossible then noCapacity else noProgress) := by
        by_cases heq : admission = .impossible
        · rw [if_pos heq]
          exact himpossible heq
        · rw [if_neg heq]
          have hadmission : admission = .wait := by
            cases admission with
            | ready => exact absurd rfl hne
            | wait => rfl
            | impossible => exact absurd rfl heq
          refine hwait hadmission ?_
          by_contra hworld
          refine hbusy ⟨hadmission, fun hnil => hworld ?_⟩
          rw [show engine.active = [] from hnil]
          rfl
      rw [wp_bind, wp_on]
      refine (terminal_lazy_wp (hrefused hne) hnone hunfinished hlazy).mono ?_
        fun _ _ h => h.elim
      rintro _ ⟨runner', events', state'⟩ ⟨hstate, hevents, hholds⟩
      simp only at hstate hevents hholds
      subst hevents
      rw [wp_bind, wp_modify]
      have hopen : spec.Open state.request [] :=
        ⟨fun i token hi => by simp at hi, hvalid.positive, fun _ ht => (List.not_mem_nil ht).elim⟩
      have hsettled := h.drop (show engine.waiting = [] ++ state :: waiting from hwaiting) rfl
        (Ended.error hopen hwhy) hholds rfl
      refine (ih hsettled rfl).mono (fun _ engine' ha => ?_) fun _ _ hb => hb
      -- its work leaves the load
      have hload : load ((waiting : List State) ++ engine.active) <
          load (engine.waiting ++ engine.active) := by
        rw [hwaiting, List.cons_append, load_cons]
        omega
      exact ⟨ha.settled, ha.failed, ha.scheduler, ha.active, ha.bounded.trans hload.le,
        fun _ _ _ => lt_of_le_of_lt ha.bounded hload⟩
    -- the request becomes active, and the load is the same
    · have hready' : admission = .ready := by
        by_contra hcontra
        exact hne hcontra
      rw [wp_bind, wp_modify]
      refine (ih (h.admitWaiting hwaiting (hready hready')) rfl).mono (fun _ engine' ha => ?_)
        fun _ _ hb => hb
      have hload : load ((waiting : List State) ++ (engine.active ++ [state])) =
          load (engine.waiting ++ engine.active) := by
        rw [hwaiting]
        simp only [List.cons_append, load_append, load_cons, load_nil]
        omega
      exact ⟨ha.settled, ha.failed, ha.scheduler, fun _ => ha.active (by simp), hload ▸ ha.bounded,
        fun hnil => absurd hnil (ha.active (by simp))⟩

/-! ## One iteration -/

theorem scheduled_plan (h : ∀ s ∈ engine.active, s.finished = false) :
    Scheduled (SchedulePlan.plan engine.scheduler engine.phases).order engine.active := by
  intro work hwork
  have hget := SchedulePlan.mem_order.mp hwork
  rw [Engine.phases, List.getElem?_map, Option.map_eq_some_iff] at hget
  obtain ⟨s, hs, hphase⟩ := hget
  exact ⟨s, hs, h s (List.mem_of_getElem? hs), hphase⟩

/-- An iteration settles again, with less to do unless there was nothing. -/
structure Iterated (spec : RunnerSpec model context) (accepted : List Request)
    (polled : List GenerationEvent) (engine : Engine σ) (it : Iteration σ) : Prop where
  settled : spec.Settled accepted polled it.engine
  failed : it.engine.failed = engine.failed
  calls : ∀ call ∈ it.plan.calls, call.Proper
  bounded : load (it.engine.waiting ++ it.engine.active) ≤ load (engine.waiting ++ engine.active)
  progress : engine.idle = false →
    load (it.engine.waiting ++ it.engine.active) < load (engine.waiting ++ engine.active)

/-- An iteration ends settled, or with what was thrown. -/
theorem iterate_wp (h : spec.Settled accepted polled engine) :
    (iterate model).wp (fun _ it => spec.Iterated accepted polled engine it)
      (spec.Thrown accepted polled engine.failed) { engine } := by
  rw [iterate, wp_bind, wp_get, wp_bind, wp_on]
  refine (admit_wp h rfl).mono (fun progressed engine₁ ha => ?_) fun e engine₁ ⟨hb, hf⟩ =>
    ⟨hb, fun _ hc => (List.not_mem_nil hc).elim, hf⟩
  rw [wp_bind, wp_get, wp_ite]
  refine ⟨fun hactive => ?_, fun hactive => ?_⟩
  · -- everything that was waiting has been refused
    rw [wp_pure]
    refine ⟨ha.settled, ha.failed, fun _ hc => (List.not_mem_nil hc).elim, ha.bounded,
      fun hidle => ?_⟩
    have hnone : engine.active = [] := by
      by_contra hne
      exact ha.active hne hactive
    have hwaiting : engine.waiting ≠ [] := by
      intro hnil
      rw [Engine.idle, hnone, hnil] at hidle
      cases hidle
    refine ha.progress hactive hwaiting ?_
    have hcapacity := engine.scheduler.valid.1
    have hlength := List.length_pos_iff.mpr hwaiting
    simp only [Scheduler.admissionCount, hnone, List.length_nil]
    rw [if_neg (by omega)]
    omega
  rw [wp_bind, wp_modify, wp_bind, wp_get, wp_bind]
  have hvalid := engine₁.scheduler.valid
  have hindices : ((SchedulePlan.plan engine₁.scheduler engine₁.phases).order.map
      ScheduledRequest.activeIndex).Nodup := SchedulePlan.order_nodup
  have horder : (SchedulePlan.plan engine₁.scheduler engine₁.phases).order ≠ [] :=
    SchedulePlan.order_ne_nil fun hnil => hactive (List.map_eq_nil_iff.mp hnil)
  let start : Iteration σ := ⟨engine₁, SchedulePlan.plan engine₁.scheduler engine₁.phases⟩
  have hturns : (turns model start.plan.order).wp _ _ start :=
    turns_wp ha.settled.toMid ⟨hvalid.2.2, fun _ hc => (List.not_mem_nil hc).elim⟩ hindices
      (scheduled_plan ha.settled.unfinished)
  refine hturns.mono ?_ fun e it hthrown =>
    ⟨hthrown.broken, hthrown.calls, hthrown.failed.trans ha.failed⟩
  rintro _ it ⟨hadvanced, -, hload⟩
  rw [wp_bind, wp_modify, wp_pure]
  have hless : load it.engine.active < load engine₁.active := hload horder hvalid.2.1.ne'
  have hremoved : load ((it.engine.removeFinished false).waiting ++
      (it.engine.removeFinished false).active) <
        load (engine₁.waiting ++ engine₁.active) := by
    have hwaiting : it.engine.waiting = engine₁.waiting := hadvanced.waiting
    simp only [Engine.removeFinished, load_append, load_filter, hwaiting, Bool.false_eq_true,
      if_false]
    omega
  exact ⟨hadvanced.mid.removeFinished false, hadvanced.failed.trans ha.failed,
    hadvanced.plan.calls, (hremoved.trans_le ha.bounded).le, fun _ => hremoved.trans_le ha.bounded⟩

/-! ## Ending many requests -/

/-- The states `terminal` cannot throw for. -/
theorem terminalAll_quiet {reason : FinishReason} {message : String} {cleanup : TerminalCleanup}
    {w : World} : ∀ {states before after : List State} {runner : σ} {events : List GenerationEvent},
    (∀ s ∈ states, s.finished = true ∨ cleanup = .runnerManaged ∨ s.resident = false) →
    (∀ s ∈ states, ∀ out, spec.Open s.request out → spec.Ended s.request
      (out.map (tokenEvent s.request) ++ [⟨s.request.id, none, some reason, message⟩])) →
    (∀ s ∈ states, w s.request.id = none) → spec.holds w runner →
    spec.QueueInv accepted (polled ++ events) (before ++ (states ++ after)) →
    ∃ runner' events' states',
      terminalAll model reason message cleanup runner events states =
        (.ok (), runner', events', states') ∧
      (∀ s ∈ states', s.finished = true) ∧ spec.holds w runner' ∧
      spec.QueueInv accepted (polled ++ events') (before ++ (states' ++ after))
  | [], before, after, runner, events, _, _, _, hholds, hqueue =>
    ⟨runner, events, [], rfl, fun _ hs => (List.not_mem_nil hs).elim, hholds, hqueue⟩
  | state :: states, before, after, runner, events, hquiet, hended, hw, hholds, hqueue => by
    have hmem : state ∈ before ++ (state :: states ++ after) := by simp
    have hquiet' := fun s hs => hquiet s (List.mem_cons_of_mem _ hs)
    have hended' := fun s hs => hended s (List.mem_cons_of_mem _ hs)
    have hw' := fun s hs => hw s (List.mem_cons_of_mem _ hs)
    -- the head is done, and the rest continues from there
    have hhead : ∃ runner₁ events₁ state₁,
        terminal model reason none message cleanup ⟨runner, events, state⟩ =
          (.ok (), ⟨runner₁, events₁, state₁⟩) ∧ state₁.finished = true ∧
        spec.holds w runner₁ ∧
        spec.QueueInv accepted (polled ++ events₁) (before ++ state₁ :: (states ++ after)) := by
      cases hfinished : state.finished with
      | true => exact ⟨_, _, _, terminal_finished hfinished, hfinished, hholds, hqueue⟩
      | false =>
        obtain ⟨out, hopen, htold⟩ := (hqueue.told state hmem).open hfinished
        have hnone : cleanup = .runnerManaged ∨ state.resident = false :=
          (hquiet state List.mem_cons_self).resolve_left
            (by rw [hfinished]; exact Bool.false_ne_true)
        refine ⟨_, _, _, terminal_quiet hfinished hnone, rfl,
          holds_releaseReservation hholds (hw state List.mem_cons_self), ?_⟩
        rw [← List.append_assoc]
        refine hqueue.update rfl (fun event he => by rw [List.mem_singleton.mp he]) ?_
        rw [htold]
        exact told_of_finished rfl (hended state List.mem_cons_self out hopen)
    obtain ⟨runner₁, events₁, state₁, hterminal, hfinished₁, hholds₁, hqueue₁⟩ := hhead
    rw [List.append_cons] at hqueue₁
    obtain ⟨runner', events', states', hrest, hall, hholds', hqueue'⟩ :=
      terminalAll_quiet hquiet' hended' hw' hholds₁ hqueue₁
    refine ⟨runner', events', state₁ :: states', ?_, fun s hs => ?_, hholds', ?_⟩
    · rw [terminalAll, hterminal]
      simp only [hrest]
    · rcases List.mem_cons.mp hs with rfl | hs
      · exact hfinished₁
      · exact hall s hs
    · rw [← List.append_cons] at hqueue'
      exact hqueue'

theorem filter_finished_eq_nil {states : List State} (h : ∀ s ∈ states, s.finished = true) :
    states.filter (fun state => !state.finished) = [] :=
  List.filter_eq_nil_iff.mpr fun s hs => by simp [h s hs]

/-- An engine whose requests are all over. -/
theorem EngineInv.of_finished {states : List State} (hbooks : spec.Books accepted polled engine)
    (hqueue : spec.QueueInv accepted (polled ++ engine'.events) states)
    (hall : ∀ s ∈ states, s.finished = true) (hwaiting : engine'.waiting = [])
    (hactive : engine'.active = []) (hseen : engine'.seen = engine.seen)
    (hconfig : engine'.config = engine.config) (hholds : spec.holds World.empty engine'.runner) :
    spec.EngineInv accepted polled engine' := by
  refine ⟨⟨⟨⟨?_, fun s hs => ?_, hseen ▸ hbooks.seen, hconfig ▸ hbooks.context⟩,
    fun s hs => ?_, ?_⟩, fun s hs => ?_⟩, fun _ => ⟨hwaiting, hactive⟩⟩
  · rw [hwaiting, hactive]
    exact hqueue.sublist (List.nil_sublist _) fun s hs => Or.inr (hall s hs)
  · rw [hwaiting] at hs
    exact (List.not_mem_nil hs).elim
  · rw [hactive] at hs
    exact (List.not_mem_nil hs).elim
  · rw [hactive]
    exact hholds
  · rw [hactive] at hs
    exact (List.not_mem_nil hs).elim

/-- The outer handler ends every request that is left. -/
theorem Broken.fail {e : Exn} (h : spec.Broken accepted polled e engine) :
    spec.EngineInv accepted polled (engine.fail model e) ∧ (engine.fail model e).failed = true ∧
      (engine.fail model e).waiting = [] ∧ (engine.fail model e).active = [] := by
  obtain ⟨id, w, hthrown⟩ := h.thrown
  have hcleared := spec.fatal hthrown
  rw [Engine.fail]
  revert hcleared
  rcases model.clear engine.runner with ⟨cleared, runner⟩
  intro hcleared
  simp only
  generalize failureMessage e cleared = message
  have hended : ∀ s : State, ∀ out, spec.Open s.request out → spec.Ended s.request
      (out.map (tokenEvent s.request) ++ [⟨s.request.id, none, some .error, message⟩]) :=
    fun s out hopen => .error hopen (spec.thrown_failure hthrown)
  have hqueue := h.queue
  rw [← List.append_nil engine.active] at hqueue
  obtain ⟨runner₁, events₁, active₁, hactive, hall₁, hholds₁, hqueue₁⟩ :=
    terminalAll_quiet (fun _ _ => Or.inr (Or.inl rfl)) (fun s _ => hended s) (fun _ _ => rfl)
      hcleared hqueue
  rw [List.append_nil, ← List.nil_append (engine.waiting ++ active₁)] at hqueue₁
  obtain ⟨runner₂, events₂, waiting₂, hwaiting, hall₂, hholds₂, hqueue₂⟩ :=
    terminalAll_quiet (fun _ _ => Or.inr (Or.inl rfl)) (fun s _ => hended s) (fun _ _ => rfl)
      hholds₁ hqueue₁
  rw [List.nil_append] at hqueue₂
  have hall : ∀ s ∈ waiting₂ ++ active₁, s.finished = true := by
    intro s hs
    rcases List.mem_append.mp hs with hs | hs
    · exact hall₂ s hs
    · exact hall₁ s hs
  simp only [terminalActive, hactive, terminalWaiting, hwaiting, Engine.removeFinished, if_true,
    filter_finished_eq_nil hall₁, filter_finished_eq_nil hall₂]
  refine ⟨EngineInv.of_finished h.toBooks hqueue₂ hall rfl rfl rfl rfl hholds₂, ?_⟩
  simp

/-! ## `step` -/

/-- What a step does to an engine that has not failed. -/
structure Stepped (spec : RunnerSpec model context) (accepted : List Request)
    (polled : List GenerationEvent) (engine : Engine σ) (it : Iteration σ) : Prop where
  inv : spec.EngineInv accepted polled it.engine
  calls : ∀ call ∈ it.plan.calls, call.Proper
  bounded : load (it.engine.waiting ++ it.engine.active) ≤ load (engine.waiting ++ engine.active)
  progress : engine.idle = false → (it.engine.failed = true ∧ it.engine.idle = true) ∨
    load (it.engine.waiting ++ it.engine.active) < load (engine.waiting ++ engine.active)

theorem EngineInv.iteration (h : spec.EngineInv accepted polled engine)
    (hfailed : engine.failed = false) :
    ∃ b it, engine.iteration model = (.ok b, it) ∧ spec.Stepped accepted polled engine it := by
  have hreset : spec.Settled accepted polled { engine with stepStats := {} } :=
    ⟨⟨⟨h.queue, h.fresh, h.seen, h.context⟩, h.active, h.holds⟩, h.unfinished⟩
  have hwp : (iterate model).wp _ _ _ := iterate_wp hreset
  rw [Engine.iteration, if_neg (by rw [hfailed]; exact Bool.false_ne_true)]
  rcases hrun : iterate model { engine := { engine with stepStats := {} } } with ⟨e | b, it⟩
  · have hthrown := hwp.error hrun
    obtain ⟨id, w, hw⟩ := hthrown.broken.thrown
    have hstd := spec.std hw
    obtain ⟨hinv, hfailed', hwaiting, hactive⟩ := hthrown.broken.fail
    simp only [hstd, if_true]
    refine ⟨true, _, rfl, hinv, hthrown.calls, ?_, fun _ => Or.inl ⟨hfailed', ?_⟩⟩
    · simp only [hwaiting, hactive, List.append_nil, load_nil]
      exact Nat.zero_le _
    · simp only [Engine.idle, hwaiting, hactive]
      rfl
  · have hhit := hwp.ok hrun
    refine ⟨b, it, rfl, ⟨hhit.settled, fun hf => ?_⟩, hhit.calls, hhit.bounded,
      fun hidle => Or.inr (hhit.progress hidle)⟩
    exact absurd (hhit.failed.symm.trans hf) (by simp [hfailed])

/-- A failed engine refuses to step. -/
theorem step_failed (hfailed : engine.failed = true) :
    Engine.step model engine =
      (.error (.runtimeError "engine failed"), { engine with stepStats := {} }) := by
  simp [Engine.step, Engine.iteration, hfailed]

end RunnerSpec

end TinyInfer.MiniPrefix
