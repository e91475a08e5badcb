import TinyInfer.MiniPrefix.EngineTurnCalls

/-!
# The calls of a step

The loop of turns over a logged runner, and the step around it.

- `Traced`, `Lively`: the record, the events and the queue of an engine agree;
  `Lively` holds between the turns of a step, `Traced` also where a call threw.
- `Ran`, `Fairly`: the inputs of a loop are those of the order, within the budget;
  and which requests of the order got none.
- `iterate_calls`: an iteration, `Traced.submit` and the others: every call.
-/

namespace TinyInfer.MiniPrefix

open Lib Engine Throwing

variable {σ L : Type}

/-- The record and the events of the accepted requests agree. -/
structure Traced (accepted : List Request) (polled : List GenerationEvent)
    (engine : Engine (Logged σ)) : Prop where
  distinct : (accepted.map Request.id).Nodup
  ids : (idsOf engine.queue).Nodup
  seen : ∀ r ∈ accepted, r.id ∈ engine.seen
  mem : ∀ state ∈ engine.queue, state.request ∈ accepted
  /-- The queue is in the order of submission. -/
  fifo : ((unfinished engine.queue).map State.request).Sublist accepted
  unknown : ∀ id, (∀ r ∈ accepted, r.id ≠ id) →
    callsOf id engine.runner.calls = [] ∧ eventsOf id (polled ++ engine.events) = []
  account : ∀ r ∈ accepted,
    Account r (callsOf r.id engine.runner.calls) (eventsOf r.id (polled ++ engine.events))

structure Lively (accepted : List Request) (polled : List GenerationEvent)
    (engine : Engine (Logged σ)) : Prop extends Traced accepted polled engine where
  live : ∀ state ∈ unfinished engine.queue,
    Live (callsOf state.request.id engine.runner.calls) state
      (eventsOf state.request.id (polled ++ engine.events))

variable {accepted : List Request} {polled : List GenerationEvent}
  {engine engine' : Engine (Logged σ)} {slots : Nat}

theorem eventsOf_nil_of_ne {id : RequestId} {new : List GenerationEvent}
    (h : ∀ event ∈ new, event.requestId ≠ id) : eventsOf id new = [] :=
  List.filter_eq_nil_iff.mpr fun event he => by
    rw [decide_eq_true_eq]
    exact h event he

/-- The events of each request after a quiet step. -/
theorem Quiet.told (polled : List GenerationEvent) (h : Quiet slots engine engine') : ∃ new,
    (∀ event ∈ new, event.Aborts ∧ event.requestId ∈ idsOf engine.queue) ∧
    (∀ id, eventsOf id (polled ++ engine'.events) =
      eventsOf id (polled ++ engine.events) ++ eventsOf id new) ∧
    ∀ state ∈ unfinished engine'.queue, eventsOf state.request.id new = [] := by
  obtain ⟨new, hevents, haborts, hother⟩ := h.events
  refine ⟨new, haborts, fun id => ?_, fun state hs => eventsOf_nil_of_ne (hother state hs)⟩
  rw [hevents, ← List.append_assoc, eventsOf_append]

/-- A quiet change keeps the calls accounted for. -/
theorem Traced.quiet (h : Traced accepted polled engine) (hquiet : Quiet slots engine engine') :
    Traced accepted polled engine' := by
  obtain ⟨new, haborts, hevents, -⟩ := hquiet.told polled
  refine ⟨h.distinct, hquiet.nodup h.ids, hquiet.seen.symm ▸ h.seen, fun state hs => ?_,
    (hquiet.rest.map _).trans h.fifo, fun id hid => ?_, fun r hr => ?_⟩
  · obtain ⟨state', hs', heq⟩ := List.mem_map.mp (hquiet.requests.subset (List.mem_map_of_mem hs))
    exact heq ▸ h.mem state' hs'
  · obtain ⟨hcalls, hnone⟩ := h.unknown id hid
    refine ⟨hquiet.calls ▸ hcalls, ?_⟩
    rw [hevents, hnone, List.nil_append]
    refine eventsOf_nil_of_ne fun event he heq => ?_
    obtain ⟨state, hs, hsid⟩ := List.mem_map.mp (haborts event he).2
    exact hid _ (h.mem state hs) (hsid.trans heq)
  · rw [hquiet.calls, hevents]
    exact (h.account r hr).abort fun event he => (haborts event (List.mem_filter.mp he).1).1

/-- A quiet change keeps the engine lively. -/
theorem Lively.quiet (h : Lively accepted polled engine) (hquiet : Quiet slots engine engine') :
    Lively accepted polled engine' := by
  refine ⟨h.toTraced.quiet hquiet, fun state hs => ?_⟩
  obtain ⟨new, -, hevents, hother⟩ := hquiet.told polled
  rw [hquiet.calls, hevents, hother state hs, List.append_nil]
  exact h.live state (hquiet.rest.subset hs)

/-! ## One state moves on -/

/-- The calls and events of a turn are for one request of the queue. -/
structure Moves (engine : Engine (Logged σ)) (state : State) (new : List RunnerCall)
    (told : List GenerationEvent) (state' : State) (engine' : Engine (Logged σ)) : Prop where
  queue : ∃ before after, engine.queue = before ++ state :: after ∧
    engine'.queue = before ++ state' :: after
  request : state'.request = state.request
  calls : engine'.runner.calls = engine.runner.calls ++ new
  events : engine'.events = engine.events ++ told
  ownCalls : ∀ other, other ≠ state.request.id → callsOf other new = []
  ownEvents : ∀ event ∈ told, event.requestId = state.request.id
  seen : engine'.seen = engine.seen

variable {state state' : State} {new : List RunnerCall} {told : List GenerationEvent}

/-- The other requests have the calls and events they had. -/
theorem Moves.other (polled : List GenerationEvent)
    (h : Moves engine state new told state' engine') {id : RequestId}
    (hne : id ≠ state.request.id) :
    callsOf id engine'.runner.calls = callsOf id engine.runner.calls ∧
      eventsOf id (polled ++ engine'.events) = eventsOf id (polled ++ engine.events) := by
  rw [h.calls, callsOf_append, h.ownCalls id hne, List.append_nil, h.events, ← List.append_assoc,
    eventsOf_append, eventsOf_other h.ownEvents hne, List.append_nil]
  exact ⟨rfl, rfl⟩

/-- What a move tells is told to the request that moves. -/
theorem Moves.own (h : Moves engine state new told state' engine') :
    eventsOf state.request.id (polled ++ engine'.events) =
      eventsOf state.request.id (polled ++ engine.events) ++ told := by
  rw [h.events, ← List.append_assoc, eventsOf_append, eventsOf_own h.ownEvents]

theorem Moves.mem (h : Moves engine state new told state' engine') : state ∈ engine.queue := by
  obtain ⟨before, after, hqueue, -⟩ := h.queue
  rw [hqueue]
  exact List.mem_append_right _ List.mem_cons_self

/-- A request that moves on keeps the calls accounted for. -/
theorem Traced.update (h : Traced accepted polled engine)
    (hmoves : Moves engine state new told state' engine') (hfinished : state.finished = false)
    (haccount : Account state.request (callsOf state.request.id engine'.runner.calls)
      (eventsOf state.request.id (polled ++ engine.events) ++ told)) :
    Traced accepted polled engine' := by
  obtain ⟨before, after, hqueue, hqueue'⟩ := hmoves.queue
  have hrequests : engine'.queue.map State.request = engine.queue.map State.request := by
    rw [hqueue, hqueue', List.map_append, List.map_append, List.map_cons, List.map_cons,
      hmoves.request]
  have hmine := h.mem state hmoves.mem
  refine ⟨h.distinct, ?_, hmoves.seen.symm ▸ h.seen, fun s hs => ?_, ?_, fun id hid => ?_,
    fun r hr => ?_⟩
  · rw [idsOf_eq_map, hrequests, ← idsOf_eq_map]
    exact h.ids
  · obtain ⟨s', hs', heq⟩ := List.mem_map.mp (hrequests ▸ List.mem_map_of_mem hs)
    exact heq ▸ h.mem s' hs'
  · refine List.Sublist.trans ?_ h.fifo
    rw [hqueue, hqueue', unfinished_append, unfinished_append, List.map_append, List.map_append]
    refine List.Sublist.append_left ?_ _
    have hfront : unfinished (state :: after) = state :: unfinished after :=
      List.filter_cons_of_pos (by simp [hfinished])
    rw [hfront, List.map_cons, ← hmoves.request]
    cases hfinished' : state'.finished with
    | true =>
      rw [unfinished, List.filter_cons_of_neg (by simp [hfinished'])]
      exact List.sublist_cons_self _ _
    | false =>
      rw [unfinished, List.filter_cons_of_pos (by simp [hfinished'])]
      exact List.Sublist.refl _
  · have hother := hmoves.other polled fun heq => hid _ hmine heq.symm
    rw [hother.1, hother.2]
    exact h.unknown id hid
  · by_cases hid : r.id = state.request.id
    · obtain rfl : r = state.request := List.inj_on_of_nodup_map h.distinct hr hmine hid
      rw [hmoves.own]
      exact haccount
    · rw [(hmoves.other polled hid).1, (hmoves.other polled hid).2]
      exact h.account r hr

/-- A request that moves on keeps the engine lively. -/
theorem Lively.update (h : Lively accepted polled engine)
    (hmoves : Moves engine state new told state' engine') (hfinished : state.finished = false)
    (hend : Live (callsOf state.request.id engine'.runner.calls) state'
        (eventsOf state.request.id (polled ++ engine.events) ++ told) ∨
      (state'.finished = true ∧
        Account state.request (callsOf state.request.id engine'.runner.calls)
          (eventsOf state.request.id (polled ++ engine.events) ++ told))) :
    Lively accepted polled engine' := by
  have haccount : Account state.request (callsOf state.request.id engine'.runner.calls)
      (eventsOf state.request.id (polled ++ engine.events) ++ told) := by
    rcases hend with hlive | ⟨-, haccount⟩
    · exact hmoves.request ▸ hlive.account
    · exact haccount
  refine ⟨h.toTraced.update hmoves hfinished haccount, fun s hs => ?_⟩
  obtain ⟨hs, hunfinished⟩ := mem_unfinished.mp hs
  obtain ⟨before, after, hqueue, hqueue'⟩ := hmoves.queue
  rw [hqueue'] at hs
  have hids := h.ids
  rw [hqueue] at hids
  rcases List.mem_cons.mp (List.perm_middle.mem_iff.mp hs) with rfl | hs
  · rw [hmoves.request, hmoves.own]
    rcases hend with hlive | ⟨hover, -⟩
    · exact hlive
    · exact absurd (hunfinished.symm.trans hover) Bool.false_ne_true
  · have hne : s.request.id ≠ state.request.id := by
      have hnodup := (List.perm_middle.map _).nodup_iff.mp hids
      rw [List.map_cons, List.nodup_cons] at hnodup
      exact fun heq => hnodup.1 (heq ▸ List.mem_map_of_mem hs)
    rw [(hmoves.other polled hne).1, (hmoves.other polled hne).2]
    refine h.live s (mem_unfinished.mpr ⟨?_, hunfinished⟩)
    rw [hqueue]
    exact List.perm_middle.mem_iff.mpr (List.mem_cons_of_mem _ hs)

/-! ## The loop over the plan -/

variable {model : ModelRunner σ L} {it it' : Iteration (Logged σ)} {work : ScheduledRequest}
  {order : List ScheduledRequest}

/-- The request a work item of the order is for. -/
def requestAt (active : List State) (work : ScheduledRequest) : Option RequestId :=
  (active.map State.request)[work.activeIndex]?.map Request.id

/-- The number of tokens passed to `append`. -/
def attempted (calls : List RunnerCall) : Nat :=
  ((attemptsIn calls).map fun attempt => attempt.2.length).sum

/-- The requests `append` was called for. -/
def attemptedIds (calls : List RunnerCall) : List RequestId := (attemptsIn calls).map Prod.fst

@[simp] theorem attempted_append {calls later : List RunnerCall} :
    attempted (calls ++ later) = attempted calls + attempted later := by
  rw [attempted, attemptsIn_append, List.map_append, List.sum_append]
  rfl

@[simp] theorem attemptedIds_append {calls later : List RunnerCall} :
    attemptedIds (calls ++ later) = attemptedIds calls ++ attemptedIds later := by
  rw [attemptedIds, attemptsIn_append, List.map_append]
  rfl

/-- What turns change and what they leave as it is. -/
structure Turned (it : Iteration (Logged σ)) (new : List RunnerCall) (it' : Iteration (Logged σ)) :
    Prop where
  calls : it'.engine.runner.calls = it.engine.runner.calls ++ new
  opens : Opens new
  requests : it'.engine.active.map State.request = it.engine.active.map State.request
  waiting : it'.engine.waiting = it.engine.waiting
  seen : it'.engine.seen = it.engine.seen
  scheduler : it'.engine.scheduler = it.engine.scheduler
  config : it'.engine.config = it.engine.config
  failed : it'.engine.failed = it.engine.failed

/-- The inputs of the turns `order`, in this order and within the budget. -/
structure Ran (order : List ScheduledRequest) (it : Iteration (Logged σ)) (new : List RunnerCall)
    (it' : Iteration (Logged σ)) : Prop extends Turned it new it' where
  ids : (attemptedIds new).Sublist (order.filterMap (requestAt it.engine.active))
  sizes : ∀ attempt ∈ attemptsIn new, ∃ work ∈ order,
    requestAt it.engine.active work = some attempt.1 ∧
      Fits it.plan.chunk work.phase attempt.2.length
  chunk : it'.plan.chunk = it.plan.chunk
  budget : it'.plan.remaining + attempted new = it.plan.remaining

/-- Why a request of the order got no input, and what the step counted. -/
structure Fairly (order : List ScheduledRequest) (it : Iteration (Logged σ))
    (new : List RunnerCall) (it' : Iteration (Logged σ)) : Prop where
  stats : it'.engine.stepStats = it.engine.stepStats.plus (tally it.engine.runner.calls new)
  fair : ∀ work ∈ order, ∀ id, requestAt it.engine.active work = some id →
    id ∈ attemptedIds new ∨ it'.plan.remaining = 0 ∨ Refused id new

theorem Refused.append_left {id : RequestId} {calls later : List RunnerCall}
    (h : Refused id calls) : Refused id (calls ++ later) := by
  obtain ⟨what, hwhat⟩ := h
  refine ⟨what, hwhat.imp (List.mem_append_left _) (Or.imp (List.mem_append_left _) ?_)⟩
  rintro ⟨n, hinfix⟩
  exact ⟨n, hinfix.trans (List.prefix_append _ _).isInfix⟩

theorem Refused.append_right {id : RequestId} {calls later : List RunnerCall}
    (h : Refused id later) : Refused id (calls ++ later) := by
  obtain ⟨what, hwhat⟩ := h
  refine ⟨what, hwhat.imp (List.mem_append_right _) (Or.imp (List.mem_append_right _) ?_)⟩
  rintro ⟨n, hinfix⟩
  exact ⟨n, hinfix.trans (List.suffix_append _ _).isInfix⟩

theorem requestAt_eq_some {active : List State} {state : State}
    (hget : active[work.activeIndex]? = some state) :
    requestAt active work = some state.request.id := by
  rw [requestAt, List.getElem?_map, hget]
  rfl

/-- One turn runs the order of its one work item. -/
theorem Spent.ran (hturned : Turned it new it')
    (hid : requestAt it.engine.active work = some state.request.id)
    (h : Spent state.request.id work.phase it.plan it'.plan new) : Ran [work] it new it' := by
  have horder : [work].filterMap (requestAt it.engine.active) = [state.request.id] := by
    rw [List.filterMap_cons, hid]
    rfl
  cases h with
  | nothing hattempts hchunk hremaining =>
    refine ⟨hturned, ?_, fun attempt ha => ?_, hchunk, ?_⟩
    · rw [attemptedIds, hattempts]
      exact List.nil_sublist _
    · rw [hattempts] at ha
      exact (List.not_mem_nil ha).elim
    · rw [attempted, hattempts]
      exact hremaining
  | @input input hattempts hchunk hfits hremaining =>
    refine ⟨hturned, ?_, fun attempt ha => ?_, hchunk, ?_⟩
    · rw [attemptedIds, hattempts, horder]
      exact List.Sublist.refl _
    · rw [hattempts, List.mem_singleton] at ha
      rw [ha]
      exact ⟨work, List.mem_singleton_self _, hid, hfits⟩
    · rw [attempted, hattempts]
      exact hremaining

/-- One turn makes the calls of its request alone, and accounts for them. -/
theorem turn_calls [Logit L] {state : State} (h : Lively accepted polled it.engine)
    (hget : it.engine.active[work.activeIndex]? = some state) (hunfinished : state.finished = false)
    (hphase : state.phase = work.phase) (hbudget : it.plan.remaining ≠ 0)
    (hchunk : 0 < it.plan.chunk) :
    (Iteration.turn model.logged work).wp
      (fun _ it' => ∃ new, Ran [work] it new it' ∧ Fairly [work] it new it' ∧
        Lively accepted polled it'.engine ∧
        ∃ state', it'.engine.active = it.engine.active.set work.activeIndex state')
      (fun _ it' => ∃ new, Ran [work] it new it' ∧ Traced accepted polled it'.engine) it := by
  obtain ⟨before, after, hactive, hset⟩ := RunnerSpec.exists_middle hget
  have hqueue : it.engine.queue = before ++ state :: (after ++ it.engine.waiting) := by
    rw [Engine.queue, hactive, List.append_assoc, List.cons_append]
  have hmem : state ∈ unfinished it.engine.queue :=
    mem_unfinished.mpr ⟨hqueue ▸ List.mem_append_right _ List.mem_cons_self, hunfinished⟩
  have hlive := h.live state hmem
  have hid := requestAt_eq_some hget
  let start : Turn (Logged σ) :=
    ⟨⟨it.engine.runner, it.engine.events, state⟩, it.plan, it.engine.stepStats⟩
  have hturn : (takeTurn model.logged work.phase).wp
      (fun _ turn' => ∃ new, Took work.phase start new turn')
      (fun e turn' => ∃ new, Left work.phase start new e turn') start :=
    takeTurn_calls hlive hphase.symm hbudget hchunk
  rw [wp, Iteration.turn, hget]
  simp only
  rw [← wp, wp_on]
  -- the iteration after the turn
  let finish : Turn (Logged σ) → Iteration (Logged σ) := fun turn => {
    engine := { it.engine with
      runner := turn.desk.runner
      events := turn.desk.events
      active := it.engine.active.set work.activeIndex turn.desk.state
      stepStats := turn.stepStats }
    plan := turn.plan }
  have hturned : ∀ {new turn}, Worked state.request.id start new turn →
      Turned it new (finish turn) := by
    intro new turn hworked
    have hrequest : turn.desk.state.request = state.request := hworked.request
    refine ⟨hworked.calls, hworked.opens, ?_, rfl, rfl, rfl, rfl, rfl⟩
    show (it.engine.active.set work.activeIndex turn.desk.state).map State.request = _
    rw [hset, hactive, List.map_append, List.map_append, List.map_cons, List.map_cons, hrequest]
  have hmoves : ∀ {new turn told}, Worked state.request.id start new turn →
      turn.desk.events = it.engine.events ++ told →
      (∀ event ∈ told, event.requestId = state.request.id) →
      Moves it.engine state new told turn.desk.state (finish turn).engine := by
    intro new turn told hworked hevents hown
    refine ⟨⟨before, after ++ it.engine.waiting, hqueue, ?_⟩, hworked.request, hworked.calls,
      hevents, hworked.own, hown, rfl⟩
    show it.engine.active.set work.activeIndex turn.desk.state ++ it.engine.waiting = _
    rw [hset, List.append_assoc, List.cons_append]
  refine hturn.mono ?_ ?_
  -- the turn returned
  · rintro _ turn ⟨new, htook⟩
    obtain ⟨told, hevents, hown, hend⟩ := htook.outcome
    have hran : Ran [work] it new (finish turn) := htook.spent.ran (hturned htook.toWorked) hid
    refine ⟨new, hran, ⟨htook.stats, fun work' hwork' id hid' => ?_⟩, ?_, _, rfl⟩
    · rw [List.mem_singleton.mp hwork', hid, Option.some.injEq] at hid'
      rw [← hid']
      rcases htook.spent with ⟨hnone, -, -⟩ | ⟨hattempts, -, -, -⟩
      · exact Or.inr (Or.inr (htook.refused hnone))
      · exact Or.inl (by rw [attemptedIds, hattempts]; exact List.mem_singleton_self _)
    · refine h.update (hmoves htook.toWorked hevents hown) hunfinished ?_
      rw [hlive.told]
      exact hend
  -- the turn threw a fault that no handler takes
  · rintro e turn ⟨new, hleft⟩
    refine ⟨new, hleft.spent.ran (hturned hleft.toWorked) hid, ?_⟩
    have hevents : turn.desk.events = it.engine.events ++ [] :=
      hleft.events.trans (List.append_nil _).symm
    refine h.toTraced.update (hmoves hleft.toWorked hevents fun _ he => (List.not_mem_nil he).elim)
      hunfinished ?_
    rw [hlive.told, List.append_nil]
    exact hleft.account

/-- Two turns make one stretch. -/
theorem Turned.trans {it₁ it₂ : Iteration (Logged σ)} {later : List RunnerCall}
    (h : Turned it new it₁) (h' : Turned it₁ later it₂) : Turned it (new ++ later) it₂ where
  calls := by rw [h'.calls, h.calls, List.append_assoc]
  opens := h.opens.append h'.opens
  requests := h'.requests.trans h.requests
  waiting := h'.waiting.trans h.waiting
  seen := h'.seen.trans h.seen
  scheduler := h'.scheduler.trans h.scheduler
  config := h'.config.trans h.config
  failed := h'.failed.trans h.failed

theorem Turned.requestAt_eq (h : Turned it new it') :
    requestAt it'.engine.active = requestAt it.engine.active := by
  funext work
  rw [requestAt, requestAt, h.requests]

theorem Ran.stop : Ran order it [] it where
  calls := (List.append_nil _).symm
  opens := opens_nil
  requests := rfl
  waiting := rfl
  seen := rfl
  scheduler := rfl
  config := rfl
  failed := rfl
  ids := List.nil_sublist _
  sizes _ h := (List.not_mem_nil h).elim
  chunk := rfl
  budget := rfl

/-- The loop ran a part of its order. -/
theorem Ran.weaken {order' : List ScheduledRequest} (h : Ran order it new it')
    (hsub : order.Sublist order') : Ran order' it new it' where
  toTurned := h.toTurned
  ids := h.ids.trans (hsub.filterMap _)
  sizes attempt ha := by
    obtain ⟨work, hwork, hrest⟩ := h.sizes attempt ha
    exact ⟨work, hsub.subset hwork, hrest⟩
  chunk := h.chunk
  budget := h.budget

/-- Two stretches of the order run one after the other. -/
theorem Ran.append {order' : List ScheduledRequest} {it₁ it₂ : Iteration (Logged σ)}
    {later : List RunnerCall} (h : Ran order it new it₁) (h' : Ran order' it₁ later it₂) :
    Ran (order ++ order') it (new ++ later) it₂ where
  toTurned := h.toTurned.trans h'.toTurned
  ids := by
    have hids := h'.ids
    rw [h.toTurned.requestAt_eq] at hids
    rw [attemptedIds_append, List.filterMap_append]
    exact h.ids.append hids
  sizes attempt ha := by
    rw [attemptsIn_append] at ha
    rcases List.mem_append.mp ha with ha | ha
    · obtain ⟨work, hwork, hrest⟩ := h.sizes attempt ha
      exact ⟨work, List.mem_append_left _ hwork, hrest⟩
    · obtain ⟨work, hwork, hid, hfits⟩ := h'.sizes attempt ha
      rw [h.toTurned.requestAt_eq] at hid
      rw [h.chunk] at hfits
      exact ⟨work, List.mem_append_right _ hwork, hid, hfits⟩
  chunk := h'.chunk.trans h.chunk
  budget := by
    have hbudget := h.budget
    have hbudget' := h'.budget
    rw [attempted_append]
    omega

/-- Fairness of two stretches gives that of the whole. -/
theorem Fairly.append {order' : List ScheduledRequest} {it₁ it₂ : Iteration (Logged σ)}
    {later : List RunnerCall} (h : Fairly order it new it₁) (hran : Ran order it new it₁)
    (h' : Fairly order' it₁ later it₂) (hran' : Ran order' it₁ later it₂) :
    Fairly (order ++ order') it (new ++ later) it₂ where
  stats := by
    rw [tally_append hran'.opens, ← EngineStepStats.plus_assoc, ← h.stats, ← hran.calls]
    exact h'.stats
  fair work hwork id hid := by
    rw [attemptedIds_append]
    rcases List.mem_append.mp hwork with hwork | hwork
    · rcases h.fair work hwork id hid with hin | hnone | hrefused
      · exact Or.inl (List.mem_append_left _ hin)
      · have hbudget' := hran'.budget
        exact Or.inr (Or.inl (by omega))
      · exact Or.inr (Or.inr hrefused.append_left)
    · rw [← hran.toTurned.requestAt_eq] at hid
      rcases h'.fair work hwork id hid with hin | hnone | hrefused
      · exact Or.inl (List.mem_append_right _ hin)
      · exact Or.inr (Or.inl hnone)
      · exact Or.inr (Or.inr hrefused.append_right)

/-- The loop of turns, by induction on the order. -/
theorem turns_calls [Logit L] (h : Lively accepted polled it.engine)
    (hindices : (order.map ScheduledRequest.activeIndex).Nodup)
    (horder : RunnerSpec.Scheduled order it.engine.active) (hchunk : 0 < it.plan.chunk) :
    (turns model.logged order).wp
      (fun _ it' => ∃ new, Ran order it new it' ∧ Fairly order it new it' ∧
        Lively accepted polled it'.engine)
      (fun _ it' => ∃ new, Ran order it new it' ∧ Traced accepted polled it'.engine) it := by
  induction order generalizing it with
  | nil =>
    rw [turns, wp_pure]
    exact ⟨[], .stop, ⟨rfl, fun _ hwork => (List.not_mem_nil hwork).elim⟩, h⟩
  | cons work order ih =>
    rw [turns, wp_bind, wp_get, wp_ite]
    refine ⟨fun hbudget => ?_, fun hbudget => ?_⟩
    · -- the budget is used up: nobody else gets an input
      have hremaining : it.plan.remaining = 0 := by simpa [SchedulePlan.hasBudget] using hbudget
      rw [wp_pure]
      exact ⟨[], .stop, ⟨rfl, fun _ _ _ _ => Or.inr (Or.inl hremaining)⟩, h⟩
    have hremaining : it.plan.remaining ≠ 0 := by simpa [SchedulePlan.hasBudget] using hbudget
    obtain ⟨state, hget, hunfinished, hphase⟩ := horder work List.mem_cons_self
    rw [List.map_cons, List.nodup_cons] at hindices
    rw [wp_bind]
    refine (turn_calls h hget hunfinished hphase hremaining hchunk).mono ?_ ?_
    · rintro _ it₁ ⟨new, hran, hfairly, hlively, state', hset⟩
      have horder' : RunnerSpec.Scheduled order it₁.engine.active := by
        intro work' hwork'
        obtain ⟨s, hs, hrest⟩ := horder work' (List.mem_cons_of_mem _ hwork')
        refine ⟨s, ?_, hrest⟩
        have hne : work.activeIndex ≠ work'.activeIndex :=
          fun heq => hindices.1 (heq ▸ List.mem_map_of_mem hwork')
        rw [hset, List.getElem?_set_ne hne]
        exact hs
      refine (ih hlively hindices.2 horder' (hran.chunk ▸ hchunk)).mono ?_ ?_
      · rintro _ it₂ ⟨later, hran', hfairly', hlively'⟩
        exact ⟨new ++ later, hran.append hran', hfairly.append hran hfairly' hran', hlively'⟩
      · rintro _ it₂ ⟨later, hran', htraced⟩
        exact ⟨new ++ later, hran.append hran', htraced⟩
    · rintro _ it₁ ⟨new, hran, htraced⟩
      refine ⟨new, hran.weaken ?_, htraced⟩
      exact (List.nil_sublist order).cons_cons work

/-! ## The iteration -/

/-- The engine after the admission loop of a step. -/
def Engine.admitted (model : ModelRunner (Logged σ) L) (engine : Engine (Logged σ)) :
    Engine (Logged σ) :=
  (admitWaiting model engine.waiting
    (Scheduler.admissionCount engine.scheduler engine.active.length engine.waiting.length) false
    { engine with stepStats := {} }).2

/-- The requests a step runs, in its order. -/
def Engine.scheduledIds (engine : Engine (Logged σ)) : List RequestId :=
  idsOf ((engine.active.filter fun state => state.phase = .decode) ++
    engine.active.filter fun state => state.phase = .prefill)

/-- The inputs of a step, by the plan for the admitted requests. -/
structure Planned (admitted : Engine (Logged σ)) (new : List RunnerCall) : Prop where
  order : (attemptedIds new).Sublist admitted.scheduledIds
  sizes : ∀ attempt ∈ attemptsIn new, ∃ state ∈ admitted.active,
    state.request.id = attempt.1 ∧
      Fits admitted.scheduler.prefillChunk state.phase attempt.2.length
  budget : attempted new ≤ admitted.scheduler.tokenBudget

/-- Why an admitted request got no input in a step that did not fail. -/
def Starved (admitted : Engine (Logged σ)) (new : List RunnerCall) (id : RequestId) : Prop :=
  attempted new = admitted.scheduler.tokenBudget ∨ Refused id new

/-- The indices at which a list satisfies `p`, in order. -/
theorem filterMap_filter_range {α β : Type} {l : List α} {p : α → Bool} {g : α → β} :
    ((List.range l.length).filter fun i => l[i]?.any p).filterMap (fun i => l[i]?.map g) =
      (l.filter p).map g := by
  induction l using List.reverseRecOn with
  | nil => rfl
  | append_singleton l a ih =>
    have hfilter : ((List.range l.length).filter fun i => (l ++ [a])[i]?.any p) =
        (List.range l.length).filter fun i => l[i]?.any p := by
      refine List.filter_congr fun i hi => ?_
      rw [List.getElem?_append_left (List.mem_range.mp hi)]
    have hmap : ∀ i ∈ (List.range l.length).filter fun i => l[i]?.any p,
        (l ++ [a])[i]?.map g = l[i]?.map g := by
      intro i hi
      rw [List.getElem?_append_left (List.mem_range.mp (List.mem_filter.mp hi).1)]
    have hlast : (l ++ [a])[l.length]? = some a := by simp
    rw [List.length_append, List.length_singleton, List.range_succ, List.filter_append,
      List.filterMap_append, hfilter, List.filterMap_congr hmap, ih, List.filter_append,
      List.map_append]
    congr 1
    cases hp : p a with
    | true =>
      rw [List.filter_cons_of_pos (by simp [hp]), List.filter_cons_of_pos hp]
      simp
    | false =>
      rw [List.filter_cons_of_neg (by simp [hp]), List.filter_cons_of_neg (by simp [hp])]
      rfl

/-- The planned requests of a phase are the active ones in that phase, in order. -/
theorem ofPhase_requestAt {active : List State} {phase : SchedulePhase} :
    (SchedulePlan.ofPhase (active.map State.phase) phase).filterMap (requestAt active) =
      idsOf (active.filter fun state => state.phase = phase) := by
  have hfilter : ((List.range (active.map State.phase).length).filter
      fun i => (active.map State.phase)[i]? = some phase) =
      (List.range active.length).filter fun i => active[i]?.any fun s => s.phase = phase := by
    rw [List.length_map]
    refine List.filter_congr fun i _ => ?_
    rw [List.getElem?_map]
    cases active[i]? with
    | none => rfl
    | some s => simp
  have hrequest : (fun i => requestAt active ⟨i, phase⟩) =
      fun i => active[i]?.map fun state => state.request.id := by
    funext i
    rw [requestAt, List.getElem?_map, Option.map_map]
    rfl
  rw [SchedulePlan.ofPhase, List.filterMap_map, hfilter]
  show ((List.range active.length).filter _).filterMap (fun i => requestAt active ⟨i, phase⟩) = _
  rw [hrequest, filterMap_filter_range]
  rfl

/-- The order of the plan is the one of the phases. -/
theorem plan_requestAt {admitted : Engine (Logged σ)} :
    (SchedulePlan.plan admitted.scheduler admitted.phases).order.filterMap
      (requestAt admitted.active) = admitted.scheduledIds := by
  have hphases : admitted.phases = admitted.active.map State.phase := rfl
  rw [SchedulePlan.plan, List.filterMap_append, hphases, ofPhase_requestAt, ofPhase_requestAt,
    scheduledIds, idsOf_append]

theorem Planned.nothing {admitted : Engine (Logged σ)} : Planned admitted [] :=
  ⟨List.nil_sublist _, fun _ h => (List.not_mem_nil h).elim, Nat.zero_le _⟩

/-- The loop over the plan runs the plan. -/
theorem Ran.planned {admitted : Engine (Logged σ)} {it' : Iteration (Logged σ)}
    (h : Ran (SchedulePlan.plan admitted.scheduler admitted.phases).order
      ⟨admitted, SchedulePlan.plan admitted.scheduler admitted.phases⟩ new it') :
    Planned admitted new where
  order := plan_requestAt ▸ h.ids
  sizes attempt ha := by
    obtain ⟨work, hwork, hid, hfits⟩ := h.sizes attempt ha
    have hget := SchedulePlan.mem_order.mp hwork
    rw [Engine.phases, List.getElem?_map, Option.map_eq_some_iff] at hget
    obtain ⟨s, hs, hphase⟩ := hget
    rw [requestAt_eq_some hs, Option.some.injEq] at hid
    have hphase : s.phase = work.phase := hphase
    exact ⟨s, List.mem_of_getElem? hs, hid, hphase ▸ hfits⟩
  budget := by
    have hbudget : it'.plan.remaining + attempted new = admitted.scheduler.tokenBudget := h.budget
    omega

/-- A request that got no turn was left out by the budget. -/
theorem Fairly.starved {admitted : Engine (Logged σ)} {it' : Iteration (Logged σ)}
    (hran : Ran (SchedulePlan.plan admitted.scheduler admitted.phases).order
      ⟨admitted, SchedulePlan.plan admitted.scheduler admitted.phases⟩ new it')
    (h : Fairly (SchedulePlan.plan admitted.scheduler admitted.phases).order
      ⟨admitted, SchedulePlan.plan admitted.scheduler admitted.phases⟩ new it') :
    ∀ s ∈ admitted.active, s.request.id ∈ attemptedIds new ∨
      Starved admitted new s.request.id := by
  intro s hs
  obtain ⟨i, hi, rfl⟩ := List.getElem_of_mem hs
  have hget : admitted.active[i]? = some admitted.active[i] := List.getElem?_eq_getElem hi
  have hwork : (⟨i, admitted.active[i].phase⟩ : ScheduledRequest) ∈
      (SchedulePlan.plan admitted.scheduler admitted.phases).order := by
    rw [SchedulePlan.mem_order, Engine.phases, List.getElem?_map, hget]
    rfl
  rcases h.fair _ hwork _ (requestAt_eq_some hget) with hin | hnone | hrefused
  · exact Or.inl hin
  · have hbudget : it'.plan.remaining + attempted new = admitted.scheduler.tokenBudget :=
      hran.budget
    exact Or.inr (Or.inl (by omega))
  · exact Or.inr (Or.inr hrefused)

/-- What a step does, whether it fails or not. -/
structure StepCalls (model : ModelRunner σ L) (engine : Engine (Logged σ)) (new : List RunnerCall)
    (engine' : Engine (Logged σ)) : Prop where
  calls : engine'.runner.calls = engine.runner.calls ++ new
  planned : Planned (engine.admitted model.logged) new
  active : engine'.active.length ≤ (engine.admitted model.logged).active.length
  scheduler : engine'.scheduler = engine.scheduler
  config : engine'.config = engine.config

/-- What only a step does that does not fail. -/
structure StepDone (model : ModelRunner σ L) (engine : Engine (Logged σ)) (new : List RunnerCall)
    (engine' : Engine (Logged σ)) : Prop where
  stats : engine'.stepStats = tally engine.runner.calls new
  fair : ∀ state ∈ (engine.admitted model.logged).active,
    state.request.id ∈ attemptedIds new ∨
      Starved (engine.admitted model.logged) new state.request.id

/-- Nothing is called after the turns. -/
theorem StepCalls.quiet {engine₁ : Engine (Logged σ)} (h : StepCalls model engine new engine₁)
    (hquiet : Quiet 0 engine₁ engine') : StepCalls model engine new engine' where
  calls := hquiet.calls.trans h.calls
  planned := h.planned
  active := hquiet.active.trans h.active
  scheduler := hquiet.scheduler.trans h.scheduler
  config := hquiet.config.trans h.config

/-- The turns of a step come after its admission. -/
theorem Ran.stepCalls {it' : Iteration (Logged σ)}
    (hquiet : Quiet slots { engine with stepStats := {} } (engine.admitted model.logged))
    (h : Ran (SchedulePlan.plan (engine.admitted model.logged).scheduler
        (engine.admitted model.logged).phases).order
      ⟨engine.admitted model.logged, SchedulePlan.plan (engine.admitted model.logged).scheduler
        (engine.admitted model.logged).phases⟩ new it') :
    StepCalls model engine new it'.engine where
  calls := by
    have hcalls : it'.engine.runner.calls =
        (engine.admitted model.logged).runner.calls ++ new := h.calls
    rw [hcalls, hquiet.calls]
  planned := h.planned
  active := by
    have hlength := congrArg List.length h.requests
    rw [List.length_map, List.length_map] at hlength
    exact hlength.le
  scheduler := h.scheduler.trans hquiet.scheduler
  config := h.config.trans hquiet.config

theorem Lively.reset (h : Lively accepted polled engine) :
    Lively accepted polled { engine with stepStats := {} } :=
  ⟨⟨h.distinct, h.ids, h.seen, h.mem, h.fifo, h.unknown, h.account⟩, h.live⟩

/-- Admission, as the function that `admitted` names. -/
theorem admitted_quiet (model : ModelRunner σ L) (h : Lively accepted polled engine)
    (hclean : ∀ state ∈ engine.queue, state.finished = false) :
    Quiet (Scheduler.admissionCount engine.scheduler engine.active.length engine.waiting.length)
        { engine with stepStats := {} } (engine.admitted model.logged) ∧
      (engine.admitted model.logged).queue.Sublist engine.queue := by
  have hwp : (admitWaiting model.logged engine.waiting
      (Scheduler.admissionCount engine.scheduler engine.active.length engine.waiting.length)
      false).wp _ _ { engine with stepStats := {} } :=
    admit_quiet h.reset.ids rfl fun s hs => hclean s (List.mem_append_right _ hs)
  rw [Engine.admitted]
  rcases hrun : admitWaiting model.logged engine.waiting
    (Scheduler.admissionCount engine.scheduler engine.active.length engine.waiting.length) false
    { engine with stepStats := {} } with ⟨e | _, engine₁⟩
  · exact hwp.error hrun
  · exact hwp.ok hrun

/-- An iteration makes the planned calls, in order and within the budget. -/
theorem iterate_calls [Logit L] (h : Lively accepted polled engine)
    (hclean : ∀ state ∈ engine.queue, state.finished = false) :
    (iterate model.logged).wp
      (fun _ it' => ∃ new, StepCalls model engine new it'.engine ∧
        StepDone model engine new it'.engine ∧ Lively accepted polled it'.engine)
      (fun _ it' => ∃ new, StepCalls model engine new it'.engine ∧
        Traced accepted polled it'.engine) { engine := { engine with stepStats := {} } } := by
  obtain ⟨hquiet, hsub⟩ := admitted_quiet model h hclean
  have hlively := h.reset.quiet hquiet
  have hnothing : StepCalls model engine [] (engine.admitted model.logged) :=
    ⟨hquiet.calls.trans (List.append_nil _).symm, .nothing, le_refl _, hquiet.scheduler,
      hquiet.config⟩
  rw [iterate, wp_bind, wp_get, wp_bind, wp_on, wp_iff]
  refine ⟨fun progressed engine₁ hrun => ?_, fun e engine₁ hrun => ?_⟩
  swap
  · obtain rfl : engine.admitted model.logged = engine₁ := congrArg Prod.snd hrun
    exact ⟨[], hnothing, hlively.toTraced⟩
  obtain rfl : engine.admitted model.logged = engine₁ := congrArg Prod.snd hrun
  rw [wp_bind, wp_get, wp_ite]
  refine ⟨fun hnone => ?_, fun _ => ?_⟩
  · rw [wp_pure]
    refine ⟨[], hnothing, ⟨hquiet.stepStats, fun s hs => ?_⟩, hlively⟩
    rw [show (engine.admitted model.logged).active = [] from hnone] at hs
    exact (List.not_mem_nil hs).elim
  rw [wp_bind, wp_modify, wp_bind, wp_get, wp_bind]
  have hunfinished : ∀ s ∈ (engine.admitted model.logged).active, s.finished = false :=
    fun s hs => hclean s (hsub.subset (List.mem_append_left _ hs))
  have hvalid := (engine.admitted model.logged).scheduler.valid
  let start : Iteration (Logged σ) := ⟨engine.admitted model.logged,
    SchedulePlan.plan (engine.admitted model.logged).scheduler
      (engine.admitted model.logged).phases⟩
  have hturns : (turns model.logged start.plan.order).wp
      (fun _ it' => ∃ new, Ran start.plan.order start new it' ∧
        Fairly start.plan.order start new it' ∧ Lively accepted polled it'.engine)
      (fun _ it' => ∃ new, Ran start.plan.order start new it' ∧
        Traced accepted polled it'.engine) start :=
    turns_calls hlively SchedulePlan.order_nodup (RunnerSpec.scheduled_plan hunfinished) hvalid.2.2
  refine hturns.mono ?_ ?_
  · rintro _ it' ⟨new, hran, hfairly, hlively'⟩
    rw [wp_bind, wp_modify, wp_pure]
    refine ⟨new, (hran.stepCalls hquiet).quiet removeFinished_quiet, ⟨?_, hfairly.starved hran⟩,
      hlively'.quiet removeFinished_quiet⟩
    show it'.engine.stepStats = _
    have hstats : it'.engine.stepStats = (engine.admitted model.logged).stepStats.plus
        (tally (engine.admitted model.logged).runner.calls new) := hfairly.stats
    rw [hstats, hquiet.stepStats, hquiet.calls]
    simp [EngineStepStats.plus]
  · rintro _ it' ⟨new, hran, htraced⟩
    exact ⟨new, hran.stepCalls hquiet, htraced⟩

end TinyInfer.MiniPrefix
