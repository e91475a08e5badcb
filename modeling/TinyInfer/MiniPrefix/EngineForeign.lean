import TinyInfer.MiniPrefix.EngineProgress

/-!
# Values that are not `std::exception`s

The outer handler of `step` catches only `std::exception`, and finished states
are removed only behind it. Over a runner that throws anything, `FlagInv` is
what is left of the account: a request is told nothing after its terminal event
as long as no finished state stays behind (`no_finished_survives`). A foreign
value that leaves a turn after another request of the step was finished leaves
that request in `active_` (`finished_survives_foreign`).
-/

namespace TinyInfer.MiniPrefix

open Lib Engine Throwing

/-- No event of a request follows its terminal event. -/
def EndsLast (events : List GenerationEvent) : Prop :=
  ∀ before event after, events = before ++ event :: after → event.finishReason.isSome = true →
    ∀ later ∈ after, later.requestId ≠ event.requestId

/-- No terminal event of the request was emitted. -/
def Unended (id : RequestId) (events : List GenerationEvent) : Prop :=
  ∀ event ∈ events, event.requestId = id → event.finishReason = none

theorem EndsLast.snoc {events : List GenerationEvent} {event : GenerationEvent}
    (h : EndsLast events) (hopen : Unended event.requestId events) :
    EndsLast (events ++ [event]) := by
  intro before e after hsplit hterminal later hlater
  rcases List.eq_nil_or_concat after with rfl | ⟨rest, final, rfl⟩
  · exact (List.not_mem_nil hlater).elim
  · rw [List.concat_eq_append, ← List.cons_append, ← List.append_assoc] at hsplit
    obtain ⟨hinit, hfinal⟩ := List.append_inj' hsplit rfl
    obtain rfl : event = final := List.singleton_inj.mp hfinal
    rw [List.concat_eq_append] at hlater
    rcases List.mem_append.mp hlater with hlater | hlater
    · exact h before e rest hinit hterminal later hlater
    · rw [List.mem_singleton.mp hlater]
      intro heq
      have hnone := hopen e (by rw [hinit]; simp) heq.symm
      rw [hnone] at hterminal
      cases hterminal

/-- The flags of the queue agree with what was emitted. -/
structure FlagInv (seen : List RequestId) (emitted : List GenerationEvent) (queue : List State) :
    Prop where
  ids : (queue.map fun state => state.request.id).Nodup
  accepted : ∀ state ∈ queue, state.request.id ∈ seen
  known : ∀ event ∈ emitted, event.requestId ∈ seen
  unended : ∀ state ∈ queue, state.finished = false → Unended state.request.id emitted
  last : EndsLast emitted

section FlagInv

variable {seen : List RequestId} {emitted new : List GenerationEvent}
  {queue queue' before after : List State} {state state' : State}

theorem FlagInv.sublist (h : FlagInv seen emitted queue) (hsub : queue'.Sublist queue) :
    FlagInv seen emitted queue' :=
  ⟨h.ids.sublist (hsub.map _), fun s hs => h.accepted s (hsub.mem hs), h.known,
    fun s hs => h.unended s (hsub.mem hs), h.last⟩

theorem FlagInv.perm (h : FlagInv seen emitted queue) (hperm : queue.Perm queue') :
    FlagInv seen emitted queue' :=
  ⟨(hperm.map _).nodup_iff.mp h.ids, fun s hs => h.accepted s (hperm.mem_iff.mpr hs), h.known,
    fun s hs => h.unended s (hperm.mem_iff.mpr hs), h.last⟩

/-- What a call may do to one unfinished state and tell its request. -/
structure Moved (state state' : State) (new : List GenerationEvent) : Prop where
  request : state'.request = state.request
  new : new = [] ∨ ∃ event, new = [event] ∧ event.requestId = state.request.id ∧
    (state'.finished = false → event.finishReason = none)

/-- A request that moves on with its events keeps the flags right. -/
theorem FlagInv.update (h : FlagInv seen emitted (before ++ state :: after))
    (hunfinished : state.finished = false) (hmoved : Moved state state' new) :
    FlagInv seen (emitted ++ new) (before ++ state' :: after) := by
  have hmem : state ∈ before ++ state :: after := by simp
  have hids : (before ++ state' :: after).map (fun s => s.request.id) =
      (before ++ state :: after).map fun s => s.request.id := by
    simp only [List.map_append, List.map_cons, hmoved.request]
  have hnodup := (List.perm_middle.map fun s : State => s.request.id).nodup_iff.mp h.ids
  rw [List.map_cons, List.nodup_cons] at hnodup
  have hopen := h.unended state hmem hunfinished
  -- the other states of the queue, and what was emitted, stay as they were
  have hseen : ∀ s ∈ before ++ state' :: after, s.request.id ∈ seen := by
    intro s hs
    rcases List.mem_cons.mp (List.perm_middle.mem_iff.mp hs) with rfl | hs
    · rw [hmoved.request]
      exact h.accepted _ hmem
    · exact h.accepted s (List.perm_middle.mem_iff.mpr (List.mem_cons_of_mem _ hs))
  rcases hmoved.new with rfl | ⟨event, rfl, hid, hnone⟩
  · rw [List.append_nil]
    refine ⟨hids ▸ h.ids, hseen, h.known, fun s hs hf => ?_, h.last⟩
    rcases List.mem_cons.mp (List.perm_middle.mem_iff.mp hs) with rfl | hs
    · rw [hmoved.request]
      exact hopen
    · exact h.unended s (List.perm_middle.mem_iff.mpr (List.mem_cons_of_mem _ hs)) hf
  · refine ⟨hids ▸ h.ids, hseen, fun e he => ?_, fun s hs hf e he heq => ?_,
      h.last.snoc (hid ▸ hopen)⟩
    · rcases List.mem_append.mp he with he | he
      · exact h.known e he
      · rw [List.mem_singleton.mp he, hid]
        exact h.accepted _ hmem
    · rcases List.mem_cons.mp (List.perm_middle.mem_iff.mp hs) with rfl | hs
      · rcases List.mem_append.mp he with he | he
        · exact hopen e he (heq.trans (congrArg Request.id hmoved.request))
        · rw [List.mem_singleton.mp he]
          exact hnone hf
      · rcases List.mem_append.mp he with he | he
        · exact h.unended s (List.perm_middle.mem_iff.mpr (List.mem_cons_of_mem _ hs)) hf e he heq
        · rw [List.mem_singleton.mp he, hid] at heq
          exact absurd (heq ▸ List.mem_map_of_mem hs) hnodup.1

end FlagInv

namespace Engine

variable {σ L : Type} [Logit L] {model : ModelRunner σ L}

/-! ## One turn -/

/-- Nothing has happened to the request of the turn yet. -/
def Turn.Before (r : Request) (events : List GenerationEvent) (turn : Turn σ) : Prop :=
  turn.desk.state.request = r ∧ turn.desk.state.finished = false ∧ turn.desk.events = events

/-- The turn moved the state it started with. -/
def Turn.After (state : State) (events : List GenerationEvent) (turn : Turn σ) : Prop :=
  ∃ new, turn.desk.events = events ++ new ∧ Moved state turn.desk.state new

omit [Logit L] in
theorem terminal_moved {reason : FinishReason} {token : Option TokenId} {error : String}
    {cleanup : TerminalCleanup} {desk : Desk σ} (hfinished : desk.state.finished = false) :
    (terminal model reason token error cleanup).wp
      (fun _ desk' => desk'.state.finished = true ∧ desk'.state.request = desk.state.request ∧
        ∃ event, desk'.events = desk.events ++ [event] ∧ event.requestId = desk.state.request.id)
      (fun _ desk' => desk'.state = desk.state ∧ desk'.events = desk.events) desk := by
  rw [terminal, wp_bind, wp_get, hfinished, if_neg Bool.false_ne_true, wp_bind, wp_when]
  refine ⟨fun _ => ?_, fun _ => ?_⟩
  · rw [Desk.call, wp_on]
    refine wp_any (fun _ s' => ?_) fun e s' => ⟨rfl, rfl⟩
    rw [wp_modify]
    exact ⟨rfl, rfl, _, rfl, rfl⟩
  · rw [wp_modify]
    exact ⟨rfl, rfl, _, rfl, rfl⟩

/-- Delivering a token moves the request on; where it throws, the request is as before. -/
theorem deliver_flags {turn : Turn σ} {r : Request} {state : State} {events : List GenerationEvent}
    {logits : List L} (h : turn.Before r events) (hr : r = state.request) :
    (deliver model r logits).wp (fun _ turn' => turn'.After state events)
      (fun _ turn' => turn'.Before r events) turn := by
  subst hr
  obtain ⟨hrequest, hfinished, hevents⟩ := h
  simp only [deliver, wp_bind, Turn.wp_call, wp_throwIf, Turn.wp_update, wp_get]
  refine wp_any (fun c s₁ => ?_) fun _ _ => ⟨hrequest, hfinished, hevents⟩
  refine ⟨fun _ => ⟨hrequest, hfinished, hevents⟩, fun _ =>
    ⟨fun _ => ⟨hrequest, hfinished, hevents⟩, fun _ => ?_⟩⟩
  refine wp_any (fun _ s₂ => ?_) fun _ _ => ⟨hrequest, hfinished, hevents⟩
  have hterminal : ∀ (reason : FinishReason) (token : TokenId) (turn₂ : Turn σ),
      turn₂.Before state.request events →
      (Turn.onDesk (terminal model reason (some token) "" .releaseSequence)).wp
        (fun _ turn' => turn'.After state events)
        (fun _ turn' => turn'.Before state.request events) turn₂ := by
    rintro reason token turn₂ ⟨hr₂, hf₂, he₂⟩
    rw [Turn.wp_onDesk]
    refine (terminal_moved hf₂).mono ?_ ?_
    · rintro _ desk' ⟨hf, hr, event, he, hid⟩
      exact ⟨[event], by rw [he, he₂], hr.trans hr₂, Or.inr ⟨event, rfl, hid.trans (congrArg _ hr₂),
        fun hfalse => absurd (hfalse.symm.trans hf) Bool.false_ne_true⟩⟩
    · rintro e desk' ⟨hs, he⟩
      exact ⟨by rw [hs]; exact hr₂, by rw [hs]; exact hf₂, he.trans he₂⟩
  rw [wp_ite]
  refine ⟨fun _ => hterminal _ _ _ ⟨hrequest, hfinished, hevents⟩, fun _ => ?_⟩
  rw [wp_ite]
  refine ⟨fun _ => hterminal _ _ _ ⟨hrequest, hfinished, hevents⟩, fun _ => ?_⟩
  rw [Turn.wp_onDesk, wp_modify]
  exact ⟨_, by rw [hevents], hrequest, Or.inr ⟨_, rfl, rfl, fun _ => rfl⟩⟩

omit [Logit L] in
theorem restorePrefix_flags {turn : Turn σ} {r : Request} {events : List GenerationEvent}
    (h : turn.Before r events) :
    (restorePrefix model).wp (fun _ turn' => turn'.Before r events)
      (fun _ turn' => turn'.Before r events) turn := by
  simp only [restorePrefix, wp_bind, wp_get, Turn.wp_call, Turn.wp_update, wp_throwIf,
    Turn.wp_count]
  refine wp_any (fun _ _ => wp_any (fun _ _ => wp_any (fun _ _ => ?_) fun _ _ => h) fun _ _ => h)
    fun _ _ => h
  exact ⟨fun _ => h, fun _ => h⟩

/-- A turn either leaves the request as it was, or moves it and tells it so. -/
theorem takeTurn_flags {turn : Turn σ} {phase : SchedulePhase}
    (hfinished : turn.desk.state.finished = false) :
    (takeTurn model phase).wp (fun _ turn' => turn'.After turn.desk.state turn.desk.events)
      (fun _ turn' => turn'.Before turn.desk.state.request turn.desk.events) turn := by
  obtain ⟨⟨runner, events, state⟩, plan, stats⟩ := turn
  simp only at hfinished ⊢
  have hattempt : (attempt model phase).wp (fun _ turn' => turn'.After state events)
      (fun _ turn' => turn'.Before state.request events)
        ⟨⟨runner, events, state⟩, plan, stats⟩ := by
    rw [attempt, wp_bind, wp_get, wp_bind]
    have hresume : (Throwing.when (state.resident = false) (restorePrefix model)).wp
        (fun _ turn' => turn'.Before state.request events)
        (fun _ turn' => turn'.Before state.request events)
        (⟨⟨runner, events, state⟩, plan, stats⟩ : Turn σ) := by
      rw [wp_when]
      exact ⟨fun _ => restorePrefix_flags ⟨rfl, hfinished, rfl⟩, fun _ => ⟨rfl, hfinished, rfl⟩⟩
    refine hresume.mono (fun _ turn₁ h₁ => ?_) fun _ _ h => h
    rw [wp_bind, wp_get, wp_bind, Turn.takeInput, wp_on]
    refine wp_any (fun count plan₂ => ?_) fun _ _ => h₁
    simp only [wp_bind, Turn.wp_call]
    refine wp_any (fun logits s₃ => ?_) fun _ _ => h₁
    refine Turn.wp_appended fun stats₃ => ?_
    have hfed : ∀ n, (turn₁.desk.state.fed phase n).request = state.request ∧
        (turn₁.desk.state.fed phase n).finished = false := by
      intro n
      cases phase with
      | prefill => exact ⟨h₁.1, h₁.2.1⟩
      | decode => exact ⟨h₁.1, h₁.2.1⟩
    rw [wp_get, wp_ite]
    refine ⟨fun _ => ?_, fun _ => ?_⟩
    · rw [wp_pure]
      exact ⟨[], by rw [List.append_nil]; exact h₁.2.2, (hfed _).1, Or.inl rfl⟩
    · exact deliver_flags ⟨(hfed _).1, (hfed _).2, h₁.2.2⟩ rfl
  rw [takeTurn, wp_catching]
  refine hattempt.mono (fun _ _ h => h) fun e turn₁ h₁ => ?_
  by_cases hcapacity : e.isCapacity = true
  · rw [if_pos hcapacity, Turn.wp_onDesk]
    refine (terminal_moved h₁.2.1).mono ?_ ?_
    · rintro _ desk' ⟨hf, hr, event, he, hid⟩
      exact ⟨[event], by rw [he, h₁.2.2], hr.trans h₁.1, Or.inr ⟨event, rfl,
        hid.trans (congrArg _ h₁.1), fun hfalse =>
          absurd (hfalse.symm.trans hf) Bool.false_ne_true⟩⟩
    · rintro e' desk' ⟨hs, he⟩
      exact ⟨by rw [hs]; exact h₁.1, by rw [hs]; exact h₁.2.1, he.trans h₁.2.2⟩
  · rw [if_neg hcapacity]
    exact h₁

/-! ## One step -/

/-- What holds at every point of every call, over any runner. -/
structure Flags (polled : List GenerationEvent) (engine : Engine σ) : Prop where
  inv : FlagInv engine.seen (polled ++ engine.events) (engine.waiting ++ engine.active)
  fresh : ∀ s ∈ engine.waiting, s.finished = false ∧ s.resident = false

/-- No state of the engine is marked finished. -/
def Clean (engine : Engine σ) : Prop := ∀ s ∈ engine.waiting ++ engine.active, s.finished = false

instance (engine : Engine σ) : Decidable (Clean engine) :=
  inferInstanceAs (Decidable (∀ s ∈ engine.waiting ++ engine.active, s.finished = false))

/-- In the loop over the plan, a value that is not a `std::exception` leaves a
turn when another request of the step is already finished. -/
def turnsLate (model : ModelRunner σ L) : List ScheduledRequest → Iteration σ → Prop
  | [], _ => False
  | work :: order, it => it.plan.hasBudget = true ∧
    match Iteration.turn model work it with
    | (.ok (), it') => turnsLate model order it'
    | (.error e, _) => e.isStd = false ∧ ∃ s ∈ it.engine.active, s.finished = true

/-- `turnsLate` for the iteration the engine is about to make. -/
def iterationLate (model : ModelRunner σ L) (engine : Engine σ) : Prop :=
  match admitWaiting model engine.waiting (Scheduler.admissionCount engine.scheduler
    engine.active.length engine.waiting.length) false engine with
  | (.ok _, engine) => engine.active ≠ [] ∧
    turnsLate model (SchedulePlan.plan engine.scheduler engine.phases).order
      ⟨engine, SchedulePlan.plan engine.scheduler engine.phases⟩
  | (.error _, _) => False

/-- The step the engine is about to make throws late. -/
def ThrowsLate (model : ModelRunner σ L) (engine : Engine σ) : Prop :=
  engine.failed = false ∧ iterationLate model { engine with stepStats := {} }

variable {polled : List GenerationEvent} {engine : Engine σ}

/-- The work the loop has not come to is on unfinished requests. -/
def Untouched (order : List ScheduledRequest) (active : List State) : Prop :=
  ∀ work ∈ order, ∃ s, active[work.activeIndex]? = some s ∧ s.finished = false

/-- One turn keeps the flags right, also where a foreign value escapes. -/
theorem turn_flags {it : Iteration σ} {work : ScheduledRequest} {state : State}
    (h : Flags polled it.engine) (hget : it.engine.active[work.activeIndex]? = some state)
    (hunfinished : state.finished = false) :
    (Iteration.turn model work).wp
      (fun _ it' => Flags polled it'.engine ∧ it'.engine.failed = it.engine.failed ∧
        it'.engine.waiting = it.engine.waiting ∧
        ∃ state', it'.engine.active = it.engine.active.set work.activeIndex state')
      (fun _ it' => Flags polled it'.engine ∧ it'.engine.waiting = it.engine.waiting ∧
        ∃ state', state'.finished = false ∧
          it'.engine.active = it.engine.active.set work.activeIndex state') it := by
  obtain ⟨before, after, hactive, hset⟩ := RunnerSpec.exists_middle hget
  have hinv := h.inv
  rw [hactive, ← List.append_assoc] at hinv
  let start : Turn σ := ⟨⟨it.engine.runner, it.engine.events, state⟩, it.plan, it.engine.stepStats⟩
  have hturn : (takeTurn model work.phase).wp _ _ start := takeTurn_flags hunfinished
  rw [wp, Iteration.turn, hget]
  simp only
  rw [← wp, wp_on]
  refine hturn.mono (fun _ turn' h' => ?_) fun e turn' h' => ?_
  · obtain ⟨new, hevents, hmoved⟩ := h'
    refine ⟨⟨?_, h.fresh⟩, rfl, rfl, _, rfl⟩
    show FlagInv it.engine.seen (polled ++ turn'.desk.events)
      (it.engine.waiting ++ it.engine.active.set work.activeIndex turn'.desk.state)
    rw [hset, hevents, ← List.append_assoc, ← List.append_assoc]
    exact hinv.update hunfinished hmoved
  · obtain ⟨hrequest, hfinished, hevents⟩ := h'
    refine ⟨⟨?_, h.fresh⟩, rfl, _, hfinished, rfl⟩
    show FlagInv it.engine.seen (polled ++ turn'.desk.events)
      (it.engine.waiting ++ it.engine.active.set work.activeIndex turn'.desk.state)
    have hmoved : Moved state turn'.desk.state [] := ⟨hrequest, Or.inl rfl⟩
    have hinv' := hinv.update hunfinished hmoved
    rw [List.append_nil] at hinv'
    rw [hset, hevents, ← List.append_assoc]
    exact hinv'

/-- A round of turns keeps the flags right, by induction on the turns left. -/
theorem turns_flags {order : List ScheduledRequest} {it : Iteration σ}
    (h : Flags polled it.engine) (hindices : (order.map ScheduledRequest.activeIndex).Nodup)
    (horder : Untouched order it.engine.active) :
    (turns model order).wp
      (fun _ it' => Flags polled it'.engine ∧ ¬ turnsLate model order it)
      (fun e it' => Flags polled it'.engine ∧ (e.isStd = true → ¬ turnsLate model order it) ∧
        (e.isStd = false → (Clean it'.engine ↔ ¬ turnsLate model order it))) it := by
  induction order generalizing it with
  | nil =>
    rw [turns, wp_pure]
    exact ⟨h, id⟩
  | cons work order ih =>
    rw [turns, wp_bind, wp_get, wp_ite]
    refine ⟨fun hbudget => ⟨h, fun hlate => ?_⟩, fun hbudget => ?_⟩
    -- no budget: no turn is taken
    · exact Bool.false_ne_true (hbudget.symm.trans hlate.1)
    have hbudget := Bool.eq_true_of_not_eq_false hbudget
    obtain ⟨state, hget, hunfinished⟩ := horder work List.mem_cons_self
    rw [List.map_cons, List.nodup_cons] at hindices
    have hturn : (Iteration.turn model work).wp _ _ it := turn_flags h hget hunfinished
    rw [wp_bind]
    refine wp_iff.mpr ⟨fun _ it' hrun => ?_, fun e it' hrun => ?_⟩
    -- the turn returned; the others by induction
    · obtain ⟨h', -, -, state', hset⟩ := hturn.ok hrun
      have hstep : turnsLate model (work :: order) it ↔ turnsLate model order it' := by
        rw [turnsLate, hrun]
        simp only [hbudget, true_and]
      have horder' : Untouched order it'.engine.active := by
        intro work' hwork'
        obtain ⟨s, hs, hs'⟩ := horder work' (List.mem_cons_of_mem _ hwork')
        have hne : work.activeIndex ≠ work'.activeIndex :=
          fun heq => hindices.1 (heq ▸ List.mem_map_of_mem hwork')
        exact ⟨s, by rw [hset, List.getElem?_set_ne hne]; exact hs, hs'⟩
      rw [hstep]
      exact (ih h' hindices.2 horder').mono (fun _ _ h => h) fun _ _ h => h
    -- the turn threw, and the loop stops there
    · obtain ⟨h', hwaiting, state', hunfinished', hset⟩ := hturn.error hrun
      refine ⟨h', fun hstd hlate => ?_, fun hforeign => ?_⟩
      · rw [turnsLate, hrun] at hlate
        exact Bool.false_ne_true (hlate.2.1.symm.trans hstd)
      rw [turnsLate, hrun]
      simp only [hbudget, true_and, hforeign]
      -- the state of this turn is unfinished before and after it
      obtain ⟨before, after, hactive, hset'⟩ := RunnerSpec.exists_middle hget
      rw [hset' state'] at hset
      constructor
      · rintro hclean ⟨s, hs, hfinished⟩
        rw [hactive] at hs
        rcases List.mem_cons.mp (List.perm_middle.mem_iff.mp hs) with rfl | hs
        · exact Bool.false_ne_true (hunfinished.symm.trans hfinished)
        · have hs' : s ∈ it'.engine.waiting ++ it'.engine.active := by
            rw [hset]
            exact List.mem_append_right _ (List.perm_middle.mem_iff.mpr (List.mem_cons_of_mem _ hs))
          exact Bool.false_ne_true ((hclean s hs').symm.trans hfinished)
      · intro hnone s hs
        rcases List.mem_append.mp hs with hs | hs
        · rw [hwaiting] at hs
          exact (h.fresh s hs).1
        rw [hset] at hs
        rcases List.mem_cons.mp (List.perm_middle.mem_iff.mp hs) with rfl | hs
        · exact hunfinished'
        · refine Bool.eq_false_iff.mpr fun hfinished => hnone ⟨s, ?_, hfinished⟩
          rw [hactive]
          exact List.perm_middle.mem_iff.mpr (List.mem_cons_of_mem _ hs)

omit [Logit L] in
/-- One request of a queue ends or its release throws. -/
theorem terminal_queue {seen : List RequestId} {before after : List State} {state : State}
    {reason : FinishReason} {message : String} {cleanup : TerminalCleanup} {runner : σ}
    {events : List GenerationEvent} (hunfinished : state.finished = false)
    (h : FlagInv seen (polled ++ events) (before ++ state :: after)) :
    (terminal model reason none message cleanup).wp
      (fun _ desk => desk.state.finished = true ∧
        FlagInv seen (polled ++ desk.events) (before ++ desk.state :: after))
      (fun _ desk => desk.state = state ∧ desk.events = events) ⟨runner, events, state⟩ := by
  refine (terminal_moved hunfinished).mono ?_ fun _ _ h => h
  rintro _ desk ⟨hfinished, hrequest, event, hevents, hid⟩
  refine ⟨hfinished, ?_⟩
  rw [hevents, ← List.append_assoc]
  exact h.update hunfinished ⟨hrequest, Or.inr ⟨event, rfl, hid,
    fun hf => absurd (hf.symm.trans hfinished) Bool.false_ne_true⟩⟩

omit [Logit L] in
/-- Ending requests one after another keeps the flags right; if it returns, all are finished. -/
theorem terminalAll_flags {seen : List RequestId} {reason : FinishReason} {message : String}
    {cleanup : TerminalCleanup} :
    ∀ {states before after : List State} {runner runner' : σ}
      {events events' : List GenerationEvent} {r : Except Exn Unit} {states' : List State},
    FlagInv seen (polled ++ events) (before ++ (states ++ after)) →
    terminalAll model reason message cleanup runner events states =
      (r, runner', events', states') →
    FlagInv seen (polled ++ events') (before ++ (states' ++ after)) ∧
      (r = .ok () → ∀ s ∈ states', s.finished = true) ∧
      (cleanup = .runnerManaged ∨ (∀ s ∈ states, s.resident = false) → r = .ok ())
  -- nothing is left to end
  | [], before, after, _, _, _, _, _, _, h, hrun => by
    simp only [terminalAll, Prod.mk.injEq] at hrun
    obtain ⟨rfl, rfl, rfl, rfl⟩ := hrun
    exact ⟨h, fun _ s hs => (List.not_mem_nil hs).elim, fun _ => rfl⟩
  | state :: states, before, after, runner, runner', events, events', r, states', h, hrun => by
    -- the first request: ended, or its runner call threw
    have hhead : (∃ runner₁ events₁ state₁, terminal model reason none message cleanup
          ⟨runner, events, state⟩ = (.ok (), ⟨runner₁, events₁, state₁⟩) ∧
          state₁.finished = true ∧
          FlagInv seen (polled ++ events₁) (before ++ state₁ :: (states ++ after))) ∨
        (∃ e runner₁, terminal model reason none message cleanup ⟨runner, events, state⟩ =
          (.error e, ⟨runner₁, events, state⟩)) ∧
          ¬ (cleanup = .runnerManaged ∨ state.resident = false) := by
      cases hfinished : state.finished with
      | true => exact Or.inl ⟨_, _, _, terminal_finished hfinished, hfinished, h⟩
      | false =>
        have hwp : (terminal model reason none message cleanup).wp _ _ ⟨runner, events, state⟩ :=
          terminal_queue hfinished h
        rcases hterminal : terminal model reason none message cleanup ⟨runner, events, state⟩ with
          ⟨e | _, runner₁, events₁, state₁⟩
        · have hloud : ¬ (cleanup = .runnerManaged ∨ state.resident = false) := by
            intro hquiet
            have hreturns :
              terminal model reason none message cleanup ⟨runner, events, state⟩ = _ :=
              terminal_quiet hfinished hquiet
            rw [hreturns] at hterminal
            cases hterminal
          obtain ⟨rfl, rfl⟩ := hwp.error hterminal
          exact Or.inr ⟨⟨e, runner₁, rfl⟩, hloud⟩
        · obtain ⟨hfinished₁, h₁⟩ := hwp.ok hterminal
          exact Or.inl ⟨_, _, _, rfl, hfinished₁, h₁⟩
    rw [terminalAll] at hrun
    rcases hhead with ⟨runner₁, events₁, state₁, hterminal, hfinished₁, h₁⟩ |
      ⟨⟨e, runner₁, hterminal⟩, hloud⟩
    -- it was ended; the others by induction
    · rw [hterminal] at hrun
      simp only at hrun
      rcases hrest : terminalAll model reason message cleanup runner₁ events₁ states with
        ⟨r₂, runner₂, events₂, rest⟩
      rw [hrest] at hrun
      simp only [Prod.mk.injEq] at hrun
      obtain ⟨rfl, rfl, rfl, rfl⟩ := hrun
      rw [List.append_cons] at h₁
      obtain ⟨h₂, hall, hquiet⟩ := terminalAll_flags h₁ hrest
      rw [← List.append_cons] at h₂
      refine ⟨h₂, fun hok s hs => ?_, fun hq => hquiet (hq.imp_right fun hres s hs =>
        hres s (List.mem_cons_of_mem _ hs))⟩
      rcases List.mem_cons.mp hs with rfl | hs
      · exact hfinished₁
      · exact hall hok s hs
    -- the throw leaves the rest as it is
    · rw [hterminal] at hrun
      simp only [Prod.mk.injEq] at hrun
      obtain ⟨rfl, rfl, rfl, rfl⟩ := hrun
      exact ⟨h, fun hok => (by cases hok), fun hq => absurd (hq.imp_right fun hres =>
        hres state List.mem_cons_self) hloud⟩

/-- Removal leaves no finished state. -/
theorem FlagInv.removeFinished {includeWaiting : Bool}
    (h : FlagInv engine.seen (polled ++ engine.events) (engine.waiting ++ engine.active))
    (hfresh : ∀ s ∈ engine.waiting,
      s.resident = false ∧ (s.finished = true → includeWaiting = true)) :
    Flags polled (engine.removeFinished includeWaiting) ∧
      Clean (engine.removeFinished includeWaiting) := by
  have hactive : ∀ s ∈ (engine.removeFinished includeWaiting).active, s.finished = false := by
    intro s hs
    have := (List.mem_filter.mp hs).2
    simpa using this
  have hwaiting : ∀ s ∈ (engine.removeFinished includeWaiting).waiting,
      s.finished = false ∧ s.resident = false := by
    intro s hs
    rw [Engine.removeFinished] at hs
    cases includeWaiting with
    | false =>
      refine ⟨Bool.eq_false_iff.mpr fun hf => ?_, (hfresh s hs).1⟩
      exact Bool.false_ne_true ((hfresh s hs).2 hf)
    | true =>
      obtain ⟨hmem, hf⟩ := List.mem_filter.mp hs
      exact ⟨by simpa using hf, (hfresh s hmem).1⟩
  refine ⟨⟨h.sublist (List.Sublist.append ?_ List.filter_sublist), hwaiting⟩, fun s hs => ?_⟩
  · show (if includeWaiting = true then _ else _ : List State).Sublist engine.waiting
    cases includeWaiting with
    | false => exact List.Sublist.refl _
    | true => exact List.filter_sublist
  · rcases List.mem_append.mp hs with hs | hs
    · exact (hwaiting s hs).1
    · exact hactive s hs

omit [Logit L] in
/-- A waiting request: it has no sequence, so its end cannot throw. -/
theorem terminal_fresh {state : State} {reason : FinishReason} {message : String} {runner : σ}
    {events : List GenerationEvent} {seen : List RequestId} {before after : List State}
    (hfresh : state.finished = false ∧ state.resident = false)
    (h : FlagInv seen (polled ++ events) (before ++ state :: after)) :
    ∃ runner' events', terminal model reason none message .releaseSequence
        ⟨runner, events, state⟩ = (.ok (), ⟨runner', events', state.over⟩) ∧
      FlagInv seen (polled ++ events') (before ++ after) := by
  have hreturns : terminal model reason none message .releaseSequence ⟨runner, events, state⟩ = _ :=
    terminal_quiet hfresh.1 (Or.inr hfresh.2)
  have hwp : (terminal model reason none message .releaseSequence).wp _ _
      ⟨runner, events, state⟩ := terminal_queue hfresh.1 h
  refine ⟨_, _, hreturns, ?_⟩
  exact (hwp.ok hreturns).2.sublist (List.Sublist.append_left (List.sublist_cons_self _ _) _)

omit [Logit L] in
/-- Admission keeps the flags right. -/
theorem admit_flags {waiting : List State} {slots : Nat} {progressed : Bool} {engine : Engine σ}
    (h : Flags polled engine) (hclean : Clean engine) (hwaiting : engine.waiting = waiting) :
    (admitWaiting model waiting slots progressed).wp
      (fun _ engine' => Flags polled engine' ∧ Clean engine' ∧ engine'.failed = engine.failed)
      (fun _ engine' => Flags polled engine' ∧ Clean engine' ∧ engine'.failed = engine.failed)
      engine := by
  induction waiting generalizing engine slots progressed with
  | nil =>
    rw [admitWaiting, wp_pure]
    exact ⟨h, hclean, rfl⟩
  | cons state waiting ih =>
    have hfresh := h.fresh state (by rw [hwaiting]; exact List.mem_cons_self)
    have hinv := h.inv
    rw [hwaiting] at hinv
    have hrest : ∀ s ∈ waiting, s.finished = false ∧ s.resident = false := fun s hs =>
      h.fresh s (by rw [hwaiting]; exact List.mem_cons_of_mem _ hs)
    have hactive : ∀ s ∈ engine.active, s.finished = false := fun s hs =>
      hclean s (List.mem_append_right _ hs)
    rw [admitWaiting, wp_ite]
    refine ⟨fun _ => ⟨h, hclean, rfl⟩, fun _ => ?_⟩
    simp only [wp_bind, wp_call, wp_get]
    refine wp_any (fun admission runner => ?_) fun _ _ => ⟨⟨h.inv, h.fresh⟩, hclean, trivial⟩
    rw [wp_ite]
    refine ⟨fun _ => ⟨⟨h.inv, h.fresh⟩, hclean, rfl⟩, fun _ => ?_⟩
    rw [wp_ite]
    refine ⟨fun _ => ?_, fun _ => ?_⟩
    · have hhead : FlagInv engine.seen (polled ++ engine.events)
          ([] ++ state :: (waiting ++ engine.active)) := hinv
      obtain ⟨runner', events', hterminal, hinv'⟩ := terminal_fresh hfresh hhead
      rw [wp_bind, wp_on, wp, hterminal]
      simp only [wp_bind, wp_modify]
      refine (ih ⟨hinv', hrest⟩ (fun s hs => ?_) rfl).mono (fun _ _ h => h) fun _ _ h => h
      rcases List.mem_append.mp hs with hs | hs
      · exact (hrest s hs).1
      · exact hactive s hs
    · rw [wp_bind, wp_modify]
      have hperm : (state :: waiting ++ engine.active).Perm
          (waiting ++ (engine.active ++ [state])) := by
        rw [← List.append_assoc]
        exact (List.perm_append_singleton state (waiting ++ engine.active)).symm
      refine (ih ⟨FlagInv.perm (hwaiting ▸ h.inv) hperm, hrest⟩ (fun s hs => ?_) rfl).mono
        (fun _ _ h => h) fun _ _ h => h
      rcases List.mem_append.mp hs with hs | hs
      · exact (hrest s hs).1
      · rcases List.mem_append.mp hs with hs | hs
        · exact hactive s hs
        · rw [List.mem_singleton.mp hs]
          exact hfresh.1

omit [Logit L] in
/-- The handler empties the engine. -/
theorem fail_flags {e : Exn} (h : Flags polled engine) :
    Flags polled (engine.fail model e) ∧ Clean (engine.fail model e) := by
  rw [Engine.fail]
  rcases model.clear engine.runner with ⟨cleared, runner⟩
  simp only
  generalize failureMessage e cleared = message
  rcases hactive : terminalAll model .error message .runnerManaged runner engine.events
    engine.active with ⟨r₁, runner₁, events₁, active₁⟩
  have hinv := h.inv
  rw [← List.append_nil engine.active] at hinv
  obtain ⟨hinv₁, hall₁, hok₁⟩ := terminalAll_flags hinv hactive
  rcases hwaiting : terminalAll model .error message .runnerManaged runner₁ events₁
    engine.waiting with ⟨r₂, runner₂, events₂, waiting₂⟩
  rw [List.append_nil, ← List.nil_append (engine.waiting ++ active₁)] at hinv₁
  obtain ⟨hinv₂, hall₂, hok₂⟩ := terminalAll_flags hinv₁ hwaiting
  rw [List.nil_append] at hinv₂
  have hempty₁ := RunnerSpec.filter_finished_eq_nil (hall₁ (hok₁ (Or.inl rfl)))
  have hempty₂ := RunnerSpec.filter_finished_eq_nil (hall₂ (hok₂ (Or.inl rfl)))
  simp only [terminalActive, hactive, terminalWaiting, hwaiting, Engine.removeFinished, if_true,
    hempty₁, hempty₂]
  exact ⟨⟨hinv₂.sublist (List.nil_sublist _), fun _ hs => (List.not_mem_nil hs).elim⟩,
    fun _ hs => (List.not_mem_nil hs).elim⟩

theorem untouched_plan (h : Clean engine) :
    Untouched (SchedulePlan.plan engine.scheduler engine.phases).order engine.active := by
  intro work hwork
  have hget := SchedulePlan.mem_order.mp hwork
  rw [Engine.phases, List.getElem?_map, Option.map_eq_some_iff] at hget
  obtain ⟨s, hs, -⟩ := hget
  exact ⟨s, hs, h s (List.mem_append_right _ (List.mem_of_getElem? hs))⟩

/-- An iteration keeps the flags right, and leaves a finished request only by a late foreign
throw. -/
theorem iterate_flags (h : Flags polled engine) (hclean : Clean engine) :
    (iterate model).wp
      (fun _ it => Flags polled it.engine ∧ Clean it.engine ∧ ¬ iterationLate model engine)
      (fun e it => Flags polled it.engine ∧ (e.isStd = true → ¬ iterationLate model engine) ∧
        (e.isStd = false → (Clean it.engine ↔ ¬ iterationLate model engine))) { engine } := by
  have hadmit : (admitWaiting model engine.waiting (Scheduler.admissionCount engine.scheduler
      engine.active.length engine.waiting.length) false).wp _ _ engine :=
    admit_flags h hclean rfl
  rw [iterate, wp_bind, wp_get, wp_bind, wp_on, iterationLate]
  refine wp_iff.mpr ⟨fun b engine₁ hrun => ?_, fun e engine₁ hrun => ?_⟩
  · have hrun : admitWaiting model engine.waiting (Scheduler.admissionCount engine.scheduler
        engine.active.length engine.waiting.length) false engine = (.ok b, engine₁) := hrun
    obtain ⟨h₁, hclean₁, -⟩ := hadmit.ok hrun
    rw [hrun, wp_bind, wp_get, wp_ite]
    refine ⟨fun hactive => ⟨h₁, hclean₁, fun hlate => hlate.1 hactive⟩, fun hactive => ?_⟩
    rw [wp_bind, wp_modify, wp_bind, wp_get, wp_bind]
    let start : Iteration σ := ⟨engine₁, SchedulePlan.plan engine₁.scheduler engine₁.phases⟩
    have hturns : (turns model start.plan.order).wp _ _ start :=
      turns_flags h₁ SchedulePlan.order_nodup (untouched_plan hclean₁)
    have hlate : (engine₁.active ≠ [] ∧ turnsLate model start.plan.order start) ↔
        turnsLate model start.plan.order start := and_iff_right hactive
    show (turns model start.plan.order).wp _ (fun e it => Flags polled it.engine ∧
      (e.isStd = true → ¬ (engine₁.active ≠ [] ∧ turnsLate model start.plan.order start)) ∧
      (e.isStd = false → (Clean it.engine ↔
        ¬ (engine₁.active ≠ [] ∧ turnsLate model start.plan.order start)))) start
    rw [hlate]
    refine hturns.mono (fun _ it h₂ => ?_) fun _ _ h => h
    rw [wp_bind, wp_modify, wp_pure]
    obtain ⟨hflags, hclean₂⟩ := FlagInv.removeFinished h₂.1.inv fun s hs =>
      ⟨(h₂.1.fresh s hs).2, fun hf => absurd ((h₂.1.fresh s hs).1.symm.trans hf) Bool.false_ne_true⟩
    exact ⟨hflags, hclean₂, fun hl => h₂.2 hl.2⟩
  · have hrun : admitWaiting model engine.waiting (Scheduler.admissionCount engine.scheduler
        engine.active.length engine.waiting.length) false engine = (.error e, engine₁) := hrun
    obtain ⟨h₁, hclean₁, -⟩ := hadmit.error hrun
    rw [hrun]
    exact ⟨h₁, fun _ => id, fun _ => ⟨fun _ => id, fun _ => hclean₁⟩⟩

/-- A step, returning or not, leaves a finished state exactly when it throws late. -/
theorem step_flags (h : Flags polled engine) (hclean : Clean engine) :
    Flags polled (Engine.step model engine).2 ∧
      (Clean (Engine.step model engine).2 ↔ ¬ ThrowsLate model engine) := by
  have hstart : Flags polled { engine with stepStats := {} } := ⟨h.inv, h.fresh⟩
  have hiterate : (iterate model).wp _ _ { engine := { engine with stepStats := {} } } :=
    iterate_flags hstart hclean
  rw [Engine.step, Engine.iteration, ThrowsLate]
  by_cases hfailed : engine.failed = true
  · rw [if_pos hfailed]
    exact ⟨⟨h.inv, h.fresh⟩, fun _ hlate => Bool.false_ne_true (hlate.1.symm.trans hfailed),
      fun _ => hclean⟩
  · rw [if_neg hfailed, and_iff_right (Bool.eq_false_iff.mpr hfailed)]
    rcases hrun : iterate model { engine := { engine with stepStats := {} } } with ⟨e | b, it⟩
    · obtain ⟨hflags, hstd, hforeign⟩ := hiterate.error hrun
      by_cases he : e.isStd = true
      · simp only [if_pos he]
        obtain ⟨hflags', hclean'⟩ : Flags polled (it.engine.fail model e) ∧ _ := fail_flags hflags
        exact ⟨hflags', fun _ => hstd he, fun _ => hclean'⟩
      · simp only [if_neg he]
        exact ⟨hflags, hforeign (Bool.eq_false_iff.mpr he)⟩
    · obtain ⟨hflags, hclean', hlate⟩ := hiterate.ok hrun
      exact ⟨hflags, fun _ => hlate, fun _ => hclean'⟩

/-! ## The other calls -/

omit [Logit L] in
/-- A submission keeps the flags right. -/
theorem submit_flags {request : Request} (h : Flags polled engine) (hclean : Clean engine) :
    Flags polled (Engine.submit model request engine).2 ∧
      Clean (Engine.submit model request engine).2 := by
  have hwp : (Engine.submit model request).wp
      (fun _ engine' => Flags polled engine' ∧ Clean engine')
      (fun _ engine' => Flags polled engine' ∧ Clean engine') engine := by
    rw [Engine.submit, wp_bind, wp_get, wp_bind, wp_throwIf]
    refine ⟨fun _ => ⟨h, hclean⟩, fun _ => ?_⟩
    rw [wp_bind, wp_throwIf]
    refine ⟨fun _ => ⟨h, hclean⟩, fun hchecks => ?_⟩
    simp only [not_or] at hchecks
    obtain ⟨-, hseen, -⟩ := hchecks
    rw [wp_bind, wp_call]
    refine wp_any (fun _ s₁ => ?_) fun _ _ => ⟨⟨h.inv, h.fresh⟩, hclean⟩
    rw [wp_bind, wp_call]
    refine wp_any (fun _ s₂ => ?_) fun _ _ => ⟨⟨h.inv, h.fresh⟩, hclean⟩
    rw [wp_modify]
    have hmem : ∀ s ∈ engine.waiting ++ [({ request } : State)] ++ engine.active,
        s = { request } ∨ s ∈ engine.waiting ++ engine.active := by
      intro s hs
      simp only [List.mem_append, List.mem_singleton] at hs ⊢
      tauto
    have hunended : Unended request.id (polled ++ engine.events) := fun e he hid =>
      absurd (hid ▸ h.inv.known e he) hseen
    refine ⟨⟨⟨?_, fun s hs => ?_, fun e he => List.mem_cons_of_mem _ (h.inv.known e he),
      fun s hs hf => ?_, h.inv.last⟩, fun s hs => ?_⟩, fun s hs => ?_⟩
    · show ((engine.waiting ++ [({ request } : State)] ++ engine.active).map _).Nodup
      have hperm : (engine.waiting ++ [({ request } : State)] ++ engine.active).Perm
          ({ request } :: (engine.waiting ++ engine.active)) := by
        rw [List.append_assoc]
        exact List.perm_middle
      refine ((hperm.map fun s : State => s.request.id).nodup_iff).mpr (List.nodup_cons.mpr
        ⟨fun hin => ?_, h.inv.ids⟩)
      obtain ⟨s, hs, heq⟩ := List.mem_map.mp hin
      have hmem := h.inv.accepted s hs
      simp only at heq
      rw [heq] at hmem
      exact hseen hmem
    · rcases hmem s hs with rfl | hs
      · exact List.mem_cons_self
      · exact List.mem_cons_of_mem _ (h.inv.accepted s hs)
    · rcases hmem s hs with rfl | hs
      · exact hunended
      · exact h.inv.unended s hs hf
    · rcases List.mem_append.mp hs with hs | hs
      · exact h.fresh s hs
      · rw [List.mem_singleton.mp hs]
        exact ⟨rfl, rfl⟩
    · rcases hmem s hs with rfl | hs
      · rfl
      · exact hclean s hs
  rcases hrun : Engine.submit model request engine with ⟨e | _, engine'⟩
  · exact hwp.error hrun
  · exact hwp.ok hrun

omit [Logit L] in
/-- A cancellation keeps the flags right. -/
theorem cancel_flags {id : RequestId} (h : Flags polled engine) (hclean : Clean engine) :
    Flags polled (Engine.cancel model id engine).2 ∧ Clean (Engine.cancel model id engine).2 := by
  have hwp : (Engine.cancel model id).wp
      (fun _ engine' => Flags polled engine' ∧ Clean engine')
      (fun _ engine' => Flags polled engine' ∧ Clean engine') engine := by
    have hresident : ∀ s ∈ engine.waiting, s.resident = false ∧
        (s.finished = true → false = true) := fun s hs =>
      ⟨(h.fresh s hs).2, fun hf => (h.fresh s hs).1.symm.trans hf⟩
    rw [Engine.cancel, wp_bind, wp_get]
    rcases hwaiting : findRequest id engine.waiting with _ | ⟨before, state, after⟩
    · rcases hactive : findRequest id engine.active with _ | ⟨before, state, after⟩
      · simp only [wp_throw]
        exact ⟨h, hclean⟩
      obtain ⟨heq, -, hfinished⟩ := RunnerSpec.findRequest_some hactive
      have hinv := h.inv
      rw [heq, ← List.append_assoc] at hinv
      simp only [wp_bind, wp_on, wp_modify]
      refine (terminal_queue hfinished hinv).mono ?_ ?_
      · rintro _ desk ⟨-, hinv'⟩
        refine FlagInv.removeFinished ?_ hresident
        rw [List.append_assoc] at hinv'
        exact hinv'
      · rintro _ desk ⟨hstate, hevents⟩
        rw [hstate, hevents, ← heq]
        exact ⟨⟨h.inv, h.fresh⟩, hclean⟩
    · obtain ⟨heq, -, hfinished⟩ := RunnerSpec.findRequest_some hwaiting
      have hfresh := h.fresh state (by rw [heq]; simp)
      have hinv := h.inv
      rw [heq, List.append_assoc, List.cons_append] at hinv
      obtain ⟨runner', events', hterminal, -⟩ : ∃ runner' events',
          terminal model .cancelled none "" .releaseSequence
            ⟨engine.runner, engine.events, state⟩ = (.ok (), ⟨runner', events', state.over⟩) ∧ _ :=
        terminal_fresh hfresh hinv
      have hqueue : (terminal model .cancelled none "" .releaseSequence).wp _ _
          ⟨engine.runner, engine.events, state⟩ := terminal_queue hfinished hinv
      simp only [wp_bind, wp_on, wp_modify]
      have hfresh' : ∀ s ∈ before ++ state.over :: after,
          s.resident = false ∧ (s.finished = true → true = true) := by
        intro s hs
        refine ⟨?_, fun _ => rfl⟩
        rcases List.mem_cons.mp (List.perm_middle.mem_iff.mp hs) with rfl | hs
        · rfl
        · refine (h.fresh s ?_).2
          rw [heq]
          exact List.perm_middle.mem_iff.mpr (List.mem_cons_of_mem _ hs)
      have hinv' := (hqueue.ok hterminal).2
      rw [← List.cons_append, ← List.append_assoc] at hinv'
      rw [wp, hterminal]
      exact FlagInv.removeFinished hinv' hfresh'
  rcases hrun : Engine.cancel model id engine with ⟨e | _, engine'⟩
  · exact hwp.error hrun
  · exact hwp.ok hrun

omit [Logit L] in
/-- A shutdown keeps the flags right. -/
theorem shutdown_flags (h : Flags polled engine) :
    Flags polled (Engine.shutdown model engine).2 ∧ Clean (Engine.shutdown model engine).2 := by
  have hwp : (Engine.shutdown model).wp
      (fun _ engine' => Flags polled engine' ∧ Clean engine')
      (fun _ engine' => Flags polled engine' ∧ Clean engine') engine := by
    rcases hloop : terminalAll model .cancelled "" .releaseSequence engine.runner engine.events
      engine.active with ⟨r₁, runner₁, events₁, active₁⟩
    have hactive : terminalActive model .cancelled "" .releaseSequence engine =
        (r₁, { engine with runner := runner₁, events := events₁, active := active₁ }) := by
      rw [terminalActive, hloop]
    have hinv := h.inv
    rw [← List.append_nil engine.active] at hinv
    have hinv₁ := (terminalAll_flags hinv hloop).1
    rw [List.append_nil] at hinv₁
    have hfresh : ∀ s ∈ engine.waiting, s.resident = false ∧ (s.finished = true → true = true) :=
      fun s hs => ⟨(h.fresh s hs).2, fun _ => rfl⟩
    rw [Engine.shutdown, wp_bind, wp_catching, wp_bind, wp_iff, hactive]
    refine ⟨?_, ?_⟩
    · rintro ⟨⟩ engine₁ heq
      simp only [Prod.mk.injEq] at heq
      obtain ⟨rfl, rfl⟩ := heq
      rcases hloop₂ : terminalAll model .cancelled "" .releaseSequence runner₁ events₁
        engine.waiting with ⟨r₂, runner₂, events₂, waiting₂⟩
      rw [← List.nil_append (engine.waiting ++ active₁)] at hinv₁
      obtain ⟨hinv₂, hall₂, hok₂⟩ := terminalAll_flags hinv₁ hloop₂
      obtain rfl := hok₂ (Or.inr fun s hs => (h.fresh s hs).2)
      rw [List.nil_append] at hinv₂
      have hwaiting : terminalWaiting model .cancelled "" .releaseSequence
          { engine with runner := runner₁, events := events₁, active := active₁ } =
          (.ok (), { engine with
            runner := runner₂, events := events₂, active := active₁, waiting := waiting₂ }) := by
        rw [terminalWaiting, hloop₂]
      rw [wp, hwaiting]
      simp only
      rw [wp_bind, wp_modify, wp_call]
      have hempty₁ := RunnerSpec.filter_finished_eq_nil ((terminalAll_flags hinv hloop).2.1 rfl)
      have hempty₂ := RunnerSpec.filter_finished_eq_nil (hall₂ rfl)
      -- nothing is left, whatever `clear` does
      simp only [Engine.removeFinished, if_true, hempty₁, hempty₂]
      have hinv₃ : FlagInv engine.seen (polled ++ events₂) [] :=
        hinv₂.sublist (List.nil_sublist _)
      exact wp_any
        (fun _ s => ⟨⟨hinv₃, fun _ hs => (List.not_mem_nil hs).elim⟩,
          fun _ hs => (List.not_mem_nil hs).elim⟩)
        fun _ s => ⟨⟨hinv₃, fun _ hs => (List.not_mem_nil hs).elim⟩,
          fun _ hs => (List.not_mem_nil hs).elim⟩
    · rintro e engine₁ heq
      simp only [Prod.mk.injEq] at heq
      obtain ⟨rfl, rfl⟩ := heq
      rw [if_pos rfl, wp_bind, wp_modify, wp_throw]
      exact FlagInv.removeFinished hinv₁ hfresh
  rcases hrun : Engine.shutdown model engine with ⟨e | _, engine'⟩
  · exact hwp.error hrun
  · exact hwp.ok hrun

omit [Logit L] in
/-- A new engine has nothing to account for. -/
theorem construct_flags {runner : σ} {config : EngineConfig}
    (hrun : Engine.construct model runner config = .ok engine) :
    Flags [] engine ∧ Clean engine := by
  obtain ⟨hwaiting, hactive, hevents⟩ :
      engine.waiting = [] ∧ engine.active = [] ∧ engine.events = [] := by
    rw [Engine.construct] at hrun
    rcases hscheduler : schedulerConfig config with e | scheduler
    · rw [hscheduler] at hrun
      cases hrun
    · rw [hscheduler] at hrun
      simp only at hrun
      rcases hcheck : checkContext model config runner with ⟨e | _, runner'⟩
      · rw [hcheck] at hrun
        cases hrun
      · rw [hcheck] at hrun
        cases hrun
        exact ⟨rfl, rfl, rfl⟩
  rw [Clean, hwaiting, hactive]
  refine ⟨⟨?_, fun s hs => ?_⟩, fun _ hs => (List.not_mem_nil hs).elim⟩
  · rw [hwaiting, hactive, hevents]
    exact ⟨List.nodup_nil, fun _ hs => (List.not_mem_nil hs).elim,
      fun _ he => (List.not_mem_nil he).elim, fun _ hs => (List.not_mem_nil hs).elim,
      fun before event after hsplit => by simp at hsplit⟩
  · rw [hwaiting] at hs
    exact (List.not_mem_nil hs).elim

/-- Every call but a step that throws late leaves no finished state behind. -/
theorem call_flags {s : EngineSystem σ} (h : Flags s.polled s.engine) (hclean : Clean s.engine)
    (op : EngineOp) (hlate : op = .step → ¬ ThrowsLate model s.engine) :
    Flags (s.step model op).2.polled (s.step model op).2.engine ∧
      Clean (s.step model op).2.engine := by
  cases op with
  | submit request =>
    have hsubmit : Flags s.polled (Engine.submit model request s.engine).2 ∧ _ :=
      submit_flags h hclean
    rw [EngineSystem.step]
    rcases hrun : Engine.submit model request s.engine with ⟨e | _, engine'⟩
    · rw [hrun] at hsubmit
      exact hsubmit
    · rw [hrun] at hsubmit
      exact hsubmit
  | step =>
    obtain ⟨hflags, hiff⟩ : Flags s.polled (Engine.step model s.engine).2 ∧ _ :=
      step_flags h hclean
    exact ⟨hflags, hiff.mpr (hlate rfl)⟩
  | cancel id => exact cancel_flags h hclean
  | pollEvents =>
    refine ⟨⟨?_, h.fresh⟩, hclean⟩
    show FlagInv s.engine.seen (s.polled ++ s.engine.events ++ []) _
    rw [List.append_nil]
    exact h.inv
  | shutdown => exact shutdown_flags h

theorem run_flags {s : EngineSystem σ} (h : Flags s.polled s.engine) (hclean : Clean s.engine)
    {ops : List EngineOp} (hlate : ∀ before after, ops = before ++ .step :: after →
      ¬ ThrowsLate model (EngineSystem.run model s before).engine) :
    Flags (EngineSystem.run model s ops).polled (EngineSystem.run model s ops).engine ∧
      Clean (EngineSystem.run model s ops).engine := by
  induction ops generalizing s with
  | nil => exact ⟨h, hclean⟩
  | cons op ops ih =>
    have hcall := call_flags h hclean op fun hop => hlate [] ops (by rw [hop]; rfl)
    refine ih hcall.1 hcall.2 fun before after heq => ?_
    exact hlate (op :: before) after (by rw [heq]; rfl)

end Engine

/-- No finished request survives in an engine, whatever its runner throws, as
long as no step lets a value other than a `std::exception` out of a turn after
another request of that step was finished. -/
theorem no_finished_survives {σ L : Type} [Logit L] {model : ModelRunner σ L} {runner : σ}
    {config : EngineConfig} {engine : Engine σ}
    (hconstruct : Engine.construct model runner config = .ok engine) {ops : List EngineOp}
    (hlate : ∀ before after, ops = before ++ .step :: after →
      ¬ Engine.ThrowsLate model (EngineSystem.run model { engine } before).engine) :
    (∀ state ∈ (EngineSystem.run model { engine } ops).engine.waiting ++
      (EngineSystem.run model { engine } ops).engine.active, state.finished = false) ∧
    (∀ event ∈ (EngineSystem.run model { engine } ops).emitted,
      event.finishReason.isSome = true →
      ∀ state ∈ (EngineSystem.run model { engine } ops).engine.waiting ++
        (EngineSystem.run model { engine } ops).engine.active,
        state.request.id ≠ event.requestId) ∧
    EndsLast (EngineSystem.run model { engine } ops).emitted := by
  obtain ⟨hflags, hclean⟩ := Engine.construct_flags hconstruct
  obtain ⟨hflags', hclean'⟩ := Engine.run_flags (s := { engine }) hflags hclean hlate
  refine ⟨hclean', fun event he hterminal state hs hid => ?_, hflags'.inv.last⟩
  have hnone := hflags'.inv.unended state hs (hclean' state hs) event he hid.symm
  rw [hnone] at hterminal
  cases hterminal

/-! ## Runners that throw `std::exception`s only -/

namespace Engine

section StdTurns

variable {σ L : Type} {model : ModelRunner σ L}

/-- Whatever leaves `x` is a `std::exception`. -/
def Std {τ α : Type} (x : Throwing Exn τ α) : Prop := ThrowsOnly (fun e => e.isStd = true) x

theorem terminal_std (hstd : model.ThrowsStd) (reason : FinishReason) (token : Option TokenId)
    (error : String) (cleanup : TerminalCleanup) :
    Std (terminal model reason token error cleanup) := by
  intro desk
  rw [terminal, wp_bind, wp_get, wp_ite]
  refine ⟨fun _ => trivial, fun _ => ?_⟩
  rw [wp_bind, wp_when]
  refine ⟨fun _ => ?_, fun _ => by rw [wp_modify]; trivial⟩
  rw [Desk.call, wp_on]
  exact (hstd.release _).wp (fun _ _ => by rw [wp_modify]; trivial) fun _ _ he => he

theorem restorePrefix_std (hstd : model.ThrowsStd) : Std (restorePrefix model) := by
  intro turn
  simp only [restorePrefix, wp_bind, wp_get, Turn.wp_call, Turn.wp_update, wp_throwIf,
    Turn.wp_count]
  refine (hstd.create _).wp (fun _ _ => ?_) fun _ _ he => he
  refine (hstd.reusePrefix _ _).wp (fun _ _ => ?_) fun _ _ he => he
  exact hstd.kvBlockTokens.wp (fun _ _ => ⟨fun _ => rfl, fun _ => trivial⟩) fun _ _ he => he

theorem takeInput_std (phase : SchedulePhase) (unprefilledTokens : Nat) :
    Std (SchedulePlan.takeInput phase unprefilledTokens) := by
  intro plan
  simp only [SchedulePlan.takeInput, wp_bind, wp_get, wp_modify, wp_ite, wp_throwIf, wp_pure]
  exact ⟨fun _ => trivial, fun _ => ⟨fun _ => rfl, fun _ => trivial⟩⟩

variable [Logit L]

theorem deliver_std (hstd : model.ThrowsStd) (request : Request) (logits : List L) :
    Std (deliver model request logits) := by
  intro turn
  simp only [deliver, wp_bind, Turn.wp_call, wp_throwIf, Turn.wp_update, wp_get]
  refine hstd.config.wp (fun _ _ => ⟨fun _ => rfl, fun _ => ⟨fun _ => rfl, fun _ => ?_⟩⟩)
    fun _ _ he => he
  refine (hstd.cachePrefix _).wp (fun _ _ => ?_) fun _ _ he => he
  simp only [wp_ite, Turn.wp_onDesk, wp_modify]
  exact ⟨fun _ => terminal_std hstd _ _ _ _ _, fun _ =>
    ⟨fun _ => terminal_std hstd _ _ _ _ _, fun _ => trivial⟩⟩

/-- A turn throws only standard exceptions if the runner does. -/
theorem takeTurn_std (hstd : model.ThrowsStd) (phase : SchedulePhase) :
    Std (takeTurn model phase) := by
  have hattempt : Std (attempt model phase) := by
    unfold attempt
    refine throwsOnly_get.bind fun turn => .bind (fun turn => ?_) fun _ =>
      throwsOnly_get.bind fun turn₁ => .bind (fun turn => ?_) fun count =>
      .bind (fun turn => ?_) fun logits => .bind (fun turn => ?_) fun _ =>
      throwsOnly_get.bind fun turn₂ turn => ?_
    · rw [wp_when]
      exact ⟨fun _ => restorePrefix_std hstd turn, fun _ => trivial⟩
    · rw [Turn.takeInput, wp_on]
      exact takeInput_std _ _ _
    · rw [Turn.wp_call]
      exact hstd.append _ _ _
    · exact Turn.wp_appended fun _ => trivial
    · rw [wp_ite]
      exact ⟨fun _ => trivial, fun _ => deliver_std hstd _ _ _⟩
  intro turn
  rw [takeTurn, wp_catching]
  refine (hattempt turn).mono (fun _ _ h => h) fun e turn₁ he => ?_
  split
  · rw [Turn.wp_onDesk]
    exact terminal_std hstd _ _ _ _ _
  · exact he

/-- A step throws late only where a turn throws another value than a `std::exception`. -/
theorem not_turnsLate (hturn : ∀ work, Std (Iteration.turn model work))
    (order : List ScheduledRequest) (it : Iteration σ) : ¬ turnsLate model order it := by
  induction order generalizing it with
  | nil => exact id
  | cons work order ih =>
    rintro ⟨-, hlate⟩
    rcases hrun : Iteration.turn model work it with ⟨e | _, it'⟩
    · rw [hrun] at hlate
      exact Bool.false_ne_true (hlate.1.symm.trans ((hturn work it).error hrun))
    · rw [hrun] at hlate
      exact ih it' hlate

/-- Over a runner that throws `std::exception`s only, no step throws late. -/
theorem not_throwsLate (hstd : model.ThrowsStd) (engine : Engine σ) :
    ¬ ThrowsLate model engine := by
  have hturn (work : ScheduledRequest) : Std (Iteration.turn model work) := by
    intro it
    rw [wp, Iteration.turn]
    rcases it.engine.active[work.activeIndex]? with _ | state
    · trivial
    · rw [← wp, wp_on]
      exact takeTurn_std hstd work.phase _
  rintro ⟨-, hlate⟩
  unfold iterationLate at hlate
  split at hlate
  · exact not_turnsLate hturn _ _ hlate.2
  · exact hlate

end StdTurns

end Engine

/-- Its first `append` throws `KvCapacityError`, its second one an `int`; the
state counts them. -/
def foreignRunner : ModelRunner Nat Int where
  config := pure { vocabulary := 4, context := 128 }
  contextLimit := pure 128
  reserveRequest _ _ := pure .ready
  releaseReservation _ calls := calls
  create _ := pure ()
  reusePrefix _ _ := pure 0
  cachePrefix _ := pure ()
  append _ _ := fun calls =>
    match calls with
    | 0 => (.error (.kvCapacityError "no page"), 1)
    | 1 => (.error .foreign, 2)
    | calls => (.ok [0, 0, 1, 0], calls)
  release _ := pure ()
  clear := pure ()
  kvBlockTokens := pure 0

def foreignEngine (calls : Nat) : Engine Nat where
  runner := calls
  config := { context := 128 }
  scheduler := testEngine.scheduler

/-- A capacity error ends `first`, then the `int` for `second` leaves the step:
`first` stays in `active_` finished, and the next step gives it another turn,
which emits a token after its terminal event. -/
theorem finished_survives_foreign :
    Engine.construct foreignRunner 0 { context := 128 } = .ok (foreignEngine 0) ∧
    (EngineSystem.run foreignRunner { engine := foreignEngine 0 }
      [.submit ⟨"first", [1], {}⟩, .submit ⟨"second", [1], {}⟩, .step]).engine.active.map
        (fun state => (state.request.id, state.finished)) =
      [("first", true), ("second", false)] ∧
    (EngineSystem.run foreignRunner { engine := foreignEngine 0 }
      [.submit ⟨"first", [1], {}⟩, .submit ⟨"second", [1], {}⟩, .step, .step]).emitted =
      [⟨"first", none, some .error, "no page"⟩, ⟨"first", some 2, none, ""⟩,
        ⟨"second", some 2, none, ""⟩] := by
  refine ⟨rfl, ?_, ?_⟩
  · decide +kernel
  · decide +kernel

/-- The `int` leaves the first turn of a step: nothing is finished, so the
request goes on. -/
theorem no_finished_survives_first_turn :
    (∀ state ∈ (EngineSystem.run foreignRunner { engine := foreignEngine 1 }
        [.submit ⟨"second", [1], {}⟩, .step]).engine.waiting ++
      (EngineSystem.run foreignRunner { engine := foreignEngine 1 }
        [.submit ⟨"second", [1], {}⟩, .step]).engine.active, state.finished = false) ∧
      (EngineSystem.run foreignRunner { engine := foreignEngine 1 }
        [.submit ⟨"second", [1], {}⟩, .step]).engine.active.length = 1 := by
  have hconstruct : Engine.construct foreignRunner 1 { context := 128 } = .ok (foreignEngine 1) :=
    rfl
  obtain ⟨hflags, hclean⟩ := Engine.construct_flags hconstruct
  have hsubmit :
      Engine.Flags (EngineSystem.step foreignRunner { engine := foreignEngine 1 }
        (.submit ⟨"second", [1], {}⟩)).2.polled _ ∧ _ :=
    Engine.call_flags hflags hclean _ fun h => by cases h
  have hstep : Engine.Flags _ (Engine.step foreignRunner _).2 ∧ _ :=
    Engine.step_flags hsubmit.1 hsubmit.2
  have hlate := hstep.2.mp (by decide +kernel)
  refine ⟨(no_finished_survives hconstruct fun before after heq => ?_).1, by decide +kernel⟩
  rcases before with _ | ⟨_, _ | ⟨_, before⟩⟩
  · cases heq
  · simp only [List.cons_append, List.nil_append, List.cons.injEq] at heq
    rw [← heq.1]
    exact hlate
  · simp at heq

end TinyInfer.MiniPrefix
