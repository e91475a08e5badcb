import TinyInfer.MiniPrefix.RunnerCalls

/-!
# What happens outside the turns

Admission, cancellation, the handlers and the removal of finished states make no
call that a logged runner records. They take requests out of the queue, each with
an event that carries no token, and leave the other requests as they are, in the
order of their submission.

- `Quiet slots engine engine'`: that is all that has happened from `engine` to
  `engine'`, and at most `slots` requests have been admitted.
- `admit_quiet`, `fail_quiet`, `cancel_quiet`, `shutdown_quiet`: the functions of
  `engine.cpp` that do no more.
-/

namespace TinyInfer.MiniPrefix

open Lib Engine Throwing

/-- The states of an engine, in the order their requests were submitted. -/
def Engine.queue {σ : Type} (engine : Engine σ) : List State := engine.active ++ engine.waiting

/-- The states whose requests are not over. -/
def unfinished (states : List State) : List State := states.filter fun state => !state.finished

/-- The ids of the requests of some states. -/
def idsOf (states : List State) : List RequestId := states.map fun state => state.request.id

/-- An event that ends a request without a token. -/
def GenerationEvent.Aborts (event : GenerationEvent) : Prop :=
  event.tokenId = none ∧
    (event.finishReason = some .cancelled ∨ event.finishReason = some .error)

@[simp] theorem mem_unfinished {state : State} {states : List State} :
    state ∈ unfinished states ↔ state ∈ states ∧ state.finished = false := by
  rw [unfinished, List.mem_filter, Bool.not_eq_true']

@[simp] theorem unfinished_append {a b : List State} :
    unfinished (a ++ b) = unfinished a ++ unfinished b := List.filter_append ..

/-- Where no request is finished, all remain. -/
theorem unfinished_eq_self {states : List State} (h : ∀ s ∈ states, s.finished = false) :
    unfinished states = states := RunnerSpec.filter_unfinished_eq_self h

@[simp] theorem idsOf_append {a b : List State} : idsOf (a ++ b) = idsOf a ++ idsOf b :=
  List.map_append ..

theorem mem_idsOf {state : State} {states : List State} (h : state ∈ states) :
    state.request.id ∈ idsOf states := List.mem_map_of_mem h

theorem unfinished_sublist {a b : List State} (h : a.Sublist b) :
    (unfinished a).Sublist (unfinished b) := h.filter _

/-! ## States that end -/

/-- Some of `states` have ended, with the events `new`. -/
structure Ends (states states' : List State) (new : List GenerationEvent) : Prop where
  requests : states'.map State.request = states.map State.request
  rest : (unfinished states').Sublist (unfinished states)
  aborts : ∀ event ∈ new, event.Aborts
  own : ∀ event ∈ new, event.requestId ∈ idsOf states
  other : ∀ state ∈ unfinished states', ∀ event ∈ new, event.requestId ≠ state.request.id

theorem idsOf_eq_map {states : List State} :
    idsOf states = (states.map State.request).map Request.id := by
  rw [idsOf, List.map_map]
  rfl

/-- Ending requests keeps who they are. -/
theorem Ends.ids {states states' : List State} {new : List GenerationEvent}
    (h : Ends states states' new) : idsOf states' = idsOf states := by
  rw [idsOf_eq_map, idsOf_eq_map, h.requests]

theorem Ends.refl {states : List State} : Ends states states [] :=
  ⟨rfl, List.Sublist.refl _, fun _ h => (List.not_mem_nil h).elim,
    fun _ h => (List.not_mem_nil h).elim, fun _ _ _ h => (List.not_mem_nil h).elim⟩

/-- One request ends by its one abort event. -/
theorem Ends.single {state : State} {event : GenerationEvent}
    (hid : event.requestId = state.request.id) (haborts : event.Aborts) :
    Ends [state] [state.over] [event] where
  requests := rfl
  rest := List.nil_sublist _
  aborts e he := by rwa [List.mem_singleton.mp he]
  own e he := by
    rw [List.mem_singleton.mp he, hid]
    exact mem_idsOf (List.mem_singleton_self state)
  other s hs := by
    obtain ⟨hs, hfinished⟩ := mem_unfinished.mp hs
    rw [List.mem_singleton.mp hs] at hfinished
    cases hfinished

/-- Two groups of different requests end by the events of both. -/
theorem Ends.append {a a' b b' : List State} {new new' : List GenerationEvent}
    (hids : (idsOf (a ++ b)).Nodup) (ha : Ends a a' new) (hb : Ends b b' new') :
    Ends (a ++ b) (a' ++ b') (new ++ new') := by
  rw [idsOf_append, List.nodup_append] at hids
  -- an event for one half is for no state of the other
  have hapart : ∀ event ∈ new, ∀ event' ∈ new',
      event.requestId ∉ idsOf b' ∧ event'.requestId ∉ idsOf a' := by
    intro event he event' he'
    rw [ha.ids, hb.ids]
    exact ⟨fun hin => hids.2.2 _ (ha.own event he) _ hin rfl,
      fun hin => hids.2.2 _ hin _ (hb.own event' he') rfl⟩
  refine ⟨by rw [List.map_append, List.map_append, ha.requests, hb.requests], ?_,
    fun event he => ?_, fun event he => ?_, fun state hs event he heq => ?_⟩
  · rw [unfinished_append, unfinished_append]
    exact ha.rest.append hb.rest
  · rcases List.mem_append.mp he with he | he
    · exact ha.aborts event he
    · exact hb.aborts event he
  · rw [idsOf_append]
    rcases List.mem_append.mp he with he | he
    · exact List.mem_append_left _ (ha.own event he)
    · exact List.mem_append_right _ (hb.own event he)
  · rw [unfinished_append] at hs
    rcases List.mem_append.mp hs with hs | hs
    · rcases List.mem_append.mp he with he | he
      · exact ha.other state hs event he heq
      · have hin := ha.ids ▸ mem_idsOf (mem_unfinished.mp hs).1
        exact hids.2.2 _ hin _ (hb.own event he) heq.symm
    · rcases List.mem_append.mp he with he | he
      · have hin := hb.ids ▸ mem_idsOf (mem_unfinished.mp hs).1
        exact hids.2.2 _ (ha.own event he) _ hin heq
      · exact hb.other state hs event he heq

/-! ## Quiet steps -/

variable {σ L : Type}

/-- What neither admissions nor requests that end change. -/
def Engine.aside (engine : Engine σ) :
    List RequestId × SchedulerConfig × EngineConfig × EngineStepStats :=
  (engine.seen, engine.scheduler, engine.config, engine.stepStats)

/-- Nothing has happened from `engine` to `engine'` but that requests have ended
and at most `slots` have been admitted. -/
structure Quiet (slots : Nat) (engine engine' : Engine (Logged σ)) : Prop where
  calls : engine'.runner.calls = engine.runner.calls
  aside : engine'.aside = engine.aside
  active : engine'.active.length ≤ engine.active.length + slots
  requests : (engine'.queue.map State.request).Sublist (engine.queue.map State.request)
  rest : (unfinished engine'.queue).Sublist (unfinished engine.queue)
  events : ∃ new, engine'.events = engine.events ++ new ∧
    (∀ event ∈ new, event.Aborts ∧ event.requestId ∈ idsOf engine.queue) ∧
    ∀ state ∈ unfinished engine'.queue, ∀ event ∈ new, event.requestId ≠ state.request.id

variable {engine engine₁ engine₂ engine' : Engine (Logged σ)}
  {before states states' after : List State} {new : List GenerationEvent} {slots : Nat}

/-- States may leave the queue or move within the order. -/
theorem Quiet.of_sublist (hsub : engine'.queue.Sublist engine.queue)
    (hactive : engine'.active.length ≤ engine.active.length + slots)
    (hcalls : engine'.runner.calls = engine.runner.calls) (hevents : engine'.events = engine.events)
    (haside : engine'.aside = engine.aside) :
    Quiet slots engine engine' :=
  ⟨hcalls, haside, hactive, hsub.map _, unfinished_sublist hsub, [],
    by rw [hevents, List.append_nil], fun _ h => (List.not_mem_nil h).elim,
    fun _ _ _ h => (List.not_mem_nil h).elim⟩

theorem Quiet.refl : Quiet slots engine engine :=
  .of_sublist (List.Sublist.refl _) (Nat.le_add_right _ _) rfl rfl rfl

/-- A part of the queue has ended. -/
theorem Quiet.of_ends (hids : (idsOf engine.queue).Nodup) (h : Ends states states' new)
    (hqueue : engine.queue = before ++ states ++ after)
    (hqueue' : engine'.queue = before ++ states' ++ after)
    (hactive : engine'.active.length ≤ engine.active.length + slots)
    (hcalls : engine'.runner.calls = engine.runner.calls)
    (hevents : engine'.events = engine.events ++ new)
    (haside : engine'.aside = engine.aside) :
    Quiet slots engine engine' := by
  rw [hqueue] at hids
  have hwhole : Ends (before ++ states ++ after) (before ++ states' ++ after) ([] ++ new ++ []) :=
    .append hids (.append (by rw [idsOf_append] at hids; exact hids.of_append_left) .refl h) .refl
  rw [List.nil_append, List.append_nil, ← hqueue, ← hqueue'] at hwhole
  exact ⟨hcalls, haside, hactive,
    hwhole.requests ▸ List.Sublist.refl _, hwhole.rest, new, hevents,
    fun event he => ⟨hwhole.aborts event he, hwhole.own event he⟩, hwhole.other⟩

section Aside

variable (h : Quiet slots engine engine')
include h

theorem Quiet.seen : engine'.seen = engine.seen := congrArg Prod.fst h.aside

theorem Quiet.scheduler : engine'.scheduler = engine.scheduler :=
  congrArg (fun aside => aside.2.1) h.aside

theorem Quiet.config : engine'.config = engine.config :=
  congrArg (fun aside => aside.2.2.1) h.aside

theorem Quiet.stepStats : engine'.stepStats = engine.stepStats :=
  congrArg (fun aside => aside.2.2.2) h.aside

end Aside

/-- A quiet change adds no request. -/
theorem Quiet.ids (h : Quiet slots engine engine') :
    (idsOf engine'.queue).Sublist (idsOf engine.queue) := by
  rw [idsOf_eq_map, idsOf_eq_map]
  exact h.requests.map _

/-- Two quiet changes make one, with the slots of both. -/
theorem Quiet.trans {slots' : Nat} (h : Quiet slots engine engine₁)
    (h' : Quiet slots' engine₁ engine₂) : Quiet (slots + slots') engine engine₂ := by
  have hactive := h.active
  have hactive' := h'.active
  obtain ⟨new, hevents, haborts, hother⟩ := h.events
  obtain ⟨new', hevents', haborts', hother'⟩ := h'.events
  refine ⟨h'.calls.trans h.calls, h'.aside.trans h.aside, by omega, h'.requests.trans h.requests,
    h'.rest.trans h.rest, new ++ new', by rw [hevents', hevents, List.append_assoc],
    fun event he => ?_, fun state hs event he => ?_⟩
  · rcases List.mem_append.mp he with he | he
    · exact haborts event he
    · exact ⟨(haborts' event he).1, h.ids.subset (haborts' event he).2⟩
  · rcases List.mem_append.mp he with he | he
    · exact hother state (h'.rest.subset hs) event he
    · exact hother' state hs event he

/-- Nothing is admitted afterwards. -/
theorem Quiet.trans_zero (h : Quiet slots engine engine₁) (h' : Quiet 0 engine₁ engine₂) :
    Quiet slots engine engine₂ := h.trans h'

/-- The ids stay distinct. -/
theorem Quiet.nodup (h : Quiet slots engine engine') (hids : (idsOf engine.queue).Nodup) :
    (idsOf engine'.queue).Nodup := hids.sublist h.ids

/-! ## The functions -/

variable {model : ModelRunner σ L}

/-- `terminal` records no call. -/
theorem terminal_silent {reason : FinishReason} {token : Option TokenId} {error : String}
    {cleanup : TerminalCleanup} {desk : Desk (Logged σ)} (hfinished : desk.state.finished = false) :
    (terminal model.logged reason token error cleanup).wp
      (fun _ desk' => desk'.state = desk.state.over ∧
        desk'.events = desk.events ++ [⟨desk.state.request.id, token, some reason, error⟩] ∧
        desk'.runner.calls = desk.runner.calls)
      (fun _ desk' => desk'.state = desk.state ∧ desk'.events = desk.events ∧
        desk'.runner.calls = desk.runner.calls) desk := by
  cases cleanup with
  | releaseSequence =>
    have hrelease : (model.logged.release desk.state.request.id).wp
        (fun _ s => (model.logged.releaseReservation desk.state.request.id s).calls =
          desk.runner.calls) (fun _ s => s.calls = desk.runner.calls) desk.runner :=
      Logged.wp_silent.mpr (wp_any (fun _ _ => rfl) fun _ _ => rfl)
    have hreservation :
        (model.logged.releaseReservation desk.state.request.id desk.runner).calls =
          desk.runner.calls := rfl
    exact terminal_wp (R := fun s => s.calls = desk.runner.calls) hfinished (fun _ => hrelease)
      fun _ => hreservation
  | runnerManaged =>
    rw [wp, terminal_quiet hfinished (Or.inl rfl)]
    exact ⟨rfl, rfl, rfl⟩

/-- The loop over a container ends some of its states. -/
theorem terminalAll_ends {reason : FinishReason} {error : String} {cleanup : TerminalCleanup}
    (hreason : reason = .cancelled ∨ reason = .error) : ∀ {states : List State}
    {runner : Logged σ} {events : List GenerationEvent}, (idsOf states).Nodup →
    ∀ {r runner' events' states'},
      terminalAll model.logged reason error cleanup runner events states =
        (r, runner', events', states') →
      runner'.calls = runner.calls ∧ ∃ new, events' = events ++ new ∧ Ends states states' new
  | [], runner, events, _, r, runner', events', states', hrun => by
    simp only [terminalAll, Prod.mk.injEq] at hrun
    obtain ⟨-, rfl, rfl, rfl⟩ := hrun
    exact ⟨rfl, [], (List.append_nil _).symm, .refl⟩
  | state :: states, runner, events, hids, r, runner', events', states', hrun => by
    have hids' : (idsOf states).Nodup := (List.nodup_cons.mp hids).2
    -- the head ends, unless it was over or could not be released
    have hhead : ∃ r₁ runner₁ events₁ state₁ new, terminal model.logged reason none error cleanup
          ⟨runner, events, state⟩ = (r₁, ⟨runner₁, events₁, state₁⟩) ∧
        runner₁.calls = runner.calls ∧ events₁ = events ++ new ∧ Ends [state] [state₁] new := by
      cases hfinished : state.finished with
      | true =>
        exact ⟨_, _, _, _, [], terminal_finished hfinished, rfl, (List.append_nil _).symm, .refl⟩
      | false =>
        have hwp : (terminal model.logged reason none error cleanup).wp _ _
            ⟨runner, events, state⟩ := terminal_silent hfinished
        rcases hterminal : terminal model.logged reason none error cleanup
          ⟨runner, events, state⟩ with ⟨e | _, runner₁, events₁, state₁⟩
        · obtain ⟨rfl, rfl, hcalls⟩ := hwp.error hterminal
          exact ⟨_, _, _, _, [], rfl, hcalls, (List.append_nil _).symm, .refl⟩
        · obtain ⟨rfl, rfl, hcalls⟩ := hwp.ok hterminal
          refine ⟨_, _, _, _, _, rfl, hcalls, rfl, .single rfl ⟨rfl, ?_⟩⟩
          exact hreason.imp (congrArg some) (congrArg some)
    obtain ⟨r₁, runner₁, events₁, state₁, new, hterminal, hcalls, rfl, hends⟩ := hhead
    rw [terminalAll, hterminal] at hrun
    cases r₁ with
    | error e =>
      simp only [Prod.mk.injEq] at hrun
      obtain ⟨-, rfl, rfl, rfl⟩ := hrun
      have hall : Ends ([state] ++ states) ([state₁] ++ states) (new ++ []) :=
        hends.append hids .refl
      rw [List.append_nil] at hall
      exact ⟨hcalls, new, rfl, hall⟩
    | ok _ =>
      rcases hrest : terminalAll model.logged reason error cleanup runner₁ (events ++ new) states
        with ⟨r₂, runner₂, events₂, rest⟩
      simp only [hrest, Prod.mk.injEq] at hrun
      obtain ⟨-, rfl, rfl, rfl⟩ := hrun
      obtain ⟨hcalls₂, new', rfl, hends'⟩ := terminalAll_ends hreason hids' hrest
      exact ⟨hcalls₂.trans hcalls, new ++ new', List.append_assoc .., hends.append hids hends'⟩

/-- Ending the active requests is quiet. -/
theorem terminalActive_quiet {reason : FinishReason} {error : String} {cleanup : TerminalCleanup}
    (hreason : reason = .cancelled ∨ reason = .error) (hids : (idsOf engine.queue).Nodup) :
    Quiet 0 engine (terminalActive model.logged reason error cleanup engine).2 := by
  rcases hrun : terminalAll model.logged reason error cleanup engine.runner engine.events
    engine.active with ⟨r, runner, events, active⟩
  rw [terminalActive, hrun]
  have hactive : (idsOf engine.active).Nodup := by
    rw [Engine.queue, idsOf_append] at hids
    exact hids.of_append_left
  obtain ⟨hcalls, new, hevents, hends⟩ := terminalAll_ends hreason hactive hrun
  have hqueue : engine.queue = [] ++ engine.active ++ engine.waiting := rfl
  have hlength : active.length ≤ engine.active.length := by
    have hlength := congrArg List.length hends.requests
    rw [List.length_map, List.length_map] at hlength
    exact hlength.le
  exact .of_ends hids hends hqueue rfl hlength hcalls hevents rfl

/-- Ending the waiting requests is quiet. -/
theorem terminalWaiting_quiet {reason : FinishReason} {error : String} {cleanup : TerminalCleanup}
    (hreason : reason = .cancelled ∨ reason = .error) (hids : (idsOf engine.queue).Nodup) :
    Quiet 0 engine (terminalWaiting model.logged reason error cleanup engine).2 := by
  rcases hrun : terminalAll model.logged reason error cleanup engine.runner engine.events
    engine.waiting with ⟨r, runner, events, waiting⟩
  rw [terminalWaiting, hrun]
  have hwaiting : (idsOf engine.waiting).Nodup := by
    rw [Engine.queue, idsOf_append] at hids
    exact hids.of_append_right
  obtain ⟨hcalls, new, hevents, hends⟩ := terminalAll_ends hreason hwaiting hrun
  have hqueue : engine.queue = engine.active ++ engine.waiting ++ [] := (List.append_nil _).symm
  exact .of_ends hids hends hqueue (List.append_nil _).symm (le_refl _) hcalls hevents rfl

/-- Removing the finished requests keeps the order of the rest. -/
theorem removeFinished_sublist {includeWaiting : Bool} :
    (engine.removeFinished includeWaiting).queue.Sublist engine.queue := by
  cases includeWaiting with
  | false => exact List.filter_sublist.append_right _
  | true => exact List.filter_sublist.append List.filter_sublist

/-- Removing the finished requests is quiet. -/
theorem removeFinished_quiet {includeWaiting : Bool} :
    Quiet 0 engine (engine.removeFinished includeWaiting) :=
  .of_sublist removeFinished_sublist (List.length_filter_le ..) rfl rfl rfl

/-- One state of the queue is over. -/
theorem Quiet.over {state : State} {event : GenerationEvent} (hids : (idsOf engine.queue).Nodup)
    (hqueue : engine.queue = before ++ state :: after)
    (hqueue' : engine'.queue = before ++ state.over :: after)
    (hactive : engine'.active.length ≤ engine.active.length + slots)
    (hid : event.requestId = state.request.id) (haborts : event.Aborts)
    (hcalls : engine'.runner.calls = engine.runner.calls)
    (hevents : engine'.events = engine.events ++ [event])
    (haside : engine'.aside = engine.aside) :
    Quiet slots engine engine' := by
  rw [List.append_cons] at hqueue hqueue'
  exact .of_ends hids (.single hid haborts) hqueue hqueue' hactive hcalls hevents haside

/-- Admission keeps the order and fills at most the free slots. -/
theorem admit_quiet {waiting : List State} {progressed : Bool}
    (hids : (idsOf engine.queue).Nodup) (hwaiting : engine.waiting = waiting)
    (hfresh : ∀ s ∈ waiting, s.finished = false) :
    (admitWaiting model.logged waiting slots progressed).wp
      (fun _ engine' => Quiet slots engine engine' ∧ engine'.queue.Sublist engine.queue)
      (fun _ engine' => Quiet slots engine engine' ∧ engine'.queue.Sublist engine.queue)
      engine := by
  induction waiting generalizing engine slots progressed with
  -- nothing waits
  | nil =>
    rw [admitWaiting, wp_pure]
    exact ⟨.refl, List.Sublist.refl _⟩
  | cons state waiting ih =>
    have hfresh' := fun s hs => hfresh s (List.mem_cons_of_mem _ hs)
    have hqueue : engine.queue = engine.active ++ state :: waiting := by rw [Engine.queue, hwaiting]
    -- asking the runner changes only the runner
    have hasked : ∀ runner, Quiet slots engine
        { engine with runner := ⟨runner, engine.runner.calls⟩ } := fun _ =>
      .of_sublist (List.Sublist.refl _) (Nat.le_add_right _ _) rfl rfl rfl
    rw [admitWaiting, wp_ite]
    refine ⟨fun _ => ⟨.refl, List.Sublist.refl _⟩, fun hslots => ?_⟩
    simp only [wp_bind, wp_call, wp_get]
    refine Logged.wp_silent.mpr (wp_any (fun admission runner => ?_) fun _ _ =>
      ⟨hasked _, List.Sublist.refl _⟩)
    rw [wp_ite]
    refine ⟨fun _ => ⟨hasked _, List.Sublist.refl _⟩, fun _ => ?_⟩
    rw [wp_ite]
    refine ⟨fun _ => ?_, fun _ => ?_⟩
    -- the request cannot be admitted: it is ended
    · rw [wp_bind, wp_on]
      refine (terminal_silent (hfresh state List.mem_cons_self)).mono ?_ ?_
      · rintro _ ⟨runner', events', state'⟩ ⟨hstate, hevents, hcalls⟩
        simp only at hstate hevents hcalls
        subst hstate hevents
        rw [wp_bind, wp_modify]
        -- the refused request is over, and then dropped
        have hover : Quiet 0 engine { engine with
            runner := runner'
            events := engine.events ++ [⟨state.request.id, none, some .error,
              if admission = .impossible then noCapacity else noProgress⟩]
            waiting := state.over :: waiting } :=
          .over hids hqueue rfl (le_refl _) rfl ⟨rfl, Or.inr rfl⟩ hcalls rfl rfl
        have hdropped : Quiet 0 engine { engine with
            runner := runner'
            events := engine.events ++ [⟨state.request.id, none, some .error,
              if admission = .impossible then noCapacity else noProgress⟩]
            waiting } :=
          hover.trans_zero (.of_sublist ((List.sublist_cons_self _ _).append_left _) (le_refl _)
            rfl rfl rfl)
        have hsub : (engine.active ++ waiting).Sublist engine.queue :=
          hqueue ▸ (List.sublist_cons_self _ _).append_left _
        refine (ih (hdropped.nodup hids) rfl hfresh').mono (fun _ engine' h => ?_)
          fun _ engine' h => ?_
        · exact ⟨Nat.zero_add slots ▸ hdropped.trans h.1, h.2.trans hsub⟩
        · exact ⟨Nat.zero_add slots ▸ hdropped.trans h.1, h.2.trans hsub⟩
      · rintro _ ⟨runner', events', state'⟩ ⟨hstate, hevents, hcalls⟩
        simp only at hstate hevents hcalls
        subst hstate hevents
        have hsame : (engine.active ++ state' :: waiting).Sublist engine.queue :=
          hqueue ▸ List.Sublist.refl _
        exact ⟨.of_sublist hsame (Nat.le_add_right _ _) hcalls rfl rfl, hsame⟩
    -- the request becomes active
    · rw [wp_bind, wp_modify]
      have hsub : (engine.active ++ [state] ++ waiting).Sublist engine.queue := by
        rw [hqueue, List.append_assoc]
        exact List.Sublist.refl _
      have hadmitted : Quiet 1 engine { engine with
          runner := ⟨runner, engine.runner.calls⟩, active := engine.active ++ [state], waiting } :=
        .of_sublist hsub (List.length_append).le rfl rfl rfl
      have hroom : 1 + (slots - 1) = slots := by omega
      refine (ih (hadmitted.nodup hids) rfl hfresh').mono (fun _ engine' h => ?_)
        fun _ engine' h => ?_
      · exact ⟨hroom ▸ hadmitted.trans h.1, h.2.trans hsub⟩
      · exact ⟨hroom ▸ hadmitted.trans h.1, h.2.trans hsub⟩

/-- The outer handler. -/
theorem fail_quiet {e : Exn} (hids : (idsOf engine.queue).Nodup) :
    Quiet 0 engine (engine.fail model.logged e) := by
  rw [Engine.fail]
  rcases hclear : model.logged.clear engine.runner with ⟨cleared, runner⟩
  simp only
  have hcalls : runner.calls = engine.runner.calls := by
    have hsilent : (model.logged.clear engine.runner).2.calls = engine.runner.calls := rfl
    rw [hclear] at hsilent
    exact hsilent
  have hpoisoned : Quiet 0 engine { engine with runner, failed := true } :=
    .of_sublist (List.Sublist.refl _) (le_refl _) hcalls rfl rfl
  have hactive : Quiet 0 engine (terminalActive model.logged .error (failureMessage e cleared)
      .runnerManaged { engine with runner, failed := true }).2 :=
    hpoisoned.trans (terminalActive_quiet (Or.inr rfl) (hpoisoned.nodup hids))
  exact (hactive.trans (terminalWaiting_quiet (Or.inr rfl) (hactive.nodup hids))).trans
    removeFinished_quiet

/-- A cancellation is quiet. -/
theorem cancel_quiet {id : RequestId} (hids : (idsOf engine.queue).Nodup) :
    (Engine.cancel model.logged id).wp (fun _ engine' => Quiet 0 engine engine')
      (fun _ engine' => Quiet 0 engine engine') engine := by
  rw [Engine.cancel, wp_bind, wp_get]
  rcases hwaiting : findRequest id engine.waiting with _ | ⟨before, state, after⟩
  · rcases hactive : findRequest id engine.active with _ | ⟨before, state, after⟩
    · exact .refl
    obtain ⟨heq, -, hfinished⟩ := RunnerSpec.findRequest_some hactive
    have hqueue : engine.queue = before ++ state :: (after ++ engine.waiting) := by
      rw [Engine.queue, heq, List.append_assoc, List.cons_append]
    simp only [wp_bind, wp_on, wp_modify]
    refine (terminal_silent hfinished).mono ?_ ?_
    · rintro _ ⟨runner', events', state'⟩ ⟨hstate, hevents, hcalls⟩
      simp only at hstate hevents hcalls
      subst hstate hevents
      have hover : Quiet 0 engine { engine with
          runner := runner'
          events := engine.events ++ [⟨state.request.id, none, some .cancelled, ""⟩]
          active := before ++ state.over :: after } := by
        have hlength : (before ++ state.over :: after).length ≤ engine.active.length := by
          rw [heq, List.length_append, List.length_append, List.length_cons, List.length_cons]
        exact .over hids hqueue (List.append_assoc ..) hlength rfl ⟨rfl, Or.inl rfl⟩ hcalls rfl rfl
      exact hover.trans removeFinished_quiet
    · rintro _ ⟨runner', events', state'⟩ ⟨hstate, hevents, hcalls⟩
      simp only at hstate hevents hcalls
      subst hstate hevents
      rw [← heq]
      exact .of_sublist (List.Sublist.refl _) (le_refl _) hcalls rfl rfl
  · obtain ⟨heq, -, hfinished⟩ := RunnerSpec.findRequest_some hwaiting
    have hqueue : engine.queue = engine.active ++ before ++ state :: after := by
      rw [Engine.queue, heq, List.append_assoc]
    simp only [wp_bind, wp_on, wp_modify]
    refine (terminal_silent hfinished).mono ?_ ?_
    · rintro _ ⟨runner', events', state'⟩ ⟨hstate, hevents, hcalls⟩
      simp only at hstate hevents hcalls
      subst hstate hevents
      have hover : Quiet 0 engine { engine with
          runner := runner'
          events := engine.events ++ [⟨state.request.id, none, some .cancelled, ""⟩]
          waiting := before ++ state.over :: after } :=
        .over hids hqueue (List.append_assoc ..).symm (le_refl _) rfl ⟨rfl, Or.inl rfl⟩ hcalls
          rfl rfl
      exact hover.trans removeFinished_quiet
    · rintro _ ⟨runner', events', state'⟩ ⟨hstate, hevents, hcalls⟩
      simp only at hstate hevents hcalls
      subst hstate hevents
      rw [← heq]
      exact .of_sublist (List.Sublist.refl _) (le_refl _) hcalls rfl rfl

/-- A shutdown is quiet. -/
theorem shutdown_quiet (hids : (idsOf engine.queue).Nodup) :
    (Engine.shutdown model.logged).wp (fun _ engine' => Quiet 0 engine engine')
      (fun _ engine' => Quiet 0 engine engine') engine := by
  have hactive : Quiet 0 engine
      (terminalActive model.logged .cancelled "" .releaseSequence engine).2 :=
    terminalActive_quiet (Or.inl rfl) hids
  have hwaiting : Quiet 0 engine (terminalWaiting model.logged .cancelled "" .releaseSequence
      (terminalActive model.logged .cancelled "" .releaseSequence engine).2).2 :=
    hactive.trans (terminalWaiting_quiet (Or.inl rfl) (hactive.nodup hids))
  revert hactive hwaiting
  rw [Engine.shutdown, wp_bind, wp_catching, wp_bind, wp]
  rcases terminalActive model.logged .cancelled "" .releaseSequence engine with ⟨e | _, engine₁⟩
  · intro hactive _
    exact hactive.trans removeFinished_quiet
  · intro hactive hwaiting
    simp only at hwaiting ⊢
    rw [wp]
    rcases hrun : terminalWaiting model.logged .cancelled "" .releaseSequence engine₁ with
      ⟨e | _, engine₂⟩
    · rw [hrun] at hwaiting
      exact hwaiting.trans removeFinished_quiet
    · rw [hrun] at hwaiting
      simp only
      rw [wp_bind, wp_modify, wp_call]
      have hremoved : Quiet 0 engine (engine₂.removeFinished true) :=
        hwaiting.trans removeFinished_quiet
      exact Logged.wp_silent.mpr (wp_any
        (fun _ _ => hremoved.trans_zero (.of_sublist (List.Sublist.refl _) (le_refl _)
            rfl rfl rfl))
        fun _ _ => hremoved.trans_zero (.of_sublist (List.Sublist.refl _) (le_refl _)
            rfl rfl rfl))

end TinyInfer.MiniPrefix
