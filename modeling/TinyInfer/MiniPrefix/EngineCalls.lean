import TinyInfer.MiniPrefix.EngineSteps

/-!
# The other calls keep the engine's invariant

`submit`, `cancel`, `pollEvents` and `shutdown`, and with `step` every call of
an `EngineSystem` (`EngineInv.call`), hence every run from a constructed engine
(`EngineInv.run`).
-/

namespace TinyInfer.MiniPrefix

open Lib Engine Throwing

namespace RunnerSpec

variable {σ L : Type} [Logit L] {model : ModelRunner σ L} {context : Int}
  {spec : RunnerSpec model context} {accepted : List Request}
  {polled : List GenerationEvent} {engine engine' : Engine σ} {before after : List State}
  {state : State}

/-! ## `submit` -/

theorem EngineInv.withRunner (h : spec.EngineInv accepted polled engine) {runner : σ}
    (hholds : spec.holds (worldOf engine.active) runner) :
    spec.EngineInv accepted polled { engine with runner } :=
  ⟨h.toSettled.withRunner hholds, h.failed⟩

/-- A token is accepted only inside the vocabulary. -/
theorem checkToken_wp {what : String} {token : TokenId} {w : World} {runner : σ}
    (hholds : spec.holds w runner) :
    (checkToken model what token).wp
      (fun _ s' => spec.holds w s' ∧ 0 ≤ token ∧ ∃ v, spec.vocabulary v ∧ token < v)
      (fun _ s' => spec.holds w s') runner := by
  rw [checkToken, wp_bind, wp_throwIf]
  refine ⟨fun _ => hholds, fun hnonneg => ?_⟩
  rw [wp_bind]
  refine (spec.config hholds).mono (fun c s' h => ?_) fun _ _ h => h.1
  rw [wp_throwIf]
  exact ⟨fun _ => h.1, fun hlt => ⟨h.1, not_lt.mp hnonneg, _, h.2, not_le.mp hlt⟩⟩

/-- A prompt is accepted only inside the vocabulary. -/
theorem checkTokens_wp {tokens : List TokenId} {w : World} {runner : σ}
    (hholds : spec.holds w runner) :
    (checkTokens model tokens).wp
      (fun _ s' => spec.holds w s' ∧
        ∀ token ∈ tokens, 0 ≤ token ∧ ∃ v, spec.vocabulary v ∧ token < v)
      (fun _ s' => spec.holds w s') runner := by
  induction tokens generalizing runner with
  | nil =>
    rw [checkTokens, wp_pure]
    exact ⟨hholds, fun _ h => (List.not_mem_nil h).elim⟩
  | cons token tokens ih =>
    rw [checkTokens, wp_bind]
    refine (checkToken_wp hholds).mono (fun _ s₁ h₁ => ?_) fun _ _ h => h
    refine (ih h₁.1).mono (fun _ s₂ h₂ => ⟨h₂.1, fun t ht => ?_⟩) fun _ _ h => h
    rcases List.mem_cons.mp ht with rfl | ht
    · exact h₁.2
    · exact h₂.2 t ht

/-- A submission queues the request, or throws and changes nothing. -/
theorem submit_wp (h : spec.EngineInv accepted polled engine) {request : Request} :
    (Engine.submit model request).wp
      (fun _ engine' => spec.EngineInv (accepted ++ [request]) polled engine' ∧
        engine.failed = false ∧ engine'.failed = false)
      (fun _ engine' => spec.EngineInv accepted polled engine' ∧
        engine'.events = engine.events ∧ engine'.failed = engine.failed ∧
        engine'.waiting = engine.waiting ∧ engine'.active = engine.active) engine := by
  rw [Engine.submit, wp_bind, wp_get, wp_bind, wp_throwIf]
  refine ⟨fun _ => ⟨h, rfl, rfl, rfl, rfl⟩, fun hfailed => ?_⟩
  rw [wp_bind, wp_throwIf]
  refine ⟨fun _ => ⟨h, rfl, rfl, rfl, rfl⟩, fun hchecks => ?_⟩
  simp only [not_or] at hchecks
  obtain ⟨-, hseen, hprompt, hpositive, hcontext⟩ := hchecks
  rw [wp_bind, wp_call]
  refine (checkTokens_wp h.holds).mono (fun _ s₁ h₁ => ?_) fun _ s₁ h₁ =>
    ⟨h.withRunner h₁, rfl, rfl, rfl, rfl⟩
  have heos : (checkEos model request.generation.eosTokenId).wp
      (fun _ s' => spec.holds (worldOf engine.active) s')
      (fun _ s' => spec.holds (worldOf engine.active) s') s₁ := by
    cases request.generation.eosTokenId with
    | none => exact h₁.1
    | some eos => exact (checkToken_wp h₁.1).mono (fun _ _ h => h.1) fun _ _ h => h
  rw [wp_bind, wp_call]
  refine heos.mono (fun _ s₂ h₂ => ?_) fun _ s₂ h₂ => ⟨h.withRunner h₂, rfl, rfl, rfl, rfl⟩
  rw [wp_modify]
  have hvalid : spec.Valid request :=
    ⟨hprompt, not_lt.mp hpositive, by rw [← h.context]; exact not_lt.mp hcontext, h₁.2⟩
  have hnew : ∀ r' ∈ accepted, r'.id ≠ request.id := fun r' hr' heq =>
    hseen ((h.seen _).mpr ⟨r', hr', heq⟩)
  obtain ⟨hqueue, hevents⟩ := h.queue.submit hnew hvalid.positive
  refine ⟨⟨⟨⟨⟨hqueue.perm ?_, fun s hs => ?_, fun id => ?_, h.context⟩, h.active, h₂⟩,
    h.unfinished⟩, fun hf => absurd hf hfailed⟩, Bool.eq_false_iff.mpr hfailed,
    Bool.eq_false_iff.mpr hfailed⟩
  · show (engine.waiting ++ engine.active ++ [({ request } : State)]).Perm
      (engine.waiting ++ [({ request } : State)] ++ engine.active)
    rw [List.append_assoc, List.append_assoc]
    exact (List.perm_append_comm).append_left _
  · rcases List.mem_append.mp hs with hs | hs
    · exact h.fresh s hs
    · rw [List.mem_singleton.mp hs]
      exact ⟨rfl, hvalid, hevents⟩
  · show id ∈ request.id :: engine.seen ↔ _
    rw [List.mem_cons, h.seen]
    constructor
    · rintro (rfl | ⟨r, hr, rfl⟩)
      · exact ⟨request, List.mem_append_right _ (List.mem_singleton_self _), rfl⟩
      · exact ⟨r, List.mem_append_left _ hr, rfl⟩
    · rintro ⟨r, hr, rfl⟩
      rcases List.mem_append.mp hr with hr | hr
      · exact Or.inr ⟨r, hr, rfl⟩
      · rw [List.mem_singleton.mp hr]
        exact Or.inl rfl

/-! ## `cancel` -/

/-- A request that is found splits the list there. -/
theorem findRequest_some {id : RequestId} : ∀ {states : List State} {before after : List State}
    {state : State}, findRequest id states = some (before, state, after) →
      states = before ++ state :: after ∧ state.request.id = id ∧ state.finished = false
  | [], _, _, _, h => by cases h
  | s :: states, before, after, state, h => by
    rw [findRequest] at h
    by_cases hs : s.request.id = id ∧ ¬ s.finished = true
    · rw [if_pos hs] at h
      simp only [Option.some.injEq, Prod.mk.injEq] at h
      obtain ⟨rfl, rfl, rfl⟩ := h
      exact ⟨rfl, hs.1, Bool.eq_false_iff.mpr hs.2⟩
    · rw [if_neg hs] at h
      rcases hrest : findRequest id states with _ | ⟨before', found, after'⟩
      · rw [hrest] at h
        cases h
      · rw [hrest] at h
        simp only [Option.some.injEq, Prod.mk.injEq] at h
        obtain ⟨rfl, rfl, rfl⟩ := h
        obtain ⟨heq, hid, hfinished⟩ := findRequest_some hrest
        exact ⟨by rw [heq]; rfl, hid, hfinished⟩

/-- A running request is cancelled, or its sequence could not be released. -/
theorem terminal_running_wp {reason : FinishReason} {message : String} {w : World} {runner : σ}
    {events told : List GenerationEvent} (hholds : spec.holds w runner)
    (hrun : spec.Running state told) (hw : w state.request.id = state.slot) :
    (terminal model reason none message .releaseSequence).wp
      (fun _ desk => desk.state = state.over ∧
        desk.events = events ++ [⟨state.request.id, none, some reason, message⟩] ∧
        spec.holds (w.drop state.request.id) desk.runner)
      (fun _ desk => desk.state = state ∧ desk.events = events ∧ spec.holds w desk.runner)
      ⟨runner, events, state⟩ := by
  rw [State.slot, if_neg (by rw [hrun.unfinished]; exact Bool.false_ne_true)] at hw
  refine terminal_wp hrun.unfinished (fun hresident => ?_) fun hlazy => ?_
  · rw [if_pos hresident] at hw
    exact (spec.release hholds hw).mono (fun _ _ h => h) fun _ _ h => h.1
  · rw [if_neg (by rw [hlazy]; exact Bool.false_ne_true)] at hw
    refine spec.releaseReservation hholds fun slot hslot => ?_
    rw [hw] at hslot
    obtain rfl := Option.some.inj hslot
    rfl

theorem filter_unfinished_eq_self {states : List State} (h : ∀ s ∈ states, s.finished = false) :
    states.filter (fun state => !state.finished) = states :=
  List.filter_eq_self.mpr fun s hs => by simp [h s hs]

/-- What `cancel` and a failed `shutdown` keep. -/
structure Kept (spec : RunnerSpec model context) (accepted : List Request)
    (polled : List GenerationEvent) (engine engine' : Engine σ) : Prop where
  inv : spec.EngineInv accepted polled engine'
  failed : engine'.failed = engine.failed
  bounded : load (engine'.waiting ++ engine'.active) ≤ load (engine.waiting ++ engine.active)
  quiet : engine.failed = true → engine'.events = engine.events

/-- A cancellation keeps the invariant, whether it returns or throws. -/
theorem cancel_wp (h : spec.EngineInv accepted polled engine) {id : RequestId} :
    (Engine.cancel model id).wp (fun _ engine' => spec.Kept accepted polled engine engine')
      (fun _ engine' => spec.Kept accepted polled engine engine') engine := by
  rw [Engine.cancel, wp_bind, wp_get]
  rcases hwaiting : findRequest id engine.waiting with _ | ⟨before, state, after⟩
  -- no waiting request has that id
  · rcases hactive : findRequest id engine.active with _ | ⟨before, state, after⟩
    · simp only [wp_throw]
      exact ⟨h, rfl, le_refl _, fun _ => rfl⟩
    -- an active request: it runs and is released
    obtain ⟨heq, hid, hfinished⟩ := findRequest_some hactive
    have hrun := (h.active state (by rw [heq]; simp)).resolve_left
      (by rw [hfinished]; exact Bool.false_ne_true)
    have hnotFailed : engine.failed = true → False := fun hf => by
      rw [(h.failed hf).2] at heq
      simp at heq
    simp only [wp_bind, wp_on, wp_modify]
    refine (terminal_running_wp h.holds hrun (h.toBooks.worldOf_slot heq)).mono ?_ ?_
    · rintro _ ⟨runner', events', state'⟩ ⟨hstate, hevents, hholds⟩
      simp only at hstate hevents hholds
      subst hstate hevents
      -- the slot of the request is marked as over
      let engine' : Engine σ := { engine with
        runner := runner'
        events := engine.events ++ [⟨state.request.id, none, some .cancelled, ""⟩]
        active := before ++ state.over :: after }
      have hmid : spec.Mid accepted polled engine' :=
        h.toMid.update heq rfl rfl rfl rfl rfl rfl
          (fun event he => by rw [List.mem_singleton.mp he])
          (Or.inl ⟨rfl, by rw [hrun.told]; exact .cancelled hrun.sofar⟩) hholds
      refine ⟨⟨hmid.removeFinished false, fun hf => (hnotFailed hf).elim⟩, rfl, ?_,
        fun hf => (hnotFailed hf).elim⟩
      simp only [Engine.removeFinished, load_append, load_filter, heq, load_cons,
        Bool.false_eq_true, if_false]
      have : state.over.pending = 0 := rfl
      omega
    · rintro _ ⟨runner', events', state'⟩ ⟨hstate, hevents, hholds⟩
      simp only at hstate hevents hholds
      subst hstate hevents
      rw [← heq]
      exact ⟨h.withRunner hholds, rfl, le_refl _, fun _ => rfl⟩
  -- a waiting request: the runner does not know it
  · obtain ⟨heq, hid, hfinished⟩ := findRequest_some hwaiting
    have hmem : state ∈ engine.waiting := by
      rw [heq]
      simp
    obtain ⟨hfresh, hvalid, hnone⟩ := h.fresh state hmem
    have hnotFailed : engine.failed = true → False := fun hf => by
      rw [(h.failed hf).1] at heq
      simp at heq
    simp only [wp_bind, wp_on, wp_modify]
    refine (terminal_lazy_wp h.holds (h.toBooks.worldOf_waiting hmem) hfinished
      (by rw [hfresh])).mono ?_ fun _ _ h => h.elim
    rintro _ ⟨runner', events', state'⟩ ⟨hstate, hevents, hholds⟩
    simp only at hstate hevents hholds
    subst hstate hevents
    have hopen : spec.Open state.request [] :=
      ⟨fun i token hi => by simp at hi, hvalid.positive, fun _ ht => (List.not_mem_nil ht).elim⟩
    have hsettled := h.toSettled.drop heq rfl (.cancelled hopen) hholds rfl
    -- the other waiting requests are kept
    have hunfinished : ∀ s ∈ before ++ after, s.finished = false := by
      intro s hs
      have hs' : s ∈ engine.waiting := by
        rw [heq]
        exact List.perm_middle.mem_iff.mpr (List.mem_cons_of_mem _ hs)
      rw [(h.fresh s hs').1]
    have hremoved : (before ++ state.over :: after).filter (fun s => !s.finished) =
        before ++ after := by
      rw [List.filter_append, List.filter_cons_of_neg (by simp), ← List.filter_append]
      exact filter_unfinished_eq_self hunfinished
    simp only [Engine.removeFinished, if_true, hremoved, filter_unfinished_eq_self h.unfinished]
    refine ⟨⟨hsettled, fun hf => (hnotFailed hf).elim⟩, rfl, ?_, fun hf => (hnotFailed hf).elim⟩
    simp only [heq, load_append, load_cons]
    omega

/-! ## `shutdown` -/

/-- The loop over the active requests: it ends them all, or stops at one whose
sequence could not be released. -/
theorem Mid.terminalAll : ∀ {states before : List State} {engine : Engine σ},
    spec.Mid accepted polled engine → engine.active = before ++ states →
    (∀ s ∈ before, s.finished = true) →
    ∀ {r runner events states'},
      Engine.terminalAll model .cancelled "" .releaseSequence engine.runner engine.events
        states = (r, runner, events, states') →
      spec.Mid accepted polled { engine with runner, events, active := before ++ states' } ∧
      load states' ≤ load states ∧
      (r = .ok () → ∀ s ∈ before ++ states', s.finished = true)
  | [], before, engine, h, hactive, hbefore, _, _, _, _, hrun => by
    simp only [Engine.terminalAll, Prod.mk.injEq] at hrun
    obtain ⟨rfl, rfl, rfl, rfl⟩ := hrun
    rw [← hactive]
    exact ⟨h, le_refl _, fun _ => by rw [hactive, List.append_nil]; exact hbefore⟩
  | state :: states, before, engine, h, hactive, hbefore, r, runner, events, states', hrun => by
    -- the head is over, or the loop stops there
    have hhead : (∃ runner₁ events₁ state₁,
          terminal model .cancelled none "" .releaseSequence
            ⟨engine.runner, engine.events, state⟩ = (.ok (), ⟨runner₁, events₁, state₁⟩) ∧
          state₁.finished = true ∧ spec.Mid accepted polled { engine with
            runner := runner₁, events := events₁, active := before ++ state₁ :: states }) ∨
        ∃ e runner₁, terminal model .cancelled none "" .releaseSequence
            ⟨engine.runner, engine.events, state⟩ = (.error e, ⟨runner₁, engine.events, state⟩) ∧
          spec.holds (worldOf engine.active) runner₁ := by
      have hmem : state ∈ engine.active := by
        rw [hactive]
        simp
      -- an ended request is passed over
      cases hfinished : state.finished with
      | true =>
        refine Or.inl ⟨_, _, _, terminal_finished hfinished, hfinished, ?_⟩
        rw [← hactive]
        exact h
      | false =>
        have hrun := (h.active state hmem).resolve_left
          (by rw [hfinished]; exact Bool.false_ne_true)
        have hwp : (terminal model .cancelled none "" .releaseSequence).wp _ _
            ⟨engine.runner, engine.events, state⟩ :=
          terminal_running_wp h.holds hrun (h.toBooks.worldOf_slot hactive)
        rcases hterminal : terminal model .cancelled none "" .releaseSequence
          ⟨engine.runner, engine.events, state⟩ with ⟨e | _, runner₁, events₁, state₁⟩
        · obtain ⟨rfl, rfl, hholds⟩ := hwp.error hterminal
          exact Or.inr ⟨e, runner₁, rfl, hholds⟩
        · obtain ⟨rfl, rfl, hholds⟩ := hwp.ok hterminal
          refine Or.inl ⟨_, _, _, rfl, rfl, ?_⟩
          exact h.update hactive rfl rfl rfl rfl rfl rfl
            (fun event he => by rw [List.mem_singleton.mp he])
            (Or.inl ⟨rfl, by rw [hrun.told]; exact .cancelled hrun.sofar⟩) hholds
    -- the loop of the source, with the rest by recursion
    rw [Engine.terminalAll] at hrun
    rcases hhead with ⟨runner₁, events₁, state₁, hterminal, hfinished₁, hmid₁⟩ |
      ⟨e, runner₁, hterminal, hholds₁⟩
    · rw [hterminal] at hrun
      simp only at hrun
      rcases hrest : Engine.terminalAll model .cancelled "" .releaseSequence runner₁ events₁
        states with ⟨r₂, runner₂, events₂, rest⟩
      rw [hrest] at hrun
      simp only [Prod.mk.injEq] at hrun
      obtain ⟨rfl, rfl, rfl, rfl⟩ := hrun
      rw [List.append_cons] at hmid₁
      have hbefore' : ∀ s ∈ before ++ [state₁], s.finished = true := by
        intro s hs
        rcases List.mem_append.mp hs with hs | hs
        · exact hbefore s hs
        · rw [List.mem_singleton.mp hs]
          exact hfinished₁
      obtain ⟨hmid, hload, hall⟩ := Mid.terminalAll hmid₁ rfl hbefore' hrest
      have hshape : before ++ [state₁] ++ rest = before ++ state₁ :: rest :=
        (List.append_cons ..).symm
      rw [hshape] at hmid hall
      refine ⟨hmid, ?_, hall⟩
      rw [load_cons, load_cons, State.pending, if_pos hfinished₁]
      omega
    -- a release threw: the loop stops with this request still running
    · rw [hterminal] at hrun
      simp only [Prod.mk.injEq] at hrun
      obtain ⟨rfl, rfl, rfl, rfl⟩ := hrun
      rw [← hactive]
      exact ⟨⟨⟨h.queue, h.fresh, h.seen, h.context⟩, h.active, hholds₁⟩, le_refl _,
        fun hok => by cases hok⟩

/-- A shutdown keeps the invariant, whether it returns or throws. -/
theorem shutdown_wp (h : spec.EngineInv accepted polled engine) :
    (Engine.shutdown model).wp (fun _ engine' => spec.Kept accepted polled engine engine')
      (fun _ engine' => spec.Kept accepted polled engine engine') engine := by
  rw [Engine.shutdown, wp_bind, wp_catching, wp_bind, wp_iff]
  -- the active requests end first
  rcases hloop : Engine.terminalAll model .cancelled "" .releaseSequence engine.runner
    engine.events engine.active with ⟨r, runner₁, events₁, active₁⟩
  have hactive : terminalActive model .cancelled "" .releaseSequence engine =
      (r, { engine with runner := runner₁, events := events₁, active := active₁ }) := by
    rw [terminalActive, hloop]
  obtain ⟨hmid, hload, hall⟩ :=
    h.toMid.terminalAll (List.nil_append engine.active).symm
      (fun _ hs => (List.not_mem_nil hs).elim) hloop
  rw [List.nil_append] at hmid hall
  rw [hactive]
  constructor
  -- they all ended, so the waiting ones do
  · rintro ⟨⟩ engine₁ heq
    simp only [Prod.mk.injEq] at heq
    obtain ⟨rfl, rfl⟩ := heq
    have hqueue := hmid.queue
    rw [← List.nil_append ((_ : List State) ++ _)] at hqueue
    obtain ⟨runner₂, events₂, waiting₂, hloop₂, hall₂, hholds₂, hqueue₂⟩ :=
      terminalAll_quiet (fun s hs => Or.inr (Or.inr (by rw [(h.fresh s hs).1])))
        (fun s _ out hopen => Ended.cancelled hopen)
        (fun s hs => hmid.toBooks.worldOf_waiting hs) hmid.holds hqueue
    rw [List.nil_append] at hqueue₂
    have hwaiting : terminalWaiting model .cancelled "" .releaseSequence
        { engine with runner := runner₁, events := events₁, active := active₁ } =
        (.ok (), { engine with
          runner := runner₂, events := events₂, active := active₁, waiting := waiting₂ }) := by
      rw [terminalWaiting, hloop₂]
    -- no sequence is left to the runner
    have hempty : worldOf active₁ = World.empty := by
      have hids := hmid.queue.ids
      rw [List.map_append, List.nodup_append] at hids
      rw [← worldOf_filter hids.2.1, filter_finished_eq_nil (hall rfl)]
      rfl
    rw [wp, hwaiting]
    simp only
    rw [wp_bind, wp_modify, wp_call]
    have hover : ∀ s ∈ waiting₂ ++ active₁, s.finished = true := by
      intro s hs
      rcases List.mem_append.mp hs with hs | hs
      · exact hall₂ s hs
      · exact hall rfl s hs
    -- a failed engine has no request, so nothing is told
    have hquiet : engine.failed = true → events₂ = engine.events := by
      intro hf
      rw [(h.failed hf).2, Engine.terminalAll] at hloop
      rw [(h.failed hf).1, Engine.terminalAll] at hloop₂
      cases hloop
      cases hloop₂
      rfl
    have hkept : ∀ runner, spec.holds World.empty runner → spec.Kept accepted polled engine
        { Engine.removeFinished true { engine with
            runner := runner₂, events := events₂, active := active₁, waiting := waiting₂ } with
          runner } := by
      intro runner hholds
      simp only [Engine.removeFinished, if_true, filter_finished_eq_nil hall₂,
        filter_finished_eq_nil (hall rfl)]
      exact ⟨EngineInv.of_finished h.toBooks hqueue₂ hover rfl rfl rfl rfl hholds, rfl,
        Nat.zero_le _, hquiet⟩
    -- whatever `clear` does, every request is over
    have hcleared := spec.cleared (hempty ▸ hholds₂)
    refine wp_iff.mpr ⟨fun _ runner₃ hclear => ?_, fun e runner₃ hclear => ?_⟩
    · have hclear : model.clear runner₂ = (.ok (), runner₃) := hclear
      rw [hclear] at hcleared
      exact hkept runner₃ hcleared
    · have hclear : model.clear runner₂ = (.error e, runner₃) := hclear
      rw [hclear] at hcleared
      exact hkept runner₃ hcleared
  -- one of them could not be released: it stays, and the engine fails
  · rintro e engine₁ heq
    simp only [Prod.mk.injEq] at heq
    obtain ⟨rfl, rfl⟩ := heq
    -- a failed engine has no active request to release
    have hnotFailed : engine.failed = true → False := fun hf => by
      rw [(h.failed hf).2, Engine.terminalAll] at hloop
      cases hloop
    rw [if_pos rfl, wp_bind, wp_modify, wp_throw]
    refine ⟨⟨hmid.removeFinished true, fun hf => (hnotFailed hf).elim⟩, rfl, ?_,
      fun hf => (hnotFailed hf).elim⟩
    simp only [Engine.removeFinished, load_append, load_filter, if_true]
    omega

/-! ## Runs -/

theorem EngineInv.pollEvents (h : spec.EngineInv accepted polled engine) :
    spec.EngineInv accepted (polled ++ engine.events) { engine with events := [] } := by
  have hevents : polled ++ engine.events ++ [] = polled ++ engine.events := List.append_nil _
  exact ⟨⟨⟨⟨hevents.symm ▸ h.queue, hevents.symm ▸ h.fresh, h.seen, h.context⟩,
    hevents.symm ▸ h.active, h.holds⟩, h.unfinished⟩, h.failed⟩

/-- The invariant of a run. -/
abbrev SystemInv (spec : RunnerSpec model context) (s : EngineSystem σ) : Prop :=
  spec.EngineInv s.accepted s.polled s.engine

/-- What one call does to a run, `op` being a submission or not. -/
structure Called (spec : RunnerSpec model context) (op : EngineOp) (s s' : EngineSystem σ) :
    Prop where
  inv : spec.SystemInv s'
  sealed : s.engine.failed = true → s'.engine.failed = true ∧ s'.emitted = s.emitted
  bounded : (∀ r, op ≠ .submit r) → load (s'.engine.waiting ++ s'.engine.active) ≤
    load (s.engine.waiting ++ s.engine.active)

/-- Every call, returning or throwing, keeps the invariant. -/
theorem EngineInv.call {s : EngineSystem σ} (h : spec.SystemInv s) (op : EngineOp) :
    spec.Called op s (s.step model op).2 := by
  cases op with
  | submit request =>
    have hwp : (Engine.submit model request).wp _ _ s.engine := submit_wp h
    rw [EngineSystem.step]
    rcases hrun : Engine.submit model request s.engine with ⟨e | _, engine⟩
    · obtain ⟨hinv, hevents, hfailed, -, -⟩ := hwp.error hrun
      refine ⟨hinv, fun hf => ⟨hfailed.trans hf, ?_⟩, fun hne => absurd rfl (hne request)⟩
      simp only [EngineSystem.emitted, hevents]
    · obtain ⟨hinv, hfailed, -⟩ := hwp.ok hrun
      exact ⟨hinv, fun hf => absurd (hfailed.symm.trans hf) Bool.false_ne_true,
        fun hne => absurd rfl (hne request)⟩
  | step =>
    rw [EngineSystem.step]
    cases hfailed : s.engine.failed with
    | false =>
      obtain ⟨b, it, hrun, hstepped⟩ := EngineInv.iteration h hfailed
      simp only [Engine.step, hrun]
      exact ⟨hstepped.inv, fun hf => absurd (hfailed.symm.trans hf) Bool.false_ne_true,
        fun _ => hstepped.bounded⟩
    | true =>
      rw [step_failed hfailed]
      exact ⟨⟨⟨⟨⟨h.queue, h.fresh, h.seen, h.context⟩, h.active, h.holds⟩, h.unfinished⟩, h.failed⟩,
        fun _ => ⟨hfailed, rfl⟩, fun _ => le_refl _⟩
  | cancel id =>
    have hwp : (Engine.cancel model id).wp _ _ s.engine := cancel_wp h
    rw [EngineSystem.step]
    have hkept : spec.Kept s.accepted s.polled s.engine (Engine.cancel model id s.engine).2 := by
      rcases hrun : Engine.cancel model id s.engine with ⟨e | _, engine⟩
      · exact hwp.error hrun
      · exact hwp.ok hrun
    exact ⟨hkept.inv, fun hf => ⟨hkept.failed.trans hf, congrArg (s.polled ++ ·) (hkept.quiet hf)⟩,
      fun _ => hkept.bounded⟩
  | pollEvents =>
    refine ⟨EngineInv.pollEvents h, fun hf => ⟨hf, ?_⟩, fun _ => le_refl _⟩
    show s.polled ++ s.engine.events ++ [] = s.polled ++ s.engine.events
    exact List.append_nil _
  | shutdown =>
    have hwp : (Engine.shutdown model).wp _ _ s.engine := shutdown_wp h
    rw [EngineSystem.step]
    have hkept : spec.Kept s.accepted s.polled s.engine (Engine.shutdown model s.engine).2 := by
      rcases hrun : Engine.shutdown model s.engine with ⟨e | _, engine⟩
      · exact hwp.error hrun
      · exact hwp.ok hrun
    exact ⟨hkept.inv, fun hf => ⟨hkept.failed.trans hf, congrArg (s.polled ++ ·) (hkept.quiet hf)⟩,
      fun _ => hkept.bounded⟩

theorem EngineInv.run {s : EngineSystem σ} (h : spec.SystemInv s) (ops : List EngineOp) :
    spec.SystemInv (EngineSystem.run model s ops) := by
  induction ops generalizing s with
  | nil => exact h
  | cons op ops ih => exact ih (h.call op).inv

/-- A constructed engine, for a runner that holds nothing. -/
theorem EngineInv.initial {runner : σ} {config : EngineConfig}
    (hrun : Engine.construct model runner config = .ok engine)
    (hcontext : config.context = context) (hholds : spec.holds World.empty engine.runner) :
    spec.SystemInv { engine } := by
  have hshape : ∃ runner' scheduler, engine = { runner := runner', config, scheduler } := by
    rw [Engine.construct] at hrun
    rcases hscheduler : schedulerConfig config with e | scheduler
    · rw [hscheduler] at hrun
      cases hrun
    · rw [hscheduler] at hrun
      simp only at hrun
      rcases hcheck : checkContext model config runner with ⟨e | _, runner'⟩
      · rw [hcheck] at hrun
        cases hrun
      · rw [hcheck] at hrun
        exact ⟨runner', scheduler, (Except.ok.inj hrun).symm⟩
  obtain ⟨runner', scheduler, rfl⟩ := hshape
  refine ⟨⟨⟨⟨⟨List.nodup_nil, List.nodup_nil, ?_, ?_, ?_, ?_⟩, ?_, fun id => ?_, hcontext⟩, ?_,
    hholds⟩, ?_⟩, fun hf => absurd hf Bool.false_ne_true⟩
  · exact fun _ hs => (List.not_mem_nil hs).elim
  · exact fun _ hs => (List.not_mem_nil hs).elim
  · exact fun _ hr => (List.not_mem_nil hr).elim
  · exact fun _ he => (List.not_mem_nil he).elim
  · exact fun _ hs => (List.not_mem_nil hs).elim
  · constructor
    · exact fun hid => (List.not_mem_nil hid).elim
    · rintro ⟨r, hr, -⟩
      exact (List.not_mem_nil hr).elim
  · exact fun _ hs => (List.not_mem_nil hs).elim
  · exact fun _ hs => (List.not_mem_nil hs).elim

end RunnerSpec

end TinyInfer.MiniPrefix
