import TinyInfer.MiniPrefix.EngineCalls

/-!
# Every request ends exactly once

Over a runner of which only the kind of its exceptions is known
(`anyRunner`), the account of `EngineInv` gives `exactly_once_termination`: in
every reachable state an accepted request is queued and untold of an end, or
gone with one terminal event, its last. A failed engine stays failed and silent.
-/

namespace TinyInfer.MiniPrefix

open Lib Engine Throwing

/-- The tokens one request was told, in order. -/
def tokensOf (id : RequestId) (events : List GenerationEvent) : List TokenId :=
  (eventsOf id events).filterMap GenerationEvent.tokenId

/-- The terminal events of one request. -/
def terminalsOf (id : RequestId) (events : List GenerationEvent) : List GenerationEvent :=
  (eventsOf id events).filter fun event => event.finishReason.isSome

/-- How often a request is in `waiting_` or `active_`. -/
def EngineSystem.queued {σ : Type} (s : EngineSystem σ) (id : RequestId) : Nat :=
  s.engine.waiting.countP (fun state => state.request.id = id) +
    s.engine.active.countP fun state => state.request.id = id

/-- What the caller of an engine can count on. -/
structure EngineSystem.TerminatesOnce {σ : Type} (s : EngineSystem σ) : Prop where
  once : ∀ r ∈ s.accepted,
    (s.queued r.id = 1 ∧ (terminalsOf r.id s.emitted).length = 0) ∨
      (s.queued r.id = 0 ∧ (terminalsOf r.id s.emitted).length = 1)
  last : ∀ before event after, s.emitted = before ++ event :: after →
    event.finishReason.isSome = true → ∀ later ∈ after, later.requestId ≠ event.requestId
  bounded : ∀ r ∈ s.accepted, (tokensOf r.id s.emitted).length ≤ r.generation.maxNewTokens
  payload : ∀ event ∈ s.emitted,
    (event.finishReason = some .eos ∨ event.finishReason = some .length →
      ∃ token, event.tokenId = some token ∧
        (tokensOf event.requestId s.emitted).getLast? = some token) ∧
    (event.finishReason = some .error ∨ event.finishReason = some .cancelled →
      event.tokenId = none)

namespace RunnerSpec

variable {σ L : Type} [Logit L] {model : ModelRunner σ L} {context : Int}
  {spec : RunnerSpec model context} {r : Request} {events : List GenerationEvent}
  {out : List TokenId}

theorem filterMap_tokenEvent :
    (out.map (tokenEvent r)).filterMap GenerationEvent.tokenId = out := by
  rw [List.filterMap_map]
  exact List.filterMap_some

theorem finishReason_tokenEvent {event : GenerationEvent} (h : event ∈ out.map (tokenEvent r)) :
    event.finishReason = none := by
  obtain ⟨token, -, rfl⟩ := List.mem_map.mp h
  rfl

/-- The end of a request: token events, then one terminal event. -/
theorem Ended.split (h : spec.Ended r events) : ∃ out last,
    events = out.map (tokenEvent r) ++ [last] ∧ spec.Open r out ∧
      last.finishReason.isSome = true ∧
      (last.finishReason = some .eos ∨ last.finishReason = some .length →
        ∃ token, last.tokenId = some token) ∧
      (last.finishReason = some .error ∨ last.finishReason = some .cancelled →
        last.tokenId = none) := by
  cases h with
  | eos h hgood heos => exact ⟨_, _, rfl, h, rfl, fun _ => ⟨_, rfl⟩, fun hf => by simp at hf⟩
  | length h hgood heos hlast =>
    exact ⟨_, _, rfl, h, rfl, fun _ => ⟨_, rfl⟩, fun hf => by simp at hf⟩
  | cancelled h => exact ⟨_, _, rfl, h, rfl, fun hf => by simp at hf, fun _ => rfl⟩
  | error h hwhy => exact ⟨_, _, rfl, h, rfl, fun hf => by simp at hf, fun _ => rfl⟩

/-- Only the last event of a request has a finish reason. -/
theorem eq_last_of_reason {last event : GenerationEvent} {reason : FinishReason}
    (hin : event ∈ out.map (tokenEvent r) ++ [last]) (h : event.finishReason = some reason) :
    event = last := by
  rcases List.mem_append.mp hin with hin | hin
  · rw [finishReason_tokenEvent hin] at h
    cases h
  · exact List.mem_singleton.mp hin

/-- An error comes with a message the runner allows. -/
theorem Ended.failure (h : spec.Ended r events) {event : GenerationEvent} (hin : event ∈ events)
    (herror : event.finishReason = some .error) : spec.failure r event.errorMessage := by
  cases h with
  | eos h hgood heos =>
    rw [eq_last_of_reason hin herror] at herror
    cases herror
  | length h hgood heos hlast =>
    rw [eq_last_of_reason hin herror] at herror
    cases herror
  | cancelled h =>
    rw [eq_last_of_reason hin herror] at herror
    cases herror
  | error h hwhy =>
    rw [eq_last_of_reason hin herror]
    exact hwhy

/-- A terminal event among the events of a request that is over is the last one. -/
theorem Ended.last (h : spec.Ended r events) {before after : List GenerationEvent}
    {event : GenerationEvent} (hsplit : events = before ++ event :: after)
    (hterminal : event.finishReason.isSome = true) : after = [] := by
  obtain ⟨out, last, rfl, -⟩ := h.split
  rcases List.eq_nil_or_concat after with hnil | ⟨rest, final, rfl⟩
  · exact hnil
  · rw [List.concat_eq_append, ← List.cons_append, ← List.append_assoc] at hsplit
    have hinit := (List.append_inj' hsplit rfl).1
    have hmem : event ∈ out.map (tokenEvent r) := by
      rw [hinit]
      simp
    rw [finishReason_tokenEvent hmem] at hterminal
    cases hterminal

/-- An ended request was told at most its token limit. -/
theorem Ended.tokens (h : spec.Ended r events) :
    (events.filterMap GenerationEvent.tokenId).length ≤ r.generation.maxNewTokens := by
  obtain ⟨out, last, rfl, hopen, -⟩ := h.split
  have hshort := hopen.short
  have htail := List.length_filterMap_le GenerationEvent.tokenId [last]
  rw [List.filterMap_append, filterMap_tokenEvent, List.length_append]
  simp only [List.length_singleton] at htail
  omega

/-- An accepted request is in the queue, open, or gone and over. -/
theorem EngineInv.cases {accepted : List Request} {polled : List GenerationEvent}
    {engine : Engine σ} (h : spec.EngineInv accepted polled engine) (hr : r ∈ accepted) :
    (∃ state ∈ engine.waiting ++ engine.active, state.request = r ∧ ∃ out, spec.Open r out ∧
        eventsOf r.id (polled ++ engine.events) = out.map (tokenEvent r)) ∨
      ((∀ state ∈ engine.waiting ++ engine.active, state.request.id ≠ r.id) ∧
        spec.Ended r (eventsOf r.id (polled ++ engine.events))) := by
  by_cases hin : ∃ state ∈ engine.waiting ++ engine.active, state.request.id = r.id
  · obtain ⟨state, hs, hid⟩ := hin
    obtain rfl : state.request = r :=
      List.inj_on_of_nodup_map h.queue.distinct (h.queue.mem state hs) hr hid
    have hunfinished : state.finished = false := by
      rcases List.mem_append.mp hs with hs | hs
      · rw [(h.fresh state hs).1]
      · exact h.unfinished state hs
    exact Or.inl ⟨state, hs, rfl, (h.queue.told state hs).open hunfinished⟩
  · have hgone : ∀ state ∈ engine.waiting ++ engine.active, state.request.id ≠ r.id :=
      fun state hs hid => hin ⟨state, hs, hid⟩
    exact Or.inr ⟨hgone, h.queue.gone r hr hgone⟩

/-- A request in the queue is there once. -/
theorem SystemInv.queued_eq_one {s : EngineSystem σ} (h : spec.SystemInv s) {state : State}
    (hs : state ∈ s.engine.waiting ++ s.engine.active) : s.queued state.request.id = 1 := by
  have hids := h.queue.ids
  have hcount : ((s.engine.waiting ++ s.engine.active).map fun s => s.request.id).count
      state.request.id = 1 := List.count_eq_one_of_mem hids (List.mem_map_of_mem hs)
  rw [EngineSystem.queued, ← List.countP_append]
  rw [List.count, List.countP_map] at hcount
  rw [← hcount]
  exact List.countP_congr fun s _ => by simp

/-- The invariant gives exactly one end for each request. -/
theorem SystemInv.terminatesOnce {s : EngineSystem σ} (h : spec.SystemInv s) :
    s.TerminatesOnce := by
  refine ⟨fun r hr => ?_, fun before event after hsplit hterminal later hlater heq => ?_,
    fun r hr => ?_, fun event he => ?_⟩
  -- the terminal events of an accepted request
  · rcases h.cases hr with ⟨state, hs, rfl, out, -, htold⟩ | ⟨hgone, hended⟩
    · refine Or.inl ⟨SystemInv.queued_eq_one h hs, ?_⟩
      rw [terminalsOf, EngineSystem.emitted, htold, List.length_eq_zero_iff, List.filter_eq_nil_iff]
      intro event he
      rw [finishReason_tokenEvent he]
      exact Bool.false_ne_true
    · refine Or.inr ⟨?_, ?_⟩
      · rw [EngineSystem.queued, ← List.countP_append, List.countP_eq_zero]
        intro state hs
        simpa using hgone state hs
      · obtain ⟨out, last, heq, -, hlast, -⟩ := hended.split
        have hnone :
          (out.map (tokenEvent r)).filter (fun event => event.finishReason.isSome) = [] :=
          List.filter_eq_nil_iff.mpr fun event he => by
            rw [finishReason_tokenEvent he]
            exact Bool.false_ne_true
        rw [terminalsOf, EngineSystem.emitted, heq, List.filter_append, hnone]
        simp [hlast]
  · -- both events are told to one request, whose terminal event is its last
    have hmem : event ∈ s.emitted := by
      rw [hsplit]
      simp
    obtain ⟨r, hr, hid⟩ := h.queue.known event hmem
    have hfilter : eventsOf r.id s.emitted =
        eventsOf r.id before ++ event :: eventsOf r.id after := by
      rw [hsplit, eventsOf_append]
      simp only [eventsOf, List.filter_cons, hid, decide_true, if_true]
    rcases h.cases hr with ⟨state, hs, rfl, out, -, htold⟩ | ⟨-, hended⟩
    · have hin : event ∈ out.map (tokenEvent state.request) := by
        rw [← htold]
        show event ∈ eventsOf _ s.emitted
        rw [hfilter]
        simp
      rw [finishReason_tokenEvent hin] at hterminal
      cases hterminal
    · have hnil := hended.last hfilter hterminal
      have hin : later ∈ eventsOf r.id after :=
        List.mem_filter.mpr ⟨hlater, decide_eq_true (heq.trans hid.symm)⟩
      rw [hnil] at hin
      exact (List.not_mem_nil hin).elim
  -- the tokens of an accepted request
  · rcases h.cases hr with ⟨state, hs, rfl, out, hopen, htold⟩ | ⟨-, hended⟩
    · rw [tokensOf, EngineSystem.emitted, htold, filterMap_tokenEvent]
      exact hopen.short.le
    · exact hended.tokens
  -- only a finished request has a terminal event, and it ends with its last token
  · obtain ⟨r, hr, hid⟩ := h.queue.known event he
    have hin : event ∈ eventsOf r.id s.emitted :=
      List.mem_filter.mpr ⟨he, decide_eq_true hid.symm⟩
    rcases h.cases hr with ⟨state, hs, rfl, out, hopen, htold⟩ | ⟨-, hended⟩
    · rw [EngineSystem.emitted, htold] at hin
      rw [finishReason_tokenEvent hin]
      exact ⟨fun hf => by simp at hf, fun hf => by simp at hf⟩
    · obtain ⟨out, last, heq, -, hlast, hsome, hnone⟩ := hended.split
      have hevents : eventsOf r.id s.emitted = out.map (tokenEvent r) ++ [last] := heq
      rw [hevents] at hin
      rcases List.mem_append.mp hin with hin | hin
      · rw [finishReason_tokenEvent hin]
        exact ⟨fun hf => by simp at hf, fun hf => by simp at hf⟩
      · rw [List.mem_singleton.mp hin] at hid ⊢
        refine ⟨fun hf => ?_, hnone⟩
        obtain ⟨token, htoken⟩ := hsome hf
        refine ⟨token, htoken, ?_⟩
        rw [tokensOf, ← hid, hevents, List.filterMap_append]
        simp [htoken]

/-- A failed engine is idle, refuses to go on and tells nothing more. -/
theorem SystemInv.sealed {s : EngineSystem σ} (h : spec.SystemInv s)
    (hfailed : s.engine.failed = true) (ops : List EngineOp) :
    (EngineSystem.run model s ops).engine.failed = true ∧
      (EngineSystem.run model s ops).engine.idle = true ∧
      (EngineSystem.run model s ops).emitted = s.emitted := by
  induction ops generalizing s with
  | nil =>
    refine ⟨hfailed, ?_, rfl⟩
    obtain ⟨hwaiting, hactive⟩ := h.failed hfailed
    show s.engine.idle = true
    rw [Engine.idle, hwaiting, hactive]
    rfl
  | cons op ops ih =>
    have hcall := h.call op
    obtain ⟨hfailed', hemitted⟩ := hcall.sealed hfailed
    obtain ⟨hrun, hidle, hsame⟩ := ih hcall.inv hfailed'
    exact ⟨hrun, hidle, hsame.trans hemitted⟩

end RunnerSpec

/-- Every call but `clear`, whose handler takes anything, throws a
`std::exception` if it throws. -/
structure ModelRunner.ThrowsStd {σ L : Type} (model : ModelRunner σ L) : Prop where
  config : ThrowsOnly (fun e => e.isStd = true) model.config
  reserveRequest : ∀ id n, ThrowsOnly (fun e => e.isStd = true) (model.reserveRequest id n)
  create : ∀ id, ThrowsOnly (fun e => e.isStd = true) (model.create id)
  reusePrefix : ∀ id prompt, ThrowsOnly (fun e => e.isStd = true) (model.reusePrefix id prompt)
  cachePrefix : ∀ id, ThrowsOnly (fun e => e.isStd = true) (model.cachePrefix id)
  append : ∀ id tokens, ThrowsOnly (fun e => e.isStd = true) (model.append id tokens)
  release : ∀ id, ThrowsOnly (fun e => e.isStd = true) (model.release id)
  kvBlockTokens : ThrowsOnly (fun e => e.isStd = true) model.kvBlockTokens

section AnyRunner

variable {σ L : Type} [Logit L] {model : ModelRunner σ L}

/-- A runner of which nothing else is known. -/
def anyRunner (hstd : model.ThrowsStd) (context : Int) : RunnerSpec model context where
  holds _ _ := True
  thrown _ _ e _ := e.isStd = true
  vocabulary _ := True
  good _ _ := True
  failure _ _ := True
  lawful := False
  config _ := hstd.config.wp (fun _ _ => ⟨trivial, trivial⟩) fun _ _ he => ⟨trivial, fun _ => he⟩
  reserve _ _ _ := (hstd.reserveRequest _ _).wp
    (fun _ _ => ⟨fun _ => trivial, fun _ => trivial, fun _ => trivial, fun _ _ => trivial⟩)
    fun _ _ he => he
  create _ _ := (hstd.create _).wp (fun _ _ => trivial) fun _ _ he => he
  reuse _ _ _ := (hstd.reusePrefix _ _).wp (fun _ _ => ⟨trivial, False.elim⟩) fun _ _ he => he
  blockTokens _ _ := hstd.kvBlockTokens.wp (fun _ _ => ⟨trivial, False.elim⟩) fun _ _ he => he
  append _ _ _ _ _ _ _ := (hstd.append _ _).wp (fun _ _ => ⟨trivial, trivial, False.elim⟩)
    fun _ _ he => he
  publish _ _ := (hstd.cachePrefix _).wp (fun _ _ => trivial) fun _ _ he => he
  release _ _ := (hstd.release _).wp (fun _ _ => trivial) fun _ _ he => ⟨trivial, he⟩
  releaseReservation _ _ := trivial
  cleared _ := trivial
  refuse _ _ := rfl
  std he := he
  thrown_put he := he
  thrown_release _ _ := (hstd.release _).wp (fun _ _ => trivial) fun _ _ he => he
  thrown_drop _ _ := trivial
  thrown_failure _ := trivial
  fatal _ := trivial

theorem EngineSystem.Reachable.inv (hstd : model.ThrowsStd) {s : EngineSystem σ}
    (h : EngineSystem.Reachable model s) : ∃ context, (anyRunner hstd context).SystemInv s := by
  obtain ⟨runner, config, engine, ops, hconstruct, rfl⟩ := h
  exact ⟨config.context,
    (RunnerSpec.EngineInv.initial hconstruct rfl trivial).run ops⟩

/-- Every request ends exactly once, whatever the runner throws; an engine that
failed stays failed, idle and silent. -/
theorem exactly_once_termination (hstd : model.ThrowsStd) {s : EngineSystem σ}
    (h : EngineSystem.Reachable model s) :
    s.TerminatesOnce ∧
      (s.engine.failed = true → ∀ ops,
        (EngineSystem.run model s ops).engine.failed = true ∧
        (EngineSystem.run model s ops).engine.idle = true ∧
        (EngineSystem.run model s ops).emitted = s.emitted ∧
        (∀ r, throws ((EngineSystem.run model s ops).step model (.submit r))) ∧
        throws ((EngineSystem.run model s ops).step model .step)) := by
  obtain ⟨context, hinv⟩ := h.inv hstd
  refine ⟨hinv.terminatesOnce, fun hfailed ops => ?_⟩
  obtain ⟨hfailed', hidle, hemitted⟩ := hinv.sealed hfailed ops
  have hinv' := hinv.run ops
  refine ⟨hfailed', hidle, hemitted, fun r => ?_, ?_⟩
  · have hwp : (Engine.submit model r).wp _ _ (EngineSystem.run model s ops).engine :=
      RunnerSpec.submit_wp hinv'
    rw [EngineSystem.step]
    rcases hrun : Engine.submit model r (EngineSystem.run model s ops).engine with ⟨e | _, engine⟩
    · exact ⟨e, rfl⟩
    · exact absurd ((hwp.ok hrun).2.1.symm.trans hfailed') Bool.false_ne_true
  · rw [EngineSystem.step, RunnerSpec.step_failed hfailed']
    exact ⟨_, rfl⟩

end AnyRunner

instance : Logit Int where
  isFinite _ := true
  less a b := decide (a < b)

/-- The runner of `engine_terminal_test.cpp`: the successor of the last token is
the most likely one, and two calls can be told to fail. -/
def testRunner (vocabulary : Nat) (failAppend failRelease : RequestId) :
    ModelRunner (List RequestId) Int where
  config := pure { vocabulary, context := 128 }
  contextLimit := pure 128
  reserveRequest _ _ := pure .ready
  releaseReservation _ resident := resident
  create id := modify (id :: ·)
  reusePrefix _ _ := pure 0
  cachePrefix _ := pure ()
  append id tokens :=
    if id = failAppend then throw (.runtimeError "forward failed")
    else pure ((List.replicate vocabulary 0).set ((tokens.getLastD 0).toNat + 1) 1)
  release id :=
    if id = failRelease then throw (.runtimeError "release failed") else modify (List.erase · id)
  clear := modify fun _ => []
  kvBlockTokens := pure 0

theorem testRunner_throwsStd (vocabulary : Nat) (failAppend failRelease : RequestId) :
    (testRunner vocabulary failAppend failRelease).ThrowsStd where
  config _ := trivial
  reserveRequest _ _ _ := trivial
  create _ _ := trivial
  reusePrefix _ _ _ := trivial
  cachePrefix _ _ := trivial
  append _ _ _ := wp_ite.mpr ⟨fun _ => rfl, fun _ => trivial⟩
  release _ _ := wp_ite.mpr ⟨fun _ => rfl, fun _ => trivial⟩
  kvBlockTokens _ := trivial

/-- An engine of two batch slots over such a runner. -/
def testEngine : Engine (List RequestId) where
  runner := []
  config := { context := 128 }
  scheduler := ⟨2, 32, 16, by decide⟩

theorem construct_testEngine (failAppend failRelease : RequestId) :
    Engine.construct (testRunner 4 failAppend failRelease) [] { context := 128 } = .ok testEngine :=
  rfl

/-- The run of `failure_preserves_prior_events`, with fewer requests. -/
def failedRun : EngineSystem (List RequestId) :=
  EngineSystem.run (testRunner 4 "broken" "") { engine := testEngine }
    [.submit ⟨"finished", [1], { maxNewTokens := 1 }⟩, .submit ⟨"broken", [1], {}⟩, .step]

/-- One request finishes, and the append of the other fails. -/
theorem exactly_once_termination_forward_failed :
    failedRun.TerminatesOnce ∧ failedRun.engine.failed = true ∧ failedRun.emitted = [
      ⟨"finished", some 2, some .length, ""⟩,
      ⟨"broken", none, some .error, "forward failed"⟩] :=
  ⟨(exactly_once_termination (testRunner_throwsStd 4 "broken" "")
    ⟨[], { context := 128 }, testEngine, _, construct_testEngine _ _, rfl⟩).1,
    by decide +kernel, by decide +kernel⟩

end TinyInfer.MiniPrefix
