import TinyInfer.MiniPrefix.EngineStepCalls

/-!
# The calls of a run

`Accounted` is what holds of an engine over a logged runner between calls; every
call keeps it (`Accounted.call`), so it holds in every run. A step that does not
fail counts its calls (`Accounted.step`).
-/

namespace TinyInfer.MiniPrefix

open Lib Engine Throwing

variable {σ L : Type} {model : ModelRunner σ L} {accepted : List Request}
  {polled : List GenerationEvent} {engine engine' : Engine (Logged σ)}

/-! ## `submit` -/

/-- Checking a token calls nothing that is counted. -/
theorem checkToken_silent {what : String} {token : TokenId} {s : Logged σ} :
    (checkToken model.logged what token).wp (fun _ s' => s'.calls = s.calls)
      (fun _ s' => s'.calls = s.calls) s := by
  rw [checkToken, wp_bind, wp_throwIf]
  refine ⟨fun _ => rfl, fun _ => ?_⟩
  rw [wp_bind]
  refine Logged.wp_silent.mpr (wp_any (fun config runner => ?_) fun _ _ => rfl)
  rw [wp_throwIf]
  exact ⟨fun _ => rfl, fun _ => rfl⟩

/-- Nor does checking a prompt. -/
theorem checkTokens_silent {tokens : List TokenId} {s : Logged σ} :
    (checkTokens model.logged tokens).wp (fun _ s' => s'.calls = s.calls)
      (fun _ s' => s'.calls = s.calls) s := by
  induction tokens generalizing s with
  | nil =>
    rw [checkTokens, wp_pure]
  | cons token tokens ih =>
    rw [checkTokens, wp_bind]
    refine checkToken_silent.mono (fun _ s₁ h₁ => ?_) fun _ _ h => h
    rw [← h₁]
    exact ih

theorem checkEos_silent {eos : Option TokenId} {s : Logged σ} :
    (checkEos model.logged eos).wp (fun _ s' => s'.calls = s.calls)
      (fun _ s' => s'.calls = s.calls) s := by
  cases eos with
  | none =>
    rw [checkEos, wp_pure]
  | some eos => exact checkToken_silent

theorem withRunner_quiet {runner : Logged σ} (hcalls : runner.calls = engine.runner.calls) :
    Quiet 0 engine { engine with runner } :=
  .of_sublist (List.Sublist.refl _) (le_refl _) hcalls rfl rfl

/-- A request is submitted under a new id. -/
theorem Lively.submit (h : Lively accepted polled engine) {r : Request}
    (hnew : r.id ∉ engine.seen) :
    Lively (accepted ++ [r]) polled { engine with
      waiting := engine.waiting ++ [{ request := r }]
      seen := r.id :: engine.seen } := by
  have hother : ∀ r' ∈ accepted, r'.id ≠ r.id := fun r' hr' heq => hnew (heq ▸ h.seen r' hr')
  obtain ⟨hcalls, hevents⟩ := h.unknown r.id hother
  have hqueue : Engine.queue { engine with
      waiting := engine.waiting ++ [({ request := r } : State)], seen := r.id :: engine.seen } =
      engine.queue ++ [{ request := r }] := (List.append_assoc ..).symm
  have hlive : Live (callsOf r.id engine.runner.calls) ({ request := r } : State)
      (eventsOf r.id (polled ++ engine.events)) := by
    rw [hcalls, hevents]
    exact ⟨rfl, rfl, .fresh, .start, rfl, rfl, rfl⟩
  refine ⟨⟨?_, ?_, fun r' hr' => ?_, fun s hs => ?_, ?_, fun id hid => ?_, fun r' hr' => ?_⟩,
    fun s hs => ?_⟩
  · rw [List.map_append, List.nodup_append]
    refine ⟨h.distinct, List.nodup_singleton _, ?_⟩
    rintro id hid _ hid' rfl
    obtain ⟨r', hr', rfl⟩ := List.mem_map.mp hid
    exact hother r' hr' (List.mem_singleton.mp hid')
  · rw [hqueue, idsOf_append, List.nodup_append]
    refine ⟨h.ids, List.nodup_singleton _, ?_⟩
    rintro id hid _ hid' rfl
    obtain ⟨s, hs, rfl⟩ := List.mem_map.mp hid
    exact hother _ (h.mem s hs) (List.mem_singleton.mp hid')
  · rcases List.mem_append.mp hr' with hr' | hr'
    · exact List.mem_cons_of_mem _ (h.seen r' hr')
    · rw [List.mem_singleton.mp hr']
      exact List.mem_cons_self
  · rw [hqueue] at hs
    rcases List.mem_append.mp hs with hs | hs
    · exact List.mem_append_left _ (h.mem s hs)
    · rw [List.mem_singleton.mp hs]
      exact List.mem_append_right _ (List.mem_singleton_self r)
  · rw [hqueue, unfinished_append, List.map_append]
    exact h.fifo.append (List.Sublist.refl _)
  · exact h.unknown id fun r' hr' => hid r' (List.mem_append_left _ hr')
  · rcases List.mem_append.mp hr' with hr' | hr'
    · exact h.account r' hr'
    · rw [List.mem_singleton.mp hr']
      exact hlive.account
  · rw [hqueue, unfinished_append] at hs
    rcases List.mem_append.mp hs with hs | hs
    · exact h.live s hs
    · rw [List.mem_singleton.mp (mem_unfinished.mp hs).1]
      exact hlive

/-- A submission keeps the engine lively, or throws and is quiet. -/
theorem submit_calls {request : Request} (h : Lively accepted polled engine) :
    (Engine.submit model.logged request).wp
      (fun _ engine' => Lively (accepted ++ [request]) polled engine' ∧
        engine'.active = engine.active ∧ engine'.scheduler = engine.scheduler ∧
        engine'.config = engine.config)
      (fun _ engine' => Quiet 0 engine engine') engine := by
  rw [Engine.submit, wp_bind, wp_get, wp_bind, wp_throwIf]
  refine ⟨fun _ => .refl, fun _ => ?_⟩
  rw [wp_bind, wp_throwIf]
  refine ⟨fun _ => .refl, fun hchecks => ?_⟩
  simp only [not_or] at hchecks
  rw [wp_bind, wp_call]
  refine checkTokens_silent.mono (fun _ s₁ h₁ => ?_) fun _ s₁ h₁ => withRunner_quiet h₁
  rw [wp_bind, wp_call]
  refine checkEos_silent.mono (fun _ s₂ h₂ => ?_) fun _ s₂ h₂ => withRunner_quiet (h₂.trans h₁)
  rw [wp_modify]
  have hquiet : Quiet 0 engine { engine with runner := s₂ } := withRunner_quiet (h₂.trans h₁)
  exact ⟨(h.quiet hquiet).submit hchecks.2.1, rfl, rfl, rfl⟩

/-! ## Every call -/

/-- What holds of an engine over a logged runner between calls. -/
structure Accounted (s : EngineSystem (Logged σ)) : Prop where
  lively : Lively s.accepted s.polled s.engine
  batch : s.engine.active.length ≤ s.engine.scheduler.maxBatchSize
  configured : schedulerConfig s.engine.config = .ok s.engine.scheduler

variable {context : Int} {s : EngineSystem (Logged σ)}

theorem fail_failed {e : Exn} : (engine.fail model.logged e).failed = true := rfl

/-- The batch is never overfull. -/
theorem admitted_batch (h : Lively accepted polled engine)
    (hclean : ∀ state ∈ engine.queue, state.finished = false)
    (hbatch : engine.active.length ≤ engine.scheduler.maxBatchSize) :
    (engine.admitted model.logged).active.length ≤ engine.scheduler.maxBatchSize := by
  have hactive := (admitted_quiet model h hclean).1.active
  refine hactive.trans ?_
  show engine.active.length + Scheduler.admissionCount _ _ _ ≤ _
  rw [Scheduler.admissionCount]
  by_cases hfull : engine.active.length ≥ engine.scheduler.maxBatchSize
  · simp only [if_pos hfull]
    omega
  · simp only [if_neg hfull]
    omega

section Calls

variable [Logit L] {spec : RunnerSpec model.logged context}

theorem RunnerSpec.EngineInv.clean (h : spec.EngineInv accepted polled engine) :
    ∀ state ∈ engine.queue, state.finished = false := by
  intro state hs
  rcases List.mem_append.mp hs with hs | hs
  · exact h.unfinished state hs
  · rw [(h.fresh state hs).1]

/-- A record without a queue. -/
theorem Traced.lively (h : Traced accepted polled engine) (hwaiting : engine.waiting = [])
    (hactive : engine.active = []) : Lively accepted polled engine := by
  refine ⟨h, fun state hs => ?_⟩
  rw [Engine.queue, hwaiting, hactive] at hs
  exact (List.not_mem_nil hs).elim

/-- A step of an engine that has not failed. -/
theorem step_calls (hinv : spec.EngineInv accepted polled engine)
    (h : Lively accepted polled engine) (hfailed : engine.failed = false) :
    ∃ new, StepCalls model engine new (engine.step model.logged).2 ∧
      Lively accepted polled (engine.step model.logged).2 ∧
      ((engine.step model.logged).2.failed = false →
        StepDone model engine new (engine.step model.logged).2) := by
  obtain ⟨b, it, hrun, hstepped⟩ := hinv.iteration hfailed
  have hstep : engine.step model.logged = (.ok b, it.engine) := by rw [Engine.step, hrun]
  rw [hstep]
  have hwp : (iterate model.logged).wp _ _ _ := iterate_calls h hinv.clean
  rw [Engine.iteration, if_neg (by rw [hfailed]; exact Bool.false_ne_true)] at hrun
  rcases hiterate : iterate model.logged { engine := { engine with stepStats := {} } } with
    ⟨e | b', it'⟩
  · obtain ⟨new, hcalls, htraced⟩ := hwp.error hiterate
    rw [hiterate] at hrun
    -- the outer handler ends what is left
    cases hstd : e.isStd with
    | false =>
      simp only [hstd, Bool.false_eq_true, if_false, Prod.mk.injEq] at hrun
      cases hrun.1
    | true =>
      simp only [hstd, if_true, Prod.mk.injEq] at hrun
      obtain ⟨-, rfl⟩ := hrun
      have hquiet : Quiet 0 it'.engine (it'.engine.fail model.logged e) := fail_quiet htraced.ids
      have hempty := hstepped.inv.failed fail_failed
      exact ⟨new, hcalls.quiet hquiet, (htraced.quiet hquiet).lively hempty.1 hempty.2,
        fun hnot => absurd (hnot.symm.trans fail_failed) Bool.false_ne_true⟩
  · obtain ⟨new, hcalls, hdone, hlively⟩ := hwp.ok hiterate
    rw [hiterate] at hrun
    simp only [Prod.mk.injEq] at hrun
    obtain ⟨-, rfl⟩ := hrun
    exact ⟨new, hcalls, hlively, fun _ => hdone⟩

/-- A quiet change keeps the account. -/
theorem Accounted.quiet (h : Accounted s) (hquiet : Quiet 0 s.engine engine) :
    Accounted { s with engine } where
  lively := h.lively.quiet hquiet
  batch := by
    show engine.active.length ≤ engine.scheduler.maxBatchSize
    rw [hquiet.scheduler]
    exact hquiet.active.trans h.batch
  configured := by
    show schedulerConfig engine.config = .ok engine.scheduler
    rw [hquiet.scheduler, hquiet.config]
    exact h.configured

/-- Every operation keeps the account. -/
theorem Accounted.call (hinv : spec.SystemInv s) (h : Accounted s) (op : EngineOp) :
    Accounted (s.step model.logged op).2 := by
  cases op with
  | submit request =>
    have hwp : (Engine.submit model.logged request).wp _ _ s.engine := submit_calls h.lively
    rw [EngineSystem.step]
    rcases hrun : Engine.submit model.logged request s.engine with ⟨e | _, engine⟩
    · exact h.quiet (hwp.error hrun)
    · obtain ⟨hlively, hactive, hscheduler, hconfig⟩ := hwp.ok hrun
      exact ⟨hlively, by rw [hactive, hscheduler]; exact h.batch,
        by rw [hconfig, hscheduler]; exact h.configured⟩
  | step =>
    rw [EngineSystem.step]
    cases hfailed : s.engine.failed with
    | true =>
      rw [RunnerSpec.step_failed hfailed]
      exact ⟨h.lively.reset, h.batch, h.configured⟩
    | false =>
      obtain ⟨new, hcalls, hlively, -⟩ := step_calls hinv h.lively hfailed
      refine ⟨hlively, ?_, ?_⟩
      · show (Engine.step model.logged s.engine).2.active.length ≤
          (Engine.step model.logged s.engine).2.scheduler.maxBatchSize
        rw [hcalls.scheduler]
        exact hcalls.active.trans (admitted_batch h.lively hinv.clean h.batch)
      · show schedulerConfig (Engine.step model.logged s.engine).2.config =
          .ok (Engine.step model.logged s.engine).2.scheduler
        rw [hcalls.scheduler, hcalls.config]
        exact h.configured
  | cancel id =>
    have hwp : (Engine.cancel model.logged id).wp _ _ s.engine := cancel_quiet h.lively.ids
    rw [EngineSystem.step]
    rcases hrun : Engine.cancel model.logged id s.engine with ⟨e | _, engine⟩
    · exact h.quiet (hwp.error hrun)
    · exact h.quiet (hwp.ok hrun)
  | pollEvents =>
    have hevents : s.polled ++ s.engine.events ++ [] = s.polled ++ s.engine.events :=
      List.append_nil _
    have hlively := h.lively
    refine ⟨⟨⟨hlively.distinct, hlively.ids, hlively.seen, hlively.mem, hlively.fifo, ?_, ?_⟩, ?_⟩,
      h.batch, h.configured⟩
    · exact hevents.symm ▸ hlively.unknown
    · exact hevents.symm ▸ hlively.account
    · exact hevents.symm ▸ hlively.live
  | shutdown =>
    have hwp : (Engine.shutdown model.logged).wp _ _ s.engine := shutdown_quiet h.lively.ids
    rw [EngineSystem.step]
    rcases hrun : Engine.shutdown model.logged s.engine with ⟨e | _, engine⟩
    · exact h.quiet (hwp.error hrun)
    · exact h.quiet (hwp.ok hrun)

theorem Accounted.run (hinv : spec.SystemInv s) (h : Accounted s) (ops : List EngineOp) :
    Accounted (EngineSystem.run model.logged s ops) := by
  induction ops generalizing s with
  | nil => exact h
  | cons op ops ih => exact ih (hinv.call op).inv (h.call hinv op)

end Calls

/-! ## Runs -/

/-- A constructed engine has called for no request. -/
theorem Accounted.initial {runner : σ} {config : EngineConfig}
    (h : Engine.construct model.logged { runner } config = .ok engine) : Accounted { engine } := by
  rw [Engine.construct] at h
  cases hscheduler : schedulerConfig config with
  | error e =>
    rw [hscheduler] at h
    cases h
  | ok scheduler =>
    rw [hscheduler] at h
    have hcheck : (checkContext model.logged config).wp (fun _ s' => s'.calls = [])
        (fun _ _ => True) { runner } := by
      simp only [checkContext, wp_bind, wp_throwIf]
      refine ⟨fun _ => trivial, fun _ => ?_⟩
      refine Logged.wp_silent.mpr (wp_any (fun modelConfig s₁ => ⟨fun _ => trivial, fun _ => ?_⟩)
        fun _ _ => trivial)
      exact Logged.wp_silent.mpr (wp_any (fun limit s₂ => ⟨fun _ => trivial, fun _ => rfl⟩)
        fun _ _ => trivial)
    rcases hrun : checkContext model.logged config { runner } with ⟨e | _, runner'⟩
    · simp only [hrun] at h
      cases h
    · have hcalls : runner'.calls = [] := hcheck.ok hrun
      simp only [hrun, Except.ok.injEq] at h
      subst h
      refine ⟨⟨⟨List.nodup_nil, List.nodup_nil, fun _ h => (List.not_mem_nil h).elim,
        fun _ h => (List.not_mem_nil h).elim, List.nil_sublist _, fun id _ => ⟨?_, rfl⟩,
        fun _ h => (List.not_mem_nil h).elim⟩, fun _ h => (List.not_mem_nil h).elim⟩,
        Nat.zero_le _, hscheduler⟩
      rw [hcalls]
      rfl

end TinyInfer.MiniPrefix
