import TinyInfer.MiniPrefix.EngineRuns

/-!
# The engine always makes progress

`load` ranks the states between calls: a step of an engine that is neither idle
nor failed lowers it or fails the engine, and no other call but `submit` raises
it. Hence `engine_progress`: as many steps as the load is high leave it idle.
-/

namespace TinyInfer.MiniPrefix

open Lib Engine Throwing

/-- What is left to do for the requests of an engine. -/
def EngineSystem.work {σ : Type} (s : EngineSystem σ) : Nat :=
  load (s.engine.waiting ++ s.engine.active)

namespace RunnerSpec

variable {σ L : Type} [Logit L] {model : ModelRunner σ L} {context : Int}
  {spec : RunnerSpec model context} {s : EngineSystem σ}

/-- Every queued request counts. -/
theorem SystemInv.idle_iff (h : spec.SystemInv s) : s.engine.idle = true ↔ s.work = 0 := by
  rw [EngineSystem.work, Engine.idle, Bool.and_eq_true, List.isEmpty_iff, List.isEmpty_iff]
  constructor
  · rintro ⟨hactive, hwaiting⟩
    rw [hactive, hwaiting]
    rfl
  · intro hload
    have hnone : ∀ state ∈ s.engine.waiting ++ s.engine.active, False := by
      intro state hs
      have hunfinished : state.finished = false := by
        rcases List.mem_append.mp hs with hs | hs
        · rw [(h.fresh state hs).1]
        · exact h.unfinished state hs
      have hpending : state.pending = 0 := Nat.le_zero.mp (hload ▸ pending_le_load hs)
      rw [State.pending_of_unfinished hunfinished] at hpending
      exact Nat.succ_ne_zero _ hpending
    exact ⟨List.eq_nil_iff_forall_not_mem.mpr fun x hx => hnone x (List.mem_append_right _ hx),
      List.eq_nil_iff_forall_not_mem.mpr fun x hx => hnone x (List.mem_append_left _ hx)⟩

/-- A step lowers the work, or there was none, or none is left. -/
theorem SystemInv.step_work (h : spec.SystemInv s) :
    (s.step model .step).2.work ≤ s.work - 1 := by
  cases hidle : s.engine.idle with
  | true =>
    have hzero := (SystemInv.idle_iff h).mp hidle
    have hbounded := (h.call .step).bounded fun r hr => by cases hr
    rw [EngineSystem.work] at hzero ⊢
    omega
  | false =>
    have hfailed : s.engine.failed = false := by
      refine Bool.eq_false_iff.mpr fun hf => ?_
      obtain ⟨hwaiting, hactive⟩ := h.failed hf
      rw [Engine.idle, hwaiting, hactive] at hidle
      cases hidle
    obtain ⟨b, it, hrun, hstepped⟩ := EngineInv.iteration h hfailed
    have hinv := (h.call .step).inv
    have hshape : (s.step model .step).2.engine = it.engine := by
      simp only [EngineSystem.step, Engine.step, hrun]
    rcases hstepped.progress hidle with ⟨-, hidle'⟩ | hless
    · rw [(SystemInv.idle_iff hinv).mp (hshape ▸ hidle')]
      exact Nat.zero_le _
    · rw [EngineSystem.work, EngineSystem.work, hshape]
      omega

/-- Enough steps, whatever else is called, leave nothing to do. -/
theorem SystemInv.reaches_idle (h : spec.SystemInv s) {ops : List EngineOp}
    (hops : ∀ r, .submit r ∉ ops) (hsteps : s.work ≤ ops.count .step) :
    (EngineSystem.run model s ops).engine.idle = true := by
  induction ops generalizing s with
  | nil => exact (SystemInv.idle_iff h).mpr (Nat.le_zero.mp hsteps)
  | cons op ops ih =>
    have hcall := h.call op
    refine ih hcall.inv (fun r hr => hops r (List.mem_cons_of_mem _ hr)) ?_
    have hbounded : (s.step model op).2.work ≤ s.work := hcall.bounded fun r hr =>
      hops r (hr ▸ List.mem_cons_self)
    by_cases hop : op = .step
    · subst hop
      have hstep := SystemInv.step_work h
      rw [List.count_cons_self] at hsteps
      show (s.step model .step).2.work ≤ _
      omega
    · rw [List.count_cons_of_ne hop] at hsteps
      exact hbounded.trans hsteps

end RunnerSpec

/-- Steps make progress over any runner: each one lowers the work or fails the
engine, so enough of them reach idle; and `take_input` is never called with an
empty prefill suffix or without budget. -/
theorem engine_progress {σ L : Type} [Logit L] {model : ModelRunner σ L} (hstd : model.ThrowsStd)
    {s : EngineSystem σ} (h : EngineSystem.Reachable model s) :
    (s.engine.idle = false → s.engine.failed = false →
      (s.step model .step).2.work < s.work ∨
        ((s.step model .step).2.engine.failed = true ∧
          (s.step model .step).2.engine.idle = true)) ∧
    (∀ ops : List EngineOp, (∀ r, .submit r ∉ ops) → s.work ≤ ops.count .step →
      (EngineSystem.run model s ops).engine.idle = true) ∧
    ∀ call ∈ (s.engine.iteration model).2.plan.calls, call.remaining ≠ 0 ∧
      (call.phase = .prefill → call.unprefilledTokens ≠ 0) := by
  obtain ⟨context, hinv⟩ := h.inv hstd
  refine ⟨fun hidle hfailed => ?_, fun ops hops hsteps => hinv.reaches_idle hops hsteps,
    fun call hcall => ?_⟩
  · obtain ⟨b, it, hrun, hstepped⟩ := RunnerSpec.EngineInv.iteration hinv hfailed
    have hshape : (s.step model .step).2.engine = it.engine := by
      simp only [EngineSystem.step, Engine.step, hrun]
    rw [EngineSystem.work, EngineSystem.work, hshape]
    exact (hstepped.progress hidle).symm
  · cases hfailed : s.engine.failed with
    | false =>
      obtain ⟨b, it, hrun, hstepped⟩ := RunnerSpec.EngineInv.iteration hinv hfailed
      rw [hrun] at hcall
      exact hstepped.calls call hcall
    | true =>
      rw [Engine.iteration, if_pos hfailed] at hcall
      exact (List.not_mem_nil hcall).elim

/-- Two requests before the first step. -/
def twoRequests : EngineSystem (List RequestId) :=
  EngineSystem.run (testRunner 4 "" "") { engine := testEngine }
    [.submit ⟨"first", [1, 1], { maxNewTokens := 1 }⟩,
      .submit ⟨"second", [1], { maxNewTokens := 1 }⟩]

theorem engine_progress_two_requests :
    (EngineSystem.run (testRunner 4 "" "") twoRequests (List.replicate 7 .step)).engine.idle =
      true :=
  (engine_progress (testRunner_throwsStd 4 "" "")
    ⟨[], { context := 128 }, testEngine, _, construct_testEngine _ _, rfl⟩).2.1
    (List.replicate 7 .step) (fun r hr => by cases (List.mem_replicate.mp hr).2)
    (show twoRequests.work ≤ _ by decide +kernel)

end TinyInfer.MiniPrefix
