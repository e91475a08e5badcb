import TinyInfer.Lib.Throwing
import TinyInfer.MiniPrefix.Request
import Mathlib.Data.List.Basic

/-!
# The iteration scheduler (`scheduler.cpp`)

A `SchedulePlan` fixes the order of one iteration, decode work before prefill
work, and hands out its input budget. `calls` is a ghost: the calls of
`take_input` so far, with the budget each one found.
-/

namespace TinyInfer.MiniPrefix

open Lib

structure SchedulerConfig where
  maxBatchSize : Nat
  tokenBudget : Nat
  prefillChunk : Nat
  valid : 0 < maxBatchSize ∧ 0 < tokenBudget ∧ 0 < prefillChunk

inductive SchedulePhase where
  | prefill
  | decode
  deriving DecidableEq, Repr

structure ScheduledRequest where
  activeIndex : Nat
  phase : SchedulePhase
  deriving DecidableEq, Repr

/-- One call of `take_input`. -/
structure InputCall where
  phase : SchedulePhase
  unprefilledTokens : Nat
  remaining : Nat
  deriving DecidableEq, Repr

structure SchedulePlan where
  order : List ScheduledRequest := []
  remaining : Nat := 0
  chunk : Nat := 0
  calls : List InputCall := []
  deriving DecidableEq, Repr

namespace Scheduler

def admissionCount (config : SchedulerConfig) (active waiting : Nat) : Nat :=
  let capacity := config.maxBatchSize
  if active ≥ capacity then 0 else min waiting (capacity - active)

end Scheduler

namespace SchedulePlan

/-- The inner loop of the constructor: the indices in one phase, in order. -/
def ofPhase (phases : List SchedulePhase) (phase : SchedulePhase) : List ScheduledRequest :=
  ((List.range phases.length).filter fun i => phases[i]? = some phase).map
    fun i => { activeIndex := i, phase }

/-- `Scheduler::plan`. -/
def plan (config : SchedulerConfig) (phases : List SchedulePhase) : SchedulePlan where
  order := ofPhase phases .decode ++ ofPhase phases .prefill
  remaining := config.tokenBudget
  chunk := config.prefillChunk

def hasBudget (plan : SchedulePlan) : Bool := plan.remaining ≠ 0

def takeInput (phase : SchedulePhase) (unprefilledTokens : Nat) :
    Throwing Exn SchedulePlan Nat := do
  let plan ← Throwing.get
  Throwing.modify fun plan =>
    { plan with calls := plan.calls ++ [⟨phase, unprefilledTokens, plan.remaining⟩] }
  if plan.remaining = 0 then pure 0
  else
    Throwing.throwIf (phase = .prefill ∧ unprefilledTokens = 0)
      (.invalidArgument "prefill requires an uncached suffix")
    let count :=
      match phase with
      | .decode => 1
      | .prefill => min unprefilledTokens (min plan.chunk plan.remaining)
    Throwing.modify fun plan => { plan with remaining := plan.remaining - count }
    pure count

/-! ## The order -/

variable {phases : List SchedulePhase} {config : SchedulerConfig}

/-- A phase schedules the active requests in that phase. -/
theorem mem_ofPhase {phase : SchedulePhase} {work : ScheduledRequest} :
    work ∈ ofPhase phases phase ↔ work.phase = phase ∧ phases[work.activeIndex]? = some phase := by
  rw [ofPhase, List.mem_map]
  constructor
  · rintro ⟨i, hi, rfl⟩
    rw [List.mem_filter] at hi
    exact ⟨rfl, of_decide_eq_true hi.2⟩
  · rintro ⟨hphase, hget⟩
    obtain ⟨hi, -⟩ := List.getElem?_eq_some_iff.mp hget
    refine ⟨work.activeIndex, ?_, by rw [← hphase]⟩
    rw [List.mem_filter, List.mem_range]
    exact ⟨hi, decide_eq_true hget⟩

/-- The order schedules an index in the phase it is in. -/
theorem mem_order {work : ScheduledRequest} :
    work ∈ (plan config phases).order ↔ phases[work.activeIndex]? = some work.phase := by
  rw [plan, List.mem_append, mem_ofPhase, mem_ofPhase]
  constructor
  · rintro (⟨hphase, hget⟩ | ⟨hphase, hget⟩)
    · rw [hphase, hget]
    · rw [hphase, hget]
  · intro hget
    cases hphase : work.phase with
    | decode => exact Or.inl ⟨rfl, hphase ▸ hget⟩
    | prefill => exact Or.inr ⟨rfl, hphase ▸ hget⟩

theorem ofPhase_nodup {phase : SchedulePhase} :
    ((ofPhase phases phase).map ScheduledRequest.activeIndex).Nodup := by
  rw [ofPhase, List.map_map]
  exact (List.map_id _).symm ▸ List.nodup_range.filter _

/-- No index is scheduled twice. -/
theorem order_nodup :
    ((plan config phases).order.map ScheduledRequest.activeIndex).Nodup := by
  rw [plan, List.map_append, List.nodup_append]
  refine ⟨ofPhase_nodup, ofPhase_nodup, ?_⟩
  rintro i hi j hj rfl
  obtain ⟨work, hwork, rfl⟩ := List.mem_map.mp hi
  obtain ⟨work', hwork', heq⟩ := List.mem_map.mp hj
  have hdecode := (mem_ofPhase.mp hwork).2
  have hprefill := (mem_ofPhase.mp hwork').2
  rw [heq, hdecode] at hprefill
  cases hprefill

/-- With an active request something is scheduled. -/
theorem order_ne_nil (h : phases ≠ []) : (plan config phases).order ≠ [] := by
  obtain ⟨phase, rest, rfl⟩ := List.exists_cons_of_ne_nil h
  exact List.ne_nil_of_mem (mem_order.mpr
    (show _ = some (ScheduledRequest.mk 0 phase).phase from rfl))

end SchedulePlan

end TinyInfer.MiniPrefix
