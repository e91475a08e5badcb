import TinyInfer.Core.Exn
import Mathlib.Algebra.GroupWithZero.Nat
import Mathlib.Data.List.Forall2
import Mathlib.Logic.Function.Basic

/-!
# Prepared device contexts (`backend/cuda/execution_plan.cpp`, `backend/metal/execution_plan.cpp`)

The two backends have the same context but for one assignment of `bind_input`: CUDA
clears the bound flag before the upload, Metal does not (`DeviceKind.unbindsFirst`).

Every input has two copies, in a device buffer and in the CPU context for the
fallback of the whole model. Calls of the device and of the CPU context may throw
and leave anything behind (`BindFaults`, `RunFaults`). `ContextEvent`s are the
history of a context. `InputsCurrent` and `OutputsCurrent` say that what a run used
and what `output` returned is what the history calls for.

`device_context_current` proves both for every run of a CUDA context, and for the
runs of a Metal context in which no input that is bound already fails to be bound
again. `metal_stale_input` is a run of the other kind.
-/

namespace TinyInfer

/-- The backends with a prepared device context. -/
inductive DeviceKind where
  | cuda
  | metal
  deriving DecidableEq, Repr

/-- `s.bound[id] = false` at the head of `bind_input`. -/
def DeviceKind.unbindsFirst : DeviceKind → Bool
  | .cuda => true
  | .metal => false

inductive FallbackPolicy where
  | strict
  | wholeModelCpu
  deriving DecidableEq, Repr

/-- What a context uses of its plan. `T` are tensors, `D` the contents of the device
buffer of an input, `R` output tensors. -/
structure DevicePlan (T D R : Type) where
  kind : DeviceKind
  fallback : FallbackPolicy
  /-- The model is placed on the device; otherwise `runtime` is null. -/
  runtime : Bool
  inputs : List ValueId
  outputs : List ValueId
  inputId : String → Option ValueId
  /-- The value is an input of this shape and dtype. -/
  accepts : ValueId → T → Bool
  isContiguous : T → Bool
  upload : T → D
  deviceRun : List D → ValueId → R
  cpuRun : List T → ValueId → R
  /-- Only the policy that falls back leaves a plan without a runtime: of the two
  constructors this is `Backend.cudaPlacement_cpu` and `Backend.metalPlacement_cpu`. -/
  placed : runtime = false → fallback = .wholeModelCpu

/-- `s.cpu` is engaged. -/
def DevicePlan.hasCpu {T D R : Type} (plan : DevicePlan T D R) : Bool :=
  plan.fallback == .wholeModelCpu

structure DeviceContext (T D R : Type) where
  bound : ValueId → Bool := fun _ => false
  contiguous : ValueId → Bool := fun _ => false
  /-- The buffers of the inputs; uninitialised at first. -/
  views : ValueId → D
  /-- The arena, read as the values of the outputs. -/
  arena : ValueId → R
  cpuInputs : ValueId → Option T := fun _ => none
  cpuValues : ValueId → Option R := fun _ => none
  /-- `placement.effective.kind == DeviceKind::Cpu`. -/
  onCpu : Bool
  hasOutput : Bool := false

/-- The calls of `bind_input` that throw, and what they leave behind. -/
structure BindFaults (T D : Type) where
  upload : Option (Exn × D) := none
  cpu : Option (Exn × Option T) := none

/-- A device run, or one of the CPU context, that throws. -/
structure RunFaults (R : Type) where
  device : Option (Exn × (ValueId → R)) := none
  cpu : Option (Exn × (ValueId → Option R)) := none

inductive ContextOp (T D R : Type) where
  | bindName (name : String) (t : T) (faults : BindFaults T D)
  | bindInput (id : ValueId) (t : T) (faults : BindFaults T D)
  | run (faults : RunFaults R)
  | output (id : ValueId) (download : Option Exn)

/-- What happened to a context. A call of `bind_input` counts once it passed the
checks; a run has the value of every output, unless it failed. -/
inductive ContextEvent (T R : Type) where
  | bind (id : ValueId) (t : T) (returned : Bool)
  | run (values : Option (ValueId → R))
  | output (id : ValueId) (value : R)

namespace DeviceContext

variable {T D R : Type} (plan : DevicePlan T D R)

/-- `bind_input`, once the checks have passed. -/
def bindChecked (id : ValueId) (t : T) (faults : BindFaults T D) (s : DeviceContext T D R) :
    Except Exn Unit × DeviceContext T D R :=
  let s := { s with hasOutput := false }
  let s :=
    if plan.kind.unbindsFirst then { s with bound := Function.update s.bound id false } else s
  let uploaded : Except Exn Unit × DeviceContext T D R :=
    if plan.runtime && plan.isContiguous t then
      match faults.upload with
      | some (e, contents) => (.error e, { s with views := Function.update s.views id contents })
      | none => (.ok (), { s with views := Function.update s.views id (plan.upload t) })
    else (.ok (), s)
  match uploaded with
  | (.error e, s) => (.error e, s)
  | (.ok (), s) =>
    let stored : Except Exn Unit × DeviceContext T D R :=
      if plan.hasCpu then
        match faults.cpu with
        | some (e, held) => (.error e, { s with cpuInputs := Function.update s.cpuInputs id held })
        | none => (.ok (), { s with cpuInputs := Function.update s.cpuInputs id (some t) })
      else (.ok (), s)
    match stored with
    | (.error e, s) => (.error e, s)
    | (.ok (), s) => (.ok (), { s with
        contiguous := Function.update s.contiguous id (plan.isContiguous t)
        bound := Function.update s.bound id true })

/-- The checks at the head of `bind_input`. -/
def checkBind (id : ValueId) (t : T) : Except Exn Unit :=
  if plan.accepts id t = false then .error (.invalidArgument "input ID, shape or dtype mismatch")
  else if plan.runtime && !plan.isContiguous t && plan.fallback == .strict then
    .error (.invalidArgument "input must be contiguous; whole-model CPU fallback is disabled")
  else .ok ()

def bindInput (id : ValueId) (t : T) (faults : BindFaults T D) (s : DeviceContext T D R) :
    Except Exn Unit × DeviceContext T D R :=
  match checkBind plan id t with
  | .error e => (.error e, s)
  | .ok () => bindChecked plan id t faults s

/-- The tensors the CPU context holds, if it holds one for every input. -/
def cpuOperands (s : DeviceContext T D R) : Option (List T) := plan.inputs.mapM s.cpuInputs

/-- The loop of `run` over the inputs of the model. -/
def scanInputs : List ValueId → DeviceContext T D R → Except Exn Unit × DeviceContext T D R
  | [], s => (.ok (), s)
  | id :: ids, s =>
    if s.bound id = false then (.error (.logicError "model input is not bound"), s)
    else scanInputs ids
      (if plan.runtime && !s.contiguous id then { s with onCpu := true } else s)

/-- `run` after the loop, on the device or in the CPU context. -/
def execute (faults : RunFaults R) (s : DeviceContext T D R) :
    Except Exn Unit × DeviceContext T D R :=
  if s.onCpu then
    match faults.cpu with
    | some (e, values) => (.error e, { s with cpuValues := values })
    | none =>
      match s.cpuOperands plan with
      | none => (.error (.logicError "not all graph inputs have been bound"), s)
      | some operands => (.ok (), { s with
          cpuValues := fun id => some (plan.cpuRun operands id), hasOutput := true })
  else
    match faults.device with
    | some (e, arena) => (.error e, { s with arena })
    | none => (.ok (), { s with
        arena := plan.deviceRun (plan.inputs.map s.views), hasOutput := true })

def run (faults : RunFaults R) (s : DeviceContext T D R) :
    Except Exn Unit × DeviceContext T D R :=
  match scanInputs plan plan.inputs { s with hasOutput := false, onCpu := !plan.runtime } with
  | (.error e, s) => (.error e, s)
  | (.ok (), s) => execute plan faults s

def output (id : ValueId) (download : Option Exn) (s : DeviceContext T D R) : Except Exn R :=
  if id ∉ plan.outputs then .error (.invalidArgument "not a model output")
  else if s.hasOutput = false then .error (.logicError "no successful run since last input binding")
  else if s.onCpu then
    match s.cpuValues id with
    | none => .error (.logicError "graph value is not materialized")
    | some value => .ok value
  else
    match download with
    | some e => .error e
    | none => .ok (s.arena id)

/-- A call of `bind_input`, and the event if it passed the checks. -/
def bindStep (id : ValueId) (t : T) (faults : BindFaults T D) (s : DeviceContext T D R) :
    Option (ContextEvent T R) × DeviceContext T D R :=
  let (outcome, s') := bindInput plan id t faults s
  match checkBind plan id t with
  | .error _ => (none, s')
  | .ok () => (some (.bind id t outcome.isOk), s')

/-- The value of an output after a run. -/
def valueOf (s : DeviceContext T D R) (id : ValueId) : R :=
  if s.onCpu then (s.cpuValues id).getD (s.arena id) else s.arena id

/-- One call, and what it adds to the history. -/
def step (s : DeviceContext T D R) :
    ContextOp T D R → Option (ContextEvent T R) × DeviceContext T D R
  | .bindName name t faults =>
    match plan.inputId name with
    | none => (none, s)
    | some id => bindStep plan id t faults s
  | .bindInput id t faults => bindStep plan id t faults s
  | .run faults =>
    match run plan faults s with
    | (.error _, s) => (some (.run none), s)
    | (.ok (), s) => (some (.run (some s.valueOf)), s)
  | .output id download =>
    match output plan id download s with
    | .error _ => (none, s)
    | .ok value => (some (.output id value), s)

end DeviceContext

/-- A context and its history. -/
structure ContextRun (T D R : Type) where
  context : DeviceContext T D R
  /-- The newest event first. -/
  history : List (ContextEvent T R) := []

namespace ContextRun

variable {T D R : Type} (plan : DevicePlan T D R)

def step (s : ContextRun T D R) (op : ContextOp T D R) : ContextRun T D R :=
  let (event, context) := s.context.step plan op
  { context, history := event.toList ++ s.history }

def run (s : ContextRun T D R) (ops : List (ContextOp T D R)) : ContextRun T D R :=
  ops.foldl (step plan) s

end ContextRun

/-! ## What a history calls for -/

/-- The latest call of `bind_input` for a value, and whether it returned. -/
def latestBind {T R : Type} : List (ContextEvent T R) → ValueId → Option (T × Bool)
  | [], _ => none
  | .bind id t returned :: history, input =>
    if input = id then some (t, returned) else latestBind history input
  | .run _ :: history, input => latestBind history input
  | .output _ _ :: history, input => latestBind history input

def ContextEvent.IsOutput {T R : Type} : ContextEvent T R → Prop
  | .output _ _ => True
  | _ => False

variable {T D R : Type} (plan : DevicePlan T D R)

/-- What the model computes from tensors, on the device or in the CPU context. -/
def DevicePlan.evaluate (onCpu : Bool) (tensors : List T) : ValueId → R :=
  if onCpu then plan.cpuRun tensors else plan.deviceRun (tensors.map plan.upload)

/-- A successful run uses, for every input, the tensor of the latest call of
`bind_input`, and that call returned. -/
def InputsCurrent (history : List (ContextEvent T R)) : Prop :=
  ∀ later values earlier, history = later ++ .run (some values) :: earlier →
    ∃ onCpu tensors,
      List.Forall₂ (fun id t => latestBind earlier id = some (t, true)) plan.inputs tensors ∧
      values = plan.evaluate onCpu tensors

/-- `output` returns the value of the latest run, which succeeded, and no input was
bound since. -/
def OutputsCurrent (history : List (ContextEvent T R)) : Prop :=
  ∀ later id value earlier, history = later ++ .output id value :: earlier →
    ∃ between values before, earlier = between ++ .run (some values) :: before ∧
      (∀ event ∈ between, event.IsOutput) ∧ value = values id

/-- A call of `bind_input` that passes the checks throws: its upload or the CPU context
does. -/
def BindFaults.throws (faults : BindFaults T D) (t : T) : Bool :=
  (plan.runtime && plan.isContiguous t && faults.upload.isSome) ||
    (plan.hasCpu && faults.cpu.isSome)

/-- The value, tensor and faults of a call of `bind_input`. -/
def ContextOp.binding : ContextOp T D R → Option (ValueId × T × BindFaults T D)
  | .bindName name t faults => (plan.inputId name).map fun id => (id, t, faults)
  | .bindInput id t faults => some (id, t, faults)
  | _ => none

/-- The call is no `bind_input` of a Metal context that passes the checks and throws
for an input that is bound. -/
def ContextOp.Safe (s : DeviceContext T D R) (op : ContextOp T D R) : Prop :=
  ∀ id t faults, op.binding plan = some (id, t, faults) → plan.kind = .metal →
    DeviceContext.checkBind plan id t = .ok () → faults.throws plan t = true → s.bound id = false

/-! ## One call -/

namespace DeviceContext

variable {plan}

theorem scanInputs_ok {ids : List ValueId} {s s' : DeviceContext T D R}
    (h : scanInputs plan ids s = (.ok (), s')) :
    (∀ id ∈ ids, s.bound id = true) ∧
      s' = { s with onCpu := s.onCpu || (plan.runtime && !ids.all s.contiguous) } := by
  induction ids generalizing s with
  | nil =>
    cases h
    exact ⟨fun id h => (by cases h), by simp⟩
  | cons id ids ih =>
    unfold scanInputs at h
    split at h
    · cases h
    · rename_i hbound
      obtain ⟨hrest, rfl⟩ := ih h
      have hhead : s.bound id = true := by simpa using hbound
      by_cases hflag : (plan.runtime && !s.contiguous id) = true
      · rw [if_pos hflag] at hrest ⊢
        refine ⟨List.forall_mem_cons.2 ⟨hhead, hrest⟩, ?_⟩
        simp only [Bool.and_eq_true, Bool.not_eq_true'] at hflag
        simp [hflag.1, hflag.2]
      · rw [if_neg hflag] at hrest ⊢
        refine ⟨List.forall_mem_cons.2 ⟨hhead, hrest⟩, ?_⟩
        simp only [Bool.and_eq_true, Bool.not_eq_true', not_and, Bool.not_eq_false] at hflag
        cases hruntime : plan.runtime
        · simp
        · simp [hflag hruntime]

/-- The loop over the inputs changes only the placement. -/
theorem scanInputs_frame (ids : List ValueId) (s : DeviceContext T D R) :
    ∃ onCpu, (scanInputs plan ids s).2 = { s with onCpu } := by
  induction ids generalizing s with
  | nil => exact ⟨s.onCpu, rfl⟩
  | cons id ids ih =>
    unfold scanInputs
    split
    · exact ⟨s.onCpu, rfl⟩
    · obtain ⟨onCpu, h⟩ :=
        ih (if plan.runtime && !s.contiguous id then { s with onCpu := true } else s)
      refine ⟨onCpu, ?_⟩
      rw [h]
      split <;> rfl

theorem cpuOperands_eq {s : DeviceContext T D R} {tensors : List T}
    (h : List.Forall₂ (fun id t => s.cpuInputs id = some t) plan.inputs tensors) :
    s.cpuOperands plan = some tensors := by
  unfold cpuOperands
  generalize plan.inputs = inputs at h ⊢
  induction h with
  | nil => rfl
  | cons hhead _ ih => simp [List.mapM_cons, hhead, ih]

/-- `bind_input` after the checks: other inputs are left alone, and this one is bound
with both its copies, or the call throws. -/
theorem bindChecked_spec (id : ValueId) (t : T) (faults : BindFaults T D)
    (s : DeviceContext T D R) {outcome : Except Exn Unit} {s' : DeviceContext T D R}
    (h : bindChecked plan id t faults s = (outcome, s')) :
    outcome.isOk = !faults.throws plan t ∧ s'.hasOutput = false ∧
      (∀ other, other ≠ id → s'.bound other = s.bound other ∧
        s'.contiguous other = s.contiguous other ∧ s'.views other = s.views other ∧
        s'.cpuInputs other = s.cpuInputs other) ∧
      (faults.throws plan t = false → s'.bound id = true ∧
        s'.contiguous id = plan.isContiguous t ∧
        (plan.runtime = true → plan.isContiguous t = true → s'.views id = plan.upload t) ∧
        (plan.hasCpu = true → s'.cpuInputs id = some t)) ∧
      (faults.throws plan t = true → s'.bound id = (!plan.kind.unbindsFirst && s.bound id)) := by
  unfold bindChecked at h
  unfold BindFaults.throws
  cases hfirst : plan.kind.unbindsFirst <;> cases hup : (plan.runtime && plan.isContiguous t) <;>
    cases hupload : faults.upload <;> cases hhas : plan.hasCpu <;> cases hcpu : faults.cpu <;>
    simp only [hfirst, hup, hupload, hhas, hcpu, if_true, if_false, Bool.false_eq_true] at h <;>
    cases h <;> simp_all [Function.update_of_ne, Except.isOk, Except.toBool]

end DeviceContext

/-! ## Every run -/

/-- What every run of a context keeps. -/
structure ContextInv (s : ContextRun T D R) : Prop where
  /-- The copies of a bound input are the tensor of its latest `bind_input`. -/
  held : ∀ id, s.context.bound id = true → ∃ t, latestBind s.history id = some (t, true) ∧
    s.context.contiguous id = plan.isContiguous t ∧
    (plan.runtime = true → plan.isContiguous t = true → s.context.views id = plan.upload t) ∧
    (plan.hasCpu = true → s.context.cpuInputs id = some t)
  /-- Without a CPU context only contiguous tensors are bound. -/
  strict : ∀ id, s.context.bound id = true → plan.runtime = true → plan.hasCpu = false →
    s.context.contiguous id = true
  published : s.context.hasOutput = true → ∃ between before,
    s.history = between ++ .run (some s.context.valueOf) :: before ∧
    ∀ event ∈ between, event.IsOutput
  inputs : InputsCurrent plan s.history
  outputs : OutputsCurrent s.history

/-- The event of a call that is neither a run nor an output keeps both properties. -/
theorem InputsCurrent.cons {history : List (ContextEvent T R)} {event : ContextEvent T R}
    (h : InputsCurrent plan history) (hother : ∀ values, event ≠ .run (some values)) :
    InputsCurrent plan (event :: history) := by
  intro later values earlier heq
  cases later with
  | nil =>
    injection heq with hhead _
    exact absurd hhead (hother values)
  | cons first later =>
    injection heq with _ htail
    exact h later values earlier htail

theorem OutputsCurrent.cons {history : List (ContextEvent T R)} {event : ContextEvent T R}
    (h : OutputsCurrent history) (hother : ∀ id value, event ≠ .output id value) :
    OutputsCurrent (event :: history) := by
  intro later id value earlier heq
  cases later with
  | nil =>
    injection heq with hhead _
    exact absurd hhead (hother id value)
  | cons first later =>
    injection heq with _ htail
    exact h later id value earlier htail

namespace ContextInv

variable {plan} {s : ContextRun T D R}

/-- A call of `bind_input` that passes the checks. -/
theorem bind (h : ContextInv plan s) {id : ValueId} {t : T} {faults : BindFaults T D}
    (hchecked : DeviceContext.checkBind plan id t = .ok ())
    (hsafe : plan.kind = .metal → faults.throws plan t = true → s.context.bound id = false)
    {outcome : Except Exn Unit} {context : DeviceContext T D R}
    (heq : DeviceContext.bindChecked plan id t faults s.context = (outcome, context)) :
    ContextInv plan ⟨context, .bind id t outcome.isOk :: s.history⟩ := by
  obtain ⟨hreturned, hnoOutput, hothers, hsuccess, hfailure⟩ :=
    DeviceContext.bindChecked_spec id t faults s.context heq
  -- A call that throws leaves the input unbound.
  have hunbound : faults.throws plan t = true → context.bound id = false := by
    intro hthrows
    rw [hfailure hthrows]
    cases hkind : plan.kind with
    | cuda => simp [DeviceKind.unbindsFirst]
    | metal => simp [hsafe hkind hthrows]
  refine ⟨?_, ?_, ?_, h.inputs.cons plan (by simp), h.outputs.cons (by simp)⟩
  -- what the context holds is the last bind that returned
  · intro input hbound
    by_cases hsame : input = id
    · subst hsame
      cases hthrows : faults.throws plan t with
      | true => rw [hunbound hthrows] at hbound; cases hbound
      | false =>
        obtain ⟨-, hcontiguous, hview, hcpu⟩ := hsuccess hthrows
        rw [hthrows] at hreturned
        exact ⟨t, by simp [latestBind, hreturned], hcontiguous, hview, hcpu⟩
    · obtain ⟨hsameBound, hsameContiguous, hsameView, hsameCpu⟩ := hothers input hsame
      obtain ⟨held, hlatest, hrest⟩ := h.held input (hsameBound ▸ hbound)
      refine ⟨held, ?_, ?_⟩
      · simpa [latestBind, hsame] using hlatest
      · rwa [hsameContiguous, hsameView, hsameCpu]
  · intro input hbound hruntime hnoCpu
    by_cases hsame : input = id
    · subst hsame
      cases hthrows : faults.throws plan t with
      | true => rw [hunbound hthrows] at hbound; cases hbound
      | false =>
        obtain ⟨-, hcontiguous, -, -⟩ := hsuccess hthrows
        rw [hcontiguous]
        -- The policy is strict, so the checks refused a strided tensor.
        have hpolicy : plan.fallback = .strict := by
          cases hfallback : plan.fallback with
          | strict => rfl
          | wholeModelCpu => simp [DevicePlan.hasCpu, hfallback] at hnoCpu
        unfold DeviceContext.checkBind at hchecked
        split at hchecked
        · cases hchecked
        · split at hchecked
          · cases hchecked
          · rename_i hrefused
            simpa [hruntime, hpolicy] using hrefused
    · obtain ⟨hsameBound, hsameContiguous, -, -⟩ := hothers input hsame
      rw [hsameContiguous]
      exact h.strict input (hsameBound ▸ hbound) hruntime hnoCpu
  · intro hpublished
    rw [hnoOutput] at hpublished
    cases hpublished

/-- The operands of a run, if every input is bound. -/
theorem tensors (h : ContextInv plan s) (hbound : ∀ id ∈ plan.inputs, s.context.bound id = true) :
    ∃ tensors, List.Forall₂ (fun id t => latestBind s.history id = some (t, true) ∧
      s.context.contiguous id = plan.isContiguous t ∧
      (plan.runtime = true → plan.isContiguous t = true → s.context.views id = plan.upload t) ∧
      (plan.hasCpu = true → s.context.cpuInputs id = some t)) plan.inputs tensors := by
  generalize plan.inputs = inputs at hbound
  induction inputs with
  | nil => exact ⟨[], .nil⟩
  | cons id inputs ih =>
    obtain ⟨hhead, hrest⟩ := List.forall_mem_cons.1 hbound
    obtain ⟨t, hheld⟩ := h.held id hhead
    obtain ⟨tensors, htail⟩ := ih hrest
    exact ⟨t :: tensors, .cons hheld htail⟩

end ContextInv

namespace DeviceContext

variable {plan}

/-- A run leaves the inputs alone, and one that throws has no output. -/
theorem execute_frame {faults : RunFaults R} {s s' : DeviceContext T D R}
    {outcome : Except Exn Unit} (h : execute plan faults s = (outcome, s')) :
    s'.bound = s.bound ∧ s'.contiguous = s.contiguous ∧ s'.views = s.views ∧
      s'.cpuInputs = s.cpuInputs ∧
      ∀ e, outcome = .error e → s'.hasOutput = s.hasOutput := by
  unfold execute at h
  split at h
  · split at h
    · cases h; exact ⟨rfl, rfl, rfl, rfl, fun _ _ => rfl⟩
    · split at h
      · cases h; exact ⟨rfl, rfl, rfl, rfl, fun _ _ => rfl⟩
      · cases h; exact ⟨rfl, rfl, rfl, rfl, fun _ h => (by cases h)⟩
  · split at h
    · cases h; exact ⟨rfl, rfl, rfl, rfl, fun _ _ => rfl⟩
    · cases h; exact ⟨rfl, rfl, rfl, rfl, fun _ h => (by cases h)⟩

theorem run_frame {faults : RunFaults R} {s s' : DeviceContext T D R}
    {outcome : Except Exn Unit} (h : run plan faults s = (outcome, s')) :
    s'.bound = s.bound ∧ s'.contiguous = s.contiguous ∧ s'.views = s.views ∧
      s'.cpuInputs = s.cpuInputs ∧ ∀ e, outcome = .error e → s'.hasOutput = false := by
  obtain ⟨onCpu, hframe⟩ := scanInputs_frame plan.inputs
    { s with hasOutput := false, onCpu := !plan.runtime }
  unfold run at h
  split at h
  · rename_i hscanned
    cases h
    rw [hscanned] at hframe
    cases hframe
    exact ⟨rfl, rfl, rfl, rfl, fun _ _ => rfl⟩
  · rename_i hscanned
    rw [hscanned] at hframe
    obtain rfl := hframe
    exact execute_frame h

/-- A run that succeeds had every input bound, and its values are those of the model on
the copies it chose. -/
theorem run_ok {faults : RunFaults R} {s s' : DeviceContext T D R}
    (h : run plan faults s = (.ok (), s')) :
    (∀ id ∈ plan.inputs, s.bound id = true) ∧ s'.hasOutput = true ∧
      ((s'.onCpu = true ∧ (plan.runtime = false ∨ ∃ id ∈ plan.inputs, s.contiguous id = false) ∧
        ∃ operands, s.cpuOperands plan = some operands ∧ s'.valueOf = plan.cpuRun operands) ∨
       (plan.runtime = true ∧ (∀ id ∈ plan.inputs, s.contiguous id = true) ∧
        s'.valueOf = plan.deviceRun (plan.inputs.map s.views))) := by
  unfold run at h
  split at h
  · cases h
  · rename_i hscanned
    obtain ⟨hbound, rfl⟩ := scanInputs_ok hscanned
    refine ⟨hbound, ?_⟩
    unfold execute at h
    split at h
    · rename_i honCpu
      have hplaced : plan.runtime = false ∨ ∃ id ∈ plan.inputs, s.contiguous id = false := by
        cases hruntime : plan.runtime
        · exact .inl rfl
        · simpa [hruntime] using honCpu
      split at h
      · cases h
      · split at h
        · cases h
        · rename_i operands hheld
          cases h
          exact ⟨rfl, .inl ⟨honCpu, hplaced, operands, hheld, by funext id; simp_all [valueOf]⟩⟩
    · rename_i honDevice
      split at h
      · cases h
      · cases h
        cases hruntime : plan.runtime
        · simp [hruntime] at honDevice
        · refine ⟨rfl, .inr ⟨rfl, by simpa [hruntime] using honDevice, ?_⟩⟩
          funext id
          simp_all [valueOf]

end DeviceContext

namespace ContextInv

variable {plan} {s : ContextRun T D R}

/-- A run that succeeds computes the model on the tensors of the latest calls. -/
theorem run_values (h : ContextInv plan s) {faults : RunFaults R} {context : DeviceContext T D R}
    (heq : s.context.run plan faults = (.ok (), context)) :
    ∃ onCpu tensors,
      List.Forall₂ (fun id t => latestBind s.history id = some (t, true)) plan.inputs tensors ∧
      context.valueOf = plan.evaluate onCpu tensors := by
  obtain ⟨hbound, -, hpath⟩ := DeviceContext.run_ok heq
  obtain ⟨tensors, hheld⟩ := h.tensors hbound
  have hlatest := hheld.imp fun _ _ hheld => hheld.1
  rcases hpath with ⟨-, hplaced, operands, hcpu, hvalues⟩ | ⟨hruntime, hcontiguous, hvalues⟩
  · refine ⟨true, tensors, hlatest, ?_⟩
    -- The CPU context is there: the model has no device, or a strided input was bound.
    have hhas : plan.hasCpu = true := by
      rcases hplaced with hnoDevice | ⟨id, hmem, hstrided⟩
      · simp [DevicePlan.hasCpu, plan.placed hnoDevice]
      · cases hhas : plan.hasCpu with
        | true => rfl
        | false =>
          cases hruntime : plan.runtime with
          | false => simp [DevicePlan.hasCpu, plan.placed hruntime] at hhas
          | true => rw [h.strict id (hbound id hmem) hruntime hhas] at hstrided; cases hstrided
    rw [DeviceContext.cpuOperands_eq (hheld.imp fun _ _ hheld => hheld.2.2.2 hhas)] at hcpu
    cases hcpu
    rw [hvalues]
    rfl
  · refine ⟨false, tensors, hlatest, ?_⟩
    have hcopies : plan.inputs.map s.context.views = tensors.map plan.upload := by
      clear hlatest
      generalize plan.inputs = inputs at hheld hcontiguous
      induction hheld with
      | nil => rfl
      | cons hhead _ ih =>
        obtain ⟨hfirst, hrest⟩ := List.forall_mem_cons.1 hcontiguous
        obtain ⟨-, hsame, hview, -⟩ := hhead
        rw [List.map_cons, List.map_cons, hview hruntime (hsame ▸ hfirst), ih hrest]
    rw [hvalues, hcopies]
    rfl

/-- A run, whether it returns or throws, keeps the invariant. -/
theorem run (h : ContextInv plan s) {faults : RunFaults R} {outcome : Except Exn Unit}
    {context : DeviceContext T D R} (heq : s.context.run plan faults = (outcome, context)) :
    ContextInv plan ⟨context, .run (if outcome.isOk then some context.valueOf else none) ::
      s.history⟩ := by
  obtain ⟨hsameBound, hsameContiguous, hsameViews, hsameCpu, hfailed⟩ := DeviceContext.run_frame heq
  refine ⟨?_, ?_, ?_, ?_, h.outputs.cons (by simp)⟩
  · intro id hbound
    show ∃ t, latestBind s.history id = _ ∧ _
    rw [hsameContiguous, hsameViews, hsameCpu]
    exact h.held id (hsameBound ▸ hbound)
  · intro id hbound
    show plan.runtime = true → plan.hasCpu = false → context.contiguous id = true
    rw [hsameContiguous]
    exact h.strict id (hsameBound ▸ hbound)
  · intro hpublished
    cases outcome with
    | error e => rw [hfailed e rfl] at hpublished; cases hpublished
    | ok => exact ⟨[], s.history, rfl, fun _ h => (by cases h)⟩
  · cases outcome with
    | error e => exact h.inputs.cons plan (by simp [Except.isOk, Except.toBool])
    | ok =>
      intro later values earlier hsplit
      cases later with
      | cons first later =>
        injection hsplit with _ htail
        exact h.inputs later values earlier htail
      | nil =>
        injection hsplit with hhead htail
        cases hhead
        subst htail
        exact h.run_values heq

/-- Reading an output keeps the invariant, and what is read is current. -/
theorem output (h : ContextInv plan s) {id : ValueId} {download : Option Exn} {value : R}
    (heq : s.context.output plan id download = .ok value) :
    ContextInv plan ⟨s.context, .output id value :: s.history⟩ := by
  -- What `output` returns is the value of the run that set the flag.
  have hread : s.context.hasOutput = true ∧ value = s.context.valueOf id := by
    unfold DeviceContext.output at heq
    split at heq
    · cases heq
    · split at heq
      · cases heq
      · rename_i hpublished
        refine ⟨by simpa using hpublished, ?_⟩
        split at heq
        · rename_i honCpu
          split at heq
          · cases heq
          · rename_i hfound
            cases heq
            simp [DeviceContext.valueOf, honCpu, hfound]
        · rename_i honDevice
          split at heq
          · cases heq
          · cases heq
            simp [DeviceContext.valueOf, honDevice]
  obtain ⟨between, before, history, houtputs⟩ := h.published hread.1
  refine ⟨h.held, h.strict, fun _ => ?_, h.inputs.cons plan (by simp), ?_⟩
  · exact ⟨.output id value :: between, before, by rw [history]; rfl,
      List.forall_mem_cons.2 ⟨trivial, houtputs⟩⟩
  · intro later id' value' earlier hsplit
    cases later with
    | cons first later =>
      injection hsplit with _ htail
      exact h.outputs later id' value' earlier htail
    | nil =>
      injection hsplit with hhead htail
      cases hhead
      subst htail
      exact ⟨between, s.context.valueOf, before, history, houtputs, hread.2⟩

/-- Every safe operation keeps the invariant. -/
theorem step (h : ContextInv plan s) (op : ContextOp T D R) (hsafe : op.Safe plan s.context) :
    ContextInv plan (s.step plan op) := by
  have hbindStep (id : ValueId) (t : T) (faults : BindFaults T D)
      (hsafe : plan.kind = .metal → DeviceContext.checkBind plan id t = .ok () →
        faults.throws plan t = true → s.context.bound id = false) :
      ContextInv plan ⟨(s.context.bindStep plan id t faults).2,
        (s.context.bindStep plan id t faults).1.toList ++ s.history⟩ := by
    unfold DeviceContext.bindStep DeviceContext.bindInput
    cases hchecked : DeviceContext.checkBind plan id t with
    | error e => exact h
    | ok => exact h.bind hchecked (fun hmetal => hsafe hmetal hchecked) rfl
  cases op with
  | bindName name t faults =>
    show ContextInv plan ⟨_, _⟩
    cases hresolved : plan.inputId name with
    | none => exact h
    | some id =>
      exact hbindStep id t faults (hsafe id t faults (by simp [ContextOp.binding, hresolved]))
  | bindInput id t faults => exact hbindStep id t faults (hsafe id t faults rfl)
  | run faults =>
    show ContextInv plan ⟨_, _⟩
    rcases hran : s.context.run plan faults with ⟨_ | _, context⟩
    · exact h.run hran
    · exact h.run hran
  | output id download =>
    show ContextInv plan ⟨_, _⟩
    cases hvalue : s.context.output plan id download with
    | error e => exact h
    | ok value => exact h.output hvalue

end ContextInv

namespace ContextRun

/-- Before the first call the buffers of a context hold anything. -/
def initial (views : ValueId → D) (arena : ValueId → R) : ContextRun T D R :=
  { context := { views, arena, onCpu := !plan.runtime } }

/-- Every call of a run is safe where it is made. -/
def Safe (s : ContextRun T D R) : List (ContextOp T D R) → Prop
  | [] => True
  | op :: ops => op.Safe plan s.context ∧ Safe (s.step plan op) ops

end ContextRun

variable {plan}

theorem ContextInv.initial (views : ValueId → D) (arena : ValueId → R) :
    ContextInv plan (ContextRun.initial (T := T) plan views arena) where
  held := fun _ hbound => (by cases hbound)
  strict := fun _ hbound => (by cases hbound)
  published := fun hpublished => (by cases hpublished)
  inputs := fun later _ _ heq => (by cases later <;> cases heq)
  outputs := fun later _ _ _ heq => (by cases later <;> cases heq)

theorem ContextInv.runs {s : ContextRun T D R} (h : ContextInv plan s)
    (ops : List (ContextOp T D R)) (hsafe : s.Safe plan ops) :
    ContextInv plan (s.run plan ops) := by
  induction ops generalizing s with
  | nil => exact h
  | cons op ops ih => exact ih (h.step op hsafe.1) hsafe.2

variable (plan)

/-- Whatever throws in a run of calls, what a successful run used and what `output`
returned is current, on CUDA always, and on Metal if no bound input fails to be bound
again. -/
theorem device_context_current (views : ValueId → D) (arena : ValueId → R)
    (ops : List (ContextOp T D R)) (hsafe : (ContextRun.initial plan views arena).Safe plan ops) :
    InputsCurrent plan ((ContextRun.initial plan views arena).run plan ops).history ∧
      OutputsCurrent ((ContextRun.initial plan views arena).run plan ops).history := by
  have hinv := (ContextInv.initial views arena).runs ops hsafe
  exact ⟨hinv.inputs, hinv.outputs⟩

/-- A model of one input and one output that doubles a number. -/
def doublePlan (kind : DeviceKind) : DevicePlan Nat Nat Nat where
  kind := kind
  fallback := .wholeModelCpu
  runtime := true
  inputs := [0]
  outputs := [1]
  inputId := fun name => if name = "x" then some 0 else none
  accepts := fun id _ => id == 0
  isContiguous := fun _ => true
  upload := id
  deviceRun := fun buffers _ => 2 * buffers.sum
  cpuRun := fun tensors _ => 2 * tensors.sum
  placed := fun h => (by cases h)

/-- An upload that fails halfway. -/
def tornUpload : BindFaults Nat Nat := { upload := some (.runtimeError "command failed", 9) }

/-- On Metal the input stays bound when it fails to be bound to a second tensor, and
the next run succeeds, on neither of the two. -/
theorem metal_stale_input :
    ¬ InputsCurrent (doublePlan .metal)
      ((ContextRun.initial (doublePlan .metal) (fun _ => 0) (fun _ => 0)).run (doublePlan .metal)
        [.bindInput 0 5 {}, .bindInput 0 7 tornUpload, .run {}]).history := by
  intro hcurrent
  obtain ⟨onCpu, tensors, hlatest, -⟩ := hcurrent [] _ _ rfl
  cases hlatest with
  | cons hhead _ => cases hhead

/-- A Metal context whose first upload fails, bound again before it runs. -/
theorem device_context_current_retry :
    OutputsCurrent ((ContextRun.initial (doublePlan .metal) (fun _ => 0) (fun _ => 0)).run
      (doublePlan .metal) [.bindName "x" 5 tornUpload, .bindInput 0 7 {}, .run {},
        .output 1 none]).history :=
  (device_context_current (doublePlan .metal) (fun _ => 0) (fun _ => 0)
    [.bindName "x" 5 tornUpload, .bindInput 0 7 {}, .run {}, .output 1 none] (by
      refine ⟨fun id t faults hcall _ _ _ => ?_, fun id t faults hcall _ _ hthrows => ?_,
        fun id t faults hcall => ?_, fun id t faults hcall => ?_, trivial⟩
      · rfl
      · cases hcall
        cases hthrows
      · cases hcall
      · cases hcall)).2

end TinyInfer
