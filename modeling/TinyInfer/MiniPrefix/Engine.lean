import TinyInfer.MiniPrefix.Scheduler

/-!
# The engine (`engine.cpp`, `engine.h`, `model.h`)

`Engine` drives a `ModelRunner`: it admits requests, gives each active one a
turn per step, and emits their events. The runner is any object with the virtual
functions the engine calls; `σ` is its state, and every call except
`release_reservation` may throw.

A reference `State&` into `waiting_` or `active_` is a `Desk`: the state it
refers to with the runner and the events, which is what `terminal` can reach. A
`Turn` adds the plan and the counters of the step.

`EngineSystem` is an engine with what its caller has seen of it: the accepted
requests and the events already polled.
-/

namespace TinyInfer.MiniPrefix

open Lib

/-- The operations of `float` the engine uses on logits. -/
class Logit (L : Type) where
  isFinite : L → Bool
  less : L → L → Bool

/-- `std::max_element`, as an index: the first of the largest elements. -/
def maxElement {L : Type} [Logit L] : List L → Nat
  | [] => 0
  | first :: rest => go first 0 1 rest
where
  /-- `largest` is the element at `index`, `next` the index of the head of the list. -/
  go (largest : L) (index next : Nat) : List L → Nat
    | [] => index
    | value :: rest =>
      if Logit.less largest value then go value next (next + 1) rest
      else go largest index (next + 1) rest

/-- The part of `ModelConfig` the engine reads. -/
structure ModelConfig where
  vocabulary : Int
  context : Int
  deriving DecidableEq, Repr

/-- The virtual functions of `ModelRunner` the engine calls. -/
structure ModelRunner (σ L : Type) where
  config : Throwing Exn σ ModelConfig
  contextLimit : Throwing Exn σ Int
  reserveRequest : RequestId → Nat → Throwing Exn σ KvAdmission
  releaseReservation : RequestId → σ → σ
  create : RequestId → Throwing Exn σ Unit
  reusePrefix : RequestId → List TokenId → Throwing Exn σ Nat
  cachePrefix : RequestId → Throwing Exn σ Unit
  append : RequestId → List TokenId → Throwing Exn σ (List L)
  release : RequestId → Throwing Exn σ Unit
  clear : Throwing Exn σ Unit
  /-- `stats().kv_block_tokens`. -/
  kvBlockTokens : Throwing Exn σ Nat

structure EngineConfig where
  maxBatchSize : Int := 2
  tokenBudget : Int := 32
  prefillChunk : Int := 16
  context : Int := 512
  deriving DecidableEq, Repr

structure EngineStepStats where
  prefixReusedTokens : Nat := 0
  prefillTokens : Nat := 0
  decodeTokens : Nat := 0
  deriving DecidableEq, Repr

/-- `Engine::State`. -/
structure Engine.State where
  request : Request
  prefilled : Nat := 0
  kvBlockTokens : Nat := 0
  output : List TokenId := []
  resident : Bool := false
  finished : Bool := false
  deriving DecidableEq, Repr

/-- `Engine::TerminalCleanup`. -/
inductive Engine.TerminalCleanup where
  | releaseSequence
  | runnerManaged
  deriving DecidableEq, Repr

structure Engine (σ : Type) where
  runner : σ
  config : EngineConfig
  scheduler : SchedulerConfig
  waiting : List Engine.State := []
  active : List Engine.State := []
  seen : List RequestId := []
  events : List GenerationEvent := []
  failed : Bool := false
  stepStats : EngineStepStats := {}

namespace Engine

/-- What `terminal` reaches through `State&`. -/
structure Desk (σ : Type) where
  runner : σ
  events : List GenerationEvent
  state : State

/-- What one scheduled request reaches in its turn. -/
structure Turn (σ : Type) where
  desk : Desk σ
  plan : SchedulePlan
  stepStats : EngineStepStats

/-- The engine inside `step`, with the plan of the iteration. -/
structure Iteration (σ : Type) where
  engine : Engine σ
  plan : SchedulePlan := {}

variable {σ L : Type}

/-! ## Calls through references -/

def Desk.call {α : Type} (x : Throwing Exn σ α) : Throwing Exn (Desk σ) α :=
  x.on Desk.runner fun runner desk => { desk with runner }

def Desk.update (f : State → State) : Throwing Exn (Desk σ) Unit :=
  Throwing.modify fun desk => { desk with state := f desk.state }

def Turn.onDesk {α : Type} (x : Throwing Exn (Desk σ) α) : Throwing Exn (Turn σ) α :=
  x.on Turn.desk fun desk turn => { turn with desk }

def Turn.call {α : Type} (x : Throwing Exn σ α) : Throwing Exn (Turn σ) α :=
  Turn.onDesk (Desk.call x)

def Turn.update (f : State → State) : Throwing Exn (Turn σ) Unit :=
  Turn.onDesk (Desk.update f)

def Turn.takeInput (phase : SchedulePhase) (unprefilledTokens : Nat) :
    Throwing Exn (Turn σ) Nat :=
  (SchedulePlan.takeInput phase unprefilledTokens).on Turn.plan fun plan turn => { turn with plan }

def Turn.count (f : EngineStepStats → EngineStepStats) : Throwing Exn (Turn σ) Unit :=
  Throwing.modify fun turn => { turn with stepStats := f turn.stepStats }

def call {α : Type} (x : Throwing Exn σ α) : Throwing Exn (Engine σ) α :=
  x.on Engine.runner fun runner engine => { engine with runner }

/-! ## Construction and submission -/

def schedulerConfig (config : EngineConfig) : Except Exn SchedulerConfig :=
  if h : config.maxBatchSize < 1 ∨ config.tokenBudget < 1 ∨ config.prefillChunk < 1 then
    .error (.invalidArgument "invalid engine configuration")
  else
    .ok {
      maxBatchSize := config.maxBatchSize.toNat
      tokenBudget := config.tokenBudget.toNat
      prefillChunk := config.prefillChunk.toNat
      valid := by omega }

/-- The checks of the constructor that ask the runner. -/
def checkContext (model : ModelRunner σ L) (config : EngineConfig) : Throwing Exn σ Unit := do
  Throwing.throwIf (config.context < 1) (.invalidArgument "invalid engine configuration")
  let modelConfig ← model.config
  Throwing.throwIf (config.context > modelConfig.context)
    (.invalidArgument "invalid engine configuration")
  let limit ← model.contextLimit
  Throwing.throwIf (config.context > limit) (.invalidArgument "invalid engine configuration")

/-- The constructor, for a runner that exists. -/
def construct (model : ModelRunner σ L) (runner : σ) (config : EngineConfig) :
    Except Exn (Engine σ) :=
  match schedulerConfig config with
  | .error e => .error e
  | .ok scheduler =>
    match checkContext model config runner with
    | (.error e, _) => .error e
    | (.ok (), runner) => .ok { runner, config, scheduler }

/-- A token outside the vocabulary throws. -/
def checkToken (model : ModelRunner σ L) (what : String) (token : TokenId) :
    Throwing Exn σ Unit := do
  Throwing.throwIf (token < 0) (.invalidArgument what)
  let config ← model.config
  Throwing.throwIf (token ≥ config.vocabulary) (.invalidArgument what)

def checkTokens (model : ModelRunner σ L) : List TokenId → Throwing Exn σ Unit
  | [] => pure ()
  | token :: tokens => do
    checkToken model "invalid prompt token" token
    checkTokens model tokens

def checkEos (model : ModelRunner σ L) : Option TokenId → Throwing Exn σ Unit
  | none => pure ()
  | some eos => checkToken model "invalid EOS" eos

def submit (model : ModelRunner σ L) (request : Request) : Throwing Exn (Engine σ) Unit := do
  let engine ← Throwing.get
  Throwing.throwIf (engine.failed = true)
    (.runtimeError "engine failed; create a new engine")
  Throwing.throwIf
    (request.id = "" ∨ request.id ∈ engine.seen ∨ request.promptTokenIds = [] ∨
      request.generation.maxNewTokens < 1 ∨
      ((request.promptTokenIds.length + request.generation.maxNewTokens : Nat) : Int) >
        engine.config.context)
    (.invalidArgument "invalid request, duplicate ID or context overflow")
  call (checkTokens model request.promptTokenIds)
  call (checkEos model request.generation.eosTokenId)
  Throwing.modify fun engine => { engine with
    waiting := engine.waiting ++ [{ request }]
    seen := request.id :: engine.seen }

/-! ## Termination of a request -/

def terminal (model : ModelRunner σ L) (reason : FinishReason) (token : Option TokenId)
    (error : String) (cleanup : TerminalCleanup) : Throwing Exn (Desk σ) Unit := do
  let desk ← Throwing.get
  if desk.state.finished then pure ()
  else
    let id := desk.state.request.id
    Throwing.when (desk.state.resident = true ∧ cleanup = .releaseSequence)
      (Desk.call (model.release id))
    Throwing.modify fun desk => {
      runner := model.releaseReservation id desk.runner
      events := desk.events ++ [⟨id, token, some reason, error⟩]
      state := { desk.state with resident := false, finished := true } }

/-- `for (auto& s : states) terminal(s, …)`: a throw leaves the rest alone. -/
def terminalAll (model : ModelRunner σ L) (reason : FinishReason) (error : String)
    (cleanup : TerminalCleanup) (runner : σ) (events : List GenerationEvent) :
    List State → Except Exn Unit × σ × List GenerationEvent × List State
  | [] => (.ok (), runner, events, [])
  | state :: states =>
    match terminal model reason none error cleanup ⟨runner, events, state⟩ with
    | (.error e, desk) => (.error e, desk.runner, desk.events, desk.state :: states)
    | (.ok (), desk) =>
      match terminalAll model reason error cleanup desk.runner desk.events states with
      | (r, runner, events, states) => (r, runner, events, desk.state :: states)

def terminalActive (model : ModelRunner σ L) (reason : FinishReason) (error : String)
    (cleanup : TerminalCleanup) : Throwing Exn (Engine σ) Unit := fun engine =>
  match terminalAll model reason error cleanup engine.runner engine.events engine.active with
  | (r, runner, events, active) => (r, { engine with runner, events, active })

def terminalWaiting (model : ModelRunner σ L) (reason : FinishReason) (error : String)
    (cleanup : TerminalCleanup) : Throwing Exn (Engine σ) Unit := fun engine =>
  match terminalAll model reason error cleanup engine.runner engine.events engine.waiting with
  | (r, runner, events, waiting) => (r, { engine with runner, events, waiting })

def removeFinished (includeWaiting : Bool) (engine : Engine σ) : Engine σ :=
  { engine with
    active := engine.active.filter fun state => !state.finished
    waiting :=
      if includeWaiting then engine.waiting.filter fun state => !state.finished
      else engine.waiting }

/-! ## One turn -/

def restorePrefix (model : ModelRunner σ L) : Throwing Exn (Turn σ) Unit := do
  let turn ← Throwing.get
  let request := turn.desk.state.request
  Turn.call (model.create request.id)
  Turn.update fun state => { state with resident := true }
  let reused ← Turn.call (model.reusePrefix request.id request.promptTokenIds)
  let blockTokens ← Turn.call model.kvBlockTokens
  Throwing.throwIf (reused ≥ request.promptTokenIds.length ∨ (reused ≠ 0 ∧ blockTokens = 0))
    (.runtimeError "invalid reusable prefix range")
  Turn.update fun state => { state with kvBlockTokens := blockTokens, prefilled := reused }
  Turn.count fun stats => { stats with prefixReusedTokens := stats.prefixReusedTokens + reused }

/-- The part of the turn after a complete input: publish, sample, emit. -/
def deliver [Logit L] (model : ModelRunner σ L) (request : Request) (logits : List L) :
    Throwing Exn (Turn σ) Unit := do
  let config ← Turn.call model.config
  Throwing.throwIf ((logits.length : Int) ≠ config.vocabulary)
    (.runtimeError "invalid logits arity")
  Throwing.throwIf (logits.all Logit.isFinite = false) (.runtimeError "nonfinite model result")
  Turn.call (model.cachePrefix request.id)
  let token : TokenId := maxElement logits
  Turn.update fun state => { state with output := state.output ++ [token] }
  let turn ← Throwing.get
  if request.generation.eosTokenId = some token then
    Turn.onDesk (terminal model .eos (some token) "" .releaseSequence)
  else if turn.desk.state.output.length = request.generation.maxNewTokens then
    Turn.onDesk (terminal model .length (some token) "" .releaseSequence)
  else
    Turn.onDesk (Throwing.modify fun desk => { desk with
      events := desk.events ++ [⟨request.id, some token, none, ""⟩] })

/-- The input of the turn; in prefill it is what `take_input` granted. -/
def State.input (state : State) (phase : SchedulePhase) (count : Nat) : List TokenId :=
  match phase with
  | .decode => [state.output.getLastD 0]
  | .prefill => (state.request.promptTokenIds.drop state.prefilled).take count

/-- The counters after a successful `append` of `n` tokens. -/
def Turn.appended (phase : SchedulePhase) (n : Nat) : Throwing Exn (Turn σ) Unit :=
  match phase with
  | .prefill => do
    Turn.update fun state => { state with prefilled := state.prefilled + n }
    Turn.count fun stats => { stats with prefillTokens := stats.prefillTokens + n }
  | .decode => Turn.count fun stats => { stats with decodeTokens := stats.decodeTokens + n }

/-- The body of the inner `try`. -/
def attempt [Logit L] (model : ModelRunner σ L) (phase : SchedulePhase) :
    Throwing Exn (Turn σ) Unit := do
  let turn ← Throwing.get
  let request := turn.desk.state.request
  Throwing.when (turn.desk.state.resident = false) (restorePrefix model)
  let turn ← Throwing.get
  let count ← Turn.takeInput phase (request.promptTokenIds.length - turn.desk.state.prefilled)
  let input := turn.desk.state.input phase count
  let logits ← Turn.call (model.append request.id input)
  Turn.appended phase input.length
  let turn ← Throwing.get
  if turn.desk.state.prefilled < request.promptTokenIds.length then pure ()
  else deliver model request logits

/-- The inner `try` with its handler. -/
def takeTurn [Logit L] (model : ModelRunner σ L) (phase : SchedulePhase) :
    Throwing Exn (Turn σ) Unit :=
  (attempt model phase).catching Exn.isCapacity fun e =>
    Turn.onDesk (terminal model .error none e.what .releaseSequence)

/-! ## One iteration -/

def noCapacity : String := "request exceeds total KV capacity"

def noProgress : String := "KV capacity unavailable without active requests to make progress"

/-- The admission loop; the list is `waiting_`. -/
def admitWaiting (model : ModelRunner σ L) : List State → Nat → Bool → Throwing Exn (Engine σ) Bool
  | [], _, progressed => pure progressed
  | state :: waiting, slots, progressed => do
    if slots = 0 then pure progressed
    else
      let request := state.request
      let tokens := request.promptTokenIds.length + request.generation.maxNewTokens - 1
      let admission ← call (model.reserveRequest request.id tokens)
      let engine ← Throwing.get
      if admission = .wait ∧ engine.active ≠ [] then pure progressed
      else if admission ≠ .ready then
        (terminal model .error none (if admission = .impossible then noCapacity else noProgress)
          .releaseSequence).on
          (fun engine => ⟨engine.runner, engine.events, state⟩)
          fun desk engine => { engine with
            runner := desk.runner
            events := desk.events
            waiting := desk.state :: waiting }
        Throwing.modify fun engine => { engine with waiting }
        admitWaiting model waiting slots true
      else
        Throwing.modify fun engine =>
          { engine with active := engine.active ++ [state], waiting }
        admitWaiting model waiting (slots - 1) true

/-- The turn of `active_[i]`. -/
def Iteration.turn [Logit L] (model : ModelRunner σ L) (work : ScheduledRequest) :
    Throwing Exn (Iteration σ) Unit := fun it =>
  match it.engine.active[work.activeIndex]? with
  | none => (.ok (), it)
  | some state => (takeTurn model work.phase).on
      (fun it => ⟨⟨it.engine.runner, it.engine.events, state⟩, it.plan, it.engine.stepStats⟩)
      (fun turn it => {
        engine := { it.engine with
          runner := turn.desk.runner
          events := turn.desk.events
          active := it.engine.active.set work.activeIndex turn.desk.state
          stepStats := turn.stepStats }
        plan := turn.plan })
      it

/-- The loop over the order of the plan. -/
def turns [Logit L] (model : ModelRunner σ L) :
    List ScheduledRequest → Throwing Exn (Iteration σ) Unit
  | [] => pure ()
  | work :: order => do
    let it ← Throwing.get
    if it.plan.hasBudget = false then pure ()
    else
      Iteration.turn model work
      turns model order

def phases (engine : Engine σ) : List SchedulePhase :=
  engine.active.map fun state => if state.output.isEmpty then .prefill else .decode

/-- The body of the outer `try`. -/
def iterate [Logit L] (model : ModelRunner σ L) : Throwing Exn (Iteration σ) Bool := do
  let it ← Throwing.get
  let slots := Scheduler.admissionCount it.engine.scheduler it.engine.active.length
    it.engine.waiting.length
  let progressed ← (admitWaiting model it.engine.waiting slots false).on Iteration.engine
    fun engine it => { it with engine }
  let it ← Throwing.get
  if it.engine.active = [] then pure progressed
  else
    Throwing.modify fun it =>
      { it with plan := SchedulePlan.plan it.engine.scheduler it.engine.phases }
    let it ← Throwing.get
    turns model it.plan.order
    Throwing.modify fun it => { it with engine := it.engine.removeFinished false }
    pure true

/-- The message of the outer handler: a failed `clear` is reported with it. -/
def failureMessage (e : Exn) : Except Exn Unit → String
  | .ok () => e.what
  | .error .foreign => e.what ++ "; cleanup failed: unknown exception"
  | .error cleanup => e.what ++ "; cleanup failed: " ++ cleanup.what

/-- The outer handler. -/
def fail (model : ModelRunner σ L) (e : Exn) (engine : Engine σ) : Engine σ :=
  match model.clear engine.runner with
  | (cleared, runner) =>
    let message := failureMessage e cleared
    let engine := { engine with runner, failed := true }
    let engine := (terminalActive model .error message .runnerManaged engine).2
    let engine := (terminalWaiting model .error message .runnerManaged engine).2
    engine.removeFinished true

/-- `step`, with the plan the iteration ended with. -/
def iteration [Logit L] (model : ModelRunner σ L) (engine : Engine σ) :
    Except Exn Bool × Iteration σ :=
  if engine.failed then
    (.error (.runtimeError "engine failed"), { engine := { engine with stepStats := {} } })
  else
    match iterate model { engine := { engine with stepStats := {} } } with
    | (.ok progressed, it) => (.ok progressed, it)
    | (.error e, it) =>
      if e.isStd then (.ok true, { it with engine := it.engine.fail model e }) else (.error e, it)

def step [Logit L] (model : ModelRunner σ L) : Throwing Exn (Engine σ) Bool := fun engine =>
  match engine.iteration model with
  | (r, it) => (r, it.engine)

/-! ## The other calls -/

def pollEvents : Throwing Exn (Engine σ) (List GenerationEvent) := do
  let engine ← Throwing.get
  Throwing.modify fun engine => { engine with events := [] }
  pure engine.events

/-- The first unfinished state of the request, with the states before and after it. -/
def findRequest (id : RequestId) : List State → Option (List State × State × List State)
  | [] => none
  | state :: states =>
    if state.request.id = id ∧ ¬ state.finished then some ([], state, states)
    else
      match findRequest id states with
      | some (before, found, after) => some (state :: before, found, after)
      | none => none

def cancel (model : ModelRunner σ L) (id : RequestId) : Throwing Exn (Engine σ) Unit := do
  let engine ← Throwing.get
  match findRequest id engine.waiting with
  | some (before, state, after) =>
    (terminal model .cancelled none "" .releaseSequence).on
      (fun engine => ⟨engine.runner, engine.events, state⟩)
      fun desk engine => { engine with
        runner := desk.runner
        events := desk.events
        waiting := before ++ desk.state :: after }
    Throwing.modify (removeFinished true)
  | none =>
    match findRequest id engine.active with
    | some (before, state, after) =>
      (terminal model .cancelled none "" .releaseSequence).on
        (fun engine => ⟨engine.runner, engine.events, state⟩)
        fun desk engine => { engine with
          runner := desk.runner
          events := desk.events
          active := before ++ desk.state :: after }
      Throwing.modify (removeFinished false)
    | none => Throwing.throw (.invalidArgument "request is unknown or already terminal")

def shutdown (model : ModelRunner σ L) : Throwing Exn (Engine σ) Unit := do
  Throwing.catching (fun _ => true)
    (do
      terminalActive model .cancelled "" .releaseSequence
      terminalWaiting model .cancelled "" .releaseSequence)
    fun e => do
      Throwing.modify (removeFinished true)
      Throwing.throw e
  Throwing.modify (removeFinished true)
  call model.clear

def idle (engine : Engine σ) : Bool := engine.active.isEmpty && engine.waiting.isEmpty

end Engine

/-! ## Runs -/

/-- An engine, the requests it accepted and the events its caller polled. -/
structure EngineSystem (σ : Type) where
  engine : Engine σ
  accepted : List Request := []
  polled : List GenerationEvent := []

/-- The public calls of `Engine`. -/
inductive EngineOp where
  | submit (request : Request)
  | step
  | cancel (id : RequestId)
  | pollEvents
  | shutdown
  deriving DecidableEq, Repr

namespace EngineSystem

variable {σ L : Type} [Logit L]

/-- Every event emitted so far, in order. -/
def emitted (s : EngineSystem σ) : List GenerationEvent := s.polled ++ s.engine.events

/-- One call; the outcome says whether it returned. -/
def step (model : ModelRunner σ L) (s : EngineSystem σ) :
    EngineOp → Except Exn Unit × EngineSystem σ
  | .submit request =>
    match s.engine.submit model request with
    | (.error e, engine) => (.error e, { s with engine })
    | (.ok (), engine) => (.ok (), { s with engine, accepted := s.accepted ++ [request] })
  | .step =>
    match s.engine.step model with
    | (r, engine) => (r.map fun _ => (), { s with engine })
  | .cancel id =>
    match s.engine.cancel model id with
    | (r, engine) => (r, { s with engine })
  | .pollEvents =>
    match s.engine.pollEvents with
    | (.error e, engine) => (.error e, { s with engine })
    | (.ok events, engine) => (.ok (), { s with engine, polled := s.polled ++ events })
  | .shutdown =>
    match s.engine.shutdown model with
    | (r, engine) => (r, { s with engine })

/-- The state after a sequence of calls. -/
def run (model : ModelRunner σ L) (s : EngineSystem σ) (ops : List EngineOp) : EngineSystem σ :=
  ops.foldl (fun s op => (s.step model op).2) s

/-- The states reachable from a constructed engine. -/
def Reachable (model : ModelRunner σ L) (s : EngineSystem σ) : Prop :=
  ∃ runner config engine ops,
    Engine.construct model runner config = .ok engine ∧ s = run model { engine } ops

end EngineSystem

end TinyInfer.MiniPrefix
