import TinyInfer.MiniPrefix.EngineQuiet

/-!
# The calls of one turn

What `takeTurn` does for a logged runner: the calls it adds to the record, what
it takes from the budget and adds to the statistics, and how far the work for
its request has come afterwards.

- `Live`: an unfinished state, the calls for its request and its events agree.
- `Account`: the calls and the events of a request agree, whatever became of it.
- `Took`, `Left`: a turn that returned, and one that an exception left.
-/

namespace TinyInfer.MiniPrefix

open Lib Engine Throwing

/-! ## What a part of the record amounts to -/

/-- The input of an `append`, whether it returned or not. -/
def RunnerCall.attempt? : RunnerCall → Option (RequestId × List TokenId)
  | append id input _ => some (id, input)
  | _ => none

def attemptsIn (calls : List RunnerCall) : List (RequestId × List TokenId) :=
  calls.filterMap RunnerCall.attempt?

/-- The restored prefixes the engine could take over: `stats` returned, too. -/
def restoredIn : List RunnerCall → Nat
  | .reusePrefix _ (.ok n) :: .stats (.ok _) :: calls => n + restoredIn calls
  | _ :: calls => restoredIn calls
  | [] => 0

/-- A request decodes once a `cache_prefix` for it has returned. -/
def RunnerCall.phase (before : List RunnerCall) (call : RunnerCall) : SchedulePhase :=
  match call.id? with
  | some id => if publishedIn (callsOf id before) = 0 then .prefill else .decode
  | none => .prefill

/-- The tokens that the successful appends of one phase fed. -/
def fedTokens (phase : SchedulePhase) (before : List RunnerCall) : List RunnerCall → Nat
  | [] => 0
  | call :: calls =>
    (if call.phase before = phase then call.fed.length else 0) +
      fedTokens phase (before ++ [call]) calls

/-- The statistics of the calls `new`, made after the calls `before`. -/
def tally (before new : List RunnerCall) : EngineStepStats where
  prefixReusedTokens := restoredIn new
  prefillTokens := fedTokens .prefill before new
  decodeTokens := fedTokens .decode before new

def EngineStepStats.plus (a b : EngineStepStats) : EngineStepStats where
  prefixReusedTokens := a.prefixReusedTokens + b.prefixReusedTokens
  prefillTokens := a.prefillTokens + b.prefillTokens
  decodeTokens := a.decodeTokens + b.decodeTokens

/-- The calls do not begin in the middle of `restore_prefix`. -/
def Opens (calls : List RunnerCall) : Prop := ∀ outcome rest, calls ≠ .stats outcome :: rest

/-- Creating the sequence or restoring the prefix met a full cache. -/
def Refused (id : RequestId) (calls : List RunnerCall) : Prop :=
  ∃ what, .create id (.error (.kvCapacityError what)) ∈ calls ∨
    .reusePrefix id (.error (.kvCapacityError what)) ∈ calls ∨
    ∃ n, [.reusePrefix id (.ok n), .stats (.error (.kvCapacityError what))] <:+: calls

@[simp] theorem attemptsIn_append {calls new : List RunnerCall} :
    attemptsIn (calls ++ new) = attemptsIn calls ++ attemptsIn new := List.filterMap_append ..

/-- The tokens restored in two stretches, where the second one opens with its own reuse. -/
theorem restoredIn_append {calls new : List RunnerCall} (h : Opens new) :
    restoredIn (calls ++ new) = restoredIn calls + restoredIn new := by
  induction calls using restoredIn.induct with
  | case1 _ n _ calls ih =>
    simp only [List.cons_append, restoredIn, ih]
    omega
  | case2 call calls hother ih =>
    have hsplit : ∀ calls', (∀ id n o rest, call = .reusePrefix id (.ok n) →
        calls' = .stats (.ok o) :: rest → False) →
        restoredIn (call :: calls') = restoredIn calls' := by
      intro calls' hne
      rw [restoredIn]
      exact hne
    rw [List.cons_append, hsplit _ ?_, hsplit _ hother, ih]
    intro id n o rest hcall hrest
    cases calls with
    | nil => exact h _ _ hrest
    | cons next calls =>
      rw [List.cons_append, List.cons.injEq] at hrest
      exact hother id n o calls hcall (by rw [hrest.1])
  | case3 => simp [restoredIn]

/-- The tokens fed in two stretches of calls. -/
theorem fedTokens_append {phase : SchedulePhase} {before calls new : List RunnerCall} :
    fedTokens phase before (calls ++ new) =
      fedTokens phase before calls + fedTokens phase (before ++ calls) new := by
  induction calls generalizing before with
  | nil => simp [fedTokens]
  | cons call calls ih =>
    rw [List.cons_append, fedTokens, ih, fedTokens, List.append_assoc, List.singleton_append]
    omega

theorem tally_append {before calls new : List RunnerCall} (h : Opens new) :
    tally before (calls ++ new) = (tally before calls).plus (tally (before ++ calls) new) := by
  rw [tally, restoredIn_append h, fedTokens_append, fedTokens_append]
  rfl

/-- Calls that feed nothing count for nothing. -/
theorem fedTokens_idle {phase : SchedulePhase} {before new : List RunnerCall}
    (h : ∀ call ∈ new, call.fed = []) : fedTokens phase before new = 0 := by
  induction new generalizing before with
  | nil => rfl
  | cons call new ih =>
    rw [fedTokens, ih fun c hc => h c (List.mem_cons_of_mem _ hc), h call List.mem_cons_self,
      List.length_nil, ite_self]

/-- Calls that feed nothing only restore. -/
theorem tally_idle {before new : List RunnerCall} (h : ∀ call ∈ new, call.fed = []) :
    tally before new = { prefixReusedTokens := restoredIn new } := by
  rw [tally, fedTokens_idle h, fedTokens_idle h]

theorem EngineStepStats.plus_assoc {a b c : EngineStepStats} :
    (a.plus b).plus c = a.plus (b.plus c) := by
  simp only [plus, Nat.add_assoc]

theorem opens_nil : Opens [] := fun _ _ h => by cases h

/-- Two stretches that open with their own calls. -/
theorem Opens.append {calls new : List RunnerCall} (h : Opens calls) (h' : Opens new) :
    Opens (calls ++ new) := by
  cases calls with
  | nil => exact h'
  | cons call calls =>
    rintro outcome rest heq
    rw [List.cons_append, List.cons.injEq] at heq
    exact h outcome calls (by rw [heq.1])

/-! ## How far a request has come -/

/-- The stage an unfinished state is in between two turns. -/
def Engine.State.At (state : State) : Stage → Prop
  | .fresh => state.resident = false ∧ state.prefilled = 0 ∧ state.output = []
  | .prefilling _ prefilled => state.resident = true ∧ state.prefilled = prefilled ∧
      state.output = [] ∧ prefilled < state.request.promptTokenIds.length
  | .decoding output => state.resident = true ∧ state.output = output ∧ output ≠ [] ∧
      state.prefilled = state.request.promptTokenIds.length
  | _ => False

/-- An unfinished state with the calls and the events of its request. -/
structure Live (calls : List RunnerCall) (state : State) (told : List GenerationEvent) : Prop where
  unfinished : state.finished = false
  told : told = state.output.map (tokenEvent state.request)
  story : ∃ stage, Story state.request calls stage ∧ state.At stage

/-- The events of a request tell of the work that was done for it: of the tokens
that were sampled, and of all of them if it is complete. -/
def Account (r : Request) (calls : List RunnerCall) (told : List GenerationEvent) : Prop :=
  ∃ stage, Tale r calls stage ∧ told.filterMap GenerationEvent.tokenId <+: stage.output ∧
    ∀ event ∈ told, event.finishReason = some .eos ∨ event.finishReason = some .length →
      stage = .decoding (told.filterMap GenerationEvent.tokenId)

/-- The stage of a request has its output. -/
theorem Engine.State.At.output {state : State} {stage : Stage} (h : state.At stage) :
    stage.output = state.output := by
  cases stage with
  | fresh => exact h.2.2.symm
  | prefilling => exact h.2.2.1.symm
  | decoding => exact h.2.1.symm
  | created => exact h.elim
  | computed => exact h.elim

/-- What the events of an unfinished request say. -/
theorem Account.of_tale {r : Request} {calls : List RunnerCall} {stage : Stage}
    {out : List TokenId} (htale : Tale r calls stage) (hout : out <+: stage.output) :
    Account r calls (out.map (tokenEvent r)) := by
  refine ⟨stage, htale, by rwa [RunnerSpec.filterMap_tokenEvent], fun event he hreason => ?_⟩
  rw [RunnerSpec.finishReason_tokenEvent he] at hreason
  rcases hreason with hreason | hreason
  · cases hreason
  · cases hreason

theorem Live.account {calls : List RunnerCall} {state : State} {told : List GenerationEvent}
    (h : Live calls state told) : Account state.request calls told := by
  obtain ⟨stage, hstory, hat⟩ := h.story
  rw [h.told]
  exact .of_tale (.going hstory) (hat.output ▸ List.prefix_refl _)

/-- A request that is given up. -/
theorem Account.abort {r : Request} {calls : List RunnerCall} {told new : List GenerationEvent}
    (h : Account r calls told) (hnew : ∀ event ∈ new, event.Aborts) :
    Account r calls (told ++ new) := by
  obtain ⟨stage, htale, htokens, hcomplete⟩ := h
  have hsame : (told ++ new).filterMap GenerationEvent.tokenId =
      told.filterMap GenerationEvent.tokenId := by
    rw [List.filterMap_append, List.filterMap_eq_nil_iff.mpr fun event he => (hnew event he).1,
      List.append_nil]
  refine ⟨stage, htale, hsame.symm ▸ htokens, fun event he hreason => ?_⟩
  rw [hsame]
  rcases List.mem_append.mp he with he | he
  · exact hcomplete event he hreason
  · rcases (hnew event he).2 with heq | heq
    · rw [heq] at hreason
      rcases hreason with hreason | hreason
      · cases hreason
      · cases hreason
    · rw [heq] at hreason
      rcases hreason with hreason | hreason
      · cases hreason
      · cases hreason

/-! ## What a turn does -/

/-- The size of an input in a phase. -/
def Fits (chunk : Nat) : SchedulePhase → Nat → Prop
  | .prefill, n => 1 ≤ n ∧ n ≤ chunk
  | .decode, n => n = 1

/-- What a turn takes from the budget: the size of its one input, if it gets to it. -/
inductive Spent (id : RequestId) (phase : SchedulePhase) (plan plan' : SchedulePlan)
    (new : List RunnerCall) : Prop where
  | nothing (attempts : attemptsIn new = []) (chunk : plan'.chunk = plan.chunk)
      (remaining : plan'.remaining = plan.remaining)
  | input {input : List TokenId} (attempts : attemptsIn new = [(id, input)])
      (chunk : plan'.chunk = plan.chunk) (fits : Fits plan.chunk phase input.length)
      (remaining : plan'.remaining + input.length = plan.remaining)

variable {σ L : Type}

/-- The calls `new` of a turn for the request `id`. -/
structure Worked (id : RequestId) (turn : Turn (Logged σ)) (new : List RunnerCall)
    (turn' : Turn (Logged σ)) : Prop where
  calls : turn'.desk.runner.calls = turn.desk.runner.calls ++ new
  own : ∀ other, other ≠ id → callsOf other new = []
  opens : Opens new
  request : turn'.desk.state.request = turn.desk.state.request

/-- An exception left the turn. -/
structure Left (phase : SchedulePhase) (turn : Turn (Logged σ)) (new : List RunnerCall) (e : Exn)
    (turn' : Turn (Logged σ)) : Prop
    extends Worked turn.desk.state.request.id turn new turn' where
  unfinished : turn'.desk.state.finished = false
  events : turn'.desk.events = turn.desk.events
  spent : Spent turn.desk.state.request.id phase turn.plan turn'.plan new
  account : Account turn.desk.state.request
    (callsOf turn.desk.state.request.id turn'.desk.runner.calls)
    (turn.desk.state.output.map (tokenEvent turn.desk.state.request))
  /-- The handler of `KvCapacityError` goes on with the step. -/
  capacity : e.isCapacity = true →
    turn'.stepStats = turn.stepStats.plus (tally turn.desk.runner.calls new) ∧
      (attemptsIn new = [] → Refused turn.desk.state.request.id new)

/-- The turn returned. -/
structure Took (phase : SchedulePhase) (turn : Turn (Logged σ)) (new : List RunnerCall)
    (turn' : Turn (Logged σ)) : Prop
    extends Worked turn.desk.state.request.id turn new turn' where
  spent : Spent turn.desk.state.request.id phase turn.plan turn'.plan new
  stats : turn'.stepStats = turn.stepStats.plus (tally turn.desk.runner.calls new)
  refused : attemptsIn new = [] → Refused turn.desk.state.request.id new
  outcome : ∃ told, turn'.desk.events = turn.desk.events ++ told ∧
    (∀ event ∈ told, event.requestId = turn.desk.state.request.id) ∧
    (Live (callsOf turn.desk.state.request.id turn'.desk.runner.calls) turn'.desk.state
        (turn.desk.state.output.map (tokenEvent turn.desk.state.request) ++ told) ∨
      (turn'.desk.state.finished = true ∧ Account turn.desk.state.request
        (callsOf turn.desk.state.request.id turn'.desk.runner.calls)
        (turn.desk.state.output.map (tokenEvent turn.desk.state.request) ++ told)))

variable {model : ModelRunner σ L}

theorem callsOf_cons {id : RequestId} {call : RunnerCall} {calls : List RunnerCall} :
    callsOf id (call :: calls) =
      if call.id? = some id then call :: callsOf id calls else callsOf id calls := by
  rw [callsOf, List.filter_cons]
  simp only [decide_eq_true_eq]
  rfl

@[simp] theorem callsOf_nil {id : RequestId} : callsOf id [] = [] := rfl

/-- Calls for one request, with calls for none between them, are for no other. -/
theorem callsOf_other {id other : RequestId} {new : List RunnerCall} (hne : other ≠ id)
    (h : ∀ call ∈ new, call.id? = some id ∨ call.id? = none) : callsOf other new = [] := by
  refine List.filter_eq_nil_iff.mpr fun call hcall hin => ?_
  have hin := of_decide_eq_true hin
  rcases h call hcall with hid | hid
  · exact hne (Option.some.inj (hin.symm.trans hid))
  · rw [hid] at hin
    cases hin

/-- Calls of one request are the work of its turn. -/
theorem Worked.of_calls {id : RequestId} {turn turn' : Turn (Logged σ)} {new : List RunnerCall}
    (hcalls : turn'.desk.runner.calls = turn.desk.runner.calls ++ new)
    (hnew : ∀ call ∈ new, call.id? = some id ∨ call.id? = none) (hopens : Opens new)
    (hrequest : turn'.desk.state.request = turn.desk.state.request) :
    Worked id turn new turn' :=
  ⟨hcalls, fun _ hne => callsOf_other hne hnew, hopens, hrequest⟩

theorem opens_cons {call : RunnerCall} {calls : List RunnerCall} (h : call.id? ≠ none) :
    Opens (call :: calls) := by
  intro outcome rest heq
  rw [List.cons.injEq] at heq
  exact h (by rw [heq.1]; rfl)

theorem opens_input {id : RequestId} {input : List TokenId} {outcome : Except Exn Unit} :
    Opens [.append id input outcome] := opens_cons fun h => by cases h

/-! ### `restore_prefix` -/

/-- What `restore_prefix` leaves when it throws. -/
structure Unrestored (turn : Turn (Logged σ)) (new : List RunnerCall) (e : Exn)
    (turn' : Turn (Logged σ)) : Prop
    extends Worked turn.desk.state.request.id turn new turn' where
  unfinished : turn'.desk.state.finished = turn.desk.state.finished
  events : turn'.desk.events = turn.desk.events
  plan : turn'.plan = turn.plan
  attempts : attemptsIn new = []
  tale : ∃ stage, Tale turn.desk.state.request
    (callsOf turn.desk.state.request.id turn'.desk.runner.calls) stage
  capacity : e.isCapacity = true →
    turn'.stepStats = turn.stepStats.plus (tally turn.desk.runner.calls new) ∧
      Refused turn.desk.state.request.id new

/-- Restoring a prefix makes the opening calls of a request's story. -/
theorem restorePrefix_calls {turn : Turn (Logged σ)} {r : Request}
    (hrequest : turn.desk.state.request = r)
    (hstory : Story r (callsOf r.id turn.desk.runner.calls) .fresh) :
    (restorePrefix model.logged).wp
      (fun _ turn' => ∃ n bt, n < r.promptTokenIds.length ∧
        turn'.desk.runner.calls = turn.desk.runner.calls ++
          [.create r.id (.ok ()), .reusePrefix r.id (.ok n), .stats (.ok bt)] ∧
        turn'.desk.state =
          { turn.desk.state with resident := true, prefilled := n, kvBlockTokens := bt } ∧
        turn'.desk.events = turn.desk.events ∧ turn'.plan = turn.plan ∧
        turn'.stepStats = { turn.stepStats with
          prefixReusedTokens := turn.stepStats.prefixReusedTokens + n })
      (fun e turn' => ∃ new, Unrestored turn new e turn') turn := by
  subst hrequest
  have hcreated := hstory.call .create
  simp only [restorePrefix, wp_bind, wp_get, Turn.wp_call, Turn.wp_update]
  -- `create` throws, or the request has its sequence
  refine Logged.wp_record.mpr (wp_any (fun _ s₁ => ?_) fun e s₁ => ?_)
  swap
  · refine ⟨[.create turn.desk.state.request.id (.error e)],
      .of_calls rfl (by simp [RunnerCall.id?]) (opens_cons fun h => by cases h) rfl, rfl,
      rfl, rfl, rfl, ⟨.fresh, ?_⟩, fun hcapacity => ⟨?_, ?_⟩⟩
    · rw [callsOf_append]
      simpa [callsOf_cons, RunnerCall.id?] using Tale.failed hstory .create
    · rw [tally_idle (by simp [RunnerCall.fed])]
      rfl
    · obtain ⟨what, rfl⟩ := Exn.isCapacity_iff.mp hcapacity
      exact ⟨what, Or.inl List.mem_cons_self⟩
  -- `reuse_prefix` throws, or some tokens are restored
  refine Logged.wp_record.mpr (wp_any (fun n s₂ => ?_) fun e s₂ => ?_)
  swap
  · refine ⟨[.create turn.desk.state.request.id (.ok ()),
      .reusePrefix turn.desk.state.request.id (.error e)],
      .of_calls (List.append_assoc ..) (by simp [RunnerCall.id?]) (opens_cons fun h => by cases h)
        rfl, rfl, rfl,
      rfl, rfl, ⟨.created, ?_⟩, fun hcapacity => ⟨?_, ?_⟩⟩
    · simp only [callsOf_append]
      simpa [callsOf_cons, RunnerCall.id?] using Tale.failed hcreated .reuse
    · rw [tally_idle (by simp [RunnerCall.fed])]
      rfl
    · obtain ⟨what, rfl⟩ := Exn.isCapacity_iff.mp hcapacity
      exact ⟨what, Or.inr (Or.inl (by simp))⟩
  have hreused := hcreated.call (.reuse (n := n))
  -- `stats` throws, or the size of a page is known
  refine Logged.wp_record.mpr (wp_any (fun bt s₃ => ?_) fun e s₃ => ?_)
  swap
  · refine ⟨[.create turn.desk.state.request.id (.ok ()),
      .reusePrefix turn.desk.state.request.id (.ok n), .stats (.error e)],
      .of_calls (by simp) (by simp [RunnerCall.id?]) (opens_cons fun h => by cases h) rfl, rfl, rfl,
      rfl, rfl, ⟨.prefilling n n, ?_⟩, fun hcapacity => ⟨?_, ?_⟩⟩
    · simp only [callsOf_append]
      simpa [callsOf_cons, RunnerCall.id?] using Tale.going hreused
    · rw [tally_idle (by simp [RunnerCall.fed])]
      rfl
    · obtain ⟨what, rfl⟩ := Exn.isCapacity_iff.mp hcapacity
      exact ⟨what, Or.inr (Or.inr ⟨n, List.infix_cons (List.infix_refl _)⟩)⟩
  -- more tokens than the prompt allows are refused
  rw [wp_throwIf]
  refine ⟨fun _ => ⟨[.create turn.desk.state.request.id (.ok ()),
      .reusePrefix turn.desk.state.request.id (.ok n), .stats (.ok bt)],
      .of_calls (by simp) (by simp [RunnerCall.id?]) (opens_cons fun h => by cases h) rfl, rfl, rfl,
      rfl, rfl, ⟨.prefilling n n, ?_⟩, fun hcapacity => by cases hcapacity⟩, fun hrange => ?_⟩
  · simp only [callsOf_append]
    simpa [callsOf_cons, RunnerCall.id?] using Tale.going hreused
  · rw [Turn.wp_count]
    exact ⟨n, bt, by omega, by simp, rfl, rfl, rfl, rfl⟩

/-- The turn has come to its input. -/
structure Ready (turn : Turn (Logged σ)) (new : List RunnerCall) (turn' : Turn (Logged σ)) : Prop
    extends Worked turn.desk.state.request.id turn new turn' where
  unfinished : turn'.desk.state.finished = false
  output : turn'.desk.state.output = turn.desk.state.output
  events : turn'.desk.events = turn.desk.events
  plan : turn'.plan = turn.plan
  attempts : attemptsIn new = []
  stats : turn'.stepStats = turn.stepStats.plus (tally turn.desk.runner.calls new)
  resident : turn'.desk.state.resident = true
  story : ∃ stage, Story turn.desk.state.request
    (callsOf turn.desk.state.request.id turn'.desk.runner.calls) stage ∧ turn'.desk.state.At stage

/-- Resuming a request continues its story. -/
theorem resume_calls {turn : Turn (Logged σ)} {phase : SchedulePhase}
    {told : List GenerationEvent}
    (hlive : Live (callsOf turn.desk.state.request.id turn.desk.runner.calls) turn.desk.state
      told) :
    (Throwing.when (turn.desk.state.resident = false) (restorePrefix model.logged)).wp
      (fun _ turn' => ∃ new, Ready turn new turn')
      (fun e turn' => ∃ new, Left phase turn new e turn') turn := by
  obtain ⟨stage, hstory, hat⟩ := hlive.story
  rw [wp_when]
  refine ⟨fun hlazy => ?_, fun hresident => ?_⟩
  · have hfresh : stage = .fresh ∧ turn.desk.state.output = [] := by
      cases stage with
      | fresh => exact ⟨rfl, hat.2.2⟩
      | prefilling => exact absurd (hlazy.symm.trans hat.1) Bool.false_ne_true
      | decoding => exact absurd (hlazy.symm.trans hat.1) Bool.false_ne_true
      | created => exact hat.elim
      | computed => exact hat.elim
    obtain ⟨rfl, hout⟩ := hfresh
    refine (restorePrefix_calls rfl hstory).mono ?_ ?_
    · rintro _ turn' ⟨n, bt, hn, hcalls, hstate, hevents, hplan, hstats⟩
      refine ⟨_, .of_calls hcalls (by simp [RunnerCall.id?]) (opens_cons fun h => by cases h)
        (by rw [hstate]), by rw [hstate]; exact hlive.unfinished, by rw [hstate], hevents,
        hplan, rfl, ?_, by rw [hstate], .prefilling n n, ?_, ?_⟩
      · rw [hstats, tally_idle (by simp [RunnerCall.fed])]
        rfl
      · rw [hcalls, callsOf_append]
        simpa [callsOf_cons, RunnerCall.id?] using (hstory.call .create).call (.reuse (n := n))
      · rw [hstate]
        exact ⟨rfl, rfl, hout, hn⟩
    · rintro e turn' ⟨new, h⟩
      obtain ⟨stage, htale⟩ := h.tale
      refine ⟨new, h.toWorked, h.unfinished.trans hlive.unfinished, h.events,
        .nothing h.attempts (by rw [h.plan]) (by rw [h.plan]), ?_, fun hcapacity => ?_⟩
      · rw [hout]
        exact .of_tale htale (List.nil_prefix)
      · exact ⟨(h.capacity hcapacity).1, fun _ => (h.capacity hcapacity).2⟩
  · have hcalls : turn.desk.runner.calls = turn.desk.runner.calls ++ [] := (List.append_nil _).symm
    exact ⟨[], .of_calls hcalls (fun _ h => (List.not_mem_nil h).elim) opens_nil rfl,
      hlive.unfinished, rfl, rfl, rfl, rfl, rfl, Bool.eq_true_of_not_eq_false hresident, stage,
      hstory, hat⟩

/-! ### The input -/

/-- The tokens taken are spent from the budget, and at least one is. -/
theorem SchedulePlan.takeInput_spends {plan : SchedulePlan} (hbudget : plan.remaining ≠ 0)
    (hchunk : 0 < plan.chunk) {phase : SchedulePhase} {suffix : Nat}
    (hsuffix : phase = .prefill → suffix ≠ 0) :
    (takeInput phase suffix).wp
      (fun count plan' => plan'.chunk = plan.chunk ∧ plan'.remaining + count = plan.remaining ∧
        Fits plan.chunk phase count ∧ (phase = .prefill → 0 < count ∧ count ≤ suffix))
      (fun _ _ => False) plan := by
  rw [takeInput, wp_bind, wp_get, wp_bind, wp_modify, if_neg hbudget, wp_bind, wp_throwIf]
  refine ⟨fun h => hsuffix h.1 h.2, fun _ => ?_⟩
  rw [wp_bind, wp_modify, wp_pure]
  cases phase with
  | decode => exact ⟨rfl, Nat.sub_add_cancel (Nat.pos_of_ne_zero hbudget), rfl,
    fun h => (by cases h)⟩
  | prefill =>
    have hpos := hsuffix rfl
    refine ⟨rfl, ?_, ?_, fun _ => ?_⟩
    · show plan.remaining - min suffix (min plan.chunk plan.remaining) +
        min suffix (min plan.chunk plan.remaining) = plan.remaining
      omega
    · show 1 ≤ min suffix (min plan.chunk plan.remaining) ∧
        min suffix (min plan.chunk plan.remaining) ≤ plan.chunk
      omega
    · show 0 < min suffix (min plan.chunk plan.remaining) ∧
        min suffix (min plan.chunk plan.remaining) ≤ suffix
      omega

/-- What the input of a turn is for the work of its request. -/
theorem Engine.State.At.input {state : State} {stage : Stage} {phase : SchedulePhase} {count : Nat}
    (hat : state.At stage) (hresident : state.resident = true) (hphase : phase = state.phase)
    (hcount : phase = .prefill →
      0 < count ∧ count ≤ state.request.promptTokenIds.length - state.prefilled) :
    (phase = .prefill → (state.input phase count).length = count) ∧
    (∀ e, stage.Fails state.request
      (.append state.request.id (state.input phase count) (.error e))) ∧
    (((state.fed phase (state.input phase count).length).prefilled <
          state.request.promptTokenIds.length ∧
        ∃ stage', stage.Next state.request
            (.append state.request.id (state.input phase count) (.ok ())) stage' ∧
          (state.fed phase (state.input phase count).length).At stage') ∨
      ((state.fed phase (state.input phase count).length).prefilled =
          state.request.promptTokenIds.length ∧
        stage.Next state.request
          (.append state.request.id (state.input phase count) (.ok ()))
          (.computed state.output))) := by
  cases stage with
  | fresh => exact absurd (hat.1.symm.trans hresident) Bool.false_ne_true
  | created => exact hat.elim
  | computed => exact hat.elim
  -- a chunk of the prompt, the last one or not
  | prefilling n prefilled =>
    obtain ⟨-, rfl, hout, hbelow⟩ := hat
    obtain rfl : phase = .prefill := by rw [hphase, State.phase, hout]; rfl
    obtain ⟨hpos, hle⟩ := hcount rfl
    have hlength : (state.input .prefill count).length = count := by
      rw [State.input, List.length_take, List.length_drop]
      exact Nat.min_eq_left hle
    have hchunk : IsChunk state.request state.prefilled (state.input .prefill count) := by
      refine ⟨fun hnil => ?_, by rw [hlength]; rfl, by rw [hlength]; omega⟩
      rw [hnil, List.length_nil] at hlength
      omega
    refine ⟨fun _ => hlength, fun e => .chunk hchunk, ?_⟩
    have hfed : (state.fed .prefill (state.input .prefill count).length).prefilled =
        state.prefilled + (state.input .prefill count).length := rfl
    by_cases hmore : state.prefilled + (state.input .prefill count).length <
        state.request.promptTokenIds.length
    · exact Or.inl ⟨hmore, _, .chunk hchunk hmore, hresident, rfl, hout, hmore⟩
    · have hall := Nat.le_antisymm hchunk.le (Nat.le_of_not_lt hmore)
      exact Or.inr ⟨hall, hout ▸ .last hchunk hall⟩
  -- the last token that was sampled
  | decoding output =>
    obtain ⟨-, rfl, hne, hall⟩ := hat
    obtain rfl : phase = .decode := by
      rw [hphase, State.phase]
      cases hout : state.output with
      | nil => exact absurd hout hne
      | cons => rfl
    have hinput : state.input .decode count = [state.output.getLast hne] := by
      rw [State.input, List.getLastD_eq_getLast?, List.getLast?_eq_some_getLast hne]
      rfl
    have hsplit := List.dropLast_append_getLast hne
    rw [hinput]
    refine ⟨fun h => (by cases h), fun e => ?_, Or.inr ⟨hall, ?_⟩⟩
    · have hfails : (Stage.decoding (state.output.dropLast ++ [state.output.getLast hne])).Fails
          state.request (.append state.request.id [state.output.getLast hne] (.error e)) := .decode
      rwa [hsplit] at hfails
    · have hnext : (Stage.decoding (state.output.dropLast ++ [state.output.getLast hne])).Next
          state.request (.append state.request.id [state.output.getLast hne] (.ok ()))
          (.computed (state.output.dropLast ++ [state.output.getLast hne])) := .decode
      rwa [hsplit] at hnext

/-! ### After a complete input -/

/-- What an exception leaves of the end of a turn. -/
structure Undelivered (turn : Turn (Logged σ)) (turn' : Turn (Logged σ)) : Prop where
  calls : turn'.desk.runner.calls = turn.desk.runner.calls ∨ ∃ outcome,
    turn'.desk.runner.calls =
      turn.desk.runner.calls ++ [.cachePrefix turn.desk.state.request.id outcome]
  request : turn'.desk.state.request = turn.desk.state.request
  unfinished : turn'.desk.state.finished = false
  events : turn'.desk.events = turn.desk.events
  plan : turn'.plan = turn.plan
  stats : turn'.stepStats = turn.stepStats
  account : Account turn.desk.state.request
    (callsOf turn.desk.state.request.id turn'.desk.runner.calls)
    (turn.desk.state.output.map (tokenEvent turn.desk.state.request))

/-- A token was sampled and told. -/
structure Delivered (turn : Turn (Logged σ)) (turn' : Turn (Logged σ)) : Prop where
  calls : turn'.desk.runner.calls =
    turn.desk.runner.calls ++ [.cachePrefix turn.desk.state.request.id (.ok ())]
  request : turn'.desk.state.request = turn.desk.state.request
  plan : turn'.plan = turn.plan
  stats : turn'.stepStats = turn.stepStats
  outcome : ∃ event, turn'.desk.events = turn.desk.events ++ [event] ∧
    event.requestId = turn.desk.state.request.id ∧
    (Live (callsOf turn.desk.state.request.id turn'.desk.runner.calls) turn'.desk.state
        (turn.desk.state.output.map (tokenEvent turn.desk.state.request) ++ [event]) ∨
      (turn'.desk.state.finished = true ∧ Account turn.desk.state.request
        (callsOf turn.desk.state.request.id turn'.desk.runner.calls)
        (turn.desk.state.output.map (tokenEvent turn.desk.state.request) ++ [event])))

theorem callsOf_snoc {id : RequestId} {calls : List RunnerCall} {call : RunnerCall}
    (h : call.id? = some id) : callsOf id (calls ++ [call]) = callsOf id calls ++ [call] := by
  rw [callsOf_append, callsOf_cons, if_pos h]
  rfl

/-- The token of a complete request is the last one that was sampled. -/
theorem Account.complete {r : Request} {calls : List RunnerCall} {out : List TokenId}
    {token : TokenId} {reason : Option FinishReason} {message : String}
    (hstory : Story r calls (.decoding (out ++ [token]))) :
    Account r calls (out.map (tokenEvent r) ++ [⟨r.id, some token, reason, message⟩]) := by
  have htokens : (out.map (tokenEvent r) ++ [(⟨r.id, some token, reason, message⟩ :
      GenerationEvent)]).filterMap GenerationEvent.tokenId = out ++ [token] := by
    rw [List.filterMap_append, RunnerSpec.filterMap_tokenEvent]
    rfl
  refine ⟨_, .going hstory, ?_, fun _ _ _ => ?_⟩
  · rw [htokens]
    exact List.prefix_refl _
  · rw [htokens]

/-- Delivering a token publishes and tells it, or throws in between. -/
theorem deliver_calls [Logit L] {turn : Turn (Logged σ)} {r : Request} {logits : List L}
    (hrequest : turn.desk.state.request = r) (hunfinished : turn.desk.state.finished = false)
    (hresident : turn.desk.state.resident = true)
    (hall : turn.desk.state.prefilled = r.promptTokenIds.length)
    (hstory : Story r (callsOf r.id turn.desk.runner.calls) (.computed turn.desk.state.output)) :
    (deliver model.logged r logits).wp (fun _ turn' => Delivered turn turn')
      (fun _ turn' => Undelivered turn turn') turn := by
  subst hrequest
  have hunpublished : Account turn.desk.state.request
      (callsOf turn.desk.state.request.id turn.desk.runner.calls)
      (turn.desk.state.output.map (tokenEvent turn.desk.state.request)) :=
    .of_tale (.going hstory) (List.prefix_refl _)
  obtain ⟨⟨runner, events, state⟩, plan, stats⟩ := turn
  simp only at hunfinished hresident hall hstory hunpublished ⊢
  simp only [deliver, wp_bind, Turn.wp_call, wp_throwIf, Turn.wp_update, wp_get]
  -- the call for the configuration is silent
  refine Logged.wp_silent.mpr (wp_any (fun config s₁ => ?_) fun e s₁ =>
    ⟨Or.inl rfl, rfl, hunfinished, rfl, rfl, rfl, hunpublished⟩)
  refine ⟨fun _ => ⟨Or.inl rfl, rfl, hunfinished, rfl, rfl, rfl, hunpublished⟩, fun _ =>
    ⟨fun _ => ⟨Or.inl rfl, rfl, hunfinished, rfl, rfl, rfl, hunpublished⟩, fun _ => ?_⟩⟩
  -- `cache_prefix` may throw before the token is told
  refine Logged.wp_record.mpr (wp_any (fun _ s₂ => ?_) fun e s₂ => ?_)
  swap
  · refine ⟨Or.inr ⟨_, rfl⟩, rfl, hunfinished, rfl, rfl, rfl, ?_⟩
    show Account state.request (callsOf state.request.id
      (runner.calls ++ [.cachePrefix state.request.id (.error e)])) _
    rw [callsOf_snoc rfl]
    exact .of_tale (.failed hstory .publish) (List.prefix_refl _)
  -- the sampled token has its `cache_prefix` before it
  generalize (maxElement logits : Int) = token
  have hpublished : Story state.request (callsOf state.request.id
      (runner.calls ++ [.cachePrefix state.request.id (.ok ())]))
      (.decoding (state.output ++ [token])) := by
    rw [callsOf_snoc rfl]
    exact hstory.call .publish
  -- a last token ends the request
  have hterminal : ∀ reason : FinishReason,
      (terminal model.logged reason (some token) "" .releaseSequence).wp
        (fun _ desk' => Delivered ⟨⟨runner, events, state⟩, plan, stats⟩ ⟨desk', plan, stats⟩)
        (fun _ desk' => Undelivered ⟨⟨runner, events, state⟩, plan, stats⟩ ⟨desk', plan, stats⟩)
        ⟨⟨s₂, runner.calls ++ [.cachePrefix state.request.id (.ok ())]⟩, events,
          { state with output := state.output ++ [token] }⟩ := by
    intro reason
    refine (terminal_silent hunfinished).mono ?_ ?_
    · rintro _ ⟨runner', events', state'⟩ ⟨hstate, hevents, hcalls⟩
      simp only at hstate hevents hcalls
      subst hstate hevents
      refine ⟨hcalls, rfl, rfl, rfl, _, rfl, rfl, Or.inr ⟨rfl, ?_⟩⟩
      rw [hcalls]
      exact .complete hpublished
    · rintro _ ⟨runner', events', state'⟩ ⟨hstate, hevents, hcalls⟩
      simp only at hstate hevents hcalls
      subst hstate hevents
      refine ⟨Or.inr ⟨_, hcalls⟩, rfl, hunfinished, rfl, rfl, rfl, ?_⟩
      rw [hcalls]
      exact .of_tale (.going hpublished) (List.prefix_append _ _)
  rw [wp_ite]
  -- the end-of-sequence token
  refine ⟨fun _ => Turn.wp_onDesk.mpr (hterminal .eos), fun _ => ?_⟩
  rw [wp_ite]
  -- the last token allowed
  refine ⟨fun _ => Turn.wp_onDesk.mpr (hterminal .length), fun _ => ?_⟩
  rw [Turn.wp_onDesk, wp_modify]
  refine ⟨rfl, rfl, rfl, rfl, tokenEvent state.request token, rfl, rfl, Or.inl
    ⟨hunfinished, ?_, _, hpublished, hresident, rfl, by simp, hall⟩⟩
  rw [List.map_append]
  rfl

/-! ### The turn -/

/-- The statistics of one input. -/
def inputStats (phase : SchedulePhase) (n : Nat) : EngineStepStats :=
  match phase with
  | .prefill => { prefillTokens := n }
  | .decode => { decodeTokens := n }

theorem Turn.wp_appended_stats {phase : SchedulePhase} {n : Nat} {turn : Turn (Logged σ)}
    {Q : Unit → Turn (Logged σ) → Prop} {E : Exn → Turn (Logged σ) → Prop} :
    (Turn.appended phase n).wp Q E turn ↔ Q () {
      desk := { turn.desk with state := turn.desk.state.fed phase n }
      plan := turn.plan
      stepStats := turn.stepStats.plus (inputStats phase n) } := by
  cases phase with
  | prefill => rw [Turn.appended, wp_bind, Turn.wp_update, Turn.wp_count]; rfl
  | decode => rw [Turn.appended, Turn.wp_count]; rfl

/-- The record tells the phase of an input. -/
theorem tally_input {r : Request} {before : List RunnerCall} {stage : Stage} {state : State}
    {input : List TokenId} (hstory : Story r (callsOf r.id before) stage) (hat : state.At stage) :
    tally before [.append r.id input (.ok ())] = inputStats state.phase input.length := by
  have hphase : (RunnerCall.append r.id input (.ok ())).phase before = state.phase := by
    show (if publishedIn (callsOf r.id before) = 0 then SchedulePhase.prefill else .decode) = _
    rw [hstory.published, hat.output, State.phase]
    cases state.output with
    | nil => rfl
    | cons => rfl
  rw [tally, fedTokens, fedTokens, fedTokens, fedTokens, hphase]
  cases state.phase with
  | prefill => rfl
  | decode => rfl

/-- The input of a turn is in its sequence. -/
structure Input (phase : SchedulePhase) (turn : Turn (Logged σ)) (new : List RunnerCall)
    (turn' : Turn (Logged σ)) : Prop
    extends Worked turn.desk.state.request.id turn new turn' where
  output : turn'.desk.state.output = turn.desk.state.output
  events : turn'.desk.events = turn.desk.events
  spent : Spent turn.desk.state.request.id phase turn.plan turn'.plan new
  attempts : attemptsIn new ≠ []
  stats : turn'.stepStats = turn.stepStats.plus (tally turn.desk.runner.calls new)

variable {phase : SchedulePhase} {turn turn₁ turn' : Turn (Logged σ)} {new : List RunnerCall}

/-- A chunk of the prompt that is not the last. -/
theorem Input.took (h : Input phase turn new turn')
    (hlive : Live (callsOf turn.desk.state.request.id turn'.desk.runner.calls) turn'.desk.state
      (turn.desk.state.output.map (tokenEvent turn.desk.state.request))) :
    Took phase turn new turn' :=
  ⟨h.toWorked, h.spent, h.stats, fun hnone => absurd hnone h.attempts, [],
    by rw [h.events, List.append_nil], fun _ he => (List.not_mem_nil he).elim,
    Or.inl (by rwa [List.append_nil])⟩

/-- Calls after the input that are no input. -/
theorem Spent.append {id : RequestId} {plan plan' : SchedulePlan} {later : List RunnerCall}
    (h : Spent id phase plan plan' new) (hlater : attemptsIn later = []) :
    Spent id phase plan plan' (new ++ later) := by
  have hsame : attemptsIn (new ++ later) = attemptsIn new := by
    rw [attemptsIn_append, hlater, List.append_nil]
  cases h with
  | nothing hattempts hchunk hremaining => exact .nothing (hsame.trans hattempts) hchunk hremaining
  | input hattempts hchunk hfits hremaining =>
    exact .input (hsame.trans hattempts) hchunk hfits hremaining

/-- A publication counts for no tokens. -/
theorem tally_cachePrefix {before : List RunnerCall} {id : RequestId} {outcome : Except Exn Unit} :
    tally before (new ++ [.cachePrefix id outcome]) = tally before new := by
  have hopens : Opens [RunnerCall.cachePrefix id outcome] := opens_cons fun h => by cases h
  have hidle : tally (before ++ new) [RunnerCall.cachePrefix id outcome] = {} := by
    rw [tally_idle (by simp [RunnerCall.fed])]
    rfl
  rw [tally_append hopens, hidle]
  rfl

/-- The calls of a turn with the `cache_prefix` after them. -/
theorem Worked.cachePrefix {id : RequestId} {outcome : Except Exn Unit}
    (h : Worked id turn new turn₁)
    (hcalls : turn'.desk.runner.calls = turn₁.desk.runner.calls ++ [.cachePrefix id outcome])
    (hrequest : turn'.desk.state.request = turn₁.desk.state.request) :
    Worked id turn (new ++ [.cachePrefix id outcome]) turn' where
  calls := by rw [hcalls, h.calls, List.append_assoc]
  own other hne := by
    rw [callsOf_append, h.own other hne, callsOf_other hne (by simp [RunnerCall.id?])]
    rfl
  opens := h.opens.append (opens_cons fun h => by cases h)
  request := hrequest.trans h.request

/-- A fed and delivered token is one step of the request's work. -/
theorem Input.delivered (h : Input phase turn new turn₁) (h' : Delivered turn₁ turn') :
    Took phase turn (new ++ [.cachePrefix turn.desk.state.request.id (.ok ())]) turn' := by
  have hcalls := h'.calls
  have houtcome := h'.outcome
  rw [h.request] at hcalls
  rw [h.request, h.events, h.output] at houtcome
  obtain ⟨event, hevents, hid, hend⟩ := houtcome
  refine ⟨h.toWorked.cachePrefix hcalls h'.request, ?_, ?_, fun hnone => ?_, [event], hevents,
    fun e he => by rwa [List.mem_singleton.mp he], hend⟩
  · rw [h'.plan]
    exact h.spent.append rfl
  · rw [h'.stats, tally_cachePrefix]
    exact h.stats
  · rw [attemptsIn_append, List.append_eq_nil_iff] at hnone
    exact absurd hnone.1 h.attempts

/-- A fed token that was not delivered ends the request's work. -/
theorem Input.undelivered {e : Exn} (h : Input phase turn new turn₁)
    (h' : Undelivered turn₁ turn') : ∃ new, Left phase turn new e turn' := by
  have haccount := h'.account
  rw [h.request, h.output] at haccount
  have hevents := h'.events.trans h.events
  rcases h'.calls with hcalls | ⟨outcome, hcalls⟩
  · refine ⟨new, ⟨hcalls.trans h.calls, h.own, h.opens, h'.request.trans h.request⟩, h'.unfinished,
      hevents, h'.plan ▸ h.spent, haccount, fun _ => ⟨h'.stats.trans h.stats, fun hnone => ?_⟩⟩
    exact absurd hnone h.attempts
  · rw [h.request] at hcalls
    refine ⟨_, h.toWorked.cachePrefix hcalls h'.request, h'.unfinished, hevents, ?_, haccount,
      fun _ => ⟨?_, fun hnone => ?_⟩⟩
    · rw [h'.plan]
      exact h.spent.append rfl
    · rw [h'.stats, tally_cachePrefix]
      exact h.stats
    · rw [attemptsIn_append, List.append_eq_nil_iff] at hnone
      exact absurd hnone.1 h.attempts

/-- One attempt makes exactly the calls of one step of the request's work. -/
theorem attempt_calls [Logit L] {told : List GenerationEvent}
    (hlive : Live (callsOf turn.desk.state.request.id turn.desk.runner.calls) turn.desk.state told)
    (hphase : phase = turn.desk.state.phase) (hbudget : turn.plan.remaining ≠ 0)
    (hchunk : 0 < turn.plan.chunk) :
    (attempt model.logged phase).wp (fun _ turn' => ∃ new, Took phase turn new turn')
      (fun e turn' => ∃ new, Left phase turn new e turn') turn := by
  -- the resumption has told the story so far
  rw [attempt, wp_bind, wp_get, wp_bind]
  refine (resume_calls hlive).mono ?_ fun _ _ h => h
  rintro _ turn₁ ⟨new₁, h₁⟩
  obtain ⟨stage, hstory, hat⟩ := h₁.story
  have hphase₁ : phase = turn₁.desk.state.phase := by
    rw [hphase, State.phase, State.phase, h₁.output]
  rw [wp_bind, wp_get, wp_bind, Turn.takeInput, wp_on]
  -- a prefilling request has prompt tokens left to feed
  have hsuffix : phase = .prefill →
      turn.desk.state.request.promptTokenIds.length - turn₁.desk.state.prefilled ≠ 0 := by
    rintro rfl
    cases stage with
    | fresh => exact absurd (hat.1.symm.trans h₁.resident) Bool.false_ne_true
    | created => exact hat.elim
    | computed => exact hat.elim
    | prefilling n prefilled =>
      obtain ⟨-, rfl, -, hbelow⟩ := hat
      rw [h₁.request] at hbelow
      omega
    | decoding output =>
      obtain ⟨-, rfl, hne, -⟩ := hat
      rw [State.phase] at hphase₁
      cases hout : turn₁.desk.state.output with
      | nil => exact absurd hout hne
      | cons => rw [hout] at hphase₁; cases hphase₁
  rw [h₁.plan]
  refine (SchedulePlan.takeInput_spends hbudget hchunk hsuffix).mono ?_ fun _ _ h => h.elim
  rintro count plan₂ ⟨hchunk₂, hremaining, hfits, hcount⟩
  rw [← h₁.request] at hcount
  obtain ⟨hlength, hfails, hnext⟩ := hat.input h₁.resident hphase₁ hcount
  -- the input has the size that was granted
  have hsize : (turn₁.desk.state.input phase count).length = count := by
    cases phase with
    | prefill => exact hlength rfl
    | decode => exact (show count = 1 from hfits).symm
  rw [h₁.request] at hfails hnext
  simp only [wp_bind, Turn.wp_call]
  generalize turn₁.desk.state.input phase count = input at hlength hfails hnext hsize ⊢
  -- whatever `append` does, the attempt is spent
  have hspent : ∀ outcome, Spent turn.desk.state.request.id phase turn.plan plan₂
      (new₁ ++ [.append turn.desk.state.request.id input outcome]) := by
    intro outcome
    refine .input ?_ hchunk₂ (hsize ▸ hfits) (hsize ▸ hremaining)
    rw [attemptsIn_append, h₁.attempts]
    rfl
  have hworked : ∀ {turn' : Turn (Logged σ)} {outcome}, turn'.desk.runner.calls =
        turn₁.desk.runner.calls ++ [.append turn.desk.state.request.id input outcome] →
      turn'.desk.state.request = turn₁.desk.state.request → Worked turn.desk.state.request.id turn
        (new₁ ++ [.append turn.desk.state.request.id input outcome]) turn' := by
    intro turn' outcome hcalls hrequest
    refine ⟨by rw [hcalls, h₁.calls, List.append_assoc], fun other hne => ?_,
      h₁.opens.append (opens_cons fun h => by cases h), hrequest.trans h₁.request⟩
    rw [callsOf_append, h₁.own other hne, callsOf_other hne (by simp [RunnerCall.id?])]
    rfl
  -- `append` threw: the call stands in the story, and nothing was fed
  refine Logged.wp_record.mpr (wp_any (fun logits s₃ => ?_) fun e s₃ => ?_)
  swap
  · refine ⟨_, hworked rfl rfl, h₁.unfinished, h₁.events, hspent _, ?_, fun _ =>
      ⟨?_, fun hnone => ?_⟩⟩
    · show Account _ (callsOf _ (turn₁.desk.runner.calls ++
        [.append turn.desk.state.request.id input (.error e)])) _
      rw [callsOf_snoc rfl]
      exact .of_tale (.failed hstory (hfails e)) (by rw [hat.output, h₁.output])
    · show turn₁.stepStats = turn.stepStats.plus (tally turn.desk.runner.calls
        (new₁ ++ [.append turn.desk.state.request.id input (.error e)]))
      rw [tally_append opens_input, ← EngineStepStats.plus_assoc, ← h₁.stats, tally_idle]
      · rfl
      · simp [RunnerCall.fed]
    · rw [attemptsIn_append, List.append_eq_nil_iff] at hnone
      cases hnone.2
  rw [Turn.wp_appended_stats, wp_get, wp_ite]
  -- `append` returned: the input is fed, and the statistics say so
  have hinput : Input phase turn (new₁ ++ [.append turn.desk.state.request.id input (.ok ())])
      { desk := {
          runner := ⟨s₃, turn₁.desk.runner.calls ++
            [.append turn.desk.state.request.id input (.ok ())]⟩
          events := turn₁.desk.events
          state := turn₁.desk.state.fed phase input.length }
        plan := plan₂
        stepStats := turn₁.stepStats.plus (inputStats phase input.length) } := by
    refine ⟨hworked rfl ?_, ?_, h₁.events, hspent _, ?_, ?_⟩
    · cases phase with
      | prefill => rfl
      | decode => rfl
    · rw [← h₁.output]
      cases phase with
      | prefill => rfl
      | decode => rfl
    · rw [attemptsIn_append, h₁.attempts]
      exact List.cons_ne_nil _ _
    · show turn₁.stepStats.plus _ = turn.stepStats.plus _
      rw [tally_append opens_input, ← EngineStepStats.plus_assoc, ← h₁.stats, ← h₁.calls,
        tally_input hstory hat, hphase₁]
  have hunfinished : (turn₁.desk.state.fed phase input.length).finished = false := by
    rw [← h₁.unfinished]
    cases phase with
    | prefill => rfl
    | decode => rfl
  have hresident : (turn₁.desk.state.fed phase input.length).resident = true := by
    rw [← h₁.resident]
    cases phase with
    | prefill => rfl
    | decode => rfl
  have hcalls : callsOf turn.desk.state.request.id (turn₁.desk.runner.calls ++
      [.append turn.desk.state.request.id input (.ok ())]) =
      callsOf turn.desk.state.request.id turn₁.desk.runner.calls ++
        [.append turn.desk.state.request.id input (.ok ())] := callsOf_snoc rfl
  refine ⟨fun hmore => ⟨_, hinput.took ?_⟩, fun hnotMore => ?_⟩
  -- the prompt is not finished yet
  · rcases hnext with ⟨-, stage', hnext, hat'⟩ | ⟨hall, -⟩
    · refine ⟨hunfinished, ?_, stage', ?_, hat'⟩
      · rw [hinput.output, hinput.request]
      · rw [hinput.request, hcalls]
        exact hstory.call hnext
    · exact absurd hmore (by rw [hall]; exact Nat.lt_irrefl _)
  -- the last prompt token or a decoded one: its sample is delivered
  · rcases hnext with ⟨hmore, -⟩ | ⟨hall, hnext⟩
    · exact absurd hmore hnotMore
    · refine (deliver_calls hinput.request hunfinished hresident hall ?_).mono
        (fun _ turn' h => ⟨_, hinput.delivered h⟩) fun e turn' h => hinput.undelivered h
      rw [hcalls, hinput.output, ← h₁.output]
      exact hstory.call hnext

/-- The inner `try` with its handler. -/
theorem takeTurn_calls [Logit L] {told : List GenerationEvent}
    (hlive : Live (callsOf turn.desk.state.request.id turn.desk.runner.calls) turn.desk.state told)
    (hphase : phase = turn.desk.state.phase) (hbudget : turn.plan.remaining ≠ 0)
    (hchunk : 0 < turn.plan.chunk) :
    (takeTurn model.logged phase).wp (fun _ turn' => ∃ new, Took phase turn new turn')
      (fun e turn' => ∃ new, Left phase turn new e turn') turn := by
  rw [takeTurn, wp_catching]
  refine (attempt_calls hlive hphase hbudget hchunk).mono (fun _ _ h => h) ?_
  rintro e turn₁ ⟨new, h⟩
  by_cases hcapacity : e.isCapacity = true
  · rw [if_pos hcapacity, Turn.wp_onDesk]
    obtain ⟨hstats, hrefused⟩ := h.capacity hcapacity
    refine (terminal_silent h.unfinished).mono ?_ ?_
    · rintro _ desk' ⟨hstate, hevents, hcalls⟩
      rw [h.request, h.events] at hevents
      refine ⟨new, ⟨hcalls.trans h.calls, h.own, h.opens, ?_⟩, h.spent, hstats, hrefused, _,
        hevents, fun event he => by rw [List.mem_singleton.mp he], Or.inr ⟨by rw [hstate]; rfl, ?_⟩⟩
      · show desk'.state.request = _
        rw [hstate]
        exact h.request
      · show Account _ (callsOf _ desk'.runner.calls) _
        rw [hcalls]
        exact h.account.abort fun event he => by
          rw [List.mem_singleton.mp he]
          exact ⟨rfl, Or.inr rfl⟩
    · rintro e' desk' ⟨hstate, hevents, hcalls⟩
      refine ⟨new, ⟨hcalls.trans h.calls, h.own, h.opens, ?_⟩, ?_, hevents.trans h.events, h.spent,
        ?_, fun _ => ⟨hstats, hrefused⟩⟩
      · show desk'.state.request = _
        rw [hstate]
        exact h.request
      · show desk'.state.finished = false
        rw [hstate]
        exact h.unfinished
      · show Account _ (callsOf _ desk'.runner.calls) _
        rw [hcalls]
        exact h.account
  · rw [if_neg hcapacity]
    exact ⟨new, h⟩

end TinyInfer.MiniPrefix
