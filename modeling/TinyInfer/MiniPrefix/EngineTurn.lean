import TinyInfer.MiniPrefix.RunnerSpec
import Mathlib.Data.List.Infix

/-!
# One turn of one request

What `terminal` and `takeTurn` do over a `RunnerSpec`: a turn of a `Running`
state either leaves it running with less work to do, or ends it with its last
event, or throws with no event emitted (`takeTurn_wp`). The lemmas follow the
code: `restorePrefix`, then `deliver`, then `attempt` and its handler.
-/

namespace TinyInfer.MiniPrefix

open Lib Throwing

namespace Engine

variable {σ L : Type} {model : ModelRunner σ L}

/-- The state `terminal` leaves. -/
def State.over (state : State) : State := { state with resident := false, finished := true }

@[simp] theorem State.over_finished {state : State} : state.over.finished = true := rfl

@[simp] theorem State.over_request {state : State} : state.over.request = state.request := rfl

@[simp] theorem Turn.wp_onDesk {α : Type} {x : Throwing Exn (Desk σ) α} {Q : α → Turn σ → Prop}
    {E : Exn → Turn σ → Prop} {turn : Turn σ} :
    (Turn.onDesk x).wp Q E turn ↔
      x.wp (fun a desk => Q a { turn with desk }) (fun e desk => E e { turn with desk })
        turn.desk :=
  wp_on

@[simp] theorem Turn.wp_call {α : Type} {x : Throwing Exn σ α} {Q : α → Turn σ → Prop}
    {E : Exn → Turn σ → Prop} {turn : Turn σ} :
    (Turn.call x).wp Q E turn ↔
      x.wp (fun a runner => Q a { turn with desk := { turn.desk with runner } })
        (fun e runner => E e { turn with desk := { turn.desk with runner } }) turn.desk.runner := by
  rw [Turn.call, Turn.wp_onDesk, Desk.call, wp_on]

@[simp] theorem Turn.wp_update {f : State → State} {Q : Unit → Turn σ → Prop}
    {E : Exn → Turn σ → Prop} {turn : Turn σ} :
    (Turn.update f).wp Q E turn ↔
      Q () { turn with desk := { turn.desk with state := f turn.desk.state } } := by
  rw [Turn.update, Turn.wp_onDesk, Desk.update, wp_modify]

@[simp] theorem Turn.wp_count {f : EngineStepStats → EngineStepStats} {Q : Unit → Turn σ → Prop}
    {E : Exn → Turn σ → Prop} {turn : Turn σ} :
    (Turn.count f).wp Q E turn ↔ Q () { turn with stepStats := f turn.stepStats } := by
  rw [Turn.count, wp_modify]

/-- The state after `n` more tokens of its input are in the sequence. -/
def State.fed (phase : SchedulePhase) (n : Nat) (state : State) : State :=
  match phase with
  | .prefill => { state with prefilled := state.prefilled + n }
  | .decode => state

theorem Turn.wp_appended {phase : SchedulePhase} {n : Nat} {Q : Unit → Turn σ → Prop}
    {E : Exn → Turn σ → Prop} {turn : Turn σ} (h : ∀ stepStats, Q () { turn with
      desk := { turn.desk with state := turn.desk.state.fed phase n }, stepStats }) :
    (Turn.appended phase n).wp Q E turn := by
  cases phase with
  | prefill =>
    rw [Turn.appended, wp_bind, Turn.wp_update, Turn.wp_count]
    exact h _
  | decode =>
    rw [Turn.appended, Turn.wp_count]
    exact h _

@[simp] theorem wp_call {α : Type} {x : Throwing Exn σ α} {Q : α → Engine σ → Prop}
    {E : Exn → Engine σ → Prop} {engine : Engine σ} :
    (call x).wp Q E engine ↔
      x.wp (fun a runner => Q a { engine with runner }) (fun e runner => E e { engine with runner })
        engine.runner := by
  rw [call, wp_on]

/-! ## `terminal` -/

/-- A request ends once its sequence, if it has one, is released; a failing
`release` leaves the state as it was. -/
theorem terminal_wp {reason : FinishReason} {token : Option TokenId} {error : String}
    {R : σ → Prop} {E : Exn → σ → Prop} {desk : Desk σ} (hfinished : desk.state.finished = false)
    (hresident : desk.state.resident = true →
      (model.release desk.state.request.id).wp
        (fun _ s' => R (model.releaseReservation desk.state.request.id s')) E desk.runner)
    (hlazy : desk.state.resident = false →
      R (model.releaseReservation desk.state.request.id desk.runner)) :
    (terminal model reason token error .releaseSequence).wp
      (fun _ desk' => desk'.state = desk.state.over ∧
        desk'.events = desk.events ++ [⟨desk.state.request.id, token, some reason, error⟩] ∧
        R desk'.runner)
      (fun e desk' => desk'.state = desk.state ∧ desk'.events = desk.events ∧ E e desk'.runner)
      desk := by
  rw [terminal, wp_bind, wp_get, hfinished, if_neg Bool.false_ne_true, wp_bind, wp_when]
  constructor
  · rintro ⟨hres, -⟩
    rw [Desk.call, wp_on]
    refine (hresident hres).mono (fun _ s' hR => ?_) fun e s' hE => ⟨rfl, rfl, hE⟩
    rw [wp_modify]
    exact ⟨rfl, rfl, hR⟩
  · intro hres
    rw [wp_modify]
    exact ⟨rfl, rfl, hlazy (Bool.eq_false_iff.mpr fun h => hres ⟨h, rfl⟩)⟩

/-- Nothing is released for a fatal failure or a request without a sequence. -/
theorem terminal_quiet {reason : FinishReason} {token : Option TokenId} {error : String}
    {cleanup : TerminalCleanup} {desk : Desk σ} (hfinished : desk.state.finished = false)
    (hquiet : cleanup = .runnerManaged ∨ desk.state.resident = false) :
    terminal model reason token error cleanup desk =
      (.ok (), {
        runner := model.releaseReservation desk.state.request.id desk.runner
        events := desk.events ++ [⟨desk.state.request.id, token, some reason, error⟩]
        state := desk.state.over }) := by
  have hnone : ¬ (desk.state.resident = true ∧ cleanup = .releaseSequence) := by
    rintro ⟨hresident, rfl⟩
    rcases hquiet with hquiet | hquiet
    · cases hquiet
    · exact Bool.false_ne_true (hquiet.symm.trans hresident)
  simp [terminal, bind, Throwing.get, hfinished, Throwing.modify, Throwing.when, hnone, State.over,
    pure]

/-- A finished request is not ended again. -/
theorem terminal_finished {reason : FinishReason} {token : Option TokenId} {error : String}
    {cleanup : TerminalCleanup} {desk : Desk σ} (hfinished : desk.state.finished = true) :
    terminal model reason token error cleanup desk = (.ok (), desk) := by
  simp [terminal, bind, Throwing.get, hfinished, pure]

end Engine

/-! ## `take_input` -/

/-- A proper call of `take_input` returns a positive count within the suffix. -/
theorem SchedulePlan.takeInput_wp {plan : SchedulePlan} (hplan : plan.Proper)
    (hbudget : plan.remaining ≠ 0) {phase : SchedulePhase} {suffix : Nat}
    (hsuffix : phase = .prefill → suffix ≠ 0) :
    (takeInput phase suffix).wp
      (fun count plan' => plan'.Proper ∧ (phase = .prefill → 0 < count ∧ count ≤ suffix))
      (fun _ _ => False) plan := by
  have hcalls : ∀ call ∈ plan.calls ++ [⟨phase, suffix, plan.remaining⟩], call.Proper := by
    intro call hcall
    rcases List.mem_append.mp hcall with hcall | hcall
    · exact hplan.calls call hcall
    · rw [List.mem_singleton.mp hcall]
      exact ⟨hbudget, hsuffix⟩
  have hchunk := hplan.chunk
  rw [takeInput, wp_bind, wp_get, wp_bind, wp_modify, if_neg hbudget, wp_bind, wp_throwIf]
  refine ⟨fun h => hsuffix h.1 h.2, fun _ => ?_⟩
  rw [wp_bind, wp_modify, wp_pure]
  refine ⟨⟨hchunk, hcalls⟩, ?_⟩
  rintro rfl
  have hpos := hsuffix rfl
  exact ⟨by simp only [Nat.lt_min]; omega, Nat.min_le_left ..⟩

namespace RunnerSpec

open Engine

variable {σ L : Type} [Logit L] {model : ModelRunner σ L} {context : Int}
  {spec : RunnerSpec model context} {w : World} {events : List GenerationEvent} {state : State}

/-- A turn was left by an exception: no event, and the state is unfinished. -/
structure Escaped (spec : RunnerSpec model context) (w : World) (r : Request)
    (events : List GenerationEvent) (e : Exn) (turn : Turn σ) : Prop where
  request : turn.desk.state.request = r
  unfinished : turn.desk.state.finished = false
  events : turn.desk.events = events
  plan : turn.plan.Proper
  thrown : spec.thrown r.id w e turn.desk.runner

/-- A turn returned: `new` are the events it emitted. -/
structure Returned (spec : RunnerSpec model context) (w : World) (state : State)
    (events told : List GenerationEvent) (turn : Turn σ) : Prop where
  request : turn.desk.state.request = state.request
  plan : turn.plan.Proper
  events : ∃ new, turn.desk.events = events ++ new ∧
    (∀ event ∈ new, event.requestId = state.request.id) ∧
    ((turn.desk.state.finished = true ∧ spec.Ended state.request (told ++ new)) ∨
      (spec.Running turn.desk.state (told ++ new) ∧ turn.desk.state.work < state.work))
  holds : spec.holds (Function.update w state.request.id turn.desk.state.slot) turn.desk.runner

/-- What escapes does not depend on the request's own history. -/
theorem Escaped.of_put {r : Request} {h : Option (List TokenId)} {e : Exn} {turn : Turn σ}
    (hescaped : spec.Escaped (w.put r h) r events e turn) : spec.Escaped w r events e turn :=
  { hescaped with thrown := spec.thrown_put hescaped.thrown }

/-- Restoring a prefix creates the sequence and reuses the cache, or throws. -/
theorem restorePrefix_wp {turn : Turn σ} (hrun : spec.Running turn.desk.state events)
    (hplan : turn.plan.Proper)
    (hw : w turn.desk.state.request.id = some ⟨turn.desk.state.request, none⟩)
    (hholds : spec.holds w turn.desk.runner) :
    (restorePrefix model).wp
      (fun _ turn' => ∃ n kvBlockTokens,
        n < turn.desk.state.request.promptTokenIds.length ∧
        turn'.desk.state =
          { turn.desk.state with resident := true, prefilled := n, kvBlockTokens } ∧
        turn'.desk.events = turn.desk.events ∧ turn'.plan = turn.plan ∧
        spec.holds (w.put turn.desk.state.request
          (some (turn.desk.state.request.promptTokenIds.take n))) turn'.desk.runner)
      (spec.Escaped w turn.desk.state.request turn.desk.events) turn := by
  have hescaped : ∀ {e : Exn} {turn' : Turn σ} {h : Option (List TokenId)},
      turn'.desk.state.request = turn.desk.state.request →
      turn'.desk.state.finished = turn.desk.state.finished →
      turn'.desk.events = turn.desk.events → turn'.plan = turn.plan →
      spec.thrown turn.desk.state.request.id (w.put turn.desk.state.request h) e
        turn'.desk.runner →
      spec.Escaped w turn.desk.state.request turn.desk.events e turn' :=
    fun hr hf he hp ht =>
      ⟨hr, hf.trans hrun.unfinished, he, hp ▸ hplan, spec.thrown_put ht⟩
  simp only [restorePrefix, wp_bind, wp_get, Turn.wp_call, Turn.wp_update]
  have hw' := World.put_eq_self hw
  refine (spec.create hholds hw).mono (fun _ s₁ h₁ => ?_) fun e s₁ h₁ =>
    hescaped rfl rfl rfl rfl (hw' ▸ h₁)
  refine (spec.reuse h₁ World.put_self hrun.valid).mono (fun n s₂ h₂ => ?_) fun e s₂ h₂ =>
    hescaped rfl rfl rfl rfl h₂
  rw [World.put_put] at h₂
  refine (spec.blockTokens h₂.1 World.put_self).mono (fun bt s₃ h₃ => ?_) fun e s₃ h₃ =>
    hescaped rfl rfl rfl rfl h₃
  rw [wp_throwIf]
  constructor
  · -- a broken runner contract is refused before a suffix is formed
    intro hbad
    refine hescaped rfl rfl rfl rfl (spec.refuse (fun hlawful => ?_) h₃.1)
    have hn := h₂.2 hlawful
    have hbt := h₃.2 hlawful
    omega
  · intro hgood
    rw [Turn.wp_count]
    exact ⟨n, bt, by omega, rfl, rfl, rfl, h₃.1⟩

/-- One more sampled token keeps a request open, unless it is the last. -/
theorem Open.snoc {r : Request} {out : List TokenId} {logits : List L} (h : spec.Open r out)
    (hgood : spec.good (r.promptTokenIds ++ out) logits)
    (heos : r.generation.eosTokenId ≠ some (maxElement logits : Int))
    (hlast : out.length + 1 ≠ r.generation.maxNewTokens) :
    spec.Open r (out ++ [(maxElement logits : Int)]) := by
  have hshort := h.short
  refine ⟨fun i token hi => ?_, by rw [List.length_append, List.length_singleton]; omega,
    fun token htoken => ?_⟩
  · by_cases hlt : i < out.length
    · rw [List.getElem?_append_left hlt] at hi
      rw [List.take_append_of_le_length hlt.le]
      exact h.samples i token hi
    · obtain ⟨hi', rfl⟩ := List.getElem?_eq_some_iff.mp hi
      rw [List.length_append, List.length_singleton] at hi'
      obtain rfl : i = out.length := by omega
      exact ⟨logits, by simpa using hgood, by simp⟩
  · rcases List.mem_append.mp htoken with htoken | htoken
    · exact h.noEos token htoken
    · rw [List.mem_singleton.mp htoken]
      exact heos

/-- The end of a turn whose input is complete: `out` is the output before it. -/
theorem deliver_wp {turn : Turn σ} {r : Request} {logits : List L}
    (hrequest : turn.desk.state.request = r) (hunfinished : turn.desk.state.finished = false)
    (hresident : turn.desk.state.resident = true)
    (hprefilled : turn.desk.state.prefilled = r.promptTokenIds.length)
    (hvalid : spec.Valid r) (hopen : spec.Open r turn.desk.state.output)
    (hplan : turn.plan.Proper) (hholds : spec.holds w turn.desk.runner)
    (hw : w r.id = some ⟨r, some (r.promptTokenIds ++ turn.desk.state.output)⟩)
    (hgood : spec.good (r.promptTokenIds ++ turn.desk.state.output) logits)
    (hlogits : spec.lawful →
      logits.all Logit.isFinite ∧ ∀ v, spec.vocabulary v → (logits.length : Int) = v) :
    (deliver model r logits).wp
      (fun _ turn' => turn'.desk.state.request = r ∧ turn'.plan.Proper ∧
        spec.holds (Function.update w r.id turn'.desk.state.slot) turn'.desk.runner ∧
        ∃ event, event.requestId = r.id ∧ turn'.desk.events = turn.desk.events ++ [event] ∧
          ((turn'.desk.state.finished = true ∧
              spec.Ended r (turn.desk.state.output.map (tokenEvent r) ++ [event])) ∨
            (spec.Running turn'.desk.state
                (turn.desk.state.output.map (tokenEvent r) ++ [event]) ∧
              turn'.desk.state.prefilled = r.promptTokenIds.length ∧
              turn'.desk.state.output.length = turn.desk.state.output.length + 1)))
      (spec.Escaped w r turn.desk.events) turn := by
  obtain ⟨⟨runner, events, state⟩, plan, stats⟩ := turn
  simp only at hrequest hunfinished hresident hprefilled hopen hplan hholds hw hgood ⊢
  subst hrequest
  -- the calls in their order: `config`, the checks, `publish`
  simp only [deliver, wp_bind, Turn.wp_call, wp_throwIf, Turn.wp_update, wp_get]
  refine (spec.config hholds).mono (fun c s₁ h₁ => ?_) fun e s₁ h₁ =>
    ⟨rfl, hunfinished, rfl, hplan, h₁.2 _⟩
  -- a lawful runner passes both checks of the logits
  refine ⟨fun harity => ⟨rfl, hunfinished, rfl, hplan, spec.refuse (fun hl => ?_) h₁.1⟩,
    fun _ => ⟨fun hfinite => ⟨rfl, hunfinished, rfl, hplan, spec.refuse (fun hl => ?_) h₁.1⟩,
      fun _ => ?_⟩⟩
  · exact harity ((hlogits hl).2 _ h₁.2)
  · exact Bool.false_ne_true (hfinite.symm.trans (hlogits hl).1)
  refine (spec.publish h₁.1 hw).mono (fun _ s₂ h₂ => ?_) fun e s₂ h₂ =>
    ⟨rfl, hunfinished, rfl, hplan, h₂⟩
  -- both ends of the request release its sequence
  have hterminal : ∀ reason : FinishReason,
      spec.Ended state.request (state.output.map (tokenEvent state.request) ++
        [⟨state.request.id, some (maxElement logits), some reason, ""⟩]) →
      (terminal model reason (some (maxElement logits : Int)) "" .releaseSequence).wp
        (fun _ desk' => desk'.state.request = state.request ∧ plan.Proper ∧
          spec.holds (Function.update w state.request.id desk'.state.slot) desk'.runner ∧
          ∃ event, event.requestId = state.request.id ∧ desk'.events = events ++ [event] ∧
            ((desk'.state.finished = true ∧ spec.Ended state.request
                (state.output.map (tokenEvent state.request) ++ [event])) ∨
              (spec.Running desk'.state
                  (state.output.map (tokenEvent state.request) ++ [event]) ∧
                desk'.state.prefilled = state.request.promptTokenIds.length ∧
                desk'.state.output.length = state.output.length + 1)))
        (fun e desk' => spec.Escaped w state.request events e ⟨desk', plan, stats⟩)
        ⟨s₂, events, { state with output := state.output ++ [(maxElement logits : Int)] }⟩ := by
    intro reason hended
    refine (terminal_wp (R := spec.holds (w.drop state.request.id))
      (E := fun e s' => spec.thrown state.request.id w e s') hunfinished (fun _ => ?_)
      fun hlazy => ?_).mono (fun _ desk' h => ?_) fun e desk' h => ?_
    · exact (spec.release h₂ hw).mono (fun _ _ h => h) fun _ _ h => h.2
    · exact absurd (hlazy.symm.trans hresident) Bool.false_ne_true
    · obtain ⟨hstate, hevents, hdrop⟩ := h
      rw [hstate]
      exact ⟨rfl, hplan, hdrop, _, rfl, hevents, Or.inl ⟨rfl, hended⟩⟩
    · obtain ⟨hstate, hevents, hthrown⟩ := h
      exact ⟨by rw [hstate], by rw [hstate]; exact hunfinished, hevents, hplan, hthrown⟩
  -- the end token, the last token, or one in between
  rw [wp_ite]
  refine ⟨fun heos => ?_, fun heos => ?_⟩
  · rw [Turn.wp_onDesk]
    exact hterminal .eos (.eos hopen hgood heos)
  rw [wp_ite, List.length_append, List.length_singleton]
  refine ⟨fun hlast => ?_, fun hlast => ?_⟩
  · rw [Turn.wp_onDesk]
    exact hterminal .length (.length hopen hgood heos hlast)
  rw [Turn.wp_onDesk, wp_modify]
  refine ⟨rfl, hplan, ?_, _, rfl, rfl, Or.inr ⟨⟨hunfinished, hvalid, fun h => by simp at h,
    fun _ => ⟨hprefilled, hresident⟩, fun hlazy => absurd (hlazy.symm.trans hresident) (by simp),
    hopen.snoc hgood heos hlast, ?_⟩, hprefilled, List.length_append⟩⟩
  -- the request keeps its sequence
  · have hslot : State.slot { state with output := state.output ++ [(maxElement logits : Int)] } =
        w state.request.id := by
      simp [State.slot, State.held, hunfinished, hresident, hprefilled, hw]
    rw [hslot, Function.update_eq_self]
    exact h₂
  · rw [List.map_append]
    rfl

/-- A state that may take its input: resident, with a prefix of the prompt or,
when it decodes, all of it in the sequence. -/
structure Resumed (state resumed : State) : Prop where
  request : resumed.request = state.request
  output : resumed.output = state.output
  unfinished : resumed.finished = false
  resident : resumed.resident = true
  progress : state.prefilled ≤ resumed.prefilled
  prefilling : resumed.output = [] → resumed.prefilled < state.request.promptTokenIds.length
  decoding : resumed.output ≠ [] → resumed.prefilled = state.request.promptTokenIds.length

/-- A request that is not resident is made so before its turn. -/
theorem resume_wp {turn : Turn σ} (hrun : spec.Running turn.desk.state events)
    (hplan : turn.plan.Proper) (hw : w turn.desk.state.request.id = turn.desk.state.slot)
    (hholds : spec.holds w turn.desk.runner) :
    (Throwing.when (turn.desk.state.resident = false) (restorePrefix model)).wp
      (fun _ turn' => Resumed turn.desk.state turn'.desk.state ∧
        turn'.desk.events = turn.desk.events ∧ turn'.plan = turn.plan ∧
        spec.holds (w.put turn.desk.state.request (some turn'.desk.state.held))
          turn'.desk.runner)
      (spec.Escaped w turn.desk.state.request turn.desk.events) turn := by
  rw [State.slot, if_neg (by rw [hrun.unfinished]; exact Bool.false_ne_true)] at hw
  rw [wp_when]
  refine ⟨fun hlazy => ?_, fun hresident => ?_⟩
  · rw [hlazy, if_neg Bool.false_ne_true] at hw
    have houtput : turn.desk.state.output = [] := by
      by_contra hne
      exact absurd (hlazy.symm.trans (hrun.decoding hne).2) Bool.false_ne_true
    refine (restorePrefix_wp hrun hplan hw hholds).mono ?_ fun _ _ h => h
    rintro _ turn' ⟨n, bt, hn, hstate, hevents, hplan', hholds'⟩
    refine ⟨?_, hevents, hplan', ?_⟩
    · rw [hstate]
      exact ⟨rfl, rfl, hrun.unfinished, rfl, by rw [hrun.lazy hlazy]; exact Nat.zero_le _,
        fun _ => hn, fun hne => absurd houtput hne⟩
    · rw [hstate, State.held]
      simp only [houtput, List.dropLast_nil, List.append_nil]
      exact hholds'
  · have hresident := Bool.eq_true_of_not_eq_false hresident
    rw [if_pos hresident] at hw
    refine ⟨⟨rfl, rfl, hrun.unfinished, hresident, le_refl _, hrun.prefilling,
      fun hne => (hrun.decoding hne).1⟩, rfl, rfl, ?_⟩
    rw [World.put_eq_self hw]
    exact hholds

/-- The phase of a resumed state is still the one it was scheduled in. -/
theorem Resumed.phase {state resumed : State} (h : Resumed state resumed) :
    (resumed.output = [] ∧ state.phase = .prefill) ∨
      (resumed.output ≠ [] ∧ state.phase = .decode) := by
  rw [State.phase, ← h.output]
  cases resumed.output with
  | nil => exact Or.inl ⟨rfl, rfl⟩
  | cons token rest => exact Or.inr ⟨List.cons_ne_nil _ _, rfl⟩

/-- A state whose input was appended; `history` is then in its sequence. -/
structure Fed (state fed : State) (history : List TokenId) : Prop where
  request : fed.request = state.request
  output : fed.output = state.output
  unfinished : fed.finished = false
  resident : fed.resident = true
  history : history = state.request.promptTokenIds.take fed.prefilled ++ state.output
  bounded : fed.prefilled ≤ state.request.promptTokenIds.length
  prefilling : state.output = [] → state.prefilled < fed.prefilled
  decoding : state.output ≠ [] → fed.prefilled = state.request.promptTokenIds.length

/-- A resumed request that is fed moves on by the tokens it was fed. -/
theorem Resumed.fed {state resumed : State} (h : Resumed state resumed) {count : Nat}
    (hcount : state.phase = .prefill →
      0 < count ∧ count ≤ state.request.promptTokenIds.length - resumed.prefilled) :
    resumed.input state.phase count ≠ [] ∧
      Fed state (resumed.fed state.phase (resumed.input state.phase count).length)
        (resumed.held ++ resumed.input state.phase count) := by
  rcases h.phase with ⟨hout, hphase⟩ | ⟨hout, hphase⟩
  · obtain ⟨hpos, hle⟩ := hcount hphase
    have hbelow := h.prefilling hout
    have hlen : (resumed.input .prefill count).length = count := by
      rw [State.input, h.request, List.length_take, List.length_drop]
      exact Nat.min_eq_left hle
    rw [hphase, hlen]
    refine ⟨fun hnil => ?_, h.request, h.output, h.unfinished, h.resident, ?_, ?_, fun _ => ?_,
      fun hne => absurd (h.output ▸ hout) hne⟩
    · rw [hnil, List.length_nil] at hlen
      omega
    · rw [State.held, ← h.output, hout, List.dropLast_nil, List.append_nil, List.append_nil,
        State.input, h.request]
      exact List.take_add.symm
    · show resumed.prefilled + count ≤ _
      omega
    · show state.prefilled < resumed.prefilled + count
      have := h.progress
      omega
  · have hall := h.decoding hout
    rw [hphase]
    refine ⟨List.cons_ne_nil _ _, h.request, h.output, h.unfinished, h.resident, ?_, hall.le,
      fun hnil => absurd (h.output.trans hnil) hout, fun _ => hall⟩
    show resumed.held ++ [resumed.output.getLastD 0] =
      state.request.promptTokenIds.take resumed.prefilled ++ state.output
    rw [State.held, h.request, List.append_assoc, List.getLastD_eq_getLast?,
      List.getLast?_eq_some_getLast hout, Option.getD_some, List.dropLast_append_getLast hout,
      h.output]

/-- One attempt feeds the request, samples and tells, or throws. -/
theorem attempt_wp {turn : Turn σ} {told : List GenerationEvent}
    (hrun : spec.Running turn.desk.state told) (hplan : turn.plan.Proper)
    (hbudget : turn.plan.remaining ≠ 0) (hw : w turn.desk.state.request.id = turn.desk.state.slot)
    (hholds : spec.holds w turn.desk.runner) :
    (attempt model turn.desk.state.phase).wp
      (fun _ turn' => spec.Returned w turn.desk.state turn.desk.events told turn')
      (spec.Escaped w turn.desk.state.request turn.desk.events) turn := by
  have hopen := hrun.sofar
  obtain ⟨⟨runner, events, state⟩, plan, stats⟩ := turn
  simp only at hrun hplan hbudget hw hholds hopen ⊢
  rw [attempt, wp_bind, wp_get, wp_bind]
  refine (resume_wp hrun hplan hw hholds).mono ?_ fun _ _ h => h
  rintro _ ⟨⟨runner₁, events₁, resumed⟩, plan₁, stats₁⟩ ⟨hres, rfl, rfl, hholds₁⟩
  simp only at hres hholds₁
  rw [wp_bind, wp_get, wp_bind, Turn.takeInput, wp_on]
  -- a prefilling request has prompt tokens left to feed
  have hsuffix : state.phase = .prefill →
      state.request.promptTokenIds.length - resumed.prefilled ≠ 0 := by
    intro hphase
    rcases hres.phase with ⟨hout, -⟩ | ⟨-, hdecode⟩
    · have := hres.prefilling hout
      omega
    · rw [hdecode] at hphase
      cases hphase
  refine (SchedulePlan.takeInput_wp hplan hbudget hsuffix).mono ?_ fun _ _ h => h.elim
  rintro count plan₂ ⟨hplan₂, hcount⟩
  obtain ⟨hne, hfed⟩ := hres.fed hcount
  -- what is appended stays within the prompt and the output so far
  have hprefix : resumed.held ++ resumed.input state.phase count <+:
      state.request.promptTokenIds ++ state.output := by
    rw [hfed.history]
    by_cases hout : state.output = []
    · rw [hout, List.append_nil, List.append_nil]
      exact List.take_prefix _ _
    · rw [hfed.decoding hout, List.take_length]
  simp only [wp_bind, Turn.wp_call]
  refine (spec.append hholds₁ World.put_self hne hrun.valid hopen.samples hopen.short hprefix).mono
    (fun logits runner₃ h₃ => ?_) fun e runner₃ h₃ =>
      ⟨hres.request, hres.unfinished, rfl, hplan₂, spec.thrown_put h₃⟩
  rw [World.put_put] at h₃
  obtain ⟨hholds₃, hgood, hlogits⟩ := h₃
  refine Turn.wp_appended fun stats₃ => ?_
  revert hfed
  generalize resumed.fed state.phase (resumed.input state.phase count).length = fed
  intro hfed
  rw [wp_get, wp_ite]
  refine ⟨fun hmore => ?_, fun hall => ?_⟩
  · -- a chunk of the prompt: no token yet
    have hout : state.output = [] := by
      by_contra hne
      exact hmore.ne (hfed.decoding hne)
    have hprogress := hfed.prefilling hout
    have hslot : fed.slot = some ⟨state.request,
        some (resumed.held ++ resumed.input state.phase count)⟩ := by
      rw [State.slot, if_neg (by rw [hfed.unfinished]; exact Bool.false_ne_true),
        if_pos hfed.resident, State.held, hfed.history, hfed.request, hfed.output, hout,
        List.dropLast_nil]
    refine ⟨hfed.request, hplan₂,
      ⟨[], (List.append_nil _).symm, fun _ h => (List.not_mem_nil h).elim, Or.inr ⟨?_, ?_⟩⟩, ?_⟩
    · rw [List.append_nil]
      refine ⟨hfed.unfinished, hfed.request.symm ▸ hrun.valid, fun _ => hfed.request.symm ▸ hmore,
        fun hne => absurd (hfed.output.trans hout) hne,
        fun hlazy => absurd (hlazy.symm.trans hfed.resident) Bool.false_ne_true, ?_, ?_⟩
      · rw [hfed.request, hfed.output]
        exact hopen
      · rw [hfed.request, hfed.output]
        exact hrun.told
    · simp only [State.work, hfed.request, hfed.output]
      simp only at hmore
      omega
    · show spec.holds (Function.update w _ fed.slot) runner₃
      rw [hslot]
      exact hholds₃
  -- the last prompt token or a decoded one: a sample is delivered
  · have hall : fed.prefilled = state.request.promptTokenIds.length :=
      Nat.le_antisymm hfed.bounded (Nat.le_of_not_lt hall)
    have hhistory : resumed.held ++ resumed.input state.phase count =
        state.request.promptTokenIds ++ fed.output := by
      rw [hfed.history, hall, List.take_length, hfed.output]
    rw [hhistory] at hholds₃ hgood
    have hshort := hopen.short
    refine (deliver_wp hfed.request hfed.unfinished hfed.resident hall hrun.valid
      (hfed.output.symm ▸ hopen) hplan₂ hholds₃ World.put_self hgood hlogits).mono ?_
      fun e turn' h => Escaped.of_put h
    rintro _ turn' ⟨hrequest, hplan', hholds', event, hid, hevents, hend⟩
    simp only [hfed.output] at hend
    rw [← hrun.told] at hend
    rw [World.put, Function.update_idem] at hholds'
    -- either phase has less work left afterwards
    have hwork : ∀ told', spec.Running turn'.desk.state told' ∧
        turn'.desk.state.prefilled = state.request.promptTokenIds.length ∧
        turn'.desk.state.output.length = state.output.length + 1 →
        spec.Running turn'.desk.state told' ∧ turn'.desk.state.work < state.work := by
      rintro told' ⟨hrun', hpre, hout⟩
      refine ⟨hrun', ?_⟩
      simp only [State.work, hrequest, hpre, hout]
      omega
    exact ⟨hrequest, hplan', ⟨[event], hevents, fun e he => by rw [List.mem_singleton.mp he, hid],
      hend.imp_right (hwork _)⟩, hholds'⟩

/-- The body of `for (const auto& work : plan.order())`. -/
theorem takeTurn_wp {turn : Turn σ} {told : List GenerationEvent}
    (hrun : spec.Running turn.desk.state told) (hplan : turn.plan.Proper)
    (hbudget : turn.plan.remaining ≠ 0) (hw : w turn.desk.state.request.id = turn.desk.state.slot)
    (hholds : spec.holds w turn.desk.runner) :
    (takeTurn model turn.desk.state.phase).wp
      (fun _ turn' => spec.Returned w turn.desk.state turn.desk.events told turn')
      (spec.Escaped w turn.desk.state.request turn.desk.events) turn := by
  rw [takeTurn, wp_catching]
  refine (attempt_wp hrun hplan hbudget hw hholds).mono (fun _ _ h => h) fun e turn' h => ?_
  by_cases hcapacity : e.isCapacity = true
  · -- `KvCapacityError` ends the one request
    rw [if_pos hcapacity, Turn.wp_onDesk]
    have hrequest := h.request
    refine (terminal_wp (R := spec.holds (w.drop turn.desk.state.request.id))
      (E := fun e s' => spec.thrown turn.desk.state.request.id w e s') h.unfinished (fun _ => ?_)
      fun _ => ?_).mono (fun _ desk' h' => ?_) fun e' desk' h' => ?_
    · rw [hrequest]
      exact spec.thrown_release h.thrown hcapacity
    · rw [hrequest]
      exact spec.thrown_drop h.thrown hcapacity
    · obtain ⟨hstate, hevents, hdrop⟩ := h'
      rw [hrequest] at hevents
      refine ⟨by rw [hstate]; exact hrequest, h.plan,
        ⟨_, by rw [hevents, h.events], fun event he => ?_, Or.inl ⟨by rw [hstate]; rfl, ?_⟩⟩, ?_⟩
      · rw [List.mem_singleton.mp he]
      · rw [hrun.told]
        exact .error hrun.sofar (spec.thrown_failure h.thrown)
      · rw [hstate]
        exact hdrop
    · obtain ⟨hstate, hevents, hthrown⟩ := h'
      exact ⟨by rw [hstate]; exact hrequest, by rw [hstate]; exact h.unfinished,
        hevents.trans h.events, h.plan, hthrown⟩
  · rw [if_neg hcapacity]
    exact h

end RunnerSpec

end TinyInfer.MiniPrefix
