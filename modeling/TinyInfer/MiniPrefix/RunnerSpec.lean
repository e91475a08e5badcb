import TinyInfer.MiniPrefix.Engine
import Mathlib.Logic.Function.Basic

/-!
# What the engine relies on

`RunnerSpec` describes a runner to the engine: what it holds for each request is
a `World`, and each call moves the runner from one world to the next. An engine
is verified once, over any `RunnerSpec`; a runner of which nothing is known, one
that decodes a function, and one that delegates to `KVManager` are instances.

The clauses about `thrown` say what is left of a world after a call for `id`
threw: `thrown id w e` must not depend on what `w` says of `id`.
-/

namespace TinyInfer.MiniPrefix

open Lib

/-- What the runner holds for an active request: its reservation, and the
history of its sequence once there is one. -/
structure Slot where
  request : Request
  history : Option (List TokenId)

abbrev World := RequestId → Option Slot

namespace World

def empty : World := fun _ => none

/-- The world once the runner holds `history` for the request. -/
def put (w : World) (request : Request) (history : Option (List TokenId)) : World :=
  Function.update w request.id (some ⟨request, history⟩)

def drop (w : World) (id : RequestId) : World := Function.update w id none

/-- A sequence that was put is there. -/
@[simp] theorem put_self {w : World} {r : Request} {history : Option (List TokenId)} :
    w.put r history r.id = some ⟨r, history⟩ := Function.update_self ..

/-- A dropped sequence is gone. -/
@[simp] theorem drop_self {w : World} {id : RequestId} : w.drop id id = none :=
  Function.update_self ..

@[simp] theorem put_put {w : World} {r : Request} {a b : Option (List TokenId)} :
    (w.put r a).put r b = w.put r b := Function.update_idem ..

@[simp] theorem drop_put {w : World} {r : Request} {a : Option (List TokenId)} :
    (w.put r a).drop r.id = w.drop r.id := Function.update_idem ..

@[simp] theorem drop_drop {w : World} {id : RequestId} : (w.drop id).drop id = w.drop id :=
  Function.update_idem ..

/-- Dropping what is not there changes nothing. -/
theorem drop_eq_self {w : World} {id : RequestId} (h : w id = none) : w.drop id = w :=
  Function.update_eq_self_iff.mpr h.symm

/-- Putting what is there changes nothing. -/
theorem put_eq_self {w : World} {r : Request} {history : Option (List TokenId)}
    (h : w r.id = some ⟨r, history⟩) : w.put r history = w :=
  Function.update_eq_self_iff.mpr h.symm

end World

/-- The requests `submit` accepts, `vocabulary` being what the runner reports. -/
structure ValidRequest (context : Int) (vocabulary : Int → Prop) (r : Request) : Prop where
  prompt : r.promptTokenIds ≠ []
  positive : 0 < r.generation.maxNewTokens
  context : ((r.promptTokenIds.length + r.generation.maxNewTokens : Nat) : Int) ≤ context
  tokens : ∀ token ∈ r.promptTokenIds, 0 ≤ token ∧ ∃ v, vocabulary v ∧ token < v

/-- Tokens sampled one after the other from logits in `good`. -/
def Samples {L : Type} [Logit L] (good : List TokenId → List L → Prop) (prompt out : List TokenId) :
    Prop :=
  ∀ i token, out[i]? = some token →
    ∃ logits, good (prompt ++ out.take i) logits ∧ token = maxElement logits

structure RunnerSpec {σ L : Type} [Logit L] (model : ModelRunner σ L) (context : Int) where
  /-- The runner is in this world. -/
  holds : World → σ → Prop
  /-- A call for the request threw in this world. -/
  thrown : RequestId → World → Exn → σ → Prop
  /-- What `config().vocabulary` may be. -/
  vocabulary : Int → Prop
  /-- What `append` may return for a history. -/
  good : List TokenId → List L → Prop
  /-- Which message an `Error` terminal of the request may carry. -/
  failure : Request → String → Prop
  /-- The engine never finds fault with what a call returns. -/
  lawful : Prop
  config : ∀ {w s}, holds w s →
    model.config.wp (fun c s' => holds w s' ∧ vocabulary c.vocabulary)
      (fun e s' => holds w s' ∧ ∀ id, thrown id w e s') s
  reserve : ∀ {w s} {r : Request}, holds w s → w r.id = none → ValidRequest context vocabulary r →
    (model.reserveRequest r.id (r.promptTokenIds.length + r.generation.maxNewTokens - 1)).wp
      (fun a s' =>
        (a = .ready → holds (w.put r none) s') ∧
        (a ≠ .ready → holds w s') ∧
        (a = .impossible → failure r Engine.noCapacity) ∧
        (a = .wait → w = World.empty → failure r Engine.noProgress))
      (thrown r.id w) s
  create : ∀ {w s} {r : Request}, holds w s → w r.id = some ⟨r, none⟩ →
    (model.create r.id).wp (fun _ s' => holds (w.put r (some [])) s') (thrown r.id w) s
  reuse : ∀ {w s} {r : Request}, holds w s → w r.id = some ⟨r, some []⟩ →
    ValidRequest context vocabulary r →
    (model.reusePrefix r.id r.promptTokenIds).wp
      (fun n s' => holds (w.put r (some (r.promptTokenIds.take n))) s' ∧
        (lawful → n < r.promptTokenIds.length))
      (thrown r.id w) s
  blockTokens : ∀ {w s} {r : Request} {h}, holds w s → w r.id = some ⟨r, h⟩ →
    model.kvBlockTokens.wp (fun n s' => holds w s' ∧ (lawful → n ≠ 0)) (thrown r.id w) s
  append : ∀ {w s} {r : Request} {h x out}, holds w s → w r.id = some ⟨r, some h⟩ → x ≠ [] →
    ValidRequest context vocabulary r → Samples good r.promptTokenIds out →
    out.length < r.generation.maxNewTokens → h ++ x <+: r.promptTokenIds ++ out →
    (model.append r.id x).wp
      (fun logits s' => holds (w.put r (some (h ++ x))) s' ∧ good (h ++ x) logits ∧
        (lawful → logits.all Logit.isFinite ∧ ∀ v, vocabulary v → (logits.length : Int) = v))
      (thrown r.id w) s
  publish : ∀ {w s} {r : Request} {h}, holds w s → w r.id = some ⟨r, some h⟩ →
    (model.cachePrefix r.id).wp (fun _ s' => holds w s') (thrown r.id w) s
  release : ∀ {w s} {r : Request} {h}, holds w s → w r.id = some ⟨r, some h⟩ →
    (model.release r.id).wp
      (fun _ s' => holds (w.drop r.id) (model.releaseReservation r.id s'))
      (fun e s' => holds w s' ∧ thrown r.id w e s') s
  releaseReservation : ∀ {w s id}, holds w s → (∀ slot, w id = some slot → slot.history = none) →
    holds (w.drop id) (model.releaseReservation id s)
  cleared : ∀ {s}, holds World.empty s → holds World.empty (model.clear s).2
  /-- An engine check failed. -/
  refuse : ∀ {w s id what}, ¬ lawful → holds w s → thrown id w (.runtimeError what) s
  std : ∀ {id w e s}, thrown id w e s → e.isStd
  thrown_put : ∀ {w e s} {r : Request} {h}, thrown r.id (w.put r h) e s → thrown r.id w e s
  /-- The `KvCapacityError` handler, for a sequence that exists. -/
  thrown_release : ∀ {w e s} {r : Request}, thrown r.id w e s → e.isCapacity →
    (model.release r.id).wp
      (fun _ s' => holds (w.drop r.id) (model.releaseReservation r.id s')) (thrown r.id w) s
  /-- The `KvCapacityError` handler, for a sequence that was not created. -/
  thrown_drop : ∀ {w e s id}, thrown id w e s → e.isCapacity →
    holds (w.drop id) (model.releaseReservation id s)
  thrown_failure : ∀ {id w e s r what}, thrown id w e s → failure r what
  fatal : ∀ {id w e s}, thrown id w e s → holds World.empty (model.clear s).2

namespace RunnerSpec

variable {σ L : Type} [Logit L] {model : ModelRunner σ L} {context : Int}
  (spec : RunnerSpec model context)

abbrev Valid (r : Request) : Prop := ValidRequest context spec.vocabulary r

/-- The token events of a request that goes on. -/
structure Open (r : Request) (out : List TokenId) : Prop where
  samples : Samples spec.good r.promptTokenIds out
  short : out.length < r.generation.maxNewTokens
  noEos : ∀ token ∈ out, r.generation.eosTokenId ≠ some token

end RunnerSpec

/-- The event of a token that is not the last. -/
def tokenEvent (r : Request) (token : TokenId) : GenerationEvent := ⟨r.id, some token, none, ""⟩

namespace RunnerSpec

variable {σ L : Type} [Logit L] {model : ModelRunner σ L} {context : Int}
  (spec : RunnerSpec model context)

/-- All the events of a request that is over. -/
inductive Ended (r : Request) : List GenerationEvent → Prop where
  | eos {out} {logits : List L} (h : spec.Open r out)
    (good : spec.good (r.promptTokenIds ++ out) logits)
      (eos : r.generation.eosTokenId = some (maxElement logits : Int)) :
      Ended r (out.map (tokenEvent r) ++ [⟨r.id, some (maxElement logits), some .eos, ""⟩])
  | length {out} {logits : List L} (h : spec.Open r out)
    (good : spec.good (r.promptTokenIds ++ out) logits)
      (eos : r.generation.eosTokenId ≠ some (maxElement logits : Int))
      (last : out.length + 1 = r.generation.maxNewTokens) :
      Ended r (out.map (tokenEvent r) ++ [⟨r.id, some (maxElement logits), some .length, ""⟩])
  | cancelled {out} (h : spec.Open r out) :
      Ended r (out.map (tokenEvent r) ++ [⟨r.id, none, some .cancelled, ""⟩])
  | error {out what} (h : spec.Open r out) (why : spec.failure r what) :
      Ended r (out.map (tokenEvent r) ++ [⟨r.id, none, some .error, what⟩])

/-- An unfinished state between two turns, with its events so far. -/
structure Running (state : Engine.State) (events : List GenerationEvent) : Prop where
  unfinished : state.finished = false
  valid : spec.Valid state.request
  prefilling : state.output = [] → state.prefilled < state.request.promptTokenIds.length
  decoding : state.output ≠ [] →
    state.prefilled = state.request.promptTokenIds.length ∧ state.resident = true
  lazy : state.resident = false → state.prefilled = 0
  sofar : spec.Open state.request state.output
  told : events = state.output.map (tokenEvent state.request)

end RunnerSpec

namespace Engine.State

/-- The history of the sequence: the last sampled token is not appended yet. -/
def held (state : State) : List TokenId :=
  state.request.promptTokenIds.take state.prefilled ++ state.output.dropLast

/-- What the runner holds for the state. -/
def slot (state : State) : Option Slot :=
  if state.finished then none
  else some ⟨state.request, if state.resident then some state.held else none⟩

/-- The phase `step` puts the state in. -/
def phase (state : State) : SchedulePhase :=
  if state.output.isEmpty then .prefill else .decode

/-- What is left to do for an unfinished request. -/
def work (state : State) : Nat :=
  (state.request.promptTokenIds.length - state.prefilled) +
    (state.request.generation.maxNewTokens - state.output.length) + 1

end Engine.State

/-- A call of `take_input` that finds budget and, in prefill, a suffix. -/
def InputCall.Proper (call : InputCall) : Prop :=
  call.remaining ≠ 0 ∧ (call.phase = .prefill → call.unprefilledTokens ≠ 0)

/-- Every call so far was proper, and chunks are not empty. -/
structure SchedulePlan.Proper (plan : SchedulePlan) : Prop where
  chunk : 0 < plan.chunk
  calls : ∀ call ∈ plan.calls, call.Proper

end TinyInfer.MiniPrefix
