import TinyInfer.MiniPrefix.EngineRuns

/-!
# The calls an engine makes

`ModelRunner.logged` is a runner that records the calls of the functions that do
work for a request, with their outcomes, and otherwise is the runner it is made
of. The engine is generic in its runner, so what holds of the record of a logged
runner holds of the calls any runner sees.

- `Story r calls stage`: the recorded calls for the request `r` are the start of
  a run of `r`: one `create`, one `reuse_prefix`, then the rest of the prompt in
  chunks, then, for each sampled token, a `cache_prefix` before the token is
  appended. `Tale` allows the last call to have thrown.
- `Tale.covered`, `Tale.published`, `Tale.reuses`: the positions fed so far and
  the numbers of `cache_prefix` and `reuse_prefix` calls; `Tale.at_call`: what
  precedes a call.
-/

namespace TinyInfer.MiniPrefix

open Lib Throwing

/-- A recorded call. -/
inductive RunnerCall where
  | create (id : RequestId) (outcome : Except Exn Unit)
  | reusePrefix (id : RequestId) (outcome : Except Exn Nat)
  | stats (outcome : Except Exn Nat)
  | append (id : RequestId) (input : List TokenId) (outcome : Except Exn Unit)
  | cachePrefix (id : RequestId) (outcome : Except Exn Unit)

/-- The record of an `append`, whose logits are left out. -/
def RunnerCall.appended {L : Type} (id : RequestId) (input : List TokenId)
    (outcome : Except Exn (List L)) : RunnerCall :=
  .append id input (outcome.map fun _ => ())

/-- A runner with the calls made to it so far. -/
structure Logged (σ : Type) where
  runner : σ
  calls : List RunnerCall := []

namespace Logged

variable {σ α : Type}

/-- A call that is recorded. -/
def record (entry : Except Exn α → RunnerCall) (x : Throwing Exn σ α) :
    Throwing Exn (Logged σ) α := fun s =>
  match x s.runner with
  | (r, runner) => (r, { runner, calls := s.calls ++ [entry r] })

/-- A call that is not. -/
def silent (x : Throwing Exn σ α) : Throwing Exn (Logged σ) α :=
  x.on Logged.runner fun runner s => { s with runner }

variable {x : Throwing Exn σ α} {Q : α → Logged σ → Prop} {E : Exn → Logged σ → Prop}
  {s : Logged σ}

@[simp] theorem wp_record {entry : Except Exn α → RunnerCall} :
    (record entry x).wp Q E s ↔
      x.wp (fun a runner => Q a { runner, calls := s.calls ++ [entry (.ok a)] })
        (fun e runner => E e { runner, calls := s.calls ++ [entry (.error e)] }) s.runner := by
  simp only [wp, record]
  rcases x s.runner with ⟨e | a, runner⟩
  · rfl
  · rfl

@[simp] theorem wp_silent :
    (silent x).wp Q E s ↔
      x.wp (fun a runner => Q a { s with runner }) (fun e runner => E e { s with runner })
        s.runner := by
  rw [silent, wp_on]

end Logged

/-- The runner that records its calls. -/
def ModelRunner.logged {σ L : Type} (model : ModelRunner σ L) : ModelRunner (Logged σ) L where
  config := Logged.silent model.config
  contextLimit := Logged.silent model.contextLimit
  reserveRequest id tokens := Logged.silent (model.reserveRequest id tokens)
  releaseReservation id s := { s with runner := model.releaseReservation id s.runner }
  create id := Logged.record (.create id) (model.create id)
  reusePrefix id prompt := Logged.record (.reusePrefix id) (model.reusePrefix id prompt)
  cachePrefix id := Logged.record (.cachePrefix id) (model.cachePrefix id)
  append id input := Logged.record (.appended id input) (model.append id input)
  release id := Logged.silent (model.release id)
  clear := Logged.silent model.clear
  kvBlockTokens := Logged.record .stats model.kvBlockTokens

/-- Recording the calls changes nothing that is thrown. -/
theorem ModelRunner.ThrowsStd.logged {σ L : Type} {model : ModelRunner σ L}
    (h : model.ThrowsStd) : model.logged.ThrowsStd where
  config s := Logged.wp_silent.mpr (h.config s.runner)
  reserveRequest id n s := Logged.wp_silent.mpr (h.reserveRequest id n s.runner)
  create id s := Logged.wp_record.mpr (h.create id s.runner)
  reusePrefix id prompt s := Logged.wp_record.mpr (h.reusePrefix id prompt s.runner)
  cachePrefix id s := Logged.wp_record.mpr (h.cachePrefix id s.runner)
  append id input s := Logged.wp_record.mpr (h.append id input s.runner)
  release id s := Logged.wp_silent.mpr (h.release id s.runner)
  kvBlockTokens s := Logged.wp_record.mpr (h.kvBlockTokens s.runner)

/-! ## Reading the record -/

namespace RunnerCall

/-- The request a call is for. -/
def id? : RunnerCall → Option RequestId
  | create id _ | reusePrefix id _ | append id _ _ | cachePrefix id _ => some id
  | stats _ => none

/-- The length of the prefix a call restored. -/
def reused : RunnerCall → Nat
  | reusePrefix _ (.ok n) => n
  | _ => 0

/-- The tokens a call put into a sequence. -/
def fed : RunnerCall → List TokenId
  | append _ input (.ok ()) => input
  | _ => []

def isReuse : RunnerCall → Bool
  | reusePrefix _ _ => true
  | _ => false

/-- Did the call publish? -/
def published : RunnerCall → Bool
  | cachePrefix _ (.ok ()) => true
  | _ => false

end RunnerCall

/-- The calls for one request. -/
def callsOf (id : RequestId) (calls : List RunnerCall) : List RunnerCall :=
  calls.filter fun call => call.id? = some id

/-- The length of the prefix that was restored. -/
def reusedIn (calls : List RunnerCall) : Nat := (calls.map RunnerCall.reused).sum

/-- The inputs of the successful appends, one after the other. -/
def fedIn (calls : List RunnerCall) : List TokenId := calls.flatMap RunnerCall.fed

/-- The number of successful `cache_prefix` calls. -/
def publishedIn (calls : List RunnerCall) : Nat := calls.countP RunnerCall.published

@[simp] theorem callsOf_append {id : RequestId} {calls new : List RunnerCall} :
    callsOf id (calls ++ new) = callsOf id calls ++ callsOf id new := List.filter_append ..

@[simp] theorem reusedIn_append {calls new : List RunnerCall} :
    reusedIn (calls ++ new) = reusedIn calls + reusedIn new := by
  rw [reusedIn, List.map_append, List.sum_append]
  rfl

@[simp] theorem fedIn_append {calls new : List RunnerCall} :
    fedIn (calls ++ new) = fedIn calls ++ fedIn new := List.flatMap_append

@[simp] theorem publishedIn_append {calls new : List RunnerCall} :
    publishedIn (calls ++ new) = publishedIn calls + publishedIn new := List.countP_append ..

@[simp] theorem reusedIn_snoc {calls : List RunnerCall} {call : RunnerCall} :
    reusedIn (calls ++ [call]) = reusedIn calls + call.reused := by
  rw [reusedIn_append]
  rfl

/-- The positions fed, with one more call. -/
@[simp] theorem fedIn_snoc {calls : List RunnerCall} {call : RunnerCall} :
    fedIn (calls ++ [call]) = fedIn calls ++ call.fed := by
  rw [fedIn_append]
  exact congrArg (fedIn calls ++ ·) (List.append_nil _)

/-- The publications, with one more call. -/
@[simp] theorem publishedIn_snoc {calls : List RunnerCall} {call : RunnerCall} :
    publishedIn (calls ++ [call]) = publishedIn calls + if call.published then 1 else 0 := by
  rw [publishedIn_append]
  exact congrArg (publishedIn calls + ·) (List.countP_singleton ..)

/-! ## The run of a request -/

/-- How far the work for a request has come. -/
inductive Stage where
  | fresh
  | created
  /-- `prefilled` tokens of the prompt are in the sequence, `reused` of them restored. -/
  | prefilling (reused prefilled : Nat)
  /-- The whole prompt and the sampled tokens are in the sequence. -/
  | computed (output : List TokenId)
  /-- The same without the last sampled token. -/
  | decoding (output : List TokenId)
  deriving DecidableEq

namespace Stage

/-- The tokens sampled so far. -/
def output : Stage → List TokenId
  | computed output | decoding output => output
  | _ => []

/-- The positions covered so far. -/
def covered (r : Request) : Stage → List TokenId
  | fresh | created => []
  | prefilling _ prefilled => r.promptTokenIds.take prefilled
  | computed output => r.promptTokenIds ++ output
  | decoding output => r.promptTokenIds ++ output.dropLast

end Stage

/-- `input` is the next chunk of the prompt. -/
structure IsChunk (r : Request) (prefilled : Nat) (input : List TokenId) : Prop where
  ne_nil : input ≠ []
  eq : input = (r.promptTokenIds.drop prefilled).take input.length
  le : prefilled + input.length ≤ r.promptTokenIds.length

/-- A call for `r` that returns takes its work to the next stage. -/
inductive Stage.Next (r : Request) : Stage → RunnerCall → Stage → Prop where
  | create : Next r .fresh (.create r.id (.ok ())) .created
  | reuse {n : Nat} : Next r .created (.reusePrefix r.id (.ok n)) (.prefilling n n)
  | chunk {n prefilled : Nat} {input : List TokenId} (next : IsChunk r prefilled input)
      (more : prefilled + input.length < r.promptTokenIds.length) :
      Next r (.prefilling n prefilled) (.append r.id input (.ok ()))
        (.prefilling n (prefilled + input.length))
  | last {n prefilled : Nat} {input : List TokenId} (next : IsChunk r prefilled input)
      (all : prefilled + input.length = r.promptTokenIds.length) :
      Next r (.prefilling n prefilled) (.append r.id input (.ok ())) (.computed [])
  | publish {output : List TokenId} {token : TokenId} :
      Next r (.computed output) (.cachePrefix r.id (.ok ())) (.decoding (output ++ [token]))
  | decode {output : List TokenId} {token : TokenId} :
      Next r (.decoding (output ++ [token])) (.append r.id [token] (.ok ()))
        (.computed (output ++ [token]))

/-- A call for `r` that may throw in a stage. -/
inductive Stage.Fails (r : Request) : Stage → RunnerCall → Prop where
  | create {e : Exn} : Fails r .fresh (.create r.id (.error e))
  | reuse {e : Exn} : Fails r .created (.reusePrefix r.id (.error e))
  | chunk {n prefilled : Nat} {input : List TokenId} {e : Exn} (next : IsChunk r prefilled input) :
      Fails r (.prefilling n prefilled) (.append r.id input (.error e))
  | publish {output : List TokenId} {e : Exn} :
      Fails r (.computed output) (.cachePrefix r.id (.error e))
  | decode {output : List TokenId} {token : TokenId} {e : Exn} :
      Fails r (.decoding (output ++ [token])) (.append r.id [token] (.error e))

/-- The calls for `r`, all of which returned, up to a stage. -/
inductive Story (r : Request) : List RunnerCall → Stage → Prop where
  | start : Story r [] .fresh
  | call {calls : List RunnerCall} {stage stage' : Stage} {call : RunnerCall}
      (before : Story r calls stage) (next : stage.Next r call stage') :
      Story r (calls ++ [call]) stage'

/-- The calls for `r`, of which only the last may have thrown. -/
inductive Tale (r : Request) : List RunnerCall → Stage → Prop where
  | going {calls : List RunnerCall} {stage : Stage} (story : Story r calls stage) :
      Tale r calls stage
  | failed {calls : List RunnerCall} {stage : Stage} {call : RunnerCall}
      (before : Story r calls stage) (fails : stage.Fails r call) : Tale r (calls ++ [call]) stage

variable {r : Request} {calls before after : List RunnerCall} {stage stage' : Stage}
  {call : RunnerCall}

/-! ### What the calls have done -/

/-- The last call of a story continues the story before it. -/
theorem Story.snoc_inv (h : Story r (calls ++ [call]) stage') :
    ∃ stage, Story r calls stage ∧ stage.Next r call stage' := by
  generalize hcalls : calls ++ [call] = all at h
  cases h with
  | start => simp at hcalls
  | call hbefore hnext =>
    obtain ⟨rfl, heq⟩ := List.append_inj' hcalls rfl
    obtain rfl := List.singleton_injective heq
    exact ⟨_, hbefore, hnext⟩

/-- Sampled tokens stay. -/
theorem Stage.Next.output (h : stage.Next r call stage') : stage.output <+: stage'.output := by
  cases h with
  | publish => exact List.prefix_append _ _
  | create => exact List.prefix_refl _
  | reuse => exact List.prefix_refl _
  | chunk => exact List.prefix_refl _
  | last => exact List.prefix_refl _
  | decode => exact List.prefix_refl _

/-- Up to any point the calls are a story. -/
theorem Story.front (h : Story r (before ++ after) stage) :
    ∃ stage', Story r before stage' ∧ stage'.output <+: stage.output := by
  induction after using List.reverseRecOn generalizing stage with
  | nil => exact ⟨stage, by simpa using h, List.prefix_refl _⟩
  | append_singleton after call ih =>
    rw [← List.append_assoc] at h
    obtain ⟨stage₁, h₁, hnext⟩ := h.snoc_inv
    obtain ⟨stage', h', houtput⟩ := ih h₁
    exact ⟨stage', h', houtput.trans hnext.output⟩

/-- Every call of a story is a step from one stage to another. -/
theorem Story.at_call (h : Story r (before ++ call :: after) stage) :
    ∃ stage', Story r before stage' ∧ stage'.output <+: stage.output ∧
      ∃ stage'', stage'.Next r call stage'' := by
  rw [← List.singleton_append, ← List.append_assoc] at h
  obtain ⟨stage₁, h₁, houtput⟩ := h.front
  obtain ⟨stage₂, h₂, hnext⟩ := h₁.snoc_inv
  exact ⟨stage₂, h₂, hnext.output.trans houtput, _, hnext⟩

/-- The calls up to one that follows, and what that call does. -/
theorem Tale.at_call (h : Tale r (before ++ call :: after) stage) :
    ∃ stage', Story r before stage' ∧ stage'.output <+: stage.output ∧
      ((∃ stage'', stage'.Next r call stage'') ∨ stage'.Fails r call) := by
  generalize hcalls : before ++ call :: after = all at h
  cases h with
  | going hstory =>
    obtain ⟨stage', h', houtput, hnext⟩ := (hcalls ▸ hstory).at_call
    exact ⟨stage', h', houtput, Or.inl hnext⟩
  | failed hstory hfails =>
    rcases List.eq_nil_or_concat after with rfl | ⟨rest, last, rfl⟩
    · obtain ⟨rfl, heq⟩ := List.append_inj' hcalls rfl
      obtain rfl := List.singleton_injective heq
      exact ⟨_, hstory, List.prefix_refl _, Or.inr hfails⟩
    · rw [List.concat_eq_append, ← List.cons_append, ← List.append_assoc] at hcalls
      obtain ⟨rfl, -⟩ := List.append_inj' hcalls rfl
      obtain ⟨stage', h', houtput, hnext⟩ := hstory.at_call
      exact ⟨stage', h', houtput, Or.inl hnext⟩

/-- The front of a tale is a tale with an earlier output. -/
theorem Tale.front (h : Tale r (before ++ after) stage) :
    ∃ stage', Tale r before stage' ∧ stage'.output <+: stage.output := by
  cases after with
  | nil => exact ⟨stage, by simpa using h, List.prefix_refl _⟩
  | cons call after =>
    obtain ⟨stage', h', houtput, -⟩ := h.at_call
    exact ⟨stage', .going h', houtput⟩

/-- Nothing is called for a request before `create`. -/
theorem Story.fresh (h : Story r calls .fresh) : calls = [] := by
  generalize hstage : Stage.fresh = stage at h
  cases h with
  | start => rfl
  | call _ hnext =>
    subst hstage
    cases hnext

/-- Before the prefix is restored nothing has been done. -/
theorem Story.nothing (h : Story r calls .created) : calls = [.create r.id (.ok ())] := by
  generalize hstage : Stage.created = stage at h
  cases h with
  | start => cases hstage
  | call hbefore hnext =>
    subst hstage
    cases hnext with
    | create =>
      rw [hbefore.fresh]
      rfl

/-- The restored prefix and the inputs that were appended cover the positions of
the stage, one after the other. -/
theorem Story.covered (h : Story r calls stage) :
    r.promptTokenIds.take (reusedIn calls) ++ fedIn calls = stage.covered r := by
  induction h with
  | start => simp [reusedIn, fedIn, Stage.covered]
  | @call calls stage stage' call hbefore hnext ih =>
    rw [reusedIn_snoc, fedIn_snoc]
    cases hnext with
    | create => simpa [RunnerCall.reused, RunnerCall.fed, Stage.covered] using ih
    | reuse =>
      rw [hbefore.nothing]
      simp [reusedIn, fedIn, RunnerCall.reused, RunnerCall.fed, Stage.covered]
    | @chunk n prefilled input hnext hmore =>
      show r.promptTokenIds.take (reusedIn calls + 0) ++ (fedIn calls ++ input) =
        r.promptTokenIds.take (prefilled + input.length)
      rw [Nat.add_zero, ← List.append_assoc, ih, List.take_add, ← hnext.eq]
      rfl
    | @last n prefilled input hnext hall =>
      show r.promptTokenIds.take (reusedIn calls + 0) ++ (fedIn calls ++ input) =
        r.promptTokenIds ++ []
      have hsplit := List.take_add (l := r.promptTokenIds) (i := prefilled) (j := input.length)
      rw [hall, List.take_length, ← hnext.eq] at hsplit
      rw [Nat.add_zero, ← List.append_assoc, ih, List.append_nil, hsplit]
      rfl
    | publish =>
      show r.promptTokenIds.take (reusedIn calls + 0) ++ (fedIn calls ++ []) = _
      rw [Nat.add_zero, List.append_nil, ih, Stage.covered, Stage.covered, List.dropLast_concat]
    | @decode output token =>
      show r.promptTokenIds.take (reusedIn calls + 0) ++ (fedIn calls ++ [token]) = _
      rw [Nat.add_zero, ← List.append_assoc, ih, Stage.covered, Stage.covered,
        List.dropLast_concat, List.append_assoc]

/-- Every sampled token was published for. -/
theorem Story.published (h : Story r calls stage) : publishedIn calls = stage.output.length := by
  induction h with
  | start => rfl
  | @call calls stage stage' call hbefore hnext ih =>
    rw [publishedIn_snoc, ih]
    cases hnext with
    | @publish output token =>
      show output.length + 1 = (output ++ [token]).length
      rw [List.length_append, List.length_singleton]
    | create => rfl
    | reuse => rfl
    | chunk => rfl
    | last => rfl
    | decode => rfl

/-- `reuse_prefix` is called at most once, after `create`. -/
theorem Story.reuses (h : Story r calls stage) :
    calls.countP RunnerCall.isReuse = if stage = .fresh ∨ stage = .created then 0 else 1 := by
  induction h with
  | start => rfl
  | @call calls stage stage' call hbefore hnext ih =>
    rw [List.countP_append, ih]
    cases hnext with
    | create => rfl
    | reuse => rfl
    | chunk => rfl
    | last => rfl
    | publish => rfl
    | decode => rfl

/-- The restored prefix is a part of the prompt once something is appended. -/
theorem Story.reused (h : Story r calls stage) :
    match stage with
    | .fresh | .created => reusedIn calls = 0
    | .prefilling n prefilled => reusedIn calls = n ∧ n ≤ prefilled
    | .computed _ | .decoding _ => reusedIn calls < r.promptTokenIds.length := by
  induction h with
  | start => rfl
  | @call calls stage stage' call hbefore hnext ih =>
    rw [reusedIn_snoc]
    cases hnext with
    | create => exact ih
    | reuse =>
      have hnone : reusedIn calls = 0 := ih
      rw [hnone, Nat.zero_add]
      exact ⟨rfl, Nat.le_refl _⟩
    | chunk => exact ⟨ih.1, ih.2.trans (Nat.le_add_right _ _)⟩
    | @last n prefilled input hnext hall =>
      have hpos := List.length_pos_iff.mpr hnext.ne_nil
      obtain ⟨hn, hle⟩ := ih
      show reusedIn calls + 0 < _
      omega
    | publish => exact ih
    | decode => exact ih

/-! ### With a last call that threw -/

/-- A call that failed fed, reused and published nothing. -/
theorem Stage.Fails.idle (h : stage.Fails r call) :
    call.fed = [] ∧ call.reused = 0 ∧ call.published = false := by
  cases h with
  | create => exact ⟨rfl, rfl, rfl⟩
  | reuse => exact ⟨rfl, rfl, rfl⟩
  | chunk => exact ⟨rfl, rfl, rfl⟩
  | publish => exact ⟨rfl, rfl, rfl⟩
  | decode => exact ⟨rfl, rfl, rfl⟩

/-- A call that threw changes nothing of what the calls have done. -/
theorem Tale.story (h : Tale r calls stage) : ∃ calls', Story r calls' stage ∧
    fedIn calls = fedIn calls' ∧ reusedIn calls = reusedIn calls' ∧
    publishedIn calls = publishedIn calls' := by
  cases h with
  | going story => exact ⟨calls, story, rfl, rfl, rfl⟩
  | @failed calls _ call story hfails =>
    obtain ⟨hfed, hreused, hpublished⟩ := hfails.idle
    refine ⟨calls, story, ?_, ?_, ?_⟩
    · rw [fedIn_snoc, hfed, List.append_nil]
    · rw [reusedIn_snoc, hreused, Nat.add_zero]
    · rw [publishedIn_snoc, hpublished]
      rfl

/-- The reused and the fed tokens together are what the stage covers. -/
theorem Tale.covered (h : Tale r calls stage) :
    r.promptTokenIds.take (reusedIn calls) ++ fedIn calls = stage.covered r := by
  obtain ⟨calls', hstory, hfed, hreused, -⟩ := h.story
  rw [hfed, hreused, hstory.covered]

theorem Tale.published (h : Tale r calls stage) : publishedIn calls = stage.output.length := by
  obtain ⟨calls', hstory, -, -, hpublished⟩ := h.story
  rw [hpublished, hstory.published]

/-- A prefix is reused at most once. -/
theorem Tale.reuses (h : Tale r calls stage) : calls.countP RunnerCall.isReuse ≤ 1 := by
  cases h with
  | going hstory =>
    rw [hstory.reuses]
    by_cases hstage : stage = .fresh ∨ stage = .created
    · rw [if_pos hstage]
      exact Nat.zero_le _
    · rw [if_neg hstage]
  | failed hstory hfails =>
    rw [List.countP_append, hstory.reuses]
    cases hfails with
    | create => exact Nat.zero_le _
    | reuse => exact Nat.le_refl _
    | chunk => exact Nat.le_refl _
    | publish => exact Nat.le_refl _
    | decode => exact Nat.le_refl _

end TinyInfer.MiniPrefix
