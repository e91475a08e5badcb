import TinyInfer.MiniPrefix.EngineRuns

/-!
# Scheduling is transparent to the generated text

`greedyDecode` is what a request should be told: the greedy decoding of a
function from histories to logits, from the prompt alone. A runner `Decodes` the
function when its sequences have histories that only the calls for their own id
change and `append` returns the logits of the extended history.

- `Leads`, `maxElement_eq_firstMax`: the scan of `std::max_element` finds the
  first index of the maximum;
- `greedyDecode_open`: sampled tokens are the start of the decoding;
- `decodingRunner`: the instance of `RunnerSpec`, whose worlds fix the histories;
- `schedule_transparent`: the result.
-/

namespace TinyInfer.MiniPrefix

open Lib Engine Throwing

/-! ## The first index of the maximum -/

/-- The comparison of finite logits is that of a weak order. -/
class LawfulLogit (L : Type) [Logit L] : Prop where
  irrefl : ∀ a : L, Logit.isFinite a = true → Logit.less a a = false
  trans : ∀ a b c : L, Logit.isFinite a = true → Logit.isFinite b = true →
    Logit.isFinite c = true → Logit.less a b = true → Logit.less b c = true →
    Logit.less a c = true
  split : ∀ a b c : L, Logit.isFinite a = true → Logit.isFinite b = true →
    Logit.isFinite c = true → Logit.less a c = true →
    Logit.less a b = true ∨ Logit.less b c = true

/-- The first index whose element no other one exceeds. -/
def firstMax {L : Type} [Logit L] (logits : List L) : Nat :=
  logits.findIdx fun v => logits.all fun u => !Logit.less v u

section FirstMax

variable {L : Type} [Logit L] {logits seen rest : List L} {index next : Nat} {largest value : L}

/-- `largest` is the first of the largest elements, at `index`. -/
structure Leads (logits : List L) (index : Nat) (largest : L) : Prop where
  here : logits[index]? = some largest
  max : ∀ u ∈ logits, Logit.less largest u = false
  first : ∀ j < index, ∀ u, logits[j]? = some u → Logit.less u largest = true

/-- The leading index is the first maximum. -/
theorem Leads.firstMax_eq (h : Leads logits index largest) : firstMax logits = index := by
  obtain ⟨hlt, hget⟩ := List.getElem?_eq_some_iff.mp h.here
  rw [firstMax, List.findIdx_eq hlt]
  constructor
  · rw [hget, List.all_eq_true]
    intro u hu
    rw [h.max u hu]
    rfl
  · intro j hj
    have hjlt : j < logits.length := hj.trans hlt
    rw [List.all_eq_false]
    refine ⟨largest, List.mem_of_getElem? h.here, ?_⟩
    rw [h.first j hj _ (List.getElem?_eq_getElem hjlt)]
    exact Bool.false_ne_true

variable [LawfulLogit L]

/-- A larger element takes the lead. -/
theorem Leads.overtake (h : Leads seen index largest)
    (hfinite : ∀ u ∈ seen ++ [value], Logit.isFinite u = true)
    (hless : Logit.less largest value = true) : Leads (seen ++ [value]) seen.length value := by
  have hlargest : Logit.isFinite largest = true :=
    hfinite _ (List.mem_append_left _ (List.mem_of_getElem? h.here))
  have hvalue : Logit.isFinite value = true := hfinite _ (by simp)
  refine ⟨by simp, fun u hu => ?_, fun j hj u hget => ?_⟩
  · rcases List.mem_append.mp hu with hu | hu
    · by_contra hne
      have hchain := LawfulLogit.trans largest value u hlargest hvalue
        (hfinite u (List.mem_append_left _ hu)) hless (Bool.eq_true_of_not_eq_false hne)
      rw [h.max u hu] at hchain
      cases hchain
    · rw [List.mem_singleton.mp hu]
      exact LawfulLogit.irrefl value hvalue
  · rw [List.getElem?_append_left hj] at hget
    have hu := List.mem_of_getElem? hget
    rcases LawfulLogit.split largest u value hlargest (hfinite u (List.mem_append_left _ hu))
      hvalue hless with hup | hup
    · rw [h.max u hu] at hup
      cases hup
    · exact hup

omit [LawfulLogit L] in
/-- Otherwise the lead stays. -/
theorem Leads.keep (h : Leads seen index largest)
    (hless : ¬ Logit.less largest value = true) : Leads (seen ++ [value]) index largest := by
  have hlt : index < seen.length := (List.getElem?_eq_some_iff.mp h.here).1
  refine ⟨?_, fun u hu => ?_, fun j hj u hget => ?_⟩
  · rw [List.getElem?_append_left hlt]
    exact h.here
  · rcases List.mem_append.mp hu with hu | hu
    · exact h.max u hu
    · rw [List.mem_singleton.mp hu]
      exact Bool.eq_false_iff.mpr hless
  · rw [List.getElem?_append_left (hj.trans hlt)] at hget
    exact h.first j hj u hget

/-- The scan: `seen` is behind, `rest` is ahead. -/
theorem Leads.go (h : Leads seen index largest)
    (hfinite : ∀ u ∈ seen ++ rest, Logit.isFinite u = true) (hnext : next = seen.length) :
    ∃ v, Leads (seen ++ rest) (maxElement.go largest index next rest) v := by
  induction rest generalizing seen index next largest with
  | nil => exact ⟨largest, by rw [List.append_nil]; exact h⟩
  | cons value rest ih =>
    have happend : seen ++ value :: rest = (seen ++ [value]) ++ rest := by simp
    rw [happend] at hfinite ⊢
    have hlength : next + 1 = (seen ++ [value]).length := by simp [hnext]
    rw [maxElement.go]
    by_cases hless : Logit.less largest value = true
    · rw [if_pos hless, hnext]
      exact ih (h.overtake (fun u hu => hfinite u (List.mem_append_left _ hu)) hless) hfinite
        (hnext ▸ hlength)
    · rw [if_neg hless]
      exact ih (h.keep hless) hfinite hlength

/-- Without NaN `max_element` is the first maximum. -/
theorem maxElement_eq_firstMax (hfinite : ∀ u ∈ logits, Logit.isFinite u = true) :
    maxElement logits = firstMax logits := by
  cases logits with
  | nil => rfl
  | cons first rest =>
    have hstart : Leads [first] 0 first := by
      refine ⟨rfl, fun u hu => ?_, fun j hj => (Nat.not_lt_zero j hj).elim⟩
      rw [List.mem_singleton.mp hu]
      exact LawfulLogit.irrefl first (hfinite first List.mem_cons_self)
    obtain ⟨v, hv⟩ : ∃ v, Leads ([first] ++ rest) (maxElement.go first 0 1 rest) v :=
      hstart.go hfinite rfl
    exact hv.firstMax_eq.symm

end FirstMax

/-! ## Greedy decoding -/

section Greedy

variable {L : Type} [Logit L]

/-- The greedy decoding of `f` after a history, of at most `n` tokens. -/
def greedyDecode (f : List TokenId → List L) (eos : Option TokenId) :
    List TokenId → Nat → List TokenId
  | _, 0 => []
  | history, n + 1 =>
    let token : TokenId := firstMax (f history)
    if eos = some token then [token]
    else token :: greedyDecode f eos (history ++ [token]) n

/-- What a request should be told. -/
def Request.decoding (f : List TokenId → List L) (r : Request) : List TokenId :=
  greedyDecode f r.generation.eosTokenId r.promptTokenIds r.generation.maxNewTokens

/-- The logits a runner that decodes `f` may return for a history. -/
def DecodedBy (f : List TokenId → List L) (tokens : List TokenId) (logits : List L) : Prop :=
  tokens ≠ [] ∧ logits = f tokens

variable [LawfulLogit L] {f : List TokenId → List L} {eos : Option TokenId}
  {prompt out : List TokenId} {token : TokenId} {n : Nat}

theorem DecodedBy.sampled (hfinite : ∀ tokens, tokens ≠ [] →
    ∀ v ∈ f tokens, Logit.isFinite v = true)
    {tokens : List TokenId} {logits : List L} (h : DecodedBy f tokens logits) :
    maxElement logits = firstMax (f tokens) := by
  obtain ⟨hne, rfl⟩ := h
  exact maxElement_eq_firstMax (hfinite tokens hne)

omit [LawfulLogit L] in
theorem Samples.tail {good : List TokenId → List L → Prop}
    (h : Samples good prompt (token :: out)) : Samples good (prompt ++ [token]) out := by
  intro i t hget
  obtain ⟨logits, hgood, heq⟩ := h (i + 1) t hget
  rw [List.take_succ_cons, ← List.singleton_append, ← List.append_assoc] at hgood
  exact ⟨logits, hgood, heq⟩

/-- Tokens sampled without an end are the start of the decoding. -/
theorem greedyDecode_open
    (hfinite : ∀ tokens, tokens ≠ [] → ∀ v ∈ f tokens, Logit.isFinite v = true)
    (hsamples : Samples (DecodedBy f) prompt out) (heos : ∀ token ∈ out, eos ≠ some token) :
    greedyDecode f eos prompt (out.length + n) = out ++ greedyDecode f eos (prompt ++ out) n := by
  induction out generalizing prompt with
  | nil => simp
  | cons token out ih =>
    obtain ⟨logits, hgood, htoken⟩ := hsamples 0 token rfl
    rw [List.take_zero, List.append_nil] at hgood
    rw [hgood.sampled hfinite] at htoken
    have hne : eos ≠ some token := heos token List.mem_cons_self
    have htail := ih hsamples.tail fun t ht => heos t (List.mem_cons_of_mem _ ht)
    rw [List.append_assoc, List.singleton_append] at htail
    have hlength : (token :: out).length + n = (out.length + n) + 1 := by
      rw [List.length_cons]
      omega
    rw [hlength, greedyDecode, ← htoken, if_neg hne, htail, List.cons_append]

end Greedy

/-! ## Runners that decode a function -/

section Decoding

variable {σ L : Type} [Logit L]

/-- A call for `id` leaves the other sequences alone. -/
def Keeps (history : σ → RequestId → List TokenId) (id : RequestId) (s s' : σ) : Prop :=
  ∀ other, other ≠ id → history s' other = history s other

/-- The sequences of the runner have histories, and `append` returns the value of
`f` at the history it leaves. Every call may throw; a throwing one may spoil the
history of its own sequence, a throwing `release` keeps it. -/
structure ModelRunner.Decodes (model : ModelRunner σ L)
    (history : σ → RequestId → List TokenId) (f : List TokenId → List L) : Prop where
  config : ∀ s, model.config.wp (fun _ s' => history s' = history s)
    (fun e s' => e.isStd = true ∧ history s' = history s) s
  reserveRequest : ∀ id n s, (model.reserveRequest id n).wp (fun _ s' => history s' = history s)
    (fun e s' => e.isStd = true ∧ Keeps history id s s') s
  releaseReservation : ∀ id s, history (model.releaseReservation id s) = history s
  create : ∀ id s, (model.create id).wp (fun _ s' => history s' id = [] ∧ Keeps history id s s')
    (fun e s' => e.isStd = true ∧ Keeps history id s s') s
  reusePrefix : ∀ id prompt s, history s id = [] → prompt ≠ [] →
    (model.reusePrefix id prompt).wp
      (fun n s' => n < prompt.length ∧ history s' id = prompt.take n ∧ Keeps history id s s')
      (fun e s' => e.isStd = true ∧ Keeps history id s s') s
  kvBlockTokens : ∀ id s, model.kvBlockTokens.wp (fun _ s' => history s' = history s)
    (fun e s' => e.isStd = true ∧ Keeps history id s s') s
  append : ∀ id tokens s, tokens ≠ [] →
    (model.append id tokens).wp
      (fun logits s' => history s' id = history s id ++ tokens ∧
        logits = f (history s id ++ tokens) ∧ Keeps history id s s')
      (fun e s' => e.isStd = true ∧ Keeps history id s s') s
  cachePrefix : ∀ id s, (model.cachePrefix id).wp (fun _ s' => history s' = history s)
    (fun e s' => e.isStd = true ∧ Keeps history id s s') s
  release : ∀ id s, (model.release id).wp (fun _ s' => Keeps history id s s')
    (fun e s' => e.isStd = true ∧ history s' = history s) s

/-- The sequences of the world have the histories it says. -/
def Records (history : σ → RequestId → List TokenId) (w : World) (s : σ) : Prop :=
  ∀ id r tokens, w id = some ⟨r, some tokens⟩ → history s id = tokens

variable {history : σ → RequestId → List TokenId} {w : World} {r : Request} {id : RequestId}
  {s s' : σ} {tokens : List TokenId}

theorem Records.congr (h : Records history w s) (hsame : history s' = history s) :
    Records history w s' := by
  rw [Records, hsame]
  exact h

theorem Records.empty : Records history World.empty s := fun _ _ _ hnone => by cases hnone

/-- Dropping a sequence keeps the others' records. -/
theorem Records.drop (h : Records history w s) (hkeeps : Keeps history id s s') :
    Records history (w.drop id) s' := by
  intro other r tokens hslot
  have hne : other ≠ id := by
    rintro rfl
    rw [World.drop_self] at hslot
    cases hslot
  rw [World.drop, Function.update_of_ne hne] at hslot
  rw [hkeeps other hne]
  exact h other r tokens hslot

/-- A sequence with its new history is recorded. -/
theorem Records.put (h : Records history w s) (hkeeps : Keeps history r.id s s')
    (hown : history s' r.id = tokens) : Records history (w.put r (some tokens)) s' := by
  intro other r' tokens' hslot
  by_cases hid : other = r.id
  · subst hid
    rw [World.put_self] at hslot
    cases hslot
    exact hown
  · rw [World.put, Function.update_of_ne hid] at hslot
    rw [hkeeps other hid]
    exact h other r' tokens' hslot

theorem Records.putNone (h : Records history w s) (hsame : history s' = history s) :
    Records history (w.put r none) s' := by
  intro other r' tokens' hslot
  by_cases hid : other = r.id
  · subst hid
    rw [World.put_self] at hslot
    cases hslot
  · rw [World.put, Function.update_of_ne hid] at hslot
    rw [hsame]
    exact h other r' tokens' hslot

theorem Keeps.of_eq (hsame : history s' = history s) : Keeps history id s s' := fun other _ => by
  rw [hsame]

/-- A runner that decodes `f`, its worlds being the histories of its sequences. -/
def decodingRunner {model : ModelRunner σ L} {f : List TokenId → List L}
    (h : model.Decodes history f) (context : Int) : RunnerSpec model context where
  holds := Records history
  thrown id w e s := e.isStd = true ∧ Records history (w.drop id) s
  vocabulary _ := True
  good := DecodedBy f
  failure _ _ := True
  lawful := False
  config hw := (h.config _).mono (fun _ _ hs => ⟨hw.congr hs, trivial⟩)
    fun _ _ he => ⟨hw.congr he.2, fun _ => ⟨he.1, hw.drop (Keeps.of_eq he.2)⟩⟩
  reserve hw _ _ := (h.reserveRequest _ _ _).mono
    (fun _ _ hs => ⟨fun _ => hw.putNone hs, fun _ => hw.congr hs, fun _ => trivial,
      fun _ _ => trivial⟩)
    fun _ _ he => ⟨he.1, hw.drop he.2⟩
  create hw _ := (h.create _ _).mono (fun _ _ hs => hw.put hs.2 hs.1)
    fun _ _ he => ⟨he.1, hw.drop he.2⟩
  reuse hw hslot hvalid := (h.reusePrefix _ _ _ (hw _ _ _ hslot) hvalid.prompt).mono
    (fun _ _ hs => ⟨hw.put hs.2.2 hs.2.1, False.elim⟩) fun _ _ he => ⟨he.1, hw.drop he.2⟩
  blockTokens hw _ := (h.kvBlockTokens _ _).mono (fun _ _ hs => ⟨hw.congr hs, False.elim⟩)
    fun _ _ he => ⟨he.1, hw.drop he.2⟩
  append hw hslot hne _ _ _ _ := by
    refine (h.append _ _ _ hne).mono (fun logits s' hs => ?_) fun _ _ he => ⟨he.1, hw.drop he.2⟩
    rw [hw _ _ _ hslot] at hs
    exact ⟨hw.put hs.2.2 hs.1, ⟨List.append_ne_nil_of_right_ne_nil _ hne, hs.2.1⟩, False.elim⟩
  publish hw _ := (h.cachePrefix _ _).mono (fun _ _ hs => hw.congr hs)
    fun _ _ he => ⟨he.1, hw.drop he.2⟩
  release hw _ := (h.release _ _).mono
    (fun _ _ hs => (hw.drop hs).congr (h.releaseReservation _ _))
    fun _ _ he => ⟨hw.congr he.2, he.1, hw.drop (Keeps.of_eq he.2)⟩
  releaseReservation hw _ := hw.drop (Keeps.of_eq (h.releaseReservation _ _))
  cleared _ := Records.empty
  refuse _ hw := ⟨rfl, hw.drop fun _ _ => rfl⟩
  std he := he.1
  thrown_put he := by
    rw [World.drop_put] at he
    exact he
  thrown_release he _ := by
    refine (h.release _ _).mono (fun _ s' hs => ?_) fun e s' hs => ⟨hs.1, he.2.congr hs.2⟩
    have hdropped := he.2.drop hs
    rw [World.drop_drop] at hdropped
    exact hdropped.congr (h.releaseReservation _ _)
  thrown_drop he _ := he.2.congr (h.releaseReservation _ _)
  thrown_failure _ := trivial
  fatal _ := Records.empty

end Decoding

/-! ## The result -/

/-- Every accepted request is told its greedy decoding, or a part of it from the
start while it runs or when it is cut short. -/
structure EngineSystem.DecodesGreedily {σ L : Type} [Logit L] (f : List TokenId → List L)
    (s : EngineSystem σ) : Prop where
  sofar : ∀ r ∈ s.accepted, tokensOf r.id s.emitted <+: r.decoding f
  complete : ∀ r ∈ s.accepted, ∀ event ∈ s.emitted, event.requestId = r.id →
    event.finishReason = some .eos ∨ event.finishReason = some .length →
    tokensOf r.id s.emitted = r.decoding f ∧
      (event.finishReason = some .eos ↔
        ∃ token ∈ tokensOf r.id s.emitted, r.generation.eosTokenId = some token)

namespace RunnerSpec

variable {σ L : Type} [Logit L] [LawfulLogit L] {model : ModelRunner σ L} {context : Int}
  {history : σ → RequestId → List TokenId} {f : List TokenId → List L} {r : Request}
  {events : List GenerationEvent} {out : List TokenId}

/-- An open request was told the start of its decoding, and what follows decides
the rest. -/
theorem Open.decoding {hdecodes : model.Decodes history f}
    (hfinite : ∀ tokens, tokens ≠ [] → ∀ v ∈ f tokens, Logit.isFinite v = true)
    (h : (decodingRunner hdecodes context).Open r out) :
    r.decoding f = out ++ greedyDecode f r.generation.eosTokenId (r.promptTokenIds ++ out)
      (r.generation.maxNewTokens - out.length) := by
  have hshort := h.short
  rw [Request.decoding, ← greedyDecode_open hfinite h.samples h.noEos]
  congr 1
  omega

/-- The tokens of a request that is over are a part of its decoding; after `Eos`
and `Length` they are all of it. -/
theorem Ended.decoding {hdecodes : model.Decodes history f}
    (hfinite : ∀ tokens, tokens ≠ [] → ∀ v ∈ f tokens, Logit.isFinite v = true)
    (h : (decodingRunner hdecodes context).Ended r events) :
    events.filterMap GenerationEvent.tokenId <+: r.decoding f ∧
      ∀ event ∈ events, event.finishReason = some .eos ∨ event.finishReason = some .length →
        events.filterMap GenerationEvent.tokenId = r.decoding f ∧
          (event.finishReason = some .eos ↔
            ∃ token ∈ events.filterMap GenerationEvent.tokenId,
              r.generation.eosTokenId = some token) := by
  have hopenTokens : ∀ {out : List TokenId} {last : GenerationEvent},
      (out.map (tokenEvent r) ++ [last]).filterMap GenerationEvent.tokenId =
        out ++ last.tokenId.toList := by
    intro out last
    rw [List.filterMap_append, filterMap_tokenEvent]
    cases hlast : last.tokenId with
    | none => simp [hlast]
    | some token => simp [hlast]
  have hreason : ∀ {out : List TokenId} {last event : GenerationEvent},
      event ∈ out.map (tokenEvent r) ++ [last] →
      event.finishReason = some .eos ∨ event.finishReason = some .length → event = last :=
    fun he hterminal => hterminal.elim (eq_last_of_reason he) (eq_last_of_reason he)
  cases h with
  -- ended by the end-of-sequence token
  | @eos out logits h hgood heos' =>
    have hdecoding := h.decoding hfinite
    have hshort := h.short
    have hone : r.generation.maxNewTokens - out.length =
        (r.generation.maxNewTokens - out.length - 1) + 1 := by omega
    have hall : out ++ [(maxElement logits : Int)] = r.decoding f := by
      rw [hdecoding, hone, greedyDecode, ← hgood.sampled hfinite, if_pos heos']
    rw [hopenTokens]
    refine ⟨hall ▸ List.prefix_rfl, fun event he hterminal => ⟨hall, ?_⟩⟩
    rw [hreason he hterminal]
    exact ⟨fun _ => ⟨_, by simp, heos'⟩, fun _ => rfl⟩
  -- ended by the limit on new tokens
  | @length out logits h hgood heos' hlast' =>
    have hdecoding := h.decoding hfinite
    have hone : r.generation.maxNewTokens - out.length = 0 + 1 := by omega
    have hall : out ++ [(maxElement logits : Int)] = r.decoding f := by
      rw [hdecoding, hone, greedyDecode, ← hgood.sampled hfinite, if_neg heos', greedyDecode]
    rw [hopenTokens]
    refine ⟨hall ▸ List.prefix_rfl, fun event he hterminal => ⟨hall, ?_⟩⟩
    rw [hreason he hterminal]
    refine ⟨fun hf => (by cases hf), ?_⟩
    rintro ⟨token, htoken, heos⟩
    rcases List.mem_append.mp htoken with htoken | htoken
    · exact absurd heos (h.noEos token htoken)
    · rw [List.mem_singleton.mp htoken] at heos
      exact absurd heos heos'
  -- cancelled: a prefix of the decoding
  | @cancelled out h =>
    rw [hopenTokens, h.decoding hfinite]
    refine ⟨?_, fun event he hterminal => ?_⟩
    · simp
    · rw [hreason he hterminal] at hterminal
      simp at hterminal
  -- ended by an error: a prefix of the decoding
  | @error out what h hwhy =>
    rw [hopenTokens, h.decoding hfinite]
    refine ⟨?_, fun event he hterminal => ?_⟩
    · simp
    · rw [hreason he hterminal] at hterminal
      simp at hterminal

/-- Under the invariant every output decodes greedily. -/
theorem SystemInv.decodesGreedily {hdecodes : model.Decodes history f} {s : EngineSystem σ}
    (hfinite : ∀ tokens, tokens ≠ [] → ∀ v ∈ f tokens, Logit.isFinite v = true)
    (h : (decodingRunner hdecodes context).SystemInv s) : s.DecodesGreedily f := by
  constructor
  · intro r hr
    rcases h.cases hr with ⟨state, hs, rfl, out, hopen, htold⟩ | ⟨-, hended⟩
    · rw [tokensOf, EngineSystem.emitted, htold, filterMap_tokenEvent, hopen.decoding hfinite]
      exact List.prefix_append _ _
    · exact (hended.decoding hfinite).1
  · intro r hr event he hid hterminal
    have hin : event ∈ eventsOf r.id s.emitted := List.mem_filter.mpr ⟨he, decide_eq_true hid⟩
    rcases h.cases hr with ⟨state, hs, rfl, out, hopen, htold⟩ | ⟨-, hended⟩
    · rw [EngineSystem.emitted, htold] at hin
      rw [finishReason_tokenEvent hin] at hterminal
      simp at hterminal
    · exact (hended.decoding hfinite).2 event hin hterminal

end RunnerSpec

section Transparent

variable {σ τ L : Type} [Logit L] [LawfulLogit L] {model : ModelRunner σ L}
  {other : ModelRunner τ L} {history : σ → RequestId → List TokenId}
  {history' : τ → RequestId → List TokenId} {f : List TokenId → List L}

/-- Batching, budgets, chunks, reused prefixes and refusals of capacity do not
show in the text: it is the greedy decoding of the prompt, in any two runs of any
two engines. -/
theorem schedule_transparent
    (hfinite : ∀ tokens, tokens ≠ [] → ∀ v ∈ f tokens, Logit.isFinite v = true)
    (hmodel : model.Decodes history f) (hother : other.Decodes history' f)
    {s : EngineSystem σ} {t : EngineSystem τ}
    (hs : EngineSystem.Reachable model s) (ht : EngineSystem.Reachable other t) :
    s.DecodesGreedily f ∧
      ∀ r ∈ s.accepted, r ∈ t.accepted → ∀ event ∈ s.emitted, ∀ event' ∈ t.emitted,
        event.requestId = r.id → event'.requestId = r.id →
        event.finishReason = some .eos ∨ event.finishReason = some .length →
        event'.finishReason = some .eos ∨ event'.finishReason = some .length →
        tokensOf r.id s.emitted = tokensOf r.id t.emitted := by
  have hdecodes : s.DecodesGreedily f := by
    obtain ⟨runner, config, engine, ops, hconstruct, rfl⟩ := hs
    have hinitial : (decodingRunner hmodel config.context).SystemInv { engine } :=
      RunnerSpec.EngineInv.initial hconstruct rfl Records.empty
    exact (hinitial.run ops).decodesGreedily hfinite
  have hdecodes' : t.DecodesGreedily f := by
    obtain ⟨runner, config, engine, ops, hconstruct, rfl⟩ := ht
    have hinitial : (decodingRunner hother config.context).SystemInv { engine } :=
      RunnerSpec.EngineInv.initial hconstruct rfl Records.empty
    exact (hinitial.run ops).decodesGreedily hfinite
  refine ⟨hdecodes, fun r hr hr' event he event' he' hid hid' hterminal hterminal' => ?_⟩
  rw [(hdecodes.complete r hr event he hid hterminal).1,
    (hdecodes'.complete r hr' event' he' hid' hterminal').1]

end Transparent

instance : LawfulLogit Int where
  irrefl a _ := decide_eq_false (lt_irrefl a)
  trans a b c _ _ _ hab hbc :=
    decide_eq_true ((of_decide_eq_true hab).trans (of_decide_eq_true hbc))
  split a b c _ _ _ hac := by
    rcases lt_or_ge a b with hab | hab
    · exact Or.inl (decide_eq_true hab)
    · exact Or.inr (decide_eq_true (hab.trans_lt (of_decide_eq_true hac)))

/-- The successor of the last token is the most likely one. -/
def successorLogits (tokens : List TokenId) : List Int :=
  (List.replicate 4 0).set ((tokens.getLastD 0).toNat + 1) 1

/-- It keeps the histories themselves and reuses up to `reused` tokens. -/
def recallRunner (reused : Nat) : ModelRunner (RequestId → List TokenId) Int where
  config := pure { vocabulary := 4, context := 128 }
  contextLimit := pure 128
  reserveRequest _ _ := pure .ready
  releaseReservation _ history := history
  create id := modify fun history => Function.update history id []
  reusePrefix id prompt := do
    modify fun history => Function.update history id (prompt.take (min reused (prompt.length - 1)))
    pure (min reused (prompt.length - 1))
  cachePrefix _ := pure ()
  append id tokens := do
    let history ← Throwing.get
    modify fun history => Function.update history id (history id ++ tokens)
    pure (successorLogits (history id ++ tokens))
  release _ := pure ()
  clear := pure ()
  kvBlockTokens := pure 16

/-- The example runner decodes by the successor logits. -/
theorem recallRunner_decodes (reused : Nat) :
    (recallRunner reused).Decodes (fun s => s) successorLogits where
  config _ := rfl
  reserveRequest _ _ _ := rfl
  releaseReservation _ _ := rfl
  create id s := ⟨Function.update_self .., fun _ hne => Function.update_of_ne hne _ _⟩
  reusePrefix id prompt s _ hne := by
    have hpos := List.length_pos_iff.mpr hne
    refine ⟨?_, Function.update_self .., fun _ hne => Function.update_of_ne hne _ _⟩
    have hmin := Nat.min_le_right reused (prompt.length - 1)
    omega
  kvBlockTokens _ _ := rfl
  append id tokens s _ :=
    ⟨Function.update_self .., rfl, fun _ hne => Function.update_of_ne hne _ _⟩
  cachePrefix _ _ := rfl
  release _ _ := fun _ _ => rfl

/-- An engine that decodes one token of one request per step. -/
def narrowEngine : Engine (RequestId → List TokenId) where
  runner := fun _ => []
  config := { maxBatchSize := 1, tokenBudget := 1, prefillChunk := 1, context := 128 }
  scheduler := ⟨1, 1, 1, by decide⟩

def wideEngine : Engine (RequestId → List TokenId) where
  runner := fun _ => []
  config := { context := 128 }
  scheduler := testEngine.scheduler

/-- A token at a time without reuse, or beside another request with a reused
prefix: the text is the same. -/
theorem schedule_transparent_narrow_wide :
    tokensOf "story" (EngineSystem.run (recallRunner 0) { engine := narrowEngine }
      [.submit ⟨"story", [0, 0, 0], { maxNewTokens := 2 }⟩, .step, .step, .step, .step]).emitted =
    tokensOf "story" (EngineSystem.run (recallRunner 2) { engine := wideEngine }
      [.submit ⟨"other", [1], {}⟩, .submit ⟨"story", [0, 0, 0], { maxNewTokens := 2 }⟩, .step,
        .step]).emitted :=
  (schedule_transparent (fun _ _ _ _ => rfl) (recallRunner_decodes 0) (recallRunner_decodes 2)
    ⟨fun _ => [], narrowEngine.config, narrowEngine, _, rfl, rfl⟩
    ⟨fun _ => [], wideEngine.config, wideEngine, _, rfl, rfl⟩).2
    ⟨"story", [0, 0, 0], { maxNewTokens := 2 }⟩ (by decide +kernel) (by decide +kernel)
    ⟨"story", some 2, some .length, ""⟩ (by decide +kernel)
    ⟨"story", some 2, some .length, ""⟩ (by decide +kernel)
    rfl rfl (Or.inr rfl) (Or.inr rfl)

end TinyInfer.MiniPrefix
