import TinyInfer.MiniPrefix.KvRunner
import TinyInfer.MiniPrefix.KvReservations
import TinyInfer.MiniPrefix.KvAccounting
import TinyInfer.MiniPrefix.EngineRuns

/-!
# The engine over the KV manager

An engine whose runner delegates to a `KVManager`, with a model computation that
never fails, never sees a call of the manager throw. `KvHolds` ties the worlds of
`RunnerSpec` to the manager: the reservations are those of the active requests,
each of its worst case, and the sequences are the resident ones with the
histories the engine fed them. `kvRunner` is the instance with `thrown` empty,
and `engine_kv_safe` the result.

The worst case of a request is its prompt and all its tokens but the last, which
is sampled and never appended.
-/

namespace TinyInfer.MiniPrefix

open Lib Engine Throwing KVManager

/-- The pages `step` reserves for a request. -/
def worstPages (blockTokens : Nat) (r : Request) : Nat :=
  pagesFor blockTokens (r.promptTokenIds.length + r.generation.maxNewTokens - 1)

/-- A model computation that never fails, over tokens of the vocabulary. -/
def KvBackend.NeverFails {μ L : Type} [Logit L] (backend : KvBackend μ L) : Prop :=
  ∀ kv a memory, ∃ logits memory', backend.forward kv a memory = (.ok logits, memory') ∧
    logits.all Logit.isFinite = true ∧ (logits.length : Int) = backend.config.vocabulary

/-! ## Arithmetic of a request -/

theorem reservedPages_eq {blockTokens tokens : Nat} (hbt : 0 < blockTokens) (ht : 0 < tokens) :
    1 + (tokens - 1) / blockTokens = pagesFor blockTokens tokens := by
  have hdm := Nat.div_add_mod (tokens - 1) blockTokens
  have hlt := Nat.mod_lt (tokens - 1) hbt
  rw [pagesFor_of_lt (k := (tokens - 1) / blockTokens) (by omega) (by rw [Nat.mul_add]; omega)]
  omega

theorem maxElement_lt {L : Type} [Logit L] {logits : List L} (hne : logits ≠ []) :
    maxElement logits < logits.length := by
  have hgo : ∀ (rest : List L) (largest : L) (index next : Nat), index < next →
      maxElement.go largest index next rest < next + rest.length := by
    intro rest
    induction rest with
    | nil => exact fun _ _ _ h => h
    | cons value rest ih =>
      intro largest index next h
      rw [maxElement.go, List.length_cons]
      split
      · have := ih value next (next + 1) (Nat.lt_succ_self _)
        omega
      · have := ih largest index (next + 1) (Nat.lt_succ_of_lt h)
        omega
  cases logits with
  | nil => exact absurd rfl hne
  | cons first rest =>
    have := hgo rest first 0 1 Nat.one_pos
    rw [maxElement, List.length_cons]
    omega

/-! ## The worlds of the manager -/

section Worlds

variable {μ : Type} {cache : KvCacheConfig} {vocabulary context : Int} {w : World}
  {s s' : KvRunner μ} {r : Request} {history : Option (List TokenId)}

/-- The manager holds what the world says, and none of its calls has thrown. -/
structure KvHolds (μ : Type) (cache : KvCacheConfig) (vocabulary context : Int) (w : World)
    (s : KvRunner μ) : Prop where
  ledger : KvOk (fun _ => ()) (fun _ _ => ()) s.kv none
  config : s.kv.config = cache
  vocabulary : (s.kv.vocabulary : Int) = vocabulary
  context : context ≤ s.kv.context
  reservations : ∀ id, s.kv.reservations.find? id =
    (w id).map fun slot => worstPages cache.blockTokens slot.request
  sequences : ∀ id, (s.kv.sequences.find? id).map (fun state => state.sequence.tokens) =
    (w id).bind Slot.history
  faults : s.faults = []

/-- The slot of one request changes, or is made. -/
theorem KvHolds.put (h : KvHolds μ cache vocabulary context w s)
    (hledger : KvOk (fun _ => ()) (fun _ _ => ()) s'.kv none) (hconfig : s'.kv.config = s.kv.config)
    (hvocabulary : s'.kv.vocabulary = s.kv.vocabulary) (hcontext : s'.kv.context = s.kv.context)
    (hres : ∀ id, s'.kv.reservations.find? id =
      if id = r.id then some (worstPages cache.blockTokens r) else s.kv.reservations.find? id)
    (hseq : ∀ id, (s'.kv.sequences.find? id).map (fun state => state.sequence.tokens) =
      if id = r.id then history
      else (s.kv.sequences.find? id).map fun state => state.sequence.tokens)
    (hfaults : s'.faults = s.faults) :
    KvHolds μ cache vocabulary context (w.put r history) s' where
  ledger := hledger
  config := hconfig.trans h.config
  vocabulary := by rw [hvocabulary, h.vocabulary]
  context := by rw [hcontext]; exact h.context
  reservations id := by
    rw [hres, World.put, Function.update_apply]
    split
    · rfl
    · exact h.reservations id
  sequences id := by
    rw [hseq, World.put, Function.update_apply]
    split
    · rfl
    · exact h.sequences id
  faults := hfaults.trans h.faults

/-- The slot of one request goes. -/
theorem KvHolds.drop {id : RequestId} (h : KvHolds μ cache vocabulary context w s)
    (hledger : KvOk (fun _ => ()) (fun _ _ => ()) s'.kv none) (hconfig : s'.kv.config = s.kv.config)
    (hvocabulary : s'.kv.vocabulary = s.kv.vocabulary) (hcontext : s'.kv.context = s.kv.context)
    (hres : ∀ other, s'.kv.reservations.find? other =
      if other = id then none else s.kv.reservations.find? other)
    (hseq : ∀ other, s'.kv.sequences.find? other =
      if other = id then none else s.kv.sequences.find? other)
    (hfaults : s'.faults = s.faults) :
    KvHolds μ cache vocabulary context (w.drop id) s' where
  ledger := hledger
  config := hconfig.trans h.config
  vocabulary := by rw [hvocabulary, h.vocabulary]
  context := by rw [hcontext]; exact h.context
  reservations other := by
    rw [hres, World.drop, Function.update_apply]
    split
    · rfl
    · exact h.reservations other
  sequences other := by
    rw [hseq, World.drop, Function.update_apply]
    split
    · rfl
    · exact h.sequences other
  faults := hfaults.trans h.faults

theorem KvHolds.reserved (h : KvHolds μ cache vocabulary context w s)
    (hslot : w r.id = some ⟨r, history⟩) :
    s.kv.reservations.find? r.id = some (worstPages cache.blockTokens r) := by
  rw [h.reservations, hslot]
  rfl

theorem KvHolds.sequence {tokens : List TokenId} (h : KvHolds μ cache vocabulary context w s)
    (hslot : w r.id = some ⟨r, some tokens⟩) :
    ∃ state, s.kv.sequences.find? r.id = some state ∧ state.sequence.tokens = tokens := by
  have hseq := h.sequences r.id
  rw [hslot] at hseq
  exact Option.map_eq_some_iff.mp hseq

theorem KvHolds.noSequence (h : KvHolds μ cache vocabulary context w s) (id : RequestId)
    (hslot : (w id).bind Slot.history = none) : s.kv.sequences.find? id = none := by
  have hseq := h.sequences id
  rw [hslot] at hseq
  exact Option.map_eq_none_iff.mp hseq

/-- An empty history is an empty sequence. -/
theorem KvHolds.emptySequence (h : KvHolds μ cache vocabulary context w s)
    (hslot : w r.id = some ⟨r, some []⟩) : s.kv.sequences.find? r.id = some {} := by
  obtain ⟨state, hs, htokens⟩ := h.sequence hslot
  obtain ⟨flat, pos, hinv⟩ := h.ledger
  have hlength := (hinv.sequence r.id state hs).length
  rw [htokens, List.length_nil] at hlength
  obtain ⟨happending, hblocks⟩ := hinv.idle r.id state hs fun a ha => by cases ha
  rw [← hlength, pagesFor_zero, List.length_eq_zero_iff] at hblocks
  obtain ⟨sequence, appending⟩ := state
  simp only at happending hblocks htokens hlength
  rw [hs, happending, PagedSequence.eq_empty hlength.symm hblocks htokens]

end Worlds

/-! ## The calls of the engine -/

section Calls

variable {μ L : Type} {backend : KvBackend μ L} {cache : KvCacheConfig} {context : Int}
  {w : World} {s : KvRunner μ} {r : Request}

/-- The tokens of the vocabulary, as `submit` checks them. -/
def inVocabulary (backend : KvBackend μ L) (v : Int) : Prop := v = backend.config.vocabulary

/-- The one error a request can end with. -/
def exceedsPool (cache : KvCacheConfig) (r : Request) (what : String) : Prop :=
  what = noCapacity ∧ cache.maxBlocks < worstPages cache.blockTokens r

/-- A granted reservation admits the request, without a sequence yet. -/
theorem KvHolds.reserveRequest
    (h : KvHolds μ cache backend.config.vocabulary context w s) (hnone : w r.id = none)
    (hvalid : ValidRequest context (inVocabulary backend) r) :
    ((KvRunner.model backend).reserveRequest r.id
      (r.promptTokenIds.length + r.generation.maxNewTokens - 1)).wp
      (fun a s' =>
        (a = .ready → KvHolds μ cache backend.config.vocabulary context (w.put r none) s') ∧
        (a ≠ .ready → KvHolds μ cache backend.config.vocabulary context w s') ∧
        (a = .impossible → exceedsPool cache r noCapacity) ∧
        (a = .wait → w = World.empty → exceedsPool cache r noProgress))
      (fun _ _ => False) s := by
  have hprompt := List.length_pos_iff.mpr hvalid.prompt
  have hpositive := hvalid.positive
  have hcontext := hvalid.context.trans h.context
  have hnoseq := h.noSequence r.id (by rw [hnone]; rfl)
  have hnores : s.kv.reservations.find? r.id = none := by rw [h.reservations, hnone]; rfl
  have hidle : s.kv.requireIdle = .ok () := by
    obtain ⟨flat, pos, hinv⟩ := h.ledger
    exact (hinv.requireIdle.resolve_right fun hbusy => by simp at hbusy).1
  have hledger : KvOk (fun _ => ()) (fun _ _ => ()) (s.kv.reserveRequest r.id
      (r.promptTokenIds.length + r.generation.maxNewTokens - 1)).2 none := by
    obtain ⟨flat, pos, hinv⟩ := h.ledger
    exact (hinv.reserveRequest r.id _).ok
  have hfree : ¬ (s.kv.contains r.id = true ∨ s.kv.reservations.contains r.id = true) := by
    rw [KVManager.contains, OrdMap.contains, OrdMap.contains, hnoseq, hnores]
    simp
  have hfits : ¬ (r.promptTokenIds.length + r.generation.maxNewTokens - 1 = 0 ∨
      r.promptTokenIds.length + r.generation.maxNewTokens - 1 > s.kv.context) := by omega
  have hpages : 1 + (r.promptTokenIds.length + r.generation.maxNewTokens - 1 - 1) /
      cache.blockTokens = worstPages cache.blockTokens r := by
    rw [worstPages, ← h.config]
    exact reservedPages_eq s.kv.pool.valid.blockTokens_pos (by omega)
  rw [KVManager.reserveRequest, hidle] at hledger
  have hcall : (KvRunner.model backend).reserveRequest r.id
      (r.promptTokenIds.length + r.generation.maxNewTokens - 1) =
      KvRunner.call fun kv => kv.reserveRequest r.id
        (r.promptTokenIds.length + r.generation.maxNewTokens - 1) := rfl
  rw [hcall, wp, KvRunner.call, KVManager.reserveRequest, hidle]
  simp only [if_neg hfree, if_neg hfits, h.config, hpages] at hledger ⊢
  by_cases himpossible : worstPages cache.blockTokens r > cache.maxBlocks
  -- more than the whole pool
  · simp only [if_pos himpossible]
    exact ⟨fun ha => (by cases ha), fun _ => h, fun _ => ⟨rfl, himpossible⟩, fun ha => by cases ha⟩
  simp only [if_neg himpossible] at hledger ⊢
  by_cases hwait : s.kv.committedBlocks > cache.maxBlocks ∨
      worstPages cache.blockTokens r > cache.maxBlocks - s.kv.committedBlocks
  -- more than is left now
  · simp only [if_pos hwait]
    refine ⟨fun ha => (by cases ha), fun _ => h, fun ha => (by cases ha), fun _ hempty => ?_⟩
    -- nothing is committed when nobody is active
    have hzero : s.kv.committedBlocks = 0 := by
      rw [committedBlocks, OrdMap.sum_eq_zero fun id pages hp => ?_,
        OrdMap.sum_eq_zero fun id state hs => ?_]
      · rw [h.noSequence id (by rw [hempty]; rfl)] at hs
        cases hs
      · rw [h.reservations, hempty] at hp
        cases hp
    omega
  -- the reservation is made
  · simp only [if_neg hwait] at hledger ⊢
    rw [OrdMap.emplace_eq_insert _ hnores] at hledger ⊢
    refine ⟨fun _ => h.put hledger rfl rfl rfl (OrdMap.find?_insert _ _ · _) (fun id => ?_) rfl,
      fun ha => absurd rfl ha, fun ha => (by cases ha), fun ha => by cases ha⟩
    show (s.kv.sequences.find? id).map _ = _
    split
    · next hid =>
      rw [hid, hnoseq]
      rfl
    · rfl

/-- A reserved request gets its sequence. -/
theorem KvHolds.create (h : KvHolds μ cache backend.config.vocabulary context w s)
    (hslot : w r.id = some ⟨r, none⟩) :
    ((KvRunner.model backend).create r.id).wp
      (fun _ s' => KvHolds μ cache backend.config.vocabulary context (w.put r (some [])) s')
      (fun _ _ => False) s := by
  have hnoseq := h.noSequence r.id (by rw [hslot]; rfl)
  obtain ⟨flat, pos, hinv⟩ := h.ledger
  have hidle := (hinv.requireIdle.resolve_right fun hbusy => by simp at hbusy).1
  have hrun : s.kv.create r.id =
      (.ok (), { s.kv with sequences := s.kv.sequences.insert r.id {} }) := by
    rw [KVManager.create, hidle, KVManager.contains, OrdMap.contains, hnoseq,
      OrdMap.emplace_eq_insert _ hnoseq]
    rfl
  have hcreated := hinv.create r.id
  rw [hrun] at hcreated
  refine KvRunner.call_ok (f := fun kv => kv.create r.id) hrun
    (h.put hcreated.ok rfl rfl rfl (fun id => ?_) (fun id => ?_) rfl)
  · split
    · next hid =>
      rw [hid]
      exact h.reserved hslot
    · rfl
  · rw [OrdMap.find?_insert]
    split <;> rfl

/-- Into its empty sequence a request restores a proper front of its prompt. -/
theorem KvHolds.reusePrefix (h : KvHolds μ cache backend.config.vocabulary context w s)
    (hslot : w r.id = some ⟨r, some []⟩)
    (hvalid : ValidRequest context (inVocabulary backend) r) :
    ((KvRunner.model backend).reusePrefix r.id r.promptTokenIds).wp
      (fun n s' => KvHolds μ cache backend.config.vocabulary context
          (w.put r (some (r.promptTokenIds.take n))) s' ∧ (True → n < r.promptTokenIds.length))
      (fun _ _ => False) s := by
  have hprompt := List.length_pos_iff.mpr hvalid.prompt
  have hpositive := hvalid.positive
  have hcontext := hvalid.context.trans h.context
  obtain ⟨flat, pos, hinv⟩ := h.ledger
  have hready : ReuseReady s.kv none r.id r.promptTokenIds := by
    refine ⟨rfl, hvalid.prompt, by omega, ?_, h.emptySequence hslot,
      ⟨_, h.reserved hslot, ?_⟩⟩
    · rw [KVManager.validTokens, List.all_eq_true]
      intro token htoken
      obtain ⟨hnonneg, v, rfl, hlt⟩ := hvalid.tokens token htoken
      rw [← h.vocabulary] at hlt
      exact decide_eq_true ⟨hnonneg, hlt⟩
    · rw [h.config]
      exact pagesFor_mono (by omega)
  rcases hinv.reusePrefix r.id r.promptTokenIds with ⟨e, kv', flat', -, -, -, hno⟩ |
    ⟨count, found, prefixCache, pool, costs, flat', -, -, hcount, hrun, hinv', hcfg⟩
  · exact absurd hready hno.1
  refine KvRunner.call_ok (f := fun kv => kv.reusePrefix r.id r.promptTokenIds) hrun
    ⟨h.put hinv'.ok hcfg rfl rfl (fun id => ?_) (fun id => ?_) rfl, fun _ => by omega⟩
  · split
    · next hid =>
      rw [hid]
      exact h.reserved hslot
    · rfl
  · rw [OrdMap.find?_insert]
    split <;> rfl

theorem KvHolds.cachePrefix {history : List TokenId}
    (h : KvHolds μ cache backend.config.vocabulary context w s)
    (hslot : w r.id = some ⟨r, some history⟩) :
    ((KvRunner.model backend).cachePrefix r.id).wp
      (fun _ s' => KvHolds μ cache backend.config.vocabulary context w s')
      (fun _ _ => False) s := by
  obtain ⟨state, hs, -⟩ := h.sequence hslot
  obtain ⟨flat, pos, hinv⟩ := h.ledger
  rcases hinv.cachePrefix r.id with ⟨e, -, hno⟩ |
    ⟨prefixCache, pool, costs, flat', -, hrun, hinv', hcfg⟩
  · exact absurd ⟨rfl, by rw [OrdMap.contains, hs]; rfl⟩ hno
  refine KvRunner.call_ok (f := fun kv => kv.cachePrefix r.id) hrun ?_
  exact ⟨hinv'.ok, hcfg.trans h.config, h.vocabulary, h.context, h.reservations,
    h.sequences, h.faults⟩

/-- A release drops the request's sequence and its reservation. -/
theorem KvHolds.release {history : List TokenId}
    (h : KvHolds μ cache backend.config.vocabulary context w s)
    (hslot : w r.id = some ⟨r, some history⟩) :
    ((KvRunner.model backend).release r.id).wp
      (fun _ s' => KvHolds μ cache backend.config.vocabulary context (w.drop r.id)
        ((KvRunner.model backend).releaseReservation r.id s')) (fun _ _ => False) s := by
  obtain ⟨state, hs, -⟩ := h.sequence hslot
  obtain ⟨flat, pos, hinv⟩ := h.ledger
  rcases hinv.release r.id with ⟨e, -, hno⟩ | ⟨state', -, -, hrun, hinv'⟩
  · exact absurd ⟨rfl, by rw [OrdMap.contains, hs]; rfl⟩ hno
  rw [hrun] at hinv'
  refine KvRunner.call_ok (f := fun kv => kv.release r.id) hrun ?_
  refine h.drop (hinv'.releaseReservation r.id).ok ?_ rfl rfl (fun other => ?_)
    (fun other => OrdMap.find?_erase _ _ _) rfl
  · exact KvBlockPool.unrefAll_config _ _
  · show ((s.kv.reservations.erase r.id).erase r.id).find? other = _
    rw [OrdMap.find?_erase, OrdMap.find?_erase]
    split <;> rfl

theorem KvHolds.releaseReservation {id : RequestId}
    (h : KvHolds μ cache backend.config.vocabulary context w s)
    (hslot : ∀ slot, w id = some slot → slot.history = none) :
    KvHolds μ cache backend.config.vocabulary context (w.drop id)
      ((KvRunner.model backend).releaseReservation id s) := by
  have hnoseq : s.kv.sequences.find? id = none := by
    refine h.noSequence id ?_
    cases hw : w id with
    | none => rfl
    | some slot => exact hslot slot hw
  obtain ⟨flat, pos, hinv⟩ := h.ledger
  refine h.drop (hinv.releaseReservation id).ok rfl rfl rfl
    (fun other => OrdMap.find?_erase _ _ _) (fun other => ?_) rfl
  show s.kv.sequences.find? other = _
  split
  · next hid =>
    rw [hid]
    exact hnoseq
  · rfl

/-- With no active request the runner is cleared without throwing. -/
theorem KvHolds.clear (h : KvHolds μ cache backend.config.vocabulary context World.empty s) :
    KvHolds μ cache backend.config.vocabulary context World.empty
      ((KvRunner.model backend).clear s).2 := by
  obtain ⟨flat, pos, hinv⟩ := h.ledger
  have hclear : ((KvRunner.model backend).clear).wp
      (fun _ s' => KvHolds μ cache backend.config.vocabulary context World.empty s')
      (fun _ _ => False) s := by
    rcases hinv.clear with ⟨e, hrun⟩ | ⟨prefixCache, pool, flat', -, hrun, -, hinv', hcfg⟩
    · have hidle := (hinv.requireIdle.resolve_right fun hbusy => by simp at hbusy).1
      rw [KVManager.clear, hidle, hinv.anyAppending] at hrun
      cases hrun
    · exact KvRunner.call_ok (f := fun kv => kv.clear) hrun ⟨hinv'.ok, hcfg.trans h.config,
        h.vocabulary, h.context, fun _ => rfl, fun _ => rfl, h.faults⟩
  rcases hrun : (KvRunner.model backend).clear s with ⟨e | _, s'⟩
  · exact (hclear.error hrun).elim
  · exact hclear.ok hrun

variable [Logit L]

/-- The logits of a computation that did not fail. -/
def usableLogits (backend : KvBackend μ L) (logits : List L) : Prop :=
  logits.all Logit.isFinite = true ∧ (logits.length : Int) = backend.config.vocabulary

/-- The payload does not matter here. -/
theorem KvBackend.NeverFails.sound (hbackend : backend.NeverFails) :
    backend.Sound (fun _ => True) (fun _ => ()) (fun _ _ _ => ())
      fun _ => usableLogits backend where
  copyTail _ _ _ _ _ := ⟨fun _ _ => Or.inl rfl, fun _ _ => rfl⟩
  forward kv a copied memory flat pos state _ hinv _ _ := by
    obtain ⟨logits, memory', hrun, hfinite, hlength⟩ := hbackend kv a memory
    refine ⟨_, memory', hrun, hinv, fun logits' heq => ?_⟩
    cases heq
    exact ⟨fun _ _ _ _ _ => rfl, hfinite, hlength⟩

/-- Sampled tokens are in the vocabulary. -/
theorem sampled_inVocabulary (h : KvHolds μ cache backend.config.vocabulary context w s)
    {prompt out : List TokenId} (hsamples : Samples (fun _ => usableLogits backend) prompt out) :
    ∀ token ∈ out, 0 ≤ token ∧ token < backend.config.vocabulary := by
  intro token htoken
  obtain ⟨i, hi⟩ := List.mem_iff_getElem?.mp htoken
  obtain ⟨logits, ⟨-, hlength⟩, rfl⟩ := hsamples i token hi
  have hpos := s.kv.valid.2
  have hvocabulary := h.vocabulary
  have hne : logits ≠ [] := by
    rintro rfl
    rw [List.length_nil] at hlength
    omega
  have hlt := maxElement_lt hne
  have hlt' : (maxElement logits : Int) < backend.config.vocabulary := by omega
  exact ⟨Int.natCast_nonneg _, hlt'⟩

/-- An append inside the reservation never runs out of pages. -/
theorem KvHolds.append (hbackend : backend.NeverFails)
    (h : KvHolds μ cache backend.config.vocabulary context w s) {history x out : List TokenId}
    (hslot : w r.id = some ⟨r, some history⟩) (hne : x ≠ [])
    (hvalid : ValidRequest context (inVocabulary backend) r)
    (hsamples : Samples (fun _ => usableLogits backend) r.promptTokenIds out)
    (hshort : out.length < r.generation.maxNewTokens)
    ( hprefix : history ++ x <+: r.promptTokenIds ++ out) :
    ((KvRunner.model backend).append r.id x).wp
      (fun logits s' =>
        KvHolds μ cache backend.config.vocabulary context (w.put r (some (history ++ x))) s' ∧
          usableLogits backend logits)
      (fun _ _ => False) s := by
  -- the context, the length and the vocabulary, as `prepare_append` checks them
  obtain ⟨state, hs, htokens⟩ := h.sequence hslot
  obtain ⟨flat, pos, hinv⟩ := h.ledger
  have hcontext := hvalid.context.trans h.context
  have hlength := hprefix.length_le
  rw [List.length_append, List.length_append] at hlength
  have hused : state.sequence.used = history.length := by
    rw [← (hinv.sequence r.id state hs).length, htokens]
  have htokensValid : s.kv.validTokens x = true := by
    rw [KVManager.validTokens, List.all_eq_true]
    intro token htoken
    have hmem := hprefix.subset (List.mem_append_right history htoken)
    refine decide_eq_true ?_
    rw [h.vocabulary]
    rcases List.mem_append.mp hmem with hmem | hmem
    · obtain ⟨hnonneg, v, rfl, hlt⟩ := hvalid.tokens token hmem
      exact ⟨hnonneg, hlt⟩
    · exact sampled_inVocabulary h hsamples token hmem
  -- with its reservation the request finds a page
  obtain ⟨a, kv₁, kv', flat', fresh, hrun, hchecked, hevicted, hinv₁, hid, rfl, hprepared⟩ :=
    hinv.prepare_reserved hs (h.reserved hslot) hne htokensValid (by omega)
      (by
        rw [h.config]
        exact pagesFor_mono (by omega))
  rw [← hid] at hchecked
  have hinv' := hprepared.inv hinv₁ (hevicted.checked hchecked)
  have hseq₁ : kv₁.sequences = s.kv.sequences := by rw [hevicted.same]
  have hres₁ : kv₁.reservations = s.kv.reservations := by rw [hevicted.same]
  have hres' : kv'.reservations = s.kv.reservations := by rw [hprepared.shape, ← hres₁]
  let live : KVManager.State :=
    { sequence := { state.sequence with
        blocks := replaceTail a.copy state.sequence.blocks ++ fresh }, appending := true }
  have hseq' : kv'.sequences = s.kv.sequences.insert a.id live := by
    rw [hprepared.shape, ← hseq₁]
  have hcall : (KvRunner.model backend).append r.id a.tokens =
      KvRunner.call (fun kv => kv.prepareAppend r.id a.tokens) >>= KvRunner.transact backend := rfl
  -- `append` prepares, then runs the transaction
  rw [hcall, wp_bind]
  refine KvRunner.call_ok (f := fun kv => kv.prepareAppend r.id a.tokens) hrun ?_
  have hfind : kv'.sequences.find? a.id = some live := by rw [hseq', OrdMap.find?_insert_self]
  have hwp : (KvRunner.transact backend a).wp _ _ { s with kv := kv' } :=
    KvRunner.transact_wp hbackend.sound trivial hinv' hfind hprepared.copied
  refine hwp.mono (fun logits s' hs' => ?_) fun e s' hs' => ?_
  -- the transaction was committed: every other sequence is as before
  · obtain ⟨hgood, hkv, hfaults, hledger⟩ := hs'
    refine ⟨h.put hledger.ok ?_ ?_ ?_ (fun id => ?_) (fun id => ?_) hfaults, hgood⟩
    · rw [hkv]
      show (kv'.pool.unrefAll _).config = _
      rw [KvBlockPool.unrefAll_config]
      exact hprepared.config.trans hevicted.config
    · rw [hkv, committed, hprepared.shape, hevicted.same]
    · rw [hkv, committed, hprepared.shape, hevicted.same]
    · rw [hkv, committed, hres']
      split
      · next heq =>
        rw [heq]
        exact h.reserved hslot
      · rfl
    · rw [hkv, committed, hseq', OrdMap.insert_insert_self, OrdMap.find?_insert, hid]
      split
      · rw [← htokens]
        rfl
      · rfl
  -- the transaction cannot fail, as the backend returns
  · obtain ⟨⟨-, memory, memory', -, -, hfailed⟩, -⟩ := hs'
    obtain ⟨logits, memory'', hreturns, -⟩ := hbackend kv' a memory
    rw [hfailed] at hreturns
    cases hreturns

/-- The runner over the manager: no call throws. -/
def kvRunner (hbackend : backend.NeverFails) (cache : KvCacheConfig) (context : Int) :
    RunnerSpec (KvRunner.model backend) context where
  holds := KvHolds μ cache backend.config.vocabulary context
  thrown _ _ _ _ := False
  vocabulary := inVocabulary backend
  good _ := usableLogits backend
  failure := exceedsPool cache
  lawful := True
  config hw := ⟨hw, rfl⟩
  reserve hw hnone hvalid := hw.reserveRequest hnone hvalid
  create hw hslot := hw.create hslot
  reuse hw hslot hvalid := hw.reusePrefix hslot hvalid
  blockTokens {_ s} _ _ hw _ := ⟨hw, fun _ => s.kv.pool.valid.blockTokens_pos.ne'⟩
  append hw hslot hne hvalid hsamples hshort hprefix :=
    (hw.append hbackend hslot hne hvalid hsamples hshort hprefix).mono
      (fun _ _ h => ⟨h.1, h.2, fun _ => ⟨h.2.1, fun _ hv => h.2.2.trans hv.symm⟩⟩)
      fun _ _ h => h
  publish hw hslot := hw.cachePrefix hslot
  release hw hslot := (hw.release hslot).mono (fun _ _ h => h) fun _ _ h => h.elim
  releaseReservation hw hslot := hw.releaseReservation hslot
  cleared hw := hw.clear
  refuse hno _ := hno trivial
  std h := h.elim
  thrown_put h := h
  thrown_release h _ := h.elim
  thrown_drop h _ := h.elim
  thrown_failure h := h.elim
  fatal h := h.elim

end Calls

/-! ## Runs -/

/-- What a caller can count on between calls. -/
structure EngineSystem.KvSafe {μ : Type} (cache : KvCacheConfig) (s : EngineSystem (KvRunner μ)) :
    Prop where
  sequences : ∀ id, s.engine.runner.kv.contains id = true ↔
    ∃ state ∈ s.engine.active, state.request.id = id ∧ state.resident = true
  reservations : ∀ id, s.engine.runner.kv.reservations.contains id = true ↔
    ∃ state ∈ s.engine.active, state.request.id = id
  noThrow : s.engine.runner.faults = []
  running : s.engine.failed = false
  errors : ∀ event ∈ s.emitted, event.finishReason = some .error →
    event.errorMessage = noCapacity ∧ ∃ r ∈ s.accepted, r.id = event.requestId ∧
      cache.maxBlocks < worstPages cache.blockTokens r
  idle : s.engine.idle = true →
    (∀ id, s.engine.runner.kv.contains id = false) ∧
    (∀ id, s.engine.runner.kv.reservations.contains id = false) ∧
    ∃ nodes, s.engine.runner.kv.prefixCache.index.LeasingNodes nodes ∧
      ∀ b, s.engine.runner.kv.pool.references b =
        nodes.countP fun p => s.engine.runner.kv.prefixCache.index.block p = some b

section Runs

variable {μ L : Type} [Logit L] {backend : KvBackend μ L} {cache : KvCacheConfig} {context : Int}
  {hbackend : backend.NeverFails} {s : EngineSystem (KvRunner μ)}

/-- Without a throwing call no engine fails. -/
theorem kvRunner_running (h : (kvRunner hbackend cache context).SystemInv s)
    (hrunning : s.engine.failed = false) (op : EngineOp) :
    (s.step (KvRunner.model backend) op).2.engine.failed = false := by
  cases op with
  | submit request =>
    have hwp : (Engine.submit (KvRunner.model backend) request).wp _ _ s.engine :=
      RunnerSpec.submit_wp h
    rw [EngineSystem.step]
    rcases hrun : Engine.submit (KvRunner.model backend) request s.engine with ⟨e | _, engine⟩
    · exact (hwp.error hrun).2.2.1.trans hrunning
    · exact (hwp.ok hrun).2.2
  | step =>
    have hreset : (kvRunner hbackend cache context).Settled s.accepted s.polled
        { s.engine with stepStats := {} } :=
      ⟨⟨⟨h.queue, h.fresh, h.seen, h.context⟩, h.active, h.holds⟩, h.unfinished⟩
    have hwp : (iterate (KvRunner.model backend)).wp _ _ _ := RunnerSpec.iterate_wp hreset
    rw [EngineSystem.step, Engine.step, Engine.iteration,
      if_neg (by rw [hrunning]; exact Bool.false_ne_true)]
    rcases hrun : iterate (KvRunner.model backend)
        { engine := { s.engine with stepStats := {} } } with ⟨e | b, it⟩
    · obtain ⟨id, w, hthrown⟩ := (hwp.error hrun).broken.thrown
      exact hthrown.elim
    · exact (hwp.ok hrun).failed.trans hrunning
  | cancel id =>
    have hwp : (Engine.cancel (KvRunner.model backend) id).wp _ _ s.engine := RunnerSpec.cancel_wp h
    rw [EngineSystem.step]
    rcases hrun : Engine.cancel (KvRunner.model backend) id s.engine with ⟨e | _, engine⟩
    · exact (hwp.error hrun).failed.trans hrunning
    · exact (hwp.ok hrun).failed.trans hrunning
  | pollEvents => exact hrunning
  | shutdown =>
    have hwp : (Engine.shutdown (KvRunner.model backend)).wp _ _ s.engine :=
      RunnerSpec.shutdown_wp h
    rw [EngineSystem.step]
    rcases hrun : Engine.shutdown (KvRunner.model backend) s.engine with ⟨e | _, engine⟩
    · exact (hwp.error hrun).failed.trans hrunning
    · exact (hwp.ok hrun).failed.trans hrunning

/-- What the world of the active requests holds for an id. -/
theorem worldOf_isSome (h : (kvRunner hbackend cache context).SystemInv s) (id : RequestId) :
    (worldOf s.engine.active id).isSome = true ↔
      ∃ state ∈ s.engine.active, state.request.id = id := by
  constructor
  · intro hsome
    by_contra hnone
    rw [worldOf_eq_none fun state hs hid => hnone ⟨state, hs, hid⟩] at hsome
    cases hsome
  · rintro ⟨state, hs, rfl⟩
    obtain ⟨before, after, hactive⟩ := List.append_of_mem hs
    rw [RunnerSpec.Books.worldOf_slot h.toBooks hactive, State.slot,
      if_neg (by rw [h.unfinished state hs]; exact Bool.false_ne_true)]
    rfl

/-- The resident requests are those with a history. -/
theorem worldOf_resident (h : (kvRunner hbackend cache context).SystemInv s) (id : RequestId) :
    ((worldOf s.engine.active id).bind Slot.history).isSome = true ↔
      ∃ state ∈ s.engine.active, state.request.id = id ∧ state.resident = true := by
  have hslot : ∀ state ∈ s.engine.active,
      ((worldOf s.engine.active state.request.id).bind Slot.history).isSome = state.resident := by
    intro state hs
    obtain ⟨before, after, hactive⟩ := List.append_of_mem hs
    rw [RunnerSpec.Books.worldOf_slot h.toBooks hactive, State.slot,
      if_neg (by rw [h.unfinished state hs]; exact Bool.false_ne_true), Option.bind_some]
    cases state.resident <;> rfl
  constructor
  · intro hsome
    have hin : (worldOf s.engine.active id).isSome = true := by
      cases hw : worldOf s.engine.active id with
      | none =>
        rw [hw] at hsome
        cases hsome
      | some slot => rfl
    obtain ⟨state, hs, rfl⟩ := (worldOf_isSome h id).mp hin
    exact ⟨state, hs, rfl, (hslot state hs).symm.trans hsome⟩
  · rintro ⟨state, hs, rfl, hresident⟩
    exact (hslot state hs).trans hresident

/-- The engine's invariant gives the page bounds of every request. -/
theorem kvRunner_safe (h : (kvRunner hbackend cache context).SystemInv s)
    (hrunning : s.engine.failed = false) : s.KvSafe cache := by
  have hholds : KvHolds μ cache backend.config.vocabulary context (worldOf s.engine.active)
      s.engine.runner := h.holds
  have hsequences : ∀ id, s.engine.runner.kv.contains id = true ↔
      ∃ state ∈ s.engine.active, state.request.id = id ∧ state.resident = true := by
    intro id
    rw [← worldOf_resident h id, ← hholds.sequences id, Option.isSome_map]
    rfl
  have hreservations : ∀ id, s.engine.runner.kv.reservations.contains id = true ↔
      ∃ state ∈ s.engine.active, state.request.id = id := by
    intro id
    rw [← worldOf_isSome h id, OrdMap.contains, hholds.reservations id, Option.isSome_map]
  refine ⟨hsequences, hreservations, hholds.faults, hrunning, fun event he herror => ?_,
    fun hidle => ?_⟩
  · obtain ⟨r, hr, hid⟩ := h.queue.known event he
    have hin : event ∈ eventsOf r.id s.emitted := List.mem_filter.mpr ⟨he, decide_eq_true hid.symm⟩
    rcases h.cases hr with ⟨state, hs, rfl, out, hopen, htold⟩ | ⟨-, hended⟩
    · rw [EngineSystem.emitted, htold] at hin
      rw [RunnerSpec.finishReason_tokenEvent hin] at herror
      cases herror
    · obtain ⟨hwhat, hpages⟩ := hended.failure hin herror
      exact ⟨hwhat, r, hr, hid, hpages⟩
  · have hactive : s.engine.active = [] := by
      rw [Engine.idle, Bool.and_eq_true, List.isEmpty_iff] at hidle
      exact hidle.1
    have hnoSequence : ∀ id, s.engine.runner.kv.contains id = false := fun id =>
      Bool.eq_false_iff.mpr fun hcontains => by
        obtain ⟨state, hs, -⟩ := (hsequences id).mp hcontains
        rw [hactive] at hs
        cases hs
    refine ⟨hnoSequence, fun id => Bool.eq_false_iff.mpr fun hcontains => ?_, ?_⟩
    · obtain ⟨state, hs, -⟩ := (hreservations id).mp hcontains
      rw [hactive] at hs
      cases hs
    · obtain ⟨flat, pos, hinv⟩ := hholds.ledger
      obtain ⟨nodes, hnodes, hcount⟩ := hinv.cache.leasingNodes
      refine ⟨nodes, hnodes, fun b => ?_⟩
      have hleases : s.engine.runner.kv.sequenceLeases b = 0 :=
        OrdMap.sum_eq_zero fun id state hs => by
          have hcontains := hnoSequence id
          rw [KVManager.contains, OrdMap.contains, hs] at hcontains
          cases hcontains
      rw [hinv.accounts.refs b, outside, hleases, sourcePages, List.count_nil, hcount]
      omega

omit [Logit L] in
/-- The constructor checked the context, and made no call that changes the runner. -/
theorem construct_context {config : EngineConfig} {runner : KvRunner μ}
    {engine : Engine (KvRunner μ)}
    (hengine : Engine.construct (KvRunner.model backend) runner config = .ok engine) :
    engine.runner = runner ∧ engine.failed = false ∧ config.context ≤ runner.kv.context := by
  have hcheck : (checkContext (KvRunner.model backend) config).wp
      (fun _ runner' => runner' = runner ∧ config.context ≤ runner.kv.context)
      (fun _ _ => True) runner := by
    rw [checkContext, wp_bind, wp_throwIf]
    refine ⟨fun _ => trivial, fun _ => ?_⟩
    show (Throwing.throwIf (config.context > backend.config.context) _ >>= _).wp _ _ runner
    rw [wp_bind, wp_throwIf]
    refine ⟨fun _ => trivial, fun _ => ?_⟩
    show (Throwing.throwIf (config.context > (runner.kv.context : Int)) _).wp _ _ runner
    rw [wp_throwIf]
    exact ⟨fun _ => trivial, fun hle => ⟨rfl, Int.not_lt.mp hle⟩⟩
  rw [Engine.construct] at hengine
  rcases hscheduler : schedulerConfig config with e | scheduler
  · rw [hscheduler] at hengine
    cases hengine
  · rw [hscheduler] at hengine
    simp only at hengine
    rcases hrun : checkContext (KvRunner.model backend) config runner with ⟨e | _, runner'⟩
    · rw [hrun] at hengine
      cases hengine
    · obtain ⟨rfl, hle⟩ := hcheck.ok hrun
      rw [hrun] at hengine
      cases hengine
      exact ⟨rfl, rfl, hle⟩

end Runs

/-- **Engine and manager are capacity-safe and leak-free.** Over a manager of its
own and a computation that never fails, an engine reserves and creates exactly
what its active requests need, sees no call of the manager throw, never fails,
and refuses only what exceeds the whole pool; idle, it leaves pages to the prefix
cache alone. -/
theorem engine_kv_safe {μ L : Type} [Logit L] {backend : KvBackend μ L}
    (hbackend : backend.NeverFails) {cache : KvCacheConfig} {layers width limit vocabulary : Nat}
    {kv : KVManager} (hkv : KVManager.construct cache layers width limit vocabulary = .ok kv)
    (hvocabulary : (vocabulary : Int) = backend.config.vocabulary) {memory : μ}
    {config : EngineConfig} {engine : Engine (KvRunner μ)}
    (hengine : Engine.construct (KvRunner.model backend) { kv, memory } config = .ok engine)
    (ops : List EngineOp) :
    (EngineSystem.run (KvRunner.model backend) { engine } ops).KvSafe cache := by
  obtain ⟨hrunner, hrunning, hcontext⟩ := construct_context hengine
  have hledger := KvInv.construct hkv (fun _ => ()) (fun _ _ => ())
  have hconfig : kv.config = cache ∧ kv.vocabulary = vocabulary ∧
      (∀ id, kv.reservations.find? id = none) ∧ ∀ id, kv.sequences.find? id = none := by
    obtain ⟨pool, hvalid, hpool, rfl⟩ := construct_eq hkv
    exact ⟨(KvBlockPool.create_accounts hpool).1, rfl, fun _ => rfl, fun _ => rfl⟩
  obtain ⟨hcache, hvocabulary', hreservations, hsequences⟩ := hconfig
  have hholds : KvHolds μ cache backend.config.vocabulary config.context World.empty
      engine.runner := by
    rw [hrunner]
    exact ⟨hledger.ok, hcache, by rw [hvocabulary', hvocabulary], hcontext, hreservations,
      fun id => by rw [hsequences id]; rfl, rfl⟩
  have hinitial : (kvRunner hbackend cache config.context).SystemInv { engine } :=
    RunnerSpec.EngineInv.initial hengine rfl hholds
  -- along the run the engine stays running
  have hrun : ∀ (ops : List EngineOp) (s : EngineSystem (KvRunner μ)),
      (kvRunner hbackend cache config.context).SystemInv s → s.engine.failed = false →
      (EngineSystem.run (KvRunner.model backend) s ops).KvSafe cache := by
    intro ops
    induction ops with
    | nil => exact fun s h hf => kvRunner_safe h hf
    | cons op ops ih => exact fun s h hf => ih _ (h.call op).inv (kvRunner_running h hf op)
  exact hrun ops _ hinitial hrunning

/-- The most likely token is the number of tokens the computation is given. -/
def countingBackend : KvBackend Unit Int where
  config := { vocabulary := 4, context := 8 }
  copyTail _ memory := memory
  forward _ append memory := (.ok ((List.replicate 4 0).set append.tokens.length 1), memory)

theorem countingBackend_neverFails : countingBackend.NeverFails := fun _ append memory =>
  ⟨_, memory, rfl, List.all_eq_true.mpr fun _ _ => rfl, by rw [List.length_set]; rfl⟩

/-- Two requests on three pages of two tokens, and one that never fits. -/
theorem engine_kv_safe_two_requests : ∃ kv engine,
    KVManager.construct ⟨2, 3, 2⟩ 1 1 8 4 = .ok kv ∧
    Engine.construct (KvRunner.model countingBackend) ⟨kv, (), []⟩ { context := 8 } = .ok engine ∧
    (EngineSystem.run (KvRunner.model countingBackend) { engine }
      [.submit ⟨"a", [1, 2], { maxNewTokens := 2 }⟩, .submit ⟨"b", [1], { maxNewTokens := 7 }⟩,
        .step, .step, .step]).KvSafe ⟨2, 3, 2⟩ :=
  ⟨_, _, rfl, rfl, engine_kv_safe countingBackend_neverFails
    (rfl : KVManager.construct ⟨2, 3, 2⟩ 1 1 8 4 = .ok _) rfl
    (rfl : Engine.construct (KvRunner.model countingBackend) ⟨_, (), []⟩ { context := 8 } = .ok _)
      _⟩

end TinyInfer.MiniPrefix
