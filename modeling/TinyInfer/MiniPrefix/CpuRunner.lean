import TinyInfer.MiniPrefix.CpuForward
import TinyInfer.MiniPrefix.KvAccounting
import TinyInfer.MiniPrefix.KvReservations

/-!
# The CPU runner

`RunnerOp` are the calls of a runner, `cpuRunner` the constructor of `CpuRunner`.
The invariant `CpuInv` is the one of the manager, with the arrays of the runner as
the payload; every call keeps it, whether it returns or throws.

The main result is `cpu_append_eq_one_shot`: however a history was computed, in
chunks, in shared pages or over rolled back attempts, an append returns what one
append of all tokens returns on a new runner.
-/

namespace TinyInfer.MiniPrefix

open Lib Throwing KVManager

/-- The virtual functions that change a runner. -/
inductive RunnerOp where
  | reserveRequest (id : RequestId) (maxTokens : Nat)
  | releaseReservation (id : RequestId)
  | create (id : RequestId)
  | forkSequence (source target : RequestId)
  | reusePrefix (id : RequestId) (prompt : List TokenId)
  | cachePrefix (id : RequestId)
  | clearPrefixCache
  | append (id : RequestId) (tokens : List TokenId)
  | release (id : RequestId)
  | clear
  deriving DecidableEq, Repr

namespace KvRunner

variable {μ L : Type} (backend : KvBackend μ L)

/-- The runner after a call, whether it returned or threw. -/
def step (s : KvRunner μ) : RunnerOp → KvRunner μ
  | .reserveRequest id maxTokens => (call (fun kv => kv.reserveRequest id maxTokens) s).2
  | .releaseReservation id => { s with kv := s.kv.releaseReservation id }
  | .create id => (call (fun kv => kv.create id) s).2
  | .forkSequence source target => (call (fun kv => kv.forkSequence source target) s).2
  | .reusePrefix id prompt => (call (fun kv => kv.reusePrefix id prompt) s).2
  | .cachePrefix id => (call (fun kv => kv.cachePrefix id) s).2
  | .clearPrefixCache => (call (fun kv => kv.clearPrefixCache) s).2
  | .append id tokens => (append backend id tokens s).2
  | .release id => (call (fun kv => kv.release id) s).2
  | .clear => (call (fun kv => kv.clear) s).2

def run (s : KvRunner μ) (ops : List RunnerOp) : KvRunner μ := ops.foldl (step backend) s

theorem call_kv {β : Type} (f : KVManager → Except Exn β × KVManager) (s : KvRunner μ) :
    (call f s).2.kv = (f s.kv).2 ∧ (call f s).2.memory = s.memory := by
  unfold call
  rcases f s.kv with ⟨e | b, kv⟩
  · exact ⟨rfl, rfl⟩
  · exact ⟨rfl, rfl⟩

end KvRunner

section Runner

variable {F : Type} [Scalar F]

/-- The constructor of `CpuRunner`. -/
def cpuRunner (w : LlamaWeights F) (context : Nat) (config : KvCacheConfig) :
    Except Exn (KvRunner (CpuMemory F)) :=
  match construct config w.config.layers w.config.kvWidth context w.config.vocabulary with
  | .error e => .error e
  | .ok kv =>
    if context < 1 ∨ w.config.context < context then
      .error (.invalidArgument "invalid runner context")
    else
      .ok { kv, memory := { keys := fun _ => Scalar.ofNat 0, values := fun _ => Scalar.ofNat 0 } }

/-- The logits of one append of all tokens to a new sequence. -/
def oneShot (w : LlamaWeights F) (runner : KvRunner (CpuMemory F)) (id : RequestId)
    (tokens : List TokenId) : Except Exn (List F) :=
  (KvRunner.append (cpuBackend w) id tokens
    (KvRunner.step (cpuBackend w) runner (.create id))).1

/-! ## What never changes -/

/-- The parameters a manager was constructed with. -/
def KVManager.parameters (kv : KVManager) : Nat × Nat × Nat × Nat × KvCacheConfig :=
  (kv.layers, kv.width, kv.context, kv.vocabulary, kv.config)

def LlamaConfig.parameters (c : LlamaConfig F) (context : Nat) (config : KvCacheConfig) :
    Nat × Nat × Nat × Nat × KvCacheConfig :=
  (c.layers, c.kvWidth, context, c.vocabulary, config)

/-- The invariant of a runner between two calls. -/
structure CpuInv (w : LlamaWeights F) (context : Nat) (config : KvCacheConfig) (kv : KVManager)
    (memory : CpuMemory F) : Prop where
  parameters : kv.parameters = w.config.parameters context config
  ledger : KvOk (cpuSpec w) (cpuView w.config config.blockTokens memory) kv none
  tokens : ∀ id state, kv.sequences.find? id = some state →
    ∀ token ∈ state.sequence.tokens, 0 ≤ token ∧ token < w.config.vocabulary

variable {w : LlamaWeights F} {context : Nat} {config : KvCacheConfig} {kv kv' : KVManager}
  {memory memory' : CpuMemory F}

theorem CpuInv.blockTokens (h : CpuInv w context config kv memory) :
    kv.config.blockTokens = config.blockTokens :=
  congrArg (fun p => p.2.2.2.2.blockTokens) h.parameters

theorem CpuInv.validTokens (h : CpuInv w context config kv memory) {tokens : List TokenId} :
    kv.validTokens tokens = true ↔ ∀ token ∈ tokens, 0 ≤ token ∧ token < w.config.vocabulary := by
  have hvocabulary : kv.vocabulary = w.config.vocabulary :=
    congrArg (fun p => p.2.2.2.1) h.parameters
  rw [KVManager.validTokens, List.all_eq_true, hvocabulary]
  exact forall₂_congr fun token _ => decide_eq_true_iff

/-- A step that leaves the parameters alone, and gives no sequence new tokens. -/
theorem CpuInv.keep (h : CpuInv w context config kv memory)
    (hparameters : kv'.parameters = kv.parameters)
    (htokens : ∀ id state, kv'.sequences.find? id = some state →
      state.sequence.tokens = [] ∨ ∃ source original, kv.sequences.find? source = some original ∧
        original.sequence.tokens = state.sequence.tokens)
    (hledger : KvOk (cpuSpec w) (cpuView w.config config.blockTokens memory) kv' none) :
    CpuInv w context config kv' memory := by
  refine ⟨hparameters.trans h.parameters, hledger, fun id state hs token htoken => ?_⟩
  rcases htokens id state hs with hempty | ⟨source, original, hsource, heq⟩
  · rw [hempty] at htoken
    cases htoken
  · rw [← heq] at htoken
    exact h.tokens source original hsource token htoken

theorem parameters_eq (hlayers : kv'.layers = kv.layers) (hwidth : kv'.width = kv.width)
    (hcontext : kv'.context = kv.context) (hvocabulary : kv'.vocabulary = kv.vocabulary)
    (hconfig : kv'.config = kv.config) : kv'.parameters = kv.parameters := by
  unfold KVManager.parameters
  rw [hlayers, hwidth, hcontext, hvocabulary, hconfig]

theorem reserveRequest_frame (kv : KVManager) (id : RequestId) (maxTokens : Nat) :
    ∃ reservations, (kv.reserveRequest id maxTokens).2 = { kv with reservations } := by
  unfold KVManager.reserveRequest
  split
  · exact ⟨_, rfl⟩
  split
  · exact ⟨_, rfl⟩
  split
  · exact ⟨_, rfl⟩
  dsimp only
  split
  · exact ⟨_, rfl⟩
  split
  · exact ⟨_, rfl⟩
  · exact ⟨_, rfl⟩

/-- `reuse_prefix` changes the pool, the cache and one sequence. -/
theorem reusePrefix_frame (kv : KVManager) (id : RequestId) (prompt : List TokenId) :
    ∃ pool prefixCache costs sequences, (kv.reusePrefix id prompt).2 =
      { kv with pool, prefixCache, costs, sequences } := by
  unfold KVManager.reusePrefix
  split
  · exact ⟨_, _, _, _, rfl⟩
  split
  · exact ⟨_, _, _, _, rfl⟩
  split
  · exact ⟨_, _, _, _, rfl⟩
  dsimp only
  split
  · exact ⟨_, _, _, _, rfl⟩
  split
  · split
    · exact ⟨_, _, _, _, rfl⟩
    split
    · exact ⟨_, _, _, _, rfl⟩
    · exact ⟨_, _, _, _, rfl⟩
  · split
    · exact ⟨_, _, _, _, rfl⟩
    · exact ⟨_, _, _, _, rfl⟩

/-! ## Calls of the manager -/

/-- A sequence of the map with one sequence replaced. -/
theorem find?_insert_cases {sequences : OrdMap RequestId State} {id other : RequestId}
    {state state' : State} (h : (sequences.insert id state').find? other = some state) :
    state = state' ∨ sequences.find? other = some state := by
  rw [OrdMap.find?_insert] at h
  split at h
  · exact Or.inl (Option.some.inj h).symm
  · exact Or.inr h

/-- A reservation keeps the invariant. -/
theorem CpuInv.reserveRequest (h : CpuInv w context config kv memory) (id : RequestId)
    (maxTokens : Nat) : CpuInv w context config (kv.reserveRequest id maxTokens).2 memory := by
  obtain ⟨flat, pos, hinv⟩ := h.ledger
  have hledger := (hinv.reserveRequest id maxTokens).ok
  obtain ⟨reservations, heq⟩ := reserveRequest_frame kv id maxTokens
  rw [heq] at hledger ⊢
  exact h.keep rfl (fun other state hs => Or.inr ⟨other, state, hs, rfl⟩) hledger

theorem CpuInv.releaseReservation (h : CpuInv w context config kv memory) (id : RequestId) :
    CpuInv w context config (kv.releaseReservation id) memory := by
  obtain ⟨flat, pos, hinv⟩ := h.ledger
  exact h.keep rfl (fun other state hs => Or.inr ⟨other, state, hs, rfl⟩)
    (hinv.releaseReservation id).ok

/-- A new sequence keeps the invariant. -/
theorem CpuInv.create (h : CpuInv w context config kv memory) (id : RequestId) :
    CpuInv w context config (kv.create id).2 memory := by
  obtain ⟨flat, pos, hinv⟩ := h.ledger
  have hledger := (hinv.create id).ok
  unfold KVManager.create at hledger ⊢
  split
  · exact h
  split
  · exact h
  next hidle hnew =>
  rw [hidle] at hledger
  simp only [if_neg hnew] at hledger
  have hnone : kv.sequences.find? id = none := Option.isNone_iff_eq_none.mp (by
    simpa [KVManager.contains, OrdMap.contains] using hnew)
  refine h.keep rfl (fun other state hs => ?_) hledger
  simp only [OrdMap.emplace_eq_insert _ hnone] at hs
  rcases find?_insert_cases hs with rfl | hs
  · exact Or.inl rfl
  · exact Or.inr ⟨other, state, hs, rfl⟩

/-- A fork keeps the invariant, the shared tail page included. -/
theorem CpuInv.forkSequence (h : CpuInv w context config kv memory) (source target : RequestId) :
    CpuInv w context config (kv.forkSequence source target).2 memory := by
  obtain ⟨flat, pos, hinv⟩ := h.ledger
  rcases hinv.forkSequence source target with ⟨e, heq⟩ |
    ⟨original, pool, -, hsource, -, heq, hledger, hconfig⟩
  · rw [heq]
    exact h
  · rw [heq]
    refine h.keep (parameters_eq rfl rfl rfl rfl hconfig) (fun other state hs => ?_) hledger.ok
    rcases find?_insert_cases hs with rfl | hs
    · exact Or.inr ⟨source, original, hsource, rfl⟩
    · exact Or.inr ⟨other, state, hs, rfl⟩

/-- A restored prefix keeps the invariant, as its pages hold its tokens. -/
theorem CpuInv.reusePrefix (h : CpuInv w context config kv memory) (id : RequestId)
    (prompt : List TokenId) : CpuInv w context config (kv.reusePrefix id prompt).2 memory := by
  obtain ⟨flat, pos, hinv⟩ := h.ledger
  rcases hinv.reusePrefix id prompt with ⟨e, kv', flat', heq, hsame, hledger, -, hconfig⟩ |
    ⟨count, found, prefixCache, pool, costs, flat', -, -, -, heq, hledger, hconfig⟩
  · obtain ⟨pool, prefixCache, costs, sequences, hframe⟩ := reusePrefix_frame kv id prompt
    rw [heq] at hframe ⊢
    have hframe' : kv' = _ := hframe
    refine h.keep ?_ (fun other state hs => ?_) hledger.ok
    · exact parameters_eq (by rw [hframe']) (by rw [hframe']) (by rw [hframe'])
        (by rw [hframe']) hconfig
    · rw [hsame.sequences] at hs
      exact Or.inr ⟨other, state, hs, rfl⟩
  · -- the new tokens are a prefix of the prompt, which was checked
    have hprompt : kv.validTokens prompt = true := by
      by_contra hinvalid
      unfold KVManager.reusePrefix at heq
      split at heq
      · cases heq
      · cases heq
    rw [heq]
    refine ⟨Eq.trans ?_ h.parameters, hledger.ok, fun other state hs token htoken => ?_⟩
    · exact parameters_eq rfl rfl rfl rfl hconfig
    rcases find?_insert_cases hs with rfl | hs
    · exact h.validTokens.mp hprompt token (List.mem_of_mem_take htoken)
    · exact h.tokens other state hs token htoken

/-- A publication keeps the invariant. -/
theorem CpuInv.cachePrefix (h : CpuInv w context config kv memory) (id : RequestId) :
    CpuInv w context config (kv.cachePrefix id).2 memory := by
  obtain ⟨flat, pos, hinv⟩ := h.ledger
  rcases hinv.cachePrefix id with ⟨e, heq, -⟩ | ⟨prefixCache, pool, costs, flat', -, heq, hledger,
    hconfig⟩
  · rw [heq]
    exact h
  · rw [heq]
    exact h.keep (parameters_eq rfl rfl rfl rfl hconfig)
      (fun other state hs => Or.inr ⟨other, state, hs, rfl⟩) hledger.ok

/-- Clearing the cache keeps the invariant. -/
theorem CpuInv.clearPrefixCache (h : CpuInv w context config kv memory) :
    CpuInv w context config kv.clearPrefixCache.2 memory := by
  obtain ⟨flat, pos, hinv⟩ := h.ledger
  rcases hinv.clearPrefixCache with ⟨e, heq, -⟩ | ⟨prefixCache, pool, flat', -, heq, -, hledger,
    hconfig⟩
  · rw [heq]
    exact h
  · rw [heq]
    exact h.keep (parameters_eq rfl rfl rfl rfl hconfig)
      (fun other state hs => Or.inr ⟨other, state, hs, rfl⟩) hledger.ok

/-- A release keeps the invariant. -/
theorem CpuInv.release (h : CpuInv w context config kv memory) (id : RequestId) :
    CpuInv w context config (kv.release id).2 memory := by
  obtain ⟨flat, pos, hinv⟩ := h.ledger
  rcases hinv.release id with ⟨e, heq, -⟩ | ⟨state, -, -, heq, hledger⟩
  · rw [heq]
    exact h
  · rw [heq] at hledger ⊢
    refine h.keep (parameters_eq rfl rfl rfl rfl (KvBlockPool.unrefAll_config _ _))
      (fun other state hs => ?_) hledger.ok
    rw [OrdMap.find?_erase] at hs
    split at hs
    · cases hs
    · exact Or.inr ⟨other, state, hs, rfl⟩

theorem CpuInv.clear (h : CpuInv w context config kv memory) :
    CpuInv w context config kv.clear.2 memory := by
  obtain ⟨flat, pos, hinv⟩ := h.ledger
  rcases hinv.clear with ⟨e, heq⟩ | ⟨prefixCache, pool, flat', -, heq, -, hledger, hconfig⟩
  · rw [heq]
    exact h
  · rw [heq]
    exact h.keep (parameters_eq rfl rfl rfl rfl hconfig) (fun other state hs => by cases hs)
      hledger.ok

/-! ## Appends -/

/-- An open transaction: the tokens to come are valid as well. -/
structure CpuOpen (w : LlamaWeights F) (context : Nat) (config : KvCacheConfig) (kv : KVManager)
    (a : KVManager.Append) : Prop where
  parameters : kv.parameters = w.config.parameters context config
  tokens : ∀ id state, kv.sequences.find? id = some state →
    ∀ token ∈ state.sequence.tokens, 0 ≤ token ∧ token < w.config.vocabulary
  new : ∀ token ∈ a.tokens, 0 ≤ token ∧ token < w.config.vocabulary

variable {a : KVManager.Append} {state : State}

omit [Scalar F] in
theorem CpuOpen.fits (h : CpuOpen w context config kv a) :
    w.config.Fits config.blockTokens kv := by
  have hparameters := h.parameters
  unfold KVManager.parameters LlamaConfig.parameters at hparameters
  simp only [Prod.mk.injEq] at hparameters
  obtain ⟨hlayers, hwidth, -, -, hconfig⟩ := hparameters
  exact ⟨hlayers, hwidth, congrArg KvCacheConfig.blockTokens hconfig⟩

/-- A committed append keeps the invariant. -/
theorem CpuOpen.committed (h : CpuOpen w context config kv a)
    (hs : kv.sequences.find? a.id = some state)
    (hledger : KvOk (cpuSpec w) (cpuView w.config config.blockTokens memory)
      (committed kv a state) none) :
    CpuInv w context config (committed kv a state) memory := by
  refine ⟨Eq.trans ?_ h.parameters, hledger, fun other state' hs' token htoken => ?_⟩
  · exact parameters_eq rfl rfl rfl rfl (KvBlockPool.unrefAll_config _ _)
  rcases find?_insert_cases hs' with rfl | hs'
  · rcases List.mem_append.mp htoken with hhold | hnew
    · exact h.tokens a.id state hs token hhold
    · exact h.new token hnew
  · exact h.tokens other state' hs' token htoken

/-- A rolled back append keeps the invariant. -/
theorem CpuOpen.rollback (h : CpuOpen w context config kv a)
    (hs : kv.sequences.find? a.id = some state)
    (hledger : KvOk (cpuSpec w) (cpuView w.config config.blockTokens memory)
      (kv.rollback (some a)) none) :
    CpuInv w context config (kv.rollback (some a)) memory := by
  rw [rollback_eq hs] at hledger ⊢
  refine ⟨Eq.trans ?_ h.parameters, hledger, fun other state' hs' token htoken => ?_⟩
  · exact parameters_eq rfl rfl rfl rfl (KvBlockPool.unrefAll_config _ _)
  rcases find?_insert_cases hs' with rfl | hs'
  · exact h.tokens a.id state hs token htoken
  · exact h.tokens other state' hs' token htoken

/-- What `prepare_append` leaves, seen from the runner. -/
theorem CpuInv.prepareAppend (h : CpuInv w context config kv memory) (id : RequestId)
    (x : List TokenId) :
    (∃ e kv', kv.prepareAppend id x = (.error e, kv') ∧ CpuInv w context config kv' memory) ∨
      ∃ a kv' flat pos old state, kv.prepareAppend id x = (.ok a, kv') ∧ a.tokens = x ∧
        a.id = id ∧ kv.sequences.find? id = some old ∧
        kv'.sequences.find? a.id = some state ∧
        state.sequence.tokens = old.sequence.tokens ∧ a.copied = false ∧
        CpuOpen w context config kv' a ∧
        KvInv (cpuSpec w) (cpuView w.config config.blockTokens memory) kv' (some a) flat pos := by
  obtain ⟨flat, pos, hinv⟩ := h.ledger
  rcases hinv.prepareAppend id x with ⟨e, heq, -⟩ |
    ⟨e, kv', flat', old, heq, -, hevicted, hinv', -⟩ |
    ⟨a, kv₁, kv', flat', old, fresh, heq, hchecked, hevicted, hinv₁, rfl, rfl, hprepared⟩
  · exact Or.inl ⟨e, kv, heq, h⟩
  · refine Or.inl ⟨e, kv', heq, h.keep ?_ (fun other state hs => ?_) hinv'.ok⟩
    · rw [hevicted.same]
      exact parameters_eq rfl rfl rfl rfl hevicted.config
    · rw [hevicted.same] at hs
      exact Or.inr ⟨other, state, hs, rfl⟩
  · have hopen := hprepared.inv hinv₁ (hevicted.checked hchecked)
    let live : State :=
      { sequence := { old.sequence with
          blocks := replaceTail a.copy old.sequence.blocks ++ fresh }, appending := true }
    have hsequences : kv'.sequences = kv.sequences.insert a.id live := by
      rw [hprepared.shape, hevicted.same]
    refine Or.inr ⟨a, kv', flat', _, old, live, heq, rfl, rfl, hchecked.found,
      (by rw [hsequences, OrdMap.find?_insert_self]), rfl, hprepared.copied, ?_, hopen⟩
    refine ⟨Eq.trans ?_ h.parameters, fun other state hs token htoken => ?_,
      h.validTokens.mp hchecked.valid⟩
    · have hsame : kv₁.parameters = kv.parameters := by
        rw [hevicted.same]
        exact parameters_eq rfl rfl rfl rfl hevicted.config
      rw [← hsame, hprepared.shape]
      exact parameters_eq rfl rfl rfl rfl hprepared.config
    · rw [hsequences] at hs
      rcases find?_insert_cases hs with rfl | hs
      · exact h.tokens a.id old hchecked.found token htoken
      · exact h.tokens other state hs token htoken

/-- An append returns the causal logits of the whole history, and throws or not, it
keeps the invariant. -/
theorem CpuInv.append {s : KvRunner (CpuMemory F)} (h : CpuInv w context config s.kv s.memory)
    (id : RequestId) (x : List TokenId) :
    (KvRunner.append (cpuBackend w) id x).wp
      (fun logits s' => CpuInv w context config s'.kv s'.memory ∧ x ≠ [] ∧
        ∃ state state', s.kv.sequences.find? id = some state ∧
          s'.kv.sequences.find? id = some state' ∧
          state'.sequence.tokens = state.sequence.tokens ++ x ∧
          logits = causalLogits w (state.sequence.tokens ++ x) ∧
          logits.all Scalar.isFinite = true)
      (fun _ s' => CpuInv w context config s'.kv s'.memory) s := by
  have hcall : KvRunner.append (cpuBackend w) id x =
      KvRunner.call (fun kv => kv.prepareAppend id x) >>= KvRunner.transact (cpuBackend w) := rfl
  rw [hcall, wp_bind]
  rcases h.prepareAppend id x with ⟨e, kv', heq, hinv⟩ |
    ⟨a, kv', flat, pos, old, state, heq, rfl, rfl, hhold, hs, htokens, hcopied, hopen, hinv⟩
  · unfold wp KvRunner.call
    simp only [heq]
    exact hinv
  · refine KvRunner.call_ok (f := fun kv => kv.prepareAppend a.id a.tokens) heq ?_
    obtain ⟨state', hs', htx⟩ := hinv.transaction a rfl
    have hwp : (KvRunner.transact (cpuBackend w) a).wp _ _ { s with kv := kv' } :=
      KvRunner.transact_wp (cpuBackend_sound w config.blockTokens) hopen.fits hinv hs hcopied
    refine hwp.mono (fun logits s' hs' => ?_) fun e s' hs' => ?_
    · obtain ⟨⟨hlogits, hfinite⟩, hkv, -, hledger⟩ := hs'
      rw [hkv] at hledger ⊢
      rw [htokens] at hlogits
      refine ⟨hopen.committed hs hledger.ok, htx.tokens_ne, old, _, hhold,
        OrdMap.find?_insert_self _ _ _, ?_, hlogits, hfinite⟩
      show state.sequence.tokens ++ a.tokens = _
      rw [htokens]
    · obtain ⟨-, hkv, -, hledger⟩ := hs'
      rw [hkv] at hledger ⊢
      exact hopen.rollback hs hledger.ok

/-! ## Runs -/

/-- Every operation of the runner keeps the invariant. -/
theorem CpuInv.step {s : KvRunner (CpuMemory F)} (h : CpuInv w context config s.kv s.memory)
    (op : RunnerOp) :
    CpuInv w context config (KvRunner.step (cpuBackend w) s op).kv
      (KvRunner.step (cpuBackend w) s op).memory := by
  have hcall : ∀ {β : Type} (f : KVManager → Except Exn β × KVManager),
      CpuInv w context config (f s.kv).2 s.memory →
      CpuInv w context config (KvRunner.call f s).2.kv (KvRunner.call f s).2.memory := by
    intro β f hf
    rw [(KvRunner.call_kv f s).1, (KvRunner.call_kv f s).2]
    exact hf
  cases op with
  | reserveRequest id maxTokens => exact hcall _ (h.reserveRequest id maxTokens)
  | releaseReservation id => exact h.releaseReservation id
  | create id => exact hcall _ (h.create id)
  | forkSequence source target => exact hcall _ (h.forkSequence source target)
  | reusePrefix id prompt => exact hcall _ (h.reusePrefix id prompt)
  | cachePrefix id => exact hcall _ (h.cachePrefix id)
  | clearPrefixCache => exact hcall _ h.clearPrefixCache
  | append id tokens =>
    have hstep : KvRunner.step (cpuBackend w) s (.append id tokens) =
      (KvRunner.append (cpuBackend w) id tokens s).2 := rfl
    rw [hstep]
    rcases hrun : KvRunner.append (cpuBackend w) id tokens s with ⟨e | logits, s'⟩
    · exact (h.append id tokens).error hrun
    · exact ((h.append id tokens).ok hrun).1
  | release id => exact hcall _ (h.release id)
  | clear => exact hcall _ h.clear

theorem CpuInv.run {s : KvRunner (CpuMemory F)} (h : CpuInv w context config s.kv s.memory)
    (ops : List RunnerOp) :
    CpuInv w context config (KvRunner.run (cpuBackend w) s ops).kv
      (KvRunner.run (cpuBackend w) s ops).memory := by
  induction ops generalizing s with
  | nil => exact h
  | cons op ops ih => exact ih (h.step op)

theorem cpuRunner_eq {runner : KvRunner (CpuMemory F)}
    (h : cpuRunner w context config = .ok runner) :
    construct config w.config.layers w.config.kvWidth context w.config.vocabulary =
      .ok runner.kv := by
  unfold cpuRunner at h
  split at h
  · cases h
  next kv hkv =>
  split at h
  · cases h
  · cases h
    exact hkv

/-- A new runner satisfies the invariant. -/
theorem CpuInv.construct {runner : KvRunner (CpuMemory F)}
    (h : cpuRunner w context config = .ok runner) :
    CpuInv w context config runner.kv runner.memory := by
  have hkv := cpuRunner_eq h
  refine ⟨?_, (KvInv.construct hkv _ _).ok, ?_⟩
  · obtain ⟨pool, hvalid, hpool, heq⟩ := construct_eq hkv
    rw [heq]
    exact congrArg (fun config => (_, _, _, _, config)) (KvBlockPool.create_accounts hpool).1
  · obtain ⟨pool, hvalid, hpool, heq⟩ := construct_eq hkv
    rw [heq]
    intro id state hs
    cases hs

/-! ## New runners -/

omit [Scalar F] in
/-- On a new manager nothing is reserved, and a sequence can be created. -/
theorem create_fresh (h : KVManager.construct config w.config.layers w.config.kvWidth context
      w.config.vocabulary = .ok kv) (id : RequestId) :
    kv.reservations = OrdMap.empty ∧ kv.create id =
      (.ok (), { kv with sequences := OrdMap.empty.insert id {} }) := by
  obtain ⟨pool, hvalid, hpool, rfl⟩ := construct_eq h
  refine ⟨rfl, ?_⟩
  have hemplace : (OrdMap.empty : OrdMap RequestId State).emplace id {} =
    OrdMap.empty.insert id {} := OrdMap.emplace_eq_insert _ rfl
  rw [← hemplace]
  rfl

/-- A manager whose only sequence is empty has room for as many tokens as it has
pages. -/
theorem KvInv.prepare_fresh {α : Type} {spec : List TokenId → α} {payload : Nat → Nat → α}
    {flat : FlatCache} {pos : Nat → Nat} (h : KvInv spec payload kv none flat pos) {id : RequestId}
    {x : List TokenId} (hsequences : kv.sequences = OrdMap.empty.insert id {})
    (hreservations : kv.reservations = OrdMap.empty) (hne : x ≠ [])
    (hvalid : kv.validTokens x = true) (hcontext : x.length ≤ kv.context)
    (hpages : pagesFor kv.config.blockTokens x.length ≤ kv.config.maxBlocks) :
    ∃ a kv', kv.prepareAppend id x = (.ok a, kv') := by
  have hfind : kv.sequences.find? id = some {} := by rw [hsequences, OrdMap.find?_insert_self]
  have hzero : (({} : State).sequence.used + x.length) = x.length := Nat.zero_add _
  have hchecked : Checked kv none id x {} := by
    refine ⟨rfl, hfind, hne, ?_, hvalid, ?_⟩
    · rw [hzero]
      exact hcontext
    · rw [refusePages, hreservations]
      rfl
  rcases h.prepareAppend id x with ⟨e, -, hno⟩ | ⟨e, kv', flat', other, -, hc, hevicted,
    hinv, hfull⟩ |
    ⟨a, kv₁, kv', flat', other, fresh, heq, -⟩
  · exact absurd hchecked (hno {})
  · -- no page is in use
    obtain rfl : other = {} := Option.some.inj (hc.found.symm.trans hfind)
    obtain ⟨hempty, cow, hcow, hfree⟩ := hfull
    have huse := hinv.in_use_le hempty (({} : State).sequence.blocks.getLastD 0)
    have hentries : kv'.tableEntries = 0 := by
      refine OrdMap.sum_eq_zero fun other state hs => ?_
      rw [hevicted.same] at hs
      simp only [hsequences] at hs
      rcases find?_insert_cases hs with rfl | hs
      · rfl
      · cases hs
    have hmissing : missingPages kv ({} : State).sequence (({} : State).sequence.used + x.length) ≤
        kv.config.maxBlocks := by
      rw [missingPages, hzero]
      exact (Nat.sub_le _ _).trans hpages
    have hconfig : kv'.config = kv.config := hevicted.config
    rw [hentries, hconfig] at huse
    cases cow with
    | false =>
      rw [Bool.toNat_false] at hfree
      omega
    | true =>
      have := hcow rfl
      rw [Bool.toNat_true] at hfree
      omega
  · exact ⟨a, kv', heq⟩

/-- One append of all tokens to a new sequence of a new runner. -/
theorem cpuRunner_oneShot {fresh : KvRunner (CpuMemory F)}
    (h : cpuRunner w context config = .ok fresh) (id : RequestId) {tokens : List TokenId}
    (hne : tokens ≠ [])
    (hvalid : ∀ token ∈ tokens, 0 ≤ token ∧ token < w.config.vocabulary)
    (hcontext : tokens.length ≤ context)
    (hpages : pagesFor config.blockTokens tokens.length ≤ config.maxBlocks)
    (hfinite : (causalLogits w tokens).all Scalar.isFinite = true) :
    oneShot w fresh id tokens = .ok (causalLogits w tokens) := by
  -- the fresh runner, with the one empty sequence
  obtain ⟨hreservations, hcreate⟩ := create_fresh (cpuRunner_eq h) id
  generalize hkv : ({ fresh.kv with sequences := OrdMap.empty.insert id {} } : KVManager) = kv₁
    at hcreate
  have hstep : KvRunner.step (cpuBackend w) fresh (.create id) = { fresh with kv := kv₁ } := by
    unfold KvRunner.step KvRunner.call
    simp only [hcreate]
  have hinv : CpuInv w context config kv₁ fresh.memory := by
    have := (CpuInv.construct h).step (.create id)
    rw [hstep] at this
    exact this
  have hparameters := hinv.parameters
  unfold KVManager.parameters LlamaConfig.parameters at hparameters
  simp only [Prod.mk.injEq] at hparameters
  obtain ⟨hlayers, hwidth, hctx, -, hconfig⟩ := hparameters
  obtain ⟨flat, pos, hledger⟩ := hinv.ledger
  -- the prompt fits, so the append is prepared
  have hroom : ∃ a kv', kv₁.prepareAppend id tokens = (.ok a, kv') := by
    refine hledger.prepare_fresh (by rw [← hkv]) (by rw [← hkv]; exact hreservations) hne
      (hinv.validTokens.mpr hvalid) (by rw [hctx]; exact hcontext) (by rw [hconfig]; exact hpages)
  obtain ⟨a₁, kv₂, hprepare⟩ := hroom
  rcases hinv.prepareAppend id tokens with ⟨e, kv', heq, -⟩ |
    ⟨a, kv', flat', pos', old, state, heq, rfl, rfl, hhold, hs, htokens, hcopied, hopen, htx⟩
  -- the sequence was empty before
  · rw [hprepare] at heq
    cases heq
  have hempty : state.sequence.tokens = [] := by
    rw [← hkv] at hhold
    rw [htokens]
    rcases find?_insert_cases hhold with rfl | hhold
    · rfl
    · cases hhold
  rw [htokens] at hempty
  -- the computation does not throw
  have happend : (KvRunner.append (cpuBackend w) a.id a.tokens).wp
      (fun logits _ => logits = causalLogits w a.tokens) (fun _ _ => False)
      { fresh with kv := kv₁ } := by
    have hcall : KvRunner.append (cpuBackend w) a.id a.tokens =
        KvRunner.call (fun kv => kv.prepareAppend a.id a.tokens) >>=
          KvRunner.transact (cpuBackend w) := rfl
    rw [hcall, wp_bind]
    refine KvRunner.call_ok (f := fun kv => kv.prepareAppend a.id a.tokens) heq ?_
    have hwp : (KvRunner.transact (cpuBackend w) a).wp _ _ { fresh with kv := kv' } :=
      KvRunner.transact_wp (cpuBackend_sound w config.blockTokens) hopen.fits htx hs hcopied
    refine hwp.mono (fun logits s' hs' => ?_) fun e s' hs' => ?_
    · rw [hs'.1.1, htokens, hempty, List.nil_append]
    · obtain ⟨⟨copied, memory, memory', hready, htx', hfailed⟩, -⟩ := hs'
      obtain ⟨hlayers', hwidth', hblock⟩ := hopen.fits
      rw [← hblock] at htx'
      obtain ⟨memory'', hrun, -⟩ := cpuForward_spec hlayers' hwidth' htx' hready hs
      rw [htokens, hempty, List.nil_append, if_pos hfinite] at hrun
      have hrun' : (cpuBackend w).forward kv' a memory = _ := hrun
      rw [hfailed] at hrun'
      cases hrun'
  have hone : oneShot w fresh a.id a.tokens =
      (KvRunner.append (cpuBackend w) a.id a.tokens { fresh with kv := kv₁ }).1 := by
    unfold oneShot
    rw [hstep]
  rw [hone]
  rcases hrun : KvRunner.append (cpuBackend w) a.id a.tokens { fresh with kv := kv₁ } with
    ⟨e | logits, s'⟩
  · exact (happend.error hrun).elim
  · exact congrArg Except.ok (happend.ok hrun)

/-! ## The main result -/

/-- A committed sequence fits the pool and the context of its manager. -/
theorem KvInv.sequence_fits {α : Type} {spec : List TokenId → α} {payload : Nat → Nat → α}
    {flat : FlatCache} {pos : Nat → Nat} (h : KvInv spec payload kv none flat pos) {id : RequestId}
    {state : State} (hs : kv.sequences.find? id = some state) :
    state.sequence.tokens.length ≤ kv.context ∧
      pagesFor kv.config.blockTokens state.sequence.tokens.length ≤ kv.config.maxBlocks := by
  have hseq := h.sequence id state hs
  have hlength := (h.idle id state hs fun a ha => by cases ha).2
  have hsubset : state.sequence.blocks ⊆ List.range kv.config.maxBlocks := by
    intro b hb
    obtain ⟨j, hj⟩ := List.mem_iff_getElem?.mp hb
    refine List.mem_range.mpr (h.accounts.bounded b ?_)
    have := sequenceLeases_pos hs hj
    unfold outside
    omega
  have hle := (hseq.blocks_nodup.subperm hsubset).length_le
  rw [List.length_range] at hle
  rw [hseq.length]
  exact ⟨hseq.fits, hlength ▸ hle⟩

/-- **Incremental, paged and shared computation is the one-pass forward.** In every
reachable state an append that returns gives exactly the logits of a single append
of the committed history and the new tokens on any new runner over the same weights
that is large enough; the runner's own parameters are. -/
theorem cpu_append_eq_one_shot {runner s' : KvRunner (CpuMemory F)} {logits : List F}
    (h : cpuRunner w context config = .ok runner) (ops : List RunnerOp) (id : RequestId)
    (x : List TokenId)
    (happend : KvRunner.append (cpuBackend w) id x (KvRunner.run (cpuBackend w) runner ops) =
      (.ok logits, s')) :
    ∃ state, (KvRunner.run (cpuBackend w) runner ops).kv.sequences.find? id = some state ∧
      (∀ id', oneShot w runner id' (state.sequence.tokens ++ x) = .ok logits) ∧
      ∀ context' config' fresh id', cpuRunner w context' config' = .ok fresh →
        (state.sequence.tokens ++ x).length ≤ context' →
        pagesFor config'.blockTokens (state.sequence.tokens ++ x).length ≤ config'.maxBlocks →
        oneShot w fresh id' (state.sequence.tokens ++ x) = .ok logits := by
  have hinv := (CpuInv.construct h).run ops
  obtain ⟨hinv', hne, state, state', hs, hs', htokens, hlogits, hfinite⟩ :=
    (hinv.append id x).ok happend
  have hvalid := hinv'.tokens id state' hs'
  rw [htokens] at hvalid
  have hne' : state.sequence.tokens ++ x ≠ [] := List.append_ne_nil_of_right_ne_nil _ hne
  have hone : ∀ context' config' fresh id', cpuRunner w context' config' = .ok fresh →
      (state.sequence.tokens ++ x).length ≤ context' →
      pagesFor config'.blockTokens (state.sequence.tokens ++ x).length ≤ config'.maxBlocks →
      oneShot w fresh id' (state.sequence.tokens ++ x) = .ok logits := by
    intro context' config' fresh id' hfresh hcontext hpages
    rw [hlogits] at hfinite ⊢
    exact cpuRunner_oneShot hfresh id' hne' hvalid hcontext hpages hfinite
  refine ⟨state, hs, fun id' => ?_, hone⟩
  obtain ⟨flat, pos, hledger⟩ := hinv'.ledger
  have hfits := hledger.sequence_fits hs'
  have hparameters := hinv'.parameters
  unfold KVManager.parameters LlamaConfig.parameters at hparameters
  simp only [Prod.mk.injEq] at hparameters
  obtain ⟨-, -, hctx, -, hconfig⟩ := hparameters
  rw [htokens, hctx, hconfig] at hfits
  exact hone context config runner id' h hfits.1 hfits.2

end Runner

section Integers

/-- Integer operations, to run the model with. -/
local instance integerScalar : Scalar Int where
  ofNat := Int.ofNat
  negInf := -1000
  sqrt x := x
  exp x := x
  cos x := x
  sin x := x
  pow x _ := x
  max := max
  isFinite _ := true

/-- One layer over rows of two. -/
def tinyWeights : LlamaWeights Int where
  config :=
    { layers := 1, hidden := 2, heads := 1, kvHeads := 1, vocabulary := 4, context := 8,
      rmsEpsilon := 1, ropeTheta := 1, heads_pos := by decide, kvHeads_pos := by decide,
      hidden_mod := by decide, heads_mod := by decide }
  embedTokens token column := token + column
  inputLayernorm _ _ := 1
  postAttentionLayernorm _ _ := 1
  norm _ := 1
  dot _ x column := x 0 + x 1 + column

/-- A second token on a forked sequence, whose tail page is copied first. -/
theorem cpu_append_eq_one_shot_fork : ∃ runner logits s',
    cpuRunner tinyWeights 8 ⟨2, 4, 2⟩ = .ok runner ∧
      KvRunner.append (cpuBackend tinyWeights) "b" [2]
        (KvRunner.run (cpuBackend tinyWeights) runner
          [.create "a", .append "a" [1], .create "b", .forkSequence "a" "b"]) = (.ok logits, s') ∧
      oneShot tinyWeights runner "c" [1, 2] = .ok logits := by
  have hrun : ∃ runner, cpuRunner tinyWeights 8 ⟨2, 4, 2⟩ = .ok runner ∧ ∃ logits s',
      KvRunner.append (cpuBackend tinyWeights) "b" [2]
        (KvRunner.run (cpuBackend tinyWeights) runner
          [.create "a", .append "a" [1], .create "b", .forkSequence "a" "b"]) = (.ok logits, s') ∧
      ((KvRunner.run (cpuBackend tinyWeights) runner
        [.create "a", .append "a" [1], .create "b", .forkSequence "a" "b"]).kv.sequences.find?
          "b").map (fun state => state.sequence.tokens) = some [1] :=
    ⟨_, rfl, _, _, rfl, rfl⟩
  obtain ⟨runner, hrunner, logits, s', happend, htokens⟩ := hrun
  obtain ⟨state, hs, hone, -⟩ := cpu_append_eq_one_shot hrunner _ "b" [2] happend
  rw [hs] at htokens
  have hhistory : state.sequence.tokens = [1] := Option.some.inj htokens
  rw [hhistory] at hone
  exact ⟨runner, logits, s', hrunner, happend, hone "c"⟩

end Integers

end TinyInfer.MiniPrefix
