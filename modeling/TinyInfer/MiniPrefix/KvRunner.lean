import TinyInfer.MiniPrefix.KvRuns
import TinyInfer.MiniPrefix.Engine

/-!
# Runners that delegate to the KV manager (`llama_runner.cpp`)

Every sequence call of such a runner is the call of its `KVManager`, and `append`
is prepare, tail copy, model computation, commit. What the backends differ in is
a `KvBackend`: the payload memory, the copy of a tail region, and the
computation between prepare and commit.

`KvBackend.Sound` is the contract of a computation against a payload `spec`, and
`KvRunner.transact_wp` what an append does under it. `faults` is a ghost: the
exceptions that calls of the manager threw at the runner.
-/

namespace TinyInfer.MiniPrefix

open Lib Throwing KVManager

/-- What a backend adds to the manager. -/
structure KvBackend (μ L : Type) where
  config : ModelConfig
  copyTail : TailCopyRegion → μ → μ
  /-- From the live transaction to the logits; a throw rolls back. -/
  forward : KVManager → KVManager.Append → μ → Except Exn (List L) × μ

structure KvRunner (μ : Type) where
  kv : KVManager
  memory : μ
  faults : List Exn := []

namespace KvRunner

variable {μ L β : Type} (backend : KvBackend μ L)

/-- A call of the manager. -/
def call (f : KVManager → Except Exn β × KVManager) : Throwing Exn (KvRunner μ) β := fun s =>
  match f s.kv with
  | (.ok b, kv) => (.ok b, { s with kv })
  | (.error e, kv) => (.error e, { s with kv, faults := s.faults ++ [e] })

/-- The memory once a shared tail page is copied. -/
def copyShared (kv : KVManager) (append : KVManager.Append) (memory : μ) : μ :=
  match append.copy with
  | some copy => backend.copyTail (kv.tailCopyRegion copy) memory
  | none => memory

/-- `append` once the transaction exists; leaving early destroys it. -/
def transact (append : KVManager.Append) : Throwing Exn (KvRunner μ) (List L) := fun s =>
  let memory := copyShared backend s.kv append s.memory
  match s.kv.copySharedTailRegion (some append) fun _ => .ok () with
  | (.error e, transaction) =>
    (.error e, { kv := s.kv.rollback transaction, memory, faults := s.faults ++ [e] })
  | (.ok (), transaction) =>
    match backend.forward s.kv append memory with
    | (.error e, memory) => (.error e, { s with kv := s.kv.rollback transaction, memory })
    | (.ok logits, memory) =>
      match s.kv.commit transaction with
      | (.error e, kv, transaction) =>
        (.error e, { kv := kv.rollback transaction, memory, faults := s.faults ++ [e] })
      | (.ok (), kv, _) => (.ok logits, { s with kv, memory })

def append (id : RequestId) (tokens : List TokenId) : Throwing Exn (KvRunner μ) (List L) := do
  let append ← call fun kv => kv.prepareAppend id tokens
  transact backend append

/-- The virtual functions the engine calls. -/
def model : ModelRunner (KvRunner μ) L where
  config := pure backend.config
  contextLimit s := (.ok (s.kv.context : Int), s)
  reserveRequest id tokens := call fun kv => kv.reserveRequest id tokens
  releaseReservation id s := { s with kv := s.kv.releaseReservation id }
  create id := call fun kv => kv.create id
  reusePrefix id prompt := call fun kv => kv.reusePrefix id prompt
  cachePrefix id := call fun kv => kv.cachePrefix id
  append := append backend
  release id := call fun kv => kv.release id
  clear := call fun kv => kv.clear
  kvBlockTokens s := (.ok s.kv.config.blockTokens, s)

variable {backend} {f : KVManager → Except Exn β × KVManager} {s : KvRunner μ}
  {Q : β → KvRunner μ → Prop} {E : Exn → KvRunner μ → Prop}

/-- A call of the manager that returns. -/
theorem call_ok {b : β} {kv : KVManager} (hrun : f s.kv = (.ok b, kv)) (hQ : Q b { s with kv }) :
    (call f : Throwing Exn (KvRunner μ) β).wp Q E s := by
  rw [wp, call, hrun]
  exact hQ

end KvRunner

/-! ## Sound computations -/

section Sound

open KvRunner (copyShared)

variable {μ L α : Type} {backend : KvBackend μ L} {spec : List TokenId → α}
  {view : μ → Nat → Nat → α} {kv : KVManager} {flat : FlatCache} {pos : Nat → Nat}
  {a : KVManager.Append} {state : State} {s : KvRunner μ}

/-- The slots of the tokens of the transaction are written. -/
def Written (spec : List TokenId → α) (payload : Nat → Nat → α) (kv : KVManager)
    (a : KVManager.Append) (state : State) : Prop :=
  ∀ t, state.sequence.used ≤ t → t < state.sequence.used + a.tokens.length → ∀ b,
    state.sequence.blocks[t / kv.config.blockTokens]? = some b →
    payload b (t % kv.config.blockTokens) = spec ((state.sequence.tokens ++ a.tokens).take (t + 1))

/-- In a manager that `fits`, the tail copy moves the payload of the valid slots,
and the computation writes the payload of the new ones, and nothing else that
anybody refers to. `good` is what it returns for a history. -/
structure KvBackend.Sound (backend : KvBackend μ L) (fits : KVManager → Prop)
    (spec : List TokenId → α) (view : μ → Nat → Nat → α) (good : List TokenId → List L → Prop) :
    Prop where
  copyTail : ∀ kv copy memory, fits kv → copy.validTokens ≤ kv.config.blockTokens →
    (∀ b i, view (backend.copyTail (kv.tailCopyRegion copy) memory) b i = view memory b i ∨
      b = copy.destination) ∧
    ∀ i < copy.validTokens, view (backend.copyTail (kv.tailCopyRegion copy) memory)
      copy.destination i = view memory copy.source i
  forward : ∀ kv a copied memory flat pos state, fits kv →
    KvInv spec (view memory) kv (some { a with copied }) flat pos →
    (a.copy.isSome → copied = true) → kv.sequences.find? a.id = some state →
    ∃ r memory', backend.forward kv a memory = (r, memory') ∧
      KvInv spec (view memory') kv (some { a with copied }) flat pos ∧
      ∀ logits, r = .ok logits → Written spec (view memory') kv a state ∧
        good (state.sequence.tokens ++ a.tokens) logits

/-- The manager once the transaction is committed. -/
def committed (kv : KVManager) (a : KVManager.Append) (state : State) : KVManager :=
  { kv with
    pool := kv.pool.unrefAll (sourcePages (some a))
    sequences := kv.sequences.insert a.id { sequence := committedSequence a state.sequence }
    forwardTokens := kv.forwardTokens + a.tokens.length
    appendActive := false }

/-- A transaction commits with the payload its backend wrote, or is rolled back. -/
theorem KvRunner.transact_wp {fits : KVManager → Prop} {good : List TokenId → List L → Prop}
    (hsound : backend.Sound fits spec view good) (hfits : fits s.kv)
    (h : KvInv spec (view s.memory) s.kv (some a) flat pos)
    (hs : s.kv.sequences.find? a.id = some state) (hfresh : a.copied = false) :
    (KvRunner.transact backend a).wp
      (fun logits s' => good (state.sequence.tokens ++ a.tokens) logits ∧
        s'.kv = committed s.kv a state ∧ s'.faults = s.faults ∧
        KvInv spec (view s'.memory) s'.kv none flat pos)
      (fun e s' => (∃ copied memory memory', (a.copy.isSome → copied = true) ∧
          KvInv spec (view memory) s.kv (some { a with copied }) flat pos ∧
          backend.forward s.kv a memory = (.error e, memory')) ∧
        s'.kv = s.kv.rollback (some a) ∧ s'.faults = s.faults ∧
        KvInv spec (view s'.memory) s'.kv none flat pos) s := by
  obtain ⟨state', hs', htx⟩ := h.transaction a rfl
  obtain rfl := Option.some.inj (hs'.symm.trans hs)
  -- the tail copy
  have hcopied : ∃ copied, (a.copy.isSome → copied = true) ∧
      s.kv.copySharedTailRegion (some a) (fun _ => .ok ()) = (.ok (), some { a with copied }) ∧
      KvInv spec (view (copyShared backend s.kv a s.memory)) s.kv (some { a with copied }) flat
        pos := by
    rcases hc : a.copy with _ | c
    · have hshared : copyShared backend s.kv a s.memory = s.memory := by rw [copyShared, hc]
      refine ⟨false, fun hsome => (by cases hsome), ?_, ?_⟩
      · rw [copySharedTailRegion]
        simp only [hc]
        rw [← hfresh, ← hc]
      · rw [hshared, ← hfresh, ← hc]
        exact h
    · have hshared : copyShared backend s.kv a s.memory =
          backend.copyTail (s.kv.tailCopyRegion c) s.memory := by rw [copyShared, hc]
      have hvalid : c.validTokens ≤ s.kv.config.blockTokens := by
        rw [(htx.partial_tail c hc).1]
        exact (Nat.mod_lt _ s.kv.pool.valid.blockTokens_pos).le
      obtain ⟨hframe, hcopy⟩ := hsound.copyTail s.kv c s.memory hfits hvalid
      refine ⟨true, fun _ => rfl, ?_, ?_⟩
      · rw [copySharedTailRegion]
        simp only [hc]
      · rw [hshared, ← hc]
        exact h.copyTail hs hc hframe fun _ => hcopy
  obtain ⟨copied, hready, hregion, hinv⟩ := hcopied
  -- the forward pass on the prepared pages
  obtain ⟨r, memory', hforward, hinv', hgood⟩ :=
    hsound.forward s.kv a copied _ flat pos state' hfits hinv hready hs
  rw [wp, KvRunner.transact]
  simp only [hregion, hforward]
  cases r with
  -- the backend threw: rollback
  | error e =>
    exact ⟨⟨copied, _, memory', hready, hinv, hforward⟩, rfl, rfl, hinv'.rollback⟩
  -- the backend returned: commit
  | ok logits =>
    obtain ⟨hwritten, hlogits⟩ := hgood logits rfl
    have hcommit := hinv'.commit hs hready hwritten
    have hok : s.kv.commit (some { a with copied }) =
        (.ok (), committed s.kv a state', none) := commit_ok hs hready
    rw [hok] at hcommit
    simp only [hok]
    exact ⟨hlogits, trivial, trivial, hcommit⟩

end Sound

end TinyInfer.MiniPrefix
