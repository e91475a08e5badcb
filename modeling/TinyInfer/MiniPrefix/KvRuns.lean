import TinyInfer.MiniPrefix.KvTransaction

/-!
# Runs of the KV manager

Every public operation keeps the invariant, in any order and whether it returns or
throws. `KvOk` hides the flat cache and the page positions; `KvOp.Quiet` are the
operations that touch no payload and need no assumption about it. A commit needs
its slots written, and a completed tail copy needs the copied slots.

`Ledger` is the invariant without any payload. It holds in every reachable state.
-/

namespace TinyInfer.MiniPrefix

open Lib KVManager

variable {α : Type} {spec : List TokenId → α} {payload : Nat → Nat → α}

/-! ## Construction -/

/-- A manager that was constructed has a pool and nothing else. -/
theorem construct_eq {config : KvCacheConfig} {layers width context vocabulary : Nat}
    {kv : KVManager} (h : construct config layers width context vocabulary = .ok kv) :
    ∃ pool hvalid, KvBlockPool.create config layers width = .ok pool ∧
      kv = { layers, width, context, vocabulary, valid := hvalid, pool } := by
  rw [construct] at h
  cases hpool : KvBlockPool.create config layers width with
  | error e =>
    rw [hpool] at h
    cases h
  | ok pool =>
    rw [hpool] at h
    simp only at h
    split at h
    · cases h
    · cases h
      exact ⟨pool, _, rfl, rfl⟩

theorem create_peak {config : KvCacheConfig} {layers width : Nat} {pool : KvBlockPool}
    (h : KvBlockPool.create config layers width = .ok pool) : pool.live ≤ pool.peak := by
  have := (KvBlockPool.create_accounts h).2.2
  omega

/-- A new manager satisfies the invariant, for any payload. -/
theorem KvInv.construct {config : KvCacheConfig} {layers width context vocabulary : Nat}
    {kv : KVManager} (h : KVManager.construct config layers width context vocabulary = .ok kv)
    (spec : List TokenId → α) (payload : Nat → Nat → α) :
    KvInv spec payload kv none {} (fun _ => 0) := by
  obtain ⟨pool, hvalid, hpool, rfl⟩ := construct_eq h
  exact
    { cache := .empty _
      accounts := (KvBlockPool.create_accounts hpool).2.1.congr fun b => rfl
      peak := create_peak hpool
      entry := fun k b he => by cases he
      sequence := fun id state hs => by cases hs
      active := rfl
      transaction := fun a ha => by cases ha
      idle := fun id state hs => by cases hs
      reserved := fun id pages hp => by cases hp
      committed := fun hne => by cases hne }

/-! ## Steps -/

/-- The operations that neither move payload nor depend on it. -/
def KvOp.Quiet : KvOp → Prop
  | .commit | .copySharedTail _ => False
  | _ => True

/-- Preparing an append opens it, or throws and keeps the invariant. -/
theorem KvOk.prepareAppend {kv : KVManager} {append : Option KVManager.Append}
    (h : KvOk spec payload kv append) (id : RequestId) (tokens : List TokenId) :
    (∃ e kv', kv.prepareAppend id tokens = (.error e, kv') ∧ KvOk spec payload kv' append) ∨
      ∃ a kv', kv.prepareAppend id tokens = (.ok a, kv') ∧ KvOk spec payload kv' (some a) := by
  obtain ⟨flat, pos, h⟩ := h
  rcases h.prepareAppend id tokens with ⟨e, heq, -⟩ | ⟨e, kv', flat', state, heq, hc, -, hinv, -⟩ |
    ⟨a, kv₁, kv', flat', state, fresh, heq, hc, hevicted, hinv, rfl, rfl, hp⟩
  · exact Or.inl ⟨e, kv, heq, h.ok⟩
  · obtain rfl := hc.idle
    exact Or.inl ⟨e, kv', heq, hinv.ok⟩
  · obtain rfl := hc.idle
    exact Or.inr ⟨a, kv', heq, (hp.inv hinv (hevicted.checked hc)).ok⟩

/-- Every call that moves no payload keeps the invariant. -/
theorem KvOk.step {s : KvSystem} (h : KvOk spec payload s.kv s.append) {op : KvOp}
    (hop : op.Quiet) : KvOk spec payload (s.step op).2.kv (s.step op).2.append := by
  obtain ⟨flat, pos, h⟩ := h
  cases op with
  | reserveRequest id maxTokens => exact (h.reserveRequest id maxTokens).ok
  | releaseReservation id => exact (h.releaseReservation id).ok
  | create id => exact (h.create id).ok
  | forkSequence source target =>
    rcases h.forkSequence source target with ⟨e, heq⟩ |
      ⟨original, pool, hnone, -, -, heq, hinv, -⟩
    · simp only [KvSystem.step, heq]
      exact h.ok
    · simp only [KvSystem.step, heq, hnone]
      exact hinv.ok
  | reusePrefix id prompt =>
    rcases h.reusePrefix id prompt with ⟨e, kv', flat', heq, -, hinv, -⟩ |
      ⟨count, found, cache, pool, costs, flat', hnone, -, -, heq, hinv, -⟩
    · simp only [KvSystem.step, heq]
      exact hinv.ok
    · simp only [KvSystem.step, heq, hnone]
      exact hinv.ok
  | cachePrefix id =>
    rcases h.cachePrefix id with ⟨e, heq, -⟩ | ⟨cache, pool, costs, flat', hnone, heq, hinv, -⟩
    · simp only [KvSystem.step, heq]
      exact h.ok
    · simp only [KvSystem.step, heq, hnone]
      exact hinv.ok
  | clearPrefixCache =>
    rcases h.clearPrefixCache with ⟨e, heq, -⟩ | ⟨cache, pool, flat', hnone, heq, -, hinv, -⟩
    · simp only [KvSystem.step, heq]
      exact h.ok
    · simp only [KvSystem.step, heq, hnone]
      exact hinv.ok
  | prepareAppend id tokens =>
    rcases h.ok.prepareAppend id tokens with ⟨e, kv', heq, hinv⟩ | ⟨a, kv', heq, hinv⟩
    · simp only [KvSystem.step, heq]
      exact hinv
    · simp only [KvSystem.step, heq]
      exact hinv
  -- quiet runs have no transaction of their own
  | copySharedTail copier => exact hop.elim
  | commit => exact hop.elim
  | rollback =>
    simp only [KvSystem.step]
    cases happend : s.append with
    | none =>
      rw [happend] at h
      exact h.ok
    | some a =>
      rw [happend] at h
      exact h.rollback.ok
  | resetSequence id =>
    rcases h.resetSequence id with ⟨e, heq⟩ | ⟨state, hnone, hfind, heq⟩
    · simp only [KvSystem.step, heq]
      exact h.ok
    · rw [hnone] at h
      simp only [KvSystem.step, heq, hnone]
      exact (h.emptySequence hfind).ok
  | release id =>
    rcases h.release id with ⟨e, heq, -⟩ | ⟨state, hnone, -, heq, hinv⟩
    · simp only [KvSystem.step, heq]
      exact h.ok
    · simp only [KvSystem.step, hnone]
      exact hinv.ok
  | clear =>
    rcases h.clear with ⟨e, heq⟩ | ⟨cache, pool, flat', hnone, heq, -, hinv, -⟩
    · simp only [KvSystem.step, heq]
      exact h.ok
    · simp only [KvSystem.step, heq, hnone]
      exact hinv.ok

/-! ## The ledger of every run -/

/-- The invariant without payload. -/
abbrev Ledger (s : KvSystem) : Prop :=
  KvOk (fun _ => ()) (fun _ _ => ()) s.kv s.append

/-- A commit keeps the ledger. -/
theorem Ledger.commit {s : KvSystem} (h : Ledger s) : Ledger (s.step .commit).2 := by
  obtain ⟨kv, append⟩ := s
  cases append with
  | none => exact h
  | some a =>
    obtain ⟨flat, pos, h⟩ := h
    by_cases hcopy : a.copy.isSome ∧ a.copied = false
    · simp only [KvSystem.step, commit_refused hcopy.1 hcopy.2]
      exact h.ok
    · have hready : a.copy.isSome → a.copied = true := fun hsome =>
        Bool.not_eq_false _ ▸ fun hfalse => hcopy ⟨hsome, hfalse⟩
      obtain ⟨state, hs, -⟩ := h.transaction a rfl
      have hinv := h.commit hs hready fun _ _ _ _ _ => rfl
      rw [commit_ok hs hready] at hinv
      simp only [KvSystem.step, commit_ok hs hready]
      exact hinv.ok

/-- Copying the shared tail keeps the ledger. -/
theorem Ledger.copySharedTail {s : KvSystem} (h : Ledger s)
    (copier : TailCopyRegion → Except Exn Unit) : Ledger (s.step (.copySharedTail copier)).2 := by
  obtain ⟨kv, append⟩ := s
  cases append with
  | none => exact h
  | some a =>
    obtain ⟨flat, pos, h⟩ := h
    obtain ⟨state, hs, -⟩ := h.transaction a rfl
    rcases copySharedTailRegion_cases kv a copier with
      ⟨-, heq⟩ | ⟨c, hcopy, ⟨e, -, heq⟩ | ⟨-, heq⟩⟩
    · simp only [KvSystem.step, heq]
      exact h.ok
    · simp only [KvSystem.step, heq]
      exact (h.copyTail hs hcopy (fun _ _ => Or.inl rfl) fun _ _ _ => rfl).ok
    · simp only [KvSystem.step, heq]
      exact (h.copyTail hs hcopy (fun _ _ => Or.inl rfl) fun _ _ _ => rfl).ok

/-- Every call keeps the ledger. -/
theorem Ledger.step {s : KvSystem} (h : Ledger s) (op : KvOp) : Ledger (s.step op).2 := by
  by_cases hop : op.Quiet
  · exact KvOk.step h hop
  cases op with
  | commit => exact h.commit
  | copySharedTail copier => exact h.copySharedTail copier
  | _ => exact absurd trivial hop

theorem Ledger.run {s : KvSystem} (h : Ledger s) (ops : List KvOp) : Ledger (s.run ops) := by
  induction ops generalizing s with
  | nil => exact h
  | cons op ops ih => exact ih (h.step op)

theorem KvSystem.Reachable.ledger {s : KvSystem} (h : s.Reachable) : Ledger s := by
  obtain ⟨config, layers, width, context, vocabulary, kv, ops, hkv, rfl⟩ := h
  exact Ledger.run (KvInv.construct hkv _ _).ok ops

end TinyInfer.MiniPrefix
