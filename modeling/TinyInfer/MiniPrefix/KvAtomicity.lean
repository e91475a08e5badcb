import TinyInfer.MiniPrefix.KvRuns

/-!
# Operations are atomic

An append attempt either commits or leaves no trace but the evictions it made:
`UpToEvictions` compares the states before and after. While a transaction is open
the other operations refuse to run, so an open transaction stays what
`prepare_append` made it (`InFlight`), and its rollback undoes exactly that
(`Prepared.rollback`).
-/

namespace TinyInfer.MiniPrefix

open Lib KVManager

variable {α : Type} {spec : List TokenId → α} {payload : Nat → Nat → α} {kv : KVManager}
  {append : Option KVManager.Append} {flat : FlatCache} {pos : Nat → Nat}

/-- Sequences and forward tokens are the same, and the references differ only by
leases the cache gave up. -/
structure UpToEvictions (kv kv' : KVManager) : Prop where
  sequences : kv'.sequences = kv.sequences
  forwardTokens : kv'.forwardTokens = kv.forwardTokens
  leases_le : ∀ b, kv'.prefixCache.index.leases b ≤ kv.prefixCache.index.leases b
  references : ∀ b, kv'.pool.references b + kv.prefixCache.index.leases b =
    kv.pool.references b + kv'.prefixCache.index.leases b

theorem UpToEvictions.refl (kv : KVManager) : UpToEvictions kv kv :=
  ⟨rfl, rfl, fun _ => le_rfl, fun _ => rfl⟩

/-- A state after evictions is the old one up to evictions. -/
theorem Evicted.upToEvictions {kv' : KVManager} {flat' : FlatCache}
    (he : Evicted kv kv' flat flat') (h : KvInv spec payload kv none flat pos)
    (h' : KvInv spec payload kv' none flat' pos) : UpToEvictions kv kv' := by
  have hleases : ∀ b, kv.prefixCache.index.leases b = flat.pages.count b := h.cache.leases
  have hleases' : ∀ b, kv'.prefixCache.index.leases b = flat'.pages.count b := h'.cache.leases
  have hseq : ∀ b, kv'.sequenceLeases b = kv.sequenceLeases b := fun b => by
    rw [he.same]
    rfl
  refine ⟨by rw [he.same], by rw [he.same], fun b => ?_, fun b => ?_⟩
  · rw [hleases, hleases']
    exact (he.entries.sublist.map Prod.snd).count_le b
  · rw [hleases, hleases', h.accounts.refs, h'.accounts.refs, outside, outside, hseq]
    omega

/-! ## Undoing a prepared transaction -/

section Rollback

variable {kv' : KVManager} {state : State} {a : KVManager.Append} {fresh : List Nat}

/-- The rollback of a prepared transaction restores the evicted state; meanwhile the
reservations may have changed, and the copy may have been attempted. -/
theorem Prepared.rollback (hp : Prepared kv kv' flat state a fresh)
    (h : KvInv spec payload kv none flat pos) (hfind : kv.sequences.find? a.id = some state)
    (reservations : OrdMap RequestId Nat) (copied : Bool) :
    ∃ pool, ({ kv' with reservations } : KVManager).rollback (some { a with copied }) =
        { kv with pool, reservations } ∧
      ∀ b, pool.references b = kv.pool.references b := by
  have hs : kv'.sequences.find? a.id = some
      { sequence := { state.sequence with
          blocks := replaceTail a.copy state.sequence.blocks ++ fresh }
        appending := true } := by
    rw [hp.shape]
    exact OrdMap.find?_insert_self _ _ _
  have hlen : (replaceTail a.copy state.sequence.blocks).length = a.originalBlocks := by
    rw [replaceTail_length, hp.originalBlocks]
  have hrestored : restoredBlocks { a with copied }
      (replaceTail a.copy state.sequence.blocks ++ fresh) = state.sequence.blocks := by
    have hstable : KVManager.stableBlocks (some { a with copied }) a.id
        (replaceTail a.copy state.sequence.blocks ++ fresh) = state.sequence.blocks ++ fresh :=
      hp.stableBlocks
    rw [restoredBlocks, hstable]
    exact List.take_left' hp.originalBlocks.symm
  have hdropped : droppedPages { a with copied }
      (replaceTail a.copy state.sequence.blocks ++ fresh) =
        fresh.reverse ++ destinationPages a.copy := by
    rw [droppedPages]
    exact congrArg (fun l : List Nat => l.reverse ++ _) (List.drop_left' hlen)
  have hacc : (kv'.pool.unrefAll (fresh.reverse ++ destinationPages a.copy)).Accounts
      fun b => kv.sequenceLeases b + flat.pages.count b := by
    refine KvBlockPool.unrefAll_accounts hp.accounts fun b => ?_
    rw [List.count_append, List.count_append, List.count_reverse]
    omega
  have hstate : ({ sequence := state.sequence } : State) = state := by
    have := h.not_appending hfind
    obtain ⟨sequence, appending⟩ := state
    simp only at this
    rw [this]
  refine ⟨kv'.pool.unrefAll (fresh.reverse ++ destinationPages a.copy), ?_,
    fun b => (hacc.refs b).trans (h.accounts.refs b).symm⟩
  have hrun := rollback_eq (a := { a with copied })
    (show ({ kv' with reservations } : KVManager).sequences.find? a.id = some _ from hs)
  rw [hrun]
  dsimp only
  rw [hrestored, hdropped]
  generalize kv'.pool.unrefAll (fresh.reverse ++ destinationPages a.copy) = pool
  rw [hp.shape]
  have hactive : kv.appendActive = false := h.active
  have hseq : (kv.sequences.insert a.id { sequence := { state.sequence with
        blocks := replaceTail a.copy state.sequence.blocks ++ fresh }, appending := true }).insert
        a.id { sequence := state.sequence } = kv.sequences := by
    rw [OrdMap.insert_insert_self, hstate, OrdMap.insert_eq_self hfind]
  dsimp only
  rw [hseq, ← hactive]

end Rollback

/-! ## An open transaction -/

/-- The reservation an operation gives up, also while a transaction is open. -/
def KvOp.released : KvOp → Option RequestId
  | .releaseReservation id => some id
  | _ => none

/-- The callback of a tail copy. -/
def KvOp.copier : KvOp → Option (TailCopyRegion → Except Exn Unit)
  | .copySharedTail copier => some copier
  | _ => none

/-- The operations that do not end a transaction. -/
def KvOp.KeepsOpen : KvOp → Prop
  | .commit | .rollback => False
  | _ => True

theorem requireIdle_busy (h : kv.appendActive = true) :
    kv.requireIdle = .error (.logicError "KV append transaction is active") := by
  rw [KVManager.requireIdle, if_pos h]

theorem idleState_busy (h : kv.appendActive = true) (id : RequestId) :
    kv.idleState id = .error (.logicError "KV append transaction is active") := by
  rw [KVManager.idleState, requireIdle_busy h]

/-- While a transaction is open, all other operations refuse to run. -/
theorem step_busy {s : KvSystem} (h : s.kv.appendActive = true) {op : KvOp} (hop : op.KeepsOpen)
    (hrelease : op.released = none) (hcopy : op.copier = none) : (s.step op).2 = s := by
  have hidle := requireIdle_busy h
  have hstate := idleState_busy h
  cases op with
  | reserveRequest id maxTokens => simp only [KvSystem.step, reserveRequest, hidle]
  | releaseReservation id => cases hrelease
  | create id => simp only [KvSystem.step, create, hidle]
  | forkSequence source target => simp only [KvSystem.step, forkSequence, hidle]
  | reusePrefix id prompt =>
    simp only [KvSystem.step, reusePrefix, hstate]
    split
    · rfl
    · split <;> rfl
  | cachePrefix id => simp only [KvSystem.step, cachePrefix, hstate]
  | clearPrefixCache => simp only [KvSystem.step, clearPrefixCache, hidle]
  | prepareAppend id tokens => simp only [KvSystem.step, prepareAppend, hstate]
  | copySharedTail copier => cases hcopy
  | commit => exact hop.elim
  | rollback => exact hop.elim
  | resetSequence id => simp only [KvSystem.step, resetSequence, hstate]
  | release id => simp only [KvSystem.step, release, hidle]
  | clear => simp only [KvSystem.step, clear, hidle]

/-- The last attempt to copy the shared tail page returned. -/
def LastCopyReturned (kv : KVManager) (a : KVManager.Append) (ops : List KvOp) : Prop :=
  ∃ before copier after, ops = before ++ .copySharedTail copier :: after ∧
    (∀ op ∈ after, op.copier = none) ∧
    ∀ c, a.copy = some c → copier (kv.tailCopyRegion c) = .ok ()

/-- The state `t` after `ops`, none of which ended the transaction `a`: only
reservations were given up, and the copy attempted. -/
structure InFlight (kv : KVManager) (a : KVManager.Append) (ops : List KvOp) (t : KvSystem) :
    Prop where
  same : t.kv = { kv with
    reservations := (ops.filterMap KvOp.released).foldl OrdMap.erase kv.reservations }
  live : ∃ copied, t.append = some { a with copied } ∧
    (copied = true → LastCopyReturned kv a ops)

/-- A call that copies nothing leaves the last copy the last. -/
theorem LastCopyReturned.snoc {a : KVManager.Append} {ops : List KvOp}
    (h : LastCopyReturned kv a ops) {op : KvOp} (hop : op.copier = none) :
    LastCopyReturned kv a (ops ++ [op]) := by
  obtain ⟨before, copier, after, rfl, hafter, hok⟩ := h
  refine ⟨before, copier, after ++ [op], by simp, fun op' hmem => ?_, hok⟩
  rcases List.mem_append.mp hmem with hin | hin
  · exact hafter op' hin
  · rw [List.mem_singleton.mp hin]
    exact hop

/-- A call that keeps the append open keeps it in flight. -/
theorem InFlight.step {a : KVManager.Append} {ops : List KvOp} {t : KvSystem}
    (h : InFlight kv a ops t) (hactive : kv.appendActive = true) {op : KvOp}
    (hop : op.KeepsOpen) : InFlight kv a (ops ++ [op]) (t.step op).2 := by
  obtain ⟨copied, happend, hcopied⟩ := h.live
  cases hrelease : op.released with
  | some id =>
    cases op with
    | releaseReservation other =>
      refine ⟨?_, copied, happend, fun hc => (hcopied hc).snoc rfl⟩
      simp only [KvSystem.step, KVManager.releaseReservation, h.same, List.filterMap_append,
        List.foldl_append]
      rfl
    | _ => cases hrelease
  | none =>
  have hsame : ((ops ++ [op]).filterMap KvOp.released) = ops.filterMap KvOp.released := by
    rw [List.filterMap_append, List.filterMap_cons, hrelease]
    simp
  cases hcopy : op.copier with
  | none =>
    have hbusy : t.kv.appendActive = true := by
      rw [h.same]
      exact hactive
    rw [step_busy hbusy hop hrelease hcopy]
    exact ⟨by rw [hsame]; exact h.same, copied, happend, fun hc => (hcopied hc).snoc hcopy⟩
  | some copier =>
    cases op with
    | copySharedTail copier' =>
      simp only [KvSystem.step, happend]
      rcases copySharedTailRegion_cases t.kv { a with copied } copier' with
        ⟨hnone, heq⟩ | ⟨c, hc, ⟨e, -, heq⟩ | ⟨hrun, heq⟩⟩
      · rw [heq]
        refine ⟨by rw [hsame]; exact h.same, copied, rfl, fun _ => ⟨ops, copier', [], rfl, ?_, ?_⟩⟩
        · exact fun op hmem => by cases hmem
        · intro c hc
          rw [hnone] at hc
          cases hc
      · rw [heq]
        exact ⟨by rw [hsame]; exact h.same, false, rfl, fun hfalse => by cases hfalse⟩
      · rw [heq]
        refine ⟨by rw [hsame]; exact h.same, true, rfl, fun _ => ⟨ops, copier', [], rfl, ?_, ?_⟩⟩
        · exact fun op hmem => by cases hmem
        · intro c' hc'
          obtain rfl := Option.some.inj (hc.symm.trans hc')
          rw [h.same] at hrun
          exact hrun
    | _ => cases hcopy

/-- An open transaction stays what it was prepared as. -/
theorem inFlight_run {a : KVManager.Append} (hactive : kv.appendActive = true)
    (hcopied : a.copied = false) (ops : List KvOp) (hops : ∀ op ∈ ops, op.KeepsOpen) :
    InFlight kv a ops (KvSystem.run { kv, append := some a } ops) := by
  induction ops using List.reverseRecOn with
  | nil =>
    refine ⟨rfl, a.copied, rfl, fun hc => ?_⟩
    rw [hcopied] at hc
    cases hc
  | append_singleton ops op ih =>
    rw [KvSystem.run, List.foldl_append]
    exact (ih fun op' hmem => hops op' (List.mem_append_left _ hmem)).step hactive
      (hops op (List.mem_append_right _ List.mem_cons_self))

/-! ## The two ends of a transaction -/

/-- The state `t` is `s` again, up to the leases given up by eviction and the
reservations released meanwhile. -/
structure Undone (s : KvSystem) (ops : List KvOp) (t : KvSystem) : Prop where
  finished : t.append = none
  same : UpToEvictions s.kv t.kv
  reservations : t.kv.reservations =
    (ops.filterMap KvOp.released).foldl OrdMap.erase s.kv.reservations

/-- The state `t` is `s` with the history of `id` extended by `tokens`. -/
structure Extended (s : KvSystem) (id : RequestId) (tokens : List TokenId) (ops : List KvOp)
    (t : KvSystem) : Prop where
  finished : t.append = none
  sequences : ∃ state blocks, s.kv.sequences.find? id = some state ∧
    t.kv.sequences = s.kv.sequences.insert id { sequence :=
      { used := state.sequence.used + tokens.length
        blocks
        tokens := state.sequence.tokens ++ tokens } }
  forwardTokens : t.kv.forwardTokens = s.kv.forwardTokens + tokens.length
  reservations : t.kv.reservations =
    (ops.filterMap KvOp.released).foldl OrdMap.erase s.kv.reservations

/-- A transaction ends in its commit or as if it had not been. -/
theorem KvInv.transaction_ends {s : KvSystem} (h : KvInv spec payload s.kv s.append flat pos)
    {id : RequestId} {tokens : List TokenId} {a : KVManager.Append} {kv' : KVManager}
    {ops : List KvOp} (hrun : s.kv.prepareAppend id tokens = (.ok a, kv'))
    (hops : ∀ op ∈ ops, op.KeepsOpen) {t : KvSystem}
    (ht : KvSystem.run { kv := kv', append := some a } ops = t) :
    Undone s ops (t.step .rollback).2 ∧
      ((t.step .commit).1 = .ok () → (a.copy.isSome → LastCopyReturned kv' a ops) ∧
        Extended s id tokens ops (t.step .commit).2) := by
  rcases h.prepareAppend id tokens with ⟨e, heq, -⟩ | ⟨e, kv', flat', state, heq, -⟩ |
    ⟨a', kv₁, kv'', flat', state, fresh, heq, hc, hevicted, hinv, rfl, rfl, hp⟩
  -- the append was prepared, so it found its pages
  · rw [heq] at hrun
    cases hrun
  · rw [heq] at hrun
    cases hrun
  rw [heq] at hrun
  simp only [Prod.mk.injEq, Except.ok.injEq] at hrun
  obtain ⟨rfl, rfl⟩ := hrun
  rw [hc.idle] at h
  have hactive : kv''.appendActive = true := by rw [hp.shape]
  have hopen := inFlight_run hactive hp.copied ops hops
  rw [ht] at hopen
  obtain ⟨copied, happend, hcopied⟩ := hopen.live
  have hfind := (hevicted.checked hc).found
  have hreservations : kv''.reservations = s.kv.reservations := by
    rw [hp.shape, hevicted.same]
  constructor
  -- a rollback gives the pages back
  · obtain ⟨pool, hundo, hrefs⟩ := hp.rollback hinv hfind
      ((ops.filterMap KvOp.released).foldl OrdMap.erase kv''.reservations) copied
    have hsame := hevicted.upToEvictions h hinv
    simp only [KvSystem.step, happend, hopen.same, hundo]
    refine ⟨rfl, ⟨hsame.sequences, hsame.forwardTokens, hsame.leases_le, fun b => ?_⟩, ?_⟩
    · rw [hrefs]
      exact hsame.references b
    · rw [hreservations]
  -- a commit that returns appends the tokens
  · intro hok
    -- the tail was copied, or nothing was shared
    have hready : ({ a' with copied } : KVManager.Append).copy.isSome → copied = true := by
      intro hsome
      by_contra hfalse
      have hrefused : t.kv.commit (some { a' with copied }) = _ :=
        commit_refused hsome (Bool.eq_false_iff.mpr hfalse)
      simp only [KvSystem.step, happend, hrefused] at hok
      cases hok
    refine ⟨fun hsome => hcopied (hready hsome), ?_⟩
    have hs : t.kv.sequences.find? a'.id = some
        { sequence := { state.sequence with
            blocks := replaceTail a'.copy state.sequence.blocks ++ fresh }
          appending := true } := by
      rw [hopen.same, hp.shape]
      exact OrdMap.find?_insert_self _ _ _
    have hcommit := commit_ok (a := { a' with copied }) hs hready
    simp only [KvSystem.step, happend, hcommit]
    -- the sequences, the tokens and the reservations after the commit
    refine ⟨rfl, ⟨state, replaceTail a'.copy state.sequence.blocks ++ fresh, hc.found, ?_⟩, ?_, ?_⟩
    · dsimp only
      rw [hopen.same]
      dsimp only
      rw [hp.shape, hevicted.same]
      dsimp only [committedSequence]
      rw [OrdMap.insert_insert_self]
    · dsimp only
      rw [hopen.same]
      dsimp only
      rw [hp.shape, hevicted.same]
    · dsimp only
      rw [hopen.same]
      dsimp only
      rw [hreservations]

/-- **Atomicity.** From every reachable state: (a) an append attempt that does not
commit leaves sequences, reservations and forward tokens alone, and the references
up to evictions, of which there are none before the argument checks; (b) a fork or a
prefix reuse that throws leaves the ledger alone; (c) a commit needs a completed tail
copy, and appends exactly the tokens of the transaction. -/
theorem kv_operations_atomic {s : KvSystem} (h : s.Reachable) :
    (∀ id tokens e kv', s.kv.prepareAppend id tokens = (.error e, kv') →
      UpToEvictions s.kv kv' ∧ kv'.reservations = s.kv.reservations ∧
        ((∀ state, ¬ Checked s.kv s.append id tokens state) → kv' = s.kv)) ∧
    (∀ id tokens a kv' ops t, s.kv.prepareAppend id tokens = (.ok a, kv') →
      (∀ op ∈ ops, op.KeepsOpen) → KvSystem.run { kv := kv', append := some a } ops = t →
      Undone s ops (t.step .rollback).2 ∧
        ((t.step .commit).1 = .ok () → (a.copy.isSome → LastCopyReturned kv' a ops) ∧
          Extended s id tokens ops (t.step .commit).2)) ∧
    (∀ source target e kv', s.kv.forkSequence source target = (.error e, kv') →
      SameLedger s.kv kv') ∧
    (∀ id prompt e kv', s.kv.reusePrefix id prompt = (.error e, kv') → SameLedger s.kv kv') ∧
    ∀ e t, s.step .commit = (.error e, t) → t = s := by
  obtain ⟨flat, pos, h⟩ := h.ledger
  refine ⟨fun id tokens e kv' hrun => ?_, fun id tokens a kv' ops t hrun hops ht =>
    h.transaction_ends hrun hops ht, fun source target e kv' hrun => ?_,
    fun id prompt e kv' hrun => ?_, fun e t hrun => ?_⟩
  -- `prepare_append` refused, before or after evictions
  · rcases h.prepareAppend id tokens with ⟨e', heq, -⟩ |
      ⟨e', kv'', flat', state, heq, hc, hevicted, hinv, -⟩ | ⟨a, kv₁, kv'', flat', state, _, heq, -⟩
    · rw [heq] at hrun
      simp only [Prod.mk.injEq] at hrun
      obtain ⟨-, rfl⟩ := hrun
      exact ⟨.refl _, rfl, fun _ => rfl⟩
    · rw [heq] at hrun
      simp only [Prod.mk.injEq] at hrun
      obtain ⟨-, rfl⟩ := hrun
      rw [hc.idle] at h
      exact ⟨hevicted.upToEvictions h hinv, by rw [hevicted.same],
        fun hno => absurd hc (hno state)⟩
    · rw [heq] at hrun
      cases hrun
  -- `fork_sequence`
  · rcases h.forkSequence source target with ⟨e', heq⟩ | ⟨original, pool, -, -, -, heq, -⟩
    · rw [heq] at hrun
      simp only [Prod.mk.injEq] at hrun
      obtain ⟨-, rfl⟩ := hrun
      exact .refl _
    · rw [heq] at hrun
      cases hrun
  -- `reuse_prefix`
  · rcases h.reusePrefix id prompt with ⟨e', kv'', flat', heq, hsame, -⟩ |
      ⟨count, found, cache, pool, costs, flat', -, -, -, heq, -⟩
    · rw [heq] at hrun
      simp only [Prod.mk.injEq] at hrun
      obtain ⟨-, rfl⟩ := hrun
      exact hsame
    · rw [heq] at hrun
      cases hrun
  -- `commit`
  · obtain ⟨kv, append⟩ := s
    cases append with
    | none =>
      simp only [KvSystem.step, KVManager.commit, Prod.mk.injEq] at hrun
      exact hrun.2.symm
    | some a =>
      by_cases hcopy : a.copy.isSome ∧ a.copied = false
      · simp only [KvSystem.step, commit_refused hcopy.1 hcopy.2, Prod.mk.injEq] at hrun
        exact hrun.2.symm
      · obtain ⟨state, hs, -⟩ := h.transaction a rfl
        have hready : a.copy.isSome → a.copied = true := fun hsome =>
          Bool.not_eq_false _ ▸ fun hfalse => hcopy ⟨hsome, hfalse⟩
        simp only [KvSystem.step, commit_ok hs hready] at hrun
        cases hrun

/-- An append that replaces a cached tail page, fails to copy it and is rolled back. -/
theorem kv_operations_atomic_failed_copy : ∃ kv, construct ⟨2, 4, 2⟩ 1 1 8 8 = .ok kv ∧
    ∃ s t, KvSystem.run { kv }
        [.create "a", .prepareAppend "a" [1, 2, 3], .commit, .cachePrefix "a"] = s ∧
      Undone s [.copySharedTail fun _ => .error (.runtimeError "copy")] t := by
  have h := (kv_operations_atomic (s := KvSystem.run _
    [.create "a", .prepareAppend "a" [1, 2, 3], .commit, .cachePrefix "a"])
    ⟨⟨2, 4, 2⟩, 1, 1, 8, 8, _, _, rfl, rfl⟩).2.1 "a" [4] _ _
    [.copySharedTail fun _ => .error (.runtimeError "copy")] _ rfl (by simp [KvOp.KeepsOpen]) rfl
  exact ⟨_, rfl, _, _, rfl, h.1⟩

end TinyInfer.MiniPrefix
