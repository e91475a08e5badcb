import TinyInfer.MiniPrefix.FlatPublish
import TinyInfer.MiniPrefix.CacheClients
import TinyInfer.MiniPrefix.KvAccounting
import Mathlib.Order.Bounds.Defs

/-!
# Reuse restores the longest usable prefix

- `ExactPrefixCache.InUse`: the states of a cache and its pool, whatever the
  owners of the pages do;
- `Index.LeasedTo`: a node that is leased together with all its ancestors, its
  history and the pages on the way to it;
- `reuse_longest`: `reuse` restores exactly the longest prefix that such a node
  shares with the prompt, and hands out the pages on the way to it.
-/

namespace TinyInfer.MiniPrefix

open Lib

/-! ## A cache in use -/

namespace ExactPrefixCache

/-- Every page of the sequence, if it is one of the pool, is referenced by
somebody besides the cache. -/
def Referenced (cache : ExactPrefixCache) (pool : KvBlockPool) (sequence : PagedSequence) : Prop :=
  ∀ b ∈ sequence.blocks, b < pool.config.maxBlocks → cache.index.leases b < pool.references b

/-- The states of a cache and its pool. Between its operations the owners of the
pages may do to the pool what they like, as long as its counts stay right and
the cache keeps its references (`owners`). -/
inductive InUse : ExactPrefixCache → KvBlockPool → Prop where
  | start {config : KvCacheConfig} {layers width : Nat} {pool : KvBlockPool}
      (created : KvBlockPool.create config layers width = .ok pool) : InUse {} pool
  | owners {cache : ExactPrefixCache} {pool pool' : KvBlockPool} {held : Nat → Nat}
      (before : InUse cache pool) (config : pool'.config = pool.config)
      (accounts : pool'.Accounts fun b => held b + cache.index.leases b) : InUse cache pool'
  | publish {cache : ExactPrefixCache} {pool : KvBlockPool} (before : InUse cache pool)
      (sequence : PagedSequence) (pages : cache.Referenced pool sequence) :
      InUse (cache.publish pool sequence).2.1 (cache.publish pool sequence).2.2
  | reuse {cache : ExactPrefixCache} {pool : KvBlockPool} (before : InUse cache pool)
      (sequence : PagedSequence) (prompt : List TokenId) :
      InUse (cache.reuse pool sequence prompt).2.2.1 (cache.reuse pool sequence prompt).2.2.2
  | evictOne {cache : ExactPrefixCache} {pool : KvBlockPool} (before : InUse cache pool) :
      InUse (cache.evictOne pool).2.1 (cache.evictOne pool).2.2
  | clear {cache : ExactPrefixCache} {pool : KvBlockPool} (before : InUse cache pool) :
      InUse (cache.clear pool).1 (cache.clear pool).2

end ExactPrefixCache

/-- The cache stores `flat`, within its capacity, and `held` counts the
references of everybody else. -/
structure CacheInv (cache : ExactPrefixCache) (pool : KvBlockPool) (flat : FlatCache)
    (held : Nat → Nat) : Prop where
  stored : Represents pool.config.blockTokens cache flat
  sound : FlatCache.Sound held flat pool

namespace CacheInv

variable {cache : ExactPrefixCache} {pool : KvBlockPool} {flat : FlatCache} {held : Nat → Nat}

theorem refs (h : CacheInv cache pool flat held) (b : Nat) :
    pool.references b = held b + cache.index.leases b := by
  rw [h.sound.accounts.refs, h.stored.leases, FlatCache.pages]

theorem start {config : KvCacheConfig} {layers width : Nat} {pool : KvBlockPool}
    (h : KvBlockPool.create config layers width = .ok pool) :
    CacheInv {} pool {} fun _ => 0 where
  stored := Represents.empty _
  sound :=
    { accounts := (KvBlockPool.create_accounts h).2.1.congr fun b => by simp [FlatCache.pages]
      nodup := List.nodup_nil
      capacity := Nat.zero_le _ }

theorem owners {pool' : KvBlockPool} {held' : Nat → Nat} (h : CacheInv cache pool flat held)
    (hconfig : pool'.config = pool.config)
    (hacc : pool'.Accounts fun b => held' b + cache.index.leases b) :
    CacheInv cache pool' flat held' where
  stored := hconfig ▸ h.stored
  sound :=
    { accounts := hacc.congr fun b => by rw [h.stored.leases, FlatCache.pages]
      nodup := h.sound.nodup
      capacity := hconfig ▸ h.sound.capacity }

/-- Publishing leaves the references besides those of the cache what they were. -/
theorem publish (h : CacheInv cache pool flat held) {sequence : PagedSequence}
    (hpages : cache.Referenced pool sequence) :
    ∃ flat', CacheInv (cache.publish pool sequence).2.1 (cache.publish pool sequence).2.2 flat'
      held := by
  obtain ⟨outcome, cache', flat', pool', heq, hflat, hrep⟩ := h.stored.publish sequence
  obtain ⟨hsound, hcfg⟩ := h.sound.publish (fun b hb hrange => by
    have hlt := hpages b hb hrange
    rw [h.refs b] at hlt
    omega) hflat
  rw [heq]
  exact ⟨flat', { stored := hcfg ▸ hrep, sound := hsound }⟩

/-- Into an empty sequence a reuse restores the longest match. -/
theorem reuse_empty (h : CacheInv cache pool flat held) (prompt : List TokenId) :
    ∃ count sequence cache' pool' flat', cache.reuse pool {} prompt =
        (.ok count, sequence, cache', pool') ∧
      flat.reuse pool {} prompt = (.ok count, sequence, flat', pool') ∧
      sequence.used = count ∧ sequence.tokens = prompt.take count ∧
      sequence.blocks.length = pagesFor pool.config.blockTokens count ∧
      count ≤ prompt.length - 1 ∧ flat'.entries.Perm flat.entries ∧
      CacheInv cache' pool' flat' fun b => held b + sequence.blocks.count b := by
  obtain ⟨outcome, sequence, cache', flat', pool', heq, hflat, hrep⟩ := h.stored.reuse {} prompt
  obtain ⟨count, found, flat₁, pool₁, hflat₁, hcfg, hperm, hle, hfound, hacc, -⟩ :=
    FlatCache.reuse_accounts h.sound.accounts (show ({} : PagedSequence).used = 0 from rfl) rfl rfl
      prompt
  rw [hflat] at hflat₁
  obtain ⟨rfl, rfl, rfl, rfl⟩ := by simpa only [Prod.mk.injEq] using hflat₁
  refine ⟨count, _, cache', pool', flat', heq, hflat, rfl, rfl, hfound, hle, hperm,
    { stored := hcfg ▸ hrep, sound := { accounts := hacc, nodup := ?_, capacity := ?_ } }⟩
  · exact (hperm.map Prod.fst).nodup_iff.mpr h.sound.nodup
  · rw [FlatCache.keys, (hperm.map Prod.fst).length_eq, hcfg]
    exact h.sound.capacity

/-- A reuse keeps the invariant. -/
theorem reuse (h : CacheInv cache pool flat held) (sequence : PagedSequence)
    (prompt : List TokenId) :
    ∃ flat' held', CacheInv (cache.reuse pool sequence prompt).2.2.1
      (cache.reuse pool sequence prompt).2.2.2 flat' held' := by
  by_cases hbusy : sequence.used ≠ 0 ∨ sequence.blocks ≠ [] ∨ sequence.tokens ≠ []
  · rw [ExactPrefixCache.reuse, if_pos hbusy]
    exact ⟨flat, held, h⟩
  · have hempty : sequence = {} := by
      obtain ⟨used, blocks, tokens⟩ := sequence
      simp only [not_or, not_not] at hbusy
      rw [hbusy.1, hbusy.2.1, hbusy.2.2]
    obtain ⟨count, sequence', cache', pool', flat', heq, -, -, -, -, -, -, hinv⟩ :=
      h.reuse_empty prompt
    rw [hempty, heq]
    exact ⟨flat', _, hinv⟩

/-- An eviction keeps the invariant. -/
theorem evictOne (h : CacheInv cache pool flat held) :
    ∃ flat', CacheInv (cache.evictOne pool).2.1 (cache.evictOne pool).2.2 flat' held := by
  obtain ⟨-, hpool, hrep⟩ := h.stored.evictOne pool
  have hcfg := FlatCache.evictOne_config flat pool
  refine ⟨(flat.evictOne pool).2.1,
    { stored := ?_, sound := { accounts := ?_, nodup := ?_, capacity := ?_ } }⟩
  · rw [hpool, hcfg]
    exact hrep
  · rw [hpool]
    exact FlatCache.evictOne_accounts h.sound.accounts
  · rw [FlatCache.evictOne_keys]
    exact h.sound.nodup.tail
  · rw [hpool, hcfg, FlatCache.evictOne_keys, List.length_tail]
    exact (Nat.sub_le _ _).trans h.sound.capacity

theorem clear (h : CacheInv cache pool flat held) :
    ∃ flat', CacheInv (cache.clear pool).1 (cache.clear pool).2 flat' held := by
  obtain ⟨hpool, hrep⟩ := h.stored.clear pool
  have hcfg := FlatCache.clear_config flat pool
  refine ⟨(flat.clear pool).1, {
    stored := ?_
    sound := { accounts := ?_, nodup := List.nodup_nil, capacity := Nat.zero_le _ } }⟩
  · rw [hpool, hcfg]
    exact hrep
  · rw [hpool]
    exact (FlatCache.clear_accounts h.sound.accounts).congr fun b => by
      simp [FlatCache.clear, FlatCache.pages]

end CacheInv

/-- The invariant holds of every cache in use. -/
theorem ExactPrefixCache.InUse.inv {cache : ExactPrefixCache} {pool : KvBlockPool}
    (h : cache.InUse pool) : ∃ flat held, CacheInv cache pool flat held := by
  induction h with
  | start hcreated => exact ⟨_, _, CacheInv.start hcreated⟩
  | owners _ hconfig haccounts ih =>
    obtain ⟨flat, held, hinv⟩ := ih
    exact ⟨flat, _, hinv.owners hconfig haccounts⟩
  | publish _ sequence hpages ih =>
    obtain ⟨flat, held, hinv⟩ := ih
    obtain ⟨flat', hinv'⟩ := hinv.publish hpages
    exact ⟨flat', held, hinv'⟩
  | reuse _ sequence prompt ih =>
    obtain ⟨flat, held, hinv⟩ := ih
    exact hinv.reuse sequence prompt
  | evictOne _ ih =>
    obtain ⟨flat, held, hinv⟩ := ih
    obtain ⟨flat', hinv'⟩ := hinv.evictOne
    exact ⟨flat', held, hinv'⟩
  | clear _ ih =>
    obtain ⟨flat, held, hinv⟩ := ih
    obtain ⟨flat', hinv'⟩ := hinv.clear
    exact ⟨flat', held, hinv'⟩

/-! ### Owners -/

/-- Reserving pages is an owner's business. -/
theorem ExactPrefixCache.InUse.reserve {cache : ExactPrefixCache} {pool : KvBlockPool}
    (h : cache.InUse pool) (sequence : PagedSequence) (last : Nat) :
    cache.InUse (pool.reserve sequence last).2.2 := by
  obtain ⟨flat, held, hinv⟩ := h.inv
  rcases KvBlockPool.reserve_cases hinv.sound.accounts sequence last with
    ⟨e, heq⟩ | ⟨fresh, pool', heq, hcfg, hacc⟩
  · rw [heq]
    exact h
  · rw [heq]
    have hshare : ∀ b, held b + flat.pages.count b + fresh.count b =
        (held b + fresh.count b) + cache.index.leases b := fun b => by
      rw [hinv.stored.leases, FlatCache.pages]
      omega
    exact h.owners hcfg (hacc.congr hshare)

/-! ## Leased paths of the trie -/

namespace Index

/-- The node `p` is reached by edges that spell `k`, it and all its ancestors
below the root are leased, and `pages` are the pages they lease. -/
inductive LeasedTo (ix : Index) : List TokenId → List Nat → Ptr → Prop where
  | root : LeasedTo ix [] [] root
  | child {k e : List TokenId} {pages : List Nat} {q p : Ptr} {b : Nat}
      (parent : LeasedTo ix k pages q) (edge : (ix.children q).find? e = some p)
      (leased : ix.block p = some b) : LeasedTo ix (k ++ e) (pages ++ [b]) p

variable {blockTokens : Nat} {ix : Index} {keys : Keys} {P : List Ptr}

/-- The leased nodes below leased ancestors are the leased paths of the entries. -/
theorem Rep.leasedTo_key (h : Rep blockTokens ix keys P none) {k : List TokenId}
    {pages : List Nat} {p : Ptr} (hp : ix.LeasedTo k pages p) :
    keys p = some k ∧ FlatCache.LeasedPath blockTokens (entriesOf ix keys P) k pages := by
  induction hp with
  | root => exact ⟨h.tree.root_key, FlatCache.LeasedPath.nil _ _⟩
  | child hparent hedge hleased ih =>
    obtain ⟨hq, hpath⟩ := ih
    have hc := h.tree.down _ _ _ _ hq hedge
    have hpos : 0 < blockTokens :=
      Nat.lt_of_lt_of_le (List.length_pos_iff.mpr hc.edge_ne) hc.edge_le
    exact ⟨hc.key, hpath.snoc hpos hc.full hc.edge_ne hc.edge_le
      (h.mem_entries.mpr ⟨_, hc.key, hleased⟩)⟩

/-- Conversely, every leased path of the entries is walked by the trie. The
induction takes the pages from the back, as the trie goes up to the parent. -/
theorem Rep.exists_leasedTo (h : Rep blockTokens ix keys P none) (hpos : 0 < blockTokens)
    {k : List TokenId} {pages : List Nat}
    (hpath : FlatCache.LeasedPath blockTokens (entriesOf ix keys P) k pages) :
    ∃ p, ix.LeasedTo k pages p := by
  induction pages using List.reverseRecOn generalizing k with
  | nil =>
    have hnil : k = [] := by
      by_contra hne
      have hlen := div_lt_pagesFor hpos (List.length_pos_iff.mpr hne)
      rw [← hpath.length] at hlen
      exact Nat.not_lt_zero _ hlen
    exact ⟨root, hnil ▸ .root⟩
  | append_singleton ps b ih =>
    have hlen := hpath.length
    rw [List.length_append, List.length_singleton] at hlen
    obtain ⟨hlo, hhi⟩ := lt_of_pagesFor hpos hlen.symm
    have hmul : blockTokens * (ps.length + 1) = blockTokens * ps.length + blockTokens :=
      Nat.mul_succ _ _
    have hfront : (k.take (blockTokens * ps.length)).length = blockTokens * ps.length := by
      rw [List.length_take, Nat.min_eq_left hlo.le]
    obtain ⟨q, hq⟩ := ih (k := k.take (blockTokens * ps.length))
      { length := by rw [hfront, pagesFor_mul _ hpos]
        entry := fun i b' hi => by
          have hi' : i < ps.length := (List.getElem?_eq_some_iff.mp hi).1
          have hle : blockTokens * (i + 1) ≤ blockTokens * ps.length := Nat.mul_le_mul_left _ hi'
          rw [List.take_take, Nat.min_eq_left hle]
          exact hpath.entry i b' (by rw [List.getElem?_append_left hi', hi]) }
    obtain ⟨hqkey, -⟩ := h.leasedTo_key hq
    -- the last page belongs to the node of the whole history, a child of `q`
    have hlast := hpath.entry ps.length b (by simp)
    rw [List.take_of_length_le hhi] at hlast
    obtain ⟨p, hp, hb⟩ := h.mem_entries.mp hlast
    have hdepth : ix.depth q = ps.length := by
      rw [← h.tree.depth_eq hqkey, hfront, pagesFor_mul _ hpos]
    have hchild := h.tree.child_of_key (e := k.drop (blockTokens * ps.length)) hqkey
      (by rw [hfront, hdepth]) (by rw [List.take_append_drop]; exact hp)
      (by rw [Ne, List.drop_eq_nil_iff]; omega) (by rw [List.length_drop]; omega)
    refine ⟨p, ?_⟩
    rw [← List.take_append_drop (blockTokens * ps.length) k]
    exact .child hq hchild hb

end Index

/-- The leased paths of a cache and of the flat cache it stores are the same. -/
theorem Represents.leasedTo_iff {blockTokens : Nat} {cache : ExactPrefixCache} {flat : FlatCache}
    (h : Represents blockTokens cache flat) (hpos : 0 < blockTokens) {k : List TokenId}
    {pages : List Nat} :
    (∃ p, cache.index.LeasedTo k pages p) ↔
      FlatCache.LeasedPath blockTokens flat.entries k pages := by
  obtain ⟨keys, P, hmir⟩ := h
  rw [hmir.entries]
  constructor
  · rintro ⟨p, hp⟩
    exact (hmir.rep.leasedTo_key hp).2
  · exact hmir.rep.exists_leasedTo hpos

/-! ## The longest prefix -/

/-- How much of a prompt the leased nodes below leased ancestors share. The last
token of the prompt is never looked at. -/
def Index.sharedLengths (ix : Index) (prompt : List TokenId) : Set Nat :=
  {n | ∃ k pages p, ix.LeasedTo k pages p ∧
    commonPrefix k (prompt.take (prompt.length - 1)) = n}

/-- `reuse` restores the longest prefix any leased node with leased ancestors
shares with the prompt, and the sequence gets the pages on the way to such a
node, with one reference more for each. -/
theorem reuse_longest {cache : ExactPrefixCache} {pool : KvBlockPool} (h : cache.InUse pool)
    (hcache : 0 < pool.config.prefixCacheBlocks) (prompt : List TokenId) :
    ∃ count sequence cache' pool',
      cache.reuse pool {} prompt = (.ok count, sequence, cache', pool') ∧
      IsGreatest (cache.index.sharedLengths prompt) count ∧
      (prompt ≠ [] → count < prompt.length) ∧
      sequence.used = count ∧ sequence.tokens = prompt.take count ∧
      sequence.blocks.length =
        (count + pool.config.blockTokens - 1) / pool.config.blockTokens ∧
      (∃ k p, cache.index.LeasedTo k sequence.blocks p ∧
        commonPrefix k (prompt.take (prompt.length - 1)) = count) ∧
      ∀ b, pool'.references b = pool.references b + sequence.blocks.count b := by
  obtain ⟨flat, held, hinv⟩ := h.inv
  have hpos := pool.valid.blockTokens_pos
  obtain ⟨count, sequence, cache', pool', flat', heq, hflat, hused, htokens, hblocks, hle, hperm,
    hinv'⟩ := hinv.reuse_empty prompt
  have hlong := FlatCache.longest_of_reuse hcache hflat
  obtain ⟨k, hk, hcommon⟩ := hlong.attained
  obtain ⟨p, hp⟩ := (hinv.stored.leasedTo_iff hpos).mpr hk
  refine ⟨count, sequence, cache', pool', heq, ⟨⟨k, _, p, hp, hcommon⟩, ?_⟩, fun hne => ?_, hused,
    htokens, hblocks.trans (pagesFor_eq hpos count), ⟨k, p, hp, hcommon⟩, fun b => ?_⟩
  · rintro n ⟨k', pages, p', hp', rfl⟩
    exact hlong.bound k' pages ((hinv.stored.leasedTo_iff hpos).mp ⟨p', hp'⟩)
  · have := List.length_pos_iff.mpr hne
    omega
  · have hleases : flat'.pages.count b = flat.pages.count b := (hperm.map Prod.snd).count_eq b
    rw [hinv'.sound.accounts.refs b, hinv.sound.accounts.refs b, hleases]
    omega

/-- After the three tokens of a sequence with pages of two tokens are published,
a longer prompt gets both pages back. -/
theorem reuse_longest_two_pages :
    ∃ (cache : ExactPrefixCache) (pool : KvBlockPool), cache.InUse pool ∧
      IsGreatest (cache.index.sharedLengths [7, 8, 9, 1]) 3 := by
  have hstart : ({} : ExactPrefixCache).InUse _ :=
    .start (show KvBlockPool.create ⟨2, 4, 2⟩ 1 1 = .ok _ from rfl)
  have hpub := (hstart.reserve {} 3).publish { used := 3, blocks := [0, 1], tokens := [7, 8, 9] }
    (by unfold ExactPrefixCache.Referenced; decide)
  obtain ⟨count, sequence, cache', pool', heq, hgreatest, -⟩ :=
    reuse_longest hpub (by decide) [7, 8, 9, 1]
  have hcount : count = 3 := Except.ok.inj (congrArg Prod.fst heq.symm)
  exact ⟨_, _, hpub, hcount ▸ hgreatest⟩

end TinyInfer.MiniPrefix
