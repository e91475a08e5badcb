import TinyInfer.MiniPrefix.PrefixLongest

/-!
# What was just published can be reused

`publish_round_trip`: after a `publish` the first pages of the sequence, as many
as the cache holds, are leased one below the other, and so the next `reuse`
restores everything a prompt shares with them. Once the loop has dealt with a
page, the page is not evicted again before `publish` returns.

A lease that the loop has not come to yet can go to make room for an earlier
page, and is then taken anew (`publish_evicts_later_page`).
-/

namespace TinyInfer.MiniPrefix

open Lib

/-- The sequence holds its pages: they cover its tokens, and each of them is
referenced by somebody besides the cache. -/
structure ExactPrefixCache.Holds (cache : ExactPrefixCache) (pool : KvBlockPool)
    (sequence : PagedSequence) : Prop where
  covered : (sequence.used + pool.config.blockTokens - 1) / pool.config.blockTokens ≤
    sequence.blocks.length
  referenced : ∀ b ∈ sequence.blocks, cache.index.leases b < pool.references b

/-- The number of pages of a sequence that fit in the cache. -/
def publishedPages (pool : KvBlockPool) (sequence : PagedSequence) : Nat :=
  min ((sequence.used + pool.config.blockTokens - 1) / pool.config.blockTokens)
    pool.config.prefixCacheBlocks

namespace ExactPrefixCache

/-- The first `i` pages of a sequence are leased, one below the other. -/
def Leases (cache : ExactPrefixCache) (blockTokens : Nat) (sequence : PagedSequence) (i : Nat) :
    Prop :=
  ∃ pages p, pages.length = i ∧
    cache.index.LeasedTo (sequence.tokens.take (i * blockTokens)) pages p

/-- The cache after `i` turns of the loop of `publish`. -/
def turns (cache : ExactPrefixCache) (pool : KvBlockPool) (sequence : PagedSequence) (i : Nat) :
    ExactPrefixCache :=
  (publishLoop sequence i 0 root cache pool).2.1

end ExactPrefixCache

section

variable {cache : ExactPrefixCache} {pool : KvBlockPool} {sequence : PagedSequence}
  {flat : FlatCache} {held : Nat → Nat}

theorem ExactPrefixCache.Holds.publishCount_eq (h : cache.Holds pool sequence) :
    FlatCache.publishCount pool sequence = publishedPages pool sequence := by
  have hle : publishedPages pool sequence ≤ sequence.blocks.length :=
    (Nat.min_le_left _ _).trans h.covered
  exact Nat.min_eq_right hle

/-- A run of the loop that dealt with `i` pages leases them. -/
theorem FlatCache.Published.leases {cache' : ExactPrefixCache} {flat' : FlatCache}
    {pool' : KvBlockPool} {i : Nat} (h : FlatCache.Published sequence i flat' pool')
    (hrep : Represents pool'.config.blockTokens cache' flat')
    (hlen : sequence.tokens.length = sequence.used)
    (hused : ∀ j < i, j * pool'.config.blockTokens < sequence.used) :
    cache'.Leases pool'.config.blockTokens sequence i := by
  have hpos := pool'.valid.blockTokens_pos
  obtain ⟨pages, hpath⟩ := h.path hlen hused
  obtain ⟨p, hp⟩ := (hrep.leasedTo_iff hpos).mpr hpath
  have htake : sequence.tokens.take (min sequence.used (i * pool'.config.blockTokens)) =
      sequence.tokens.take (i * pool'.config.blockTokens) := by
    rw [← List.take_take, List.take_of_length_le (by rw [List.length_take]; omega)]
  refine ⟨pages, p, ?_, htake ▸ hp⟩
  rw [hpath.length, List.length_take, hlen]
  cases i with
  | zero => simp
  | succ i =>
    have hlast := hused i (Nat.lt_succ_self i)
    have hsucc : (i + 1) * pool'.config.blockTokens =
      i * pool'.config.blockTokens + pool'.config.blockTokens := Nat.succ_mul _ _
    have hcomm : pool'.config.blockTokens * (i + 1) = (i + 1) * pool'.config.blockTokens :=
      Nat.mul_comm _ _
    have hcomm' : pool'.config.blockTokens * i = i * pool'.config.blockTokens := Nat.mul_comm _ _
    exact pagesFor_of_lt (by omega) (by omega)

/-- `i` turns of the loop: they succeed, and what they have dealt with is leased. -/
theorem CacheInv.turns (h : CacheInv cache pool flat held)
    (hlen : sequence.tokens.length = sequence.used) (hholds : cache.Holds pool sequence) {i : Nat}
    (hi : i ≤ FlatCache.publishCount pool sequence) :
    ∃ flat' pool', ExactPrefixCache.publishLoop sequence i 0 root cache pool =
        (.ok (), cache.turns pool sequence i, pool') ∧
      FlatCache.publishLoop sequence i 0 flat pool = (.ok (), flat', pool') ∧
      pool'.config = pool.config ∧ CacheInv (cache.turns pool sequence i) pool' flat' held ∧
      FlatCache.Published sequence i flat' pool' := by
  obtain ⟨outcome, cache', flat', pool', heq, hflat, hrep⟩ := h.stored.publishLoop hlen hi
  have hheld : ∀ b ∈ sequence.blocks, 0 < held b := fun b hb => by
    have hlt := hholds.referenced b hb
    rw [h.refs b] at hlt
    omega
  obtain ⟨flat₁, pool₁, hflat₁, hcfg, hacc, -⟩ := FlatCache.publishLoop_accounts i (i := 0)
    h.sound.accounts hheld (by
      rw [Nat.zero_add]
      exact hi.trans (Nat.min_le_left _ _))
  rw [hflat] at hflat₁
  obtain ⟨rfl, rfl, rfl⟩ := by simpa only [Prod.mk.injEq] using hflat₁
  have hzero : FlatCache.Published sequence 0 flat pool :=
    { nodup := h.sound.nodup, capacity := h.sound.capacity, newest := List.nil_suffix }
  have hpub := hzero.loop hlen
    (by rw [Nat.zero_add]; exact hi.trans (FlatCache.publishCount_le_capacity pool sequence))
    (fun j hj => FlatCache.mul_lt_used (by omega)) hflat
  rw [Nat.zero_add] at hpub
  have hturns : cache.turns pool sequence i = cache' := by rw [ExactPrefixCache.turns, heq]
  refine ⟨flat', pool', by rw [hturns, heq], hflat, hcfg, ?_, hpub⟩
  rw [hturns]
  exact { stored := hcfg ▸ hrep,
          sound := { accounts := hacc, nodup := hpub.nodup, capacity := hpub.capacity } }

/-- What two lists share, their fronts share as far as they reach. -/
theorem le_commonPrefix_take (a b : List TokenId) (m n : Nat) :
    min (commonPrefix a b) (min m n) ≤ commonPrefix (a.take m) (b.take n) := by
  have ha := commonPrefix_le_length_left a b
  have hb := commonPrefix_le_length_right a b
  have hcut := congrArg (List.take (min m n)) (take_commonPrefix a b)
  rw [List.take_take, List.take_take, Nat.min_comm] at hcut
  have hm : min (min (commonPrefix a b) (min m n)) m = min (commonPrefix a b) (min m n) := by omega
  have hn : min (min (commonPrefix a b) (min m n)) n = min (commonPrefix a b) (min m n) := by omega
  refine le_commonPrefix (by rw [List.length_take]; omega) (by rw [List.length_take]; omega) ?_
  rw [List.take_take, List.take_take, hm, hn]
  exact hcut

/-- The published front reaches as far as the history and the capacity do. -/
theorem shared_le (hlen : sequence.tokens.length = sequence.used) (prompt : List TokenId) :
    min (commonPrefix prompt sequence.tokens) (min (prompt.length - 1)
        (pool.config.prefixCacheBlocks * pool.config.blockTokens)) ≤
      commonPrefix (sequence.tokens.take
        (publishedPages pool sequence * pool.config.blockTokens))
        (prompt.take (prompt.length - 1)) := by
  have hpos := pool.valid.blockTokens_pos
  have hreach : min sequence.used (pool.config.prefixCacheBlocks * pool.config.blockTokens) ≤
      publishedPages pool sequence * pool.config.blockTokens := by
    have hround := Nat.div_add_mod (sequence.used + pool.config.blockTokens - 1)
      pool.config.blockTokens
    have hmod := Nat.mod_lt (sequence.used + pool.config.blockTokens - 1) hpos
    rw [Nat.mul_comm] at hround
    rcases Nat.le_total ((sequence.used + pool.config.blockTokens - 1) / pool.config.blockTokens)
      pool.config.prefixCacheBlocks with hle | hge
    · rw [publishedPages, Nat.min_eq_left hle]
      omega
    · rw [publishedPages, Nat.min_eq_right hge]
      exact Nat.min_le_right _ _
  have hshort := commonPrefix_le_length_left sequence.tokens prompt
  have hfront := le_commonPrefix_take sequence.tokens prompt
    (publishedPages pool sequence * pool.config.blockTokens) (prompt.length - 1)
  rw [commonPrefix_comm prompt]
  omega

end

/-- After a `publish` its pages can be reused. -/
theorem publish_round_trip {cache : ExactPrefixCache} {pool : KvBlockPool}
    {sequence : PagedSequence} (h : cache.InUse pool) (hcache : 0 < pool.config.prefixCacheBlocks)
    (hlen : sequence.tokens.length = sequence.used) (hholds : cache.Holds pool sequence) :
    ∃ cache' pool', cache.publish pool sequence = (.ok (), cache', pool') ∧
      cache'.Leases pool.config.blockTokens sequence (publishedPages pool sequence) ∧
      (∀ i ≤ publishedPages pool sequence,
        (cache.turns pool sequence i).Leases pool.config.blockTokens sequence i) ∧
      (∀ nodes, cache'.index.LeasingNodes nodes →
        nodes.length ≤ pool.config.prefixCacheBlocks) ∧
      (∀ b, pool'.references b + cache.index.leases b =
        pool.references b + cache'.index.leases b) ∧
      ∀ prompt, ∃ count sequence' cache'' pool'',
        cache'.reuse pool' {} prompt = (.ok count, sequence', cache'', pool'') ∧
        min (commonPrefix prompt sequence.tokens) (min (prompt.length - 1)
          (pool.config.prefixCacheBlocks * pool.config.blockTokens)) ≤ count := by
  obtain ⟨flat, held, hinv⟩ := h.inv
  have hpos := pool.valid.blockTokens_pos
  have hcount := hholds.publishCount_eq
  obtain ⟨flat', pool', -, hflat, hcfg, hturns, hpub⟩ := hinv.turns hlen hholds le_rfl
  obtain ⟨outcome, cache', flat₁, pool₁, heq, hflat₁, hrep⟩ := hinv.stored.publish sequence
  rw [FlatCache.publish, if_neg (not_not.mpr hlen), hflat] at hflat₁
  obtain ⟨rfl, rfl, rfl⟩ := by simpa only [Prod.mk.injEq] using hflat₁
  have hinv' : CacheInv cache' pool' flat' held := { stored := hcfg ▸ hrep, sound := hturns.sound }
  have hused : ∀ j < publishedPages pool sequence, j * pool.config.blockTokens < sequence.used :=
    fun j hj => FlatCache.mul_lt_used (hcount ▸ hj)
  refine ⟨cache', pool', heq, ?_, fun i hi => ?_, fun nodes hnodes => ?_, fun b => ?_,
    fun prompt => ?_⟩
  · have hleases := hpub.leases hinv'.stored hlen
      (by rw [hcfg, hcount]; exact hused)
    rwa [hcfg, hcount] at hleases
  · obtain ⟨flat₂, pool₂, -, -, hcfg₂, hinv₂, hpub₂⟩ := hinv.turns hlen hholds (hcount ▸ hi)
    have hleases := hpub₂.leases hinv₂.stored hlen
      (by rw [hcfg₂]; exact fun j hj => hused j (by omega))
    rwa [hcfg₂] at hleases
  · rw [hrep.leasingNodes_length hnodes, ← hcfg]
    have hcap := hpub.capacity
    rwa [FlatCache.keys, List.length_map] at hcap
  · rw [hinv'.refs, hinv.refs]
    omega
  · obtain ⟨count, sequence', cache'', pool'', flat'', hreuse, hflat'', -⟩ :=
      hinv'.reuse_empty prompt
    refine ⟨count, sequence', cache'', pool'', hreuse, ?_⟩
    have hlong := FlatCache.longest_of_reuse (by rw [hcfg]; exact hcache) hflat''
    obtain ⟨pages, p, -, hp⟩ := hcount ▸ hpub.leases hinv'.stored hlen
      (by rw [hcfg, hcount]; exact hused)
    have hpath := (hinv'.stored.leasedTo_iff (hcfg ▸ hpos)).mp ⟨p, hp⟩
    have hbound := hlong.bound _ _ hpath
    rw [hcfg] at hbound
    exact (shared_le hlen prompt).trans hbound

/-- Three published tokens on pages of one token. -/
def threePages : PagedSequence := { used := 3, blocks := [0, 1, 2], tokens := [1, 2, 3] }

/-- Publishing the three pages of a sequence for the first time. -/
theorem publish_round_trip_three_pages :
    ∃ (cache : ExactPrefixCache) (pool : KvBlockPool), cache.InUse pool ∧
      ∃ cache' pool', cache.publish pool threePages = (.ok (), cache', pool') ∧
        cache'.Leases 1 threePages 3 := by
  have hstart := (ExactPrefixCache.InUse.start
    (show KvBlockPool.create ⟨1, 4, 3⟩ 1 1 = .ok _ from rfl)).reserve {} 4
  obtain ⟨cache', pool', heq, hleases, -⟩ := publish_round_trip hstart (by decide)
    (show threePages.tokens.length = threePages.used from rfl)
      { covered := by decide, referenced := by decide }
  exact ⟨_, _, hstart, cache', pool', heq, hleases⟩

/-- The first page of a history was evicted and another history published since.
Publishing the first history again takes the lease of its second page to make
room for the first one, and leases it anew a turn later. -/
theorem publish_evicts_later_page :
    ∃ (cache : ExactPrefixCache) (pool : KvBlockPool), cache.InUse pool ∧
      cache.Holds pool threePages ∧ publishedPages pool threePages = 3 ∧
      ∃ p, cache.index.Spells [1, 2] p ∧ (cache.index.block p).isSome ∧
        ((cache.turns pool threePages 1).index.block p).isNone ∧
        ((cache.turns pool threePages 2).index.block p).isSome := by
  have hstart := (ExactPrefixCache.InUse.start
    (show KvBlockPool.create ⟨1, 4, 3⟩ 1 1 = .ok _ from rfl)).reserve {} 4
  have hfirst := hstart.publish threePages (by unfold ExactPrefixCache.Referenced; decide)
  have hother := hfirst.evictOne.publish { used := 1, blocks := [3], tokens := [9] }
    (by unfold ExactPrefixCache.Referenced; decide)
  refine ⟨_, _, hother, { covered := by decide, referenced := by decide }, by decide, 2,
    .child (k := [1]) (.child (k := []) .root rfl) rfl, by decide, by decide, by decide⟩

end TinyInfer.MiniPrefix
