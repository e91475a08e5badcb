import TinyInfer.MiniPrefix.FlatLongest

/-!
# What `publish` leaves in the flat cache

The entries a `publish` has dealt with are the newest ones, in the order of their
pages (`Published`): each victim is older. So nothing it enters or
refreshes is evicted before it returns, the cache keeps to its capacity, and the
published histories form a leased path (`Published.path`).
-/

namespace TinyInfer.MiniPrefix

open Lib

namespace FlatCache

variable {cache cache' : FlatCache} {pool pool' : KvBlockPool}

/-- The histories of a cache, in order of use. -/
def keys (cache : FlatCache) : List (List TokenId) := cache.entries.map Prod.fst

theorem evictOne_keys (cache : FlatCache) (pool : KvBlockPool) :
    (cache.evictOne pool).2.1.keys = cache.keys.tail := by
  rw [keys, evictOne_entries, keys, List.map_tail]

/-! ## One page -/

/-- What a page of `publish` does to the histories: the entered one becomes the
newest, and at most the oldest one goes. -/
theorem publishPage_keys (hnd : cache.keys.Nodup) {history : List TokenId} {page : Nat}
    (h : cache.publishPage pool history page = (.ok (), cache', pool')) :
    (∃ A B, cache.keys = A ++ history :: B ∧ cache'.keys = A ++ B ++ [history]) ∨
      history ∉ cache.keys ∧
        (cache.keys.length ≠ pool.config.prefixCacheBlocks ∧
            cache'.keys = cache.keys ++ [history] ∨
          cache.keys.length = pool.config.prefixCacheBlocks ∧
            cache'.keys = cache.keys.tail ++ [history]) := by
  rw [publishPage] at h
  by_cases hfound : (Lru.find? cache.entries history).isSome
  · left
    rw [if_pos hfound] at h
    obtain ⟨-, rfl, -⟩ := by simpa only [Prod.mk.injEq] using h
    obtain ⟨b, hb⟩ := Option.isSome_iff_exists.mp hfound
    obtain ⟨A, B, hsplit⟩ := List.append_of_mem ((Lru.find?_eq_some_iff hnd).mp hb)
    refine ⟨A.map Prod.fst, B.map Prod.fst, by rw [keys, hsplit]; simp, ?_⟩
    show (Lru.touch cache.entries history).map Prod.fst = _
    rw [hsplit, Lru.touch_split (by rw [← hsplit]; exact hnd)]
    simp
  · right
    rw [if_neg hfound] at h
    have hnew : history ∉ cache.keys := by
      rw [Option.not_isSome_iff_eq_none] at hfound
      exact Lru.find?_eq_none_iff.mp hfound
    refine ⟨hnew, ?_⟩
    have hconfig := pool.retain_config page
    have hlen : cache.keys.length = cache.entries.length := List.length_map _
    generalize pool.retain page = r at h hconfig
    obtain ⟨_ | _, pool₁⟩ := r
    · simp at h
    · simp only at h hconfig
      rw [hlen]
      rw [hconfig] at h
      by_cases hfull : cache.entries.length = pool.config.prefixCacheBlocks
      · right
        rw [if_pos hfull] at h
        obtain ⟨-, rfl, -⟩ := by simpa only [Prod.mk.injEq] using h
        refine ⟨hfull, ?_⟩
        rw [← evictOne_keys cache pool₁, keys, List.map_append]
        rfl
      · left
        rw [if_neg hfull] at h
        obtain ⟨-, rfl, -⟩ := by simpa only [Prod.mk.injEq] using h
        refine ⟨hfull, ?_⟩
        rw [keys, List.map_append]
        rfl

theorem publishPage_nodup (hnd : cache.keys.Nodup) {history : List TokenId} {page : Nat}
    (h : cache.publishPage pool history page = (.ok (), cache', pool')) : cache'.keys.Nodup := by
  have hsnoc : ∀ l : List (List TokenId), l.Nodup → history ∉ l → (l ++ [history]).Nodup :=
    fun l hl hmem => (List.nodup_append_comm).mp (List.nodup_cons.mpr ⟨hmem, hl⟩)
  rcases publishPage_keys hnd h with ⟨A, B, hkeys, hkeys'⟩ | ⟨hnew, ⟨-, hkeys'⟩ | ⟨-, hkeys'⟩⟩
  · rw [hkeys] at hnd
    obtain ⟨hmem, hrest⟩ := List.nodup_cons.mp (List.nodup_middle.mp hnd)
    exact hkeys' ▸ hsnoc _ hrest hmem
  · exact hkeys' ▸ hsnoc _ hnd hnew
  · exact hkeys' ▸ hsnoc _ hnd.tail fun hmem => hnew (List.mem_of_mem_tail hmem)

theorem publishPage_capacity (hnd : cache.keys.Nodup) {history : List TokenId} {page : Nat}
    (hcap : 0 < pool.config.prefixCacheBlocks)
    (hle : cache.keys.length ≤ pool.config.prefixCacheBlocks)
    (h : cache.publishPage pool history page = (.ok (), cache', pool')) :
    cache'.keys.length ≤ pool.config.prefixCacheBlocks := by
  rcases publishPage_keys hnd h with ⟨A, B, hkeys, hkeys'⟩ | ⟨-, ⟨hne, hkeys'⟩ | ⟨heq, hkeys'⟩⟩
  · rw [hkeys, List.length_append, List.length_cons] at hle
    rw [hkeys', List.length_append, List.length_append, List.length_singleton]
    omega
  · rw [hkeys', List.length_append, List.length_singleton]
    omega
  · rw [hkeys', List.length_append, List.length_tail, List.length_singleton]
    omega

/-- The entries a `publish` has dealt with stay the newest ones. -/
theorem publishPage_newest (hnd : cache.keys.Nodup) {history : List TokenId} {page : Nat}
    {done : List (List TokenId)} (hdone : done <:+ cache.keys) (hnew : history ∉ done)
    (hroom : done.length < pool.config.prefixCacheBlocks)
    (h : cache.publishPage pool history page = (.ok (), cache', pool')) :
    done ++ [history] <:+ cache'.keys := by
  obtain ⟨older, holder⟩ := hdone
  rcases publishPage_keys hnd h with ⟨A, B, hkeys, hkeys'⟩ | ⟨-, ⟨-, hkeys'⟩ | ⟨heq, hkeys'⟩⟩
  · -- the refreshed history stands among the older ones
    have hmem : history ∈ older := by
      have hin : history ∈ older ++ done := by
        rw [holder, hkeys]
        simp
      exact (List.mem_append.mp hin).resolve_right hnew
    obtain ⟨A', B', rfl⟩ := List.append_of_mem hmem
    rw [hkeys, List.append_assoc, List.cons_append] at holder
    have hsame : A' ++ (B' ++ done) = A ++ B := by
      have hnotA : history ∉ A := fun hA =>
        (List.nodup_append.mp (hkeys ▸ hnd)).2.2 history hA history List.mem_cons_self rfl
      have hnotA' : history ∉ A' := by
        intro hA
        rw [hkeys, ← holder] at hnd
        exact (List.nodup_append.mp hnd).2.2 history hA history List.mem_cons_self rfl
      obtain ⟨rfl, hrest⟩ := List.append_inj holder (by
        have h1 := congrArg (List.idxOf history) holder
        rwa [List.idxOf_append_of_notMem hnotA', List.idxOf_append_of_notMem hnotA,
          List.idxOf_cons_self, List.idxOf_cons_self, Nat.add_zero, Nat.add_zero] at h1)
      rw [(List.cons.inj hrest).2]
    exact ⟨A' ++ B', by rw [hkeys', ← hsame]; simp⟩
  · exact ⟨older, by rw [hkeys', ← holder]; simp⟩
  · -- the victim is older than all of them
    cases older with
    | nil =>
      rw [← holder, List.nil_append] at heq
      omega
    | cons victim older =>
      refine ⟨older, ?_⟩
      rw [hkeys', ← holder]
      simp

/-! ## The loop -/

variable {sequence : PagedSequence}

/-- The history of page `i` of a sequence. -/
def pageHistory (blockTokens : Nat) (sequence : PagedSequence) (i : Nat) : List TokenId :=
  sequence.tokens.take (min sequence.used ((i + 1) * blockTokens))

theorem pageHistory_length {blockTokens : Nat} (hlen : sequence.tokens.length = sequence.used)
    (i : Nat) :
    (pageHistory blockTokens sequence i).length = min sequence.used ((i + 1) * blockTokens) := by
  rw [pageHistory, List.length_take, hlen]
  omega

/-- Different pages have different histories. -/
theorem pageHistory_ne {blockTokens i j : Nat} (hpos : 0 < blockTokens)
    (hlen : sequence.tokens.length = sequence.used) (hij : i < j)
    (hj : j * blockTokens < sequence.used) :
    pageHistory blockTokens sequence i ≠ pageHistory blockTokens sequence j := by
  intro heq
  have hlens := congrArg List.length heq
  rw [pageHistory_length hlen, pageHistory_length hlen] at hlens
  have hle : (i + 1) * blockTokens ≤ j * blockTokens := Nat.mul_le_mul_right _ hij
  have hsucc : (j + 1) * blockTokens = j * blockTokens + blockTokens := Nat.succ_mul _ _
  omega

theorem publishPage_config (cache : FlatCache) (pool : KvBlockPool) (history : List TokenId)
    (page : Nat) : (cache.publishPage pool history page).2.2.config = pool.config := by
  have hconfig := pool.retain_config page
  rw [publishPage]
  split
  · rfl
  · generalize pool.retain page = r at hconfig
    obtain ⟨_ | _, pool₁⟩ := r
    · exact hconfig
    · simp only
      split
      · exact (evictOne_config cache pool₁).trans hconfig
      · exact hconfig

/-- What the loop of `publish` preserves. -/
structure Published (sequence : PagedSequence) (i : Nat) (cache : FlatCache)
    (pool : KvBlockPool) : Prop where
  nodup : cache.keys.Nodup
  capacity : cache.keys.length ≤ pool.config.prefixCacheBlocks
  newest : (List.range i).map (pageHistory pool.config.blockTokens sequence) <:+ cache.keys

/-- One turn of the loop. -/
theorem Published.turn {i page : Nat} (h : Published sequence i cache pool)
    (hlen : sequence.tokens.length = sequence.used) (hi : i < pool.config.prefixCacheBlocks)
    (hused : i * pool.config.blockTokens < sequence.used)
    (hpage : cache.publishPage pool (pageHistory pool.config.blockTokens sequence i) page =
      (.ok (), cache', pool')) :
    Published sequence (i + 1) cache' pool' := by
  have hconfig :=
    publishPage_config cache pool (pageHistory pool.config.blockTokens sequence i) page
  rw [hpage] at hconfig
  replace hconfig : pool'.config = pool.config := hconfig
  refine { nodup := publishPage_nodup h.nodup hpage, capacity := ?_, newest := ?_ }
  · rw [hconfig]
    exact publishPage_capacity h.nodup (Nat.zero_lt_of_lt hi) h.capacity hpage
  · rw [hconfig, List.range_succ, List.map_append]
    refine publishPage_newest h.nodup h.newest ?_ (by simpa using hi) hpage
    intro hmem
    obtain ⟨j, hj, heq⟩ := List.mem_map.mp hmem
    exact pageHistory_ne pool.valid.blockTokens_pos hlen (List.mem_range.mp hj) hused heq

/-- The loop of `publish`. -/
theorem Published.loop {i pages : Nat} (h : Published sequence i cache pool)
    (hlen : sequence.tokens.length = sequence.used)
    (hcap : i + pages ≤ pool.config.prefixCacheBlocks)
    (hused : ∀ j < i + pages, j * pool.config.blockTokens < sequence.used)
    (hloop : publishLoop sequence pages i cache pool = (.ok (), cache', pool')) :
    Published sequence (i + pages) cache' pool' := by
  induction pages generalizing i cache pool with
  | zero =>
    obtain ⟨-, rfl, rfl⟩ := by simpa only [publishLoop, Prod.mk.injEq] using hloop
    exact h
  | succ pages ih =>
    rw [publishLoop] at hloop
    obtain ⟨outcome, cache₁, pool₁, hpage⟩ : ∃ outcome cache₁ pool₁, cache.publishPage pool
        (pageHistory pool.config.blockTokens sequence i) (sequence.blocks.getD i 0) =
        (outcome, cache₁, pool₁) := ⟨_, _, _, rfl⟩
    have hconfig := publishPage_config cache pool
      (pageHistory pool.config.blockTokens sequence i) (sequence.blocks.getD i 0)
    rw [hpage] at hconfig
    replace hconfig : pool₁.config = pool.config := hconfig
    rw [pageHistory] at hpage
    simp only [hpage] at hloop
    cases outcome with
    | error e => simp at hloop
    | ok _ =>
      have hturn := h.turn hlen (by omega) (hused i (by omega)) hpage
      have hrest := ih hturn (by rw [hconfig]; omega)
        (fun j hj => by rw [hconfig]; exact hused j (by omega)) hloop
      rwa [Nat.add_assoc, Nat.add_comm 1 pages] at hrest

/-! ## Publishing any sequence

A page outside the pool makes `publish` throw, and nothing of that page is kept. -/

/-- The accounts and the capacity of a cache, whatever is published. -/
structure Sound (out : Nat → Nat) (cache : FlatCache) (pool : KvBlockPool) : Prop where
  accounts : pool.Accounts fun b => out b + cache.pages.count b
  nodup : cache.keys.Nodup
  capacity : cache.keys.length ≤ pool.config.prefixCacheBlocks

variable {out : Nat → Nat}

/-- A page that throws leaves cache and pool as they were. -/
theorem publishPage_error {history : List TokenId} {page : Nat} {e : Exn}
    (h : cache.publishPage pool history page = (.error e, cache', pool')) :
    cache' = cache ∧ pool' = pool := by
  rw [publishPage] at h
  split at h
  · simp at h
  · rw [KvBlockPool.retain] at h
    by_cases hrange : page < pool.config.maxBlocks
    · simp [hrange] at h
    · simp only [if_neg hrange, Prod.mk.injEq] at h
      exact ⟨h.2.1.symm, h.2.2.symm⟩

/-- A page outside the pool is entered only when its history is there already. -/
theorem publishPage_outside {history : List TokenId} {page : Nat}
    (hrange : ¬ page < pool.config.maxBlocks)
    (h : cache.publishPage pool history page = (.ok (), cache', pool')) :
    cache'.entries.Perm cache.entries ∧ pool' = pool := by
  rw [publishPage] at h
  split at h
  · obtain ⟨-, rfl, rfl⟩ := by simpa only [Prod.mk.injEq] using h
    exact ⟨Lru.touch_perm _ _, rfl⟩
  · simp [KvBlockPool.retain, hrange] at h

/-- Publishing a held page keeps the cache sound. -/
theorem Sound.publishPage (h : Sound out cache pool) (hcap : 0 < pool.config.prefixCacheBlocks)
    {history : List TokenId} {page : Nat} (hpage : page < pool.config.maxBlocks → 0 < out page)
    {outcome : Except Exn Unit}
    (heq : cache.publishPage pool history page = (outcome, cache', pool')) :
    Sound out cache' pool' := by
  cases outcome with
  | error e =>
    obtain ⟨rfl, rfl⟩ := publishPage_error heq
    exact h
  | ok _ =>
    have hconfig := publishPage_config cache pool history page
    rw [heq] at hconfig
    refine { accounts := ?_, nodup := publishPage_nodup h.nodup heq, capacity := ?_ }
    · by_cases hrange : page < pool.config.maxBlocks
      · obtain ⟨cache₁, pool₁, heq₁, -, hacc, -⟩ :=
          publishPage_accounts h.accounts history (hpage hrange)
        rw [heq] at heq₁
        obtain ⟨-, rfl, rfl⟩ := by simpa only [Prod.mk.injEq] using heq₁
        exact hacc
      · obtain ⟨hperm, rfl⟩ := publishPage_outside hrange heq
        exact h.accounts.congr fun b =>
          congrArg (out b + ·) ((hperm.map Prod.snd).count_eq b).symm
    · exact hconfig ▸ publishPage_capacity h.nodup hcap h.capacity heq

/-- Publishing the pages of a sequence keeps the cache sound, by induction on the pages. -/
theorem Sound.publishLoop {pages i : Nat} (h : Sound out cache pool)
    (hcap : 0 < pool.config.prefixCacheBlocks)
    (hpages : ∀ b ∈ sequence.blocks, b < pool.config.maxBlocks → 0 < out b)
    (hlast : i + pages ≤ sequence.blocks.length) {outcome : Except Exn Unit}
    (hloop : publishLoop sequence pages i cache pool = (outcome, cache', pool')) :
    Sound out cache' pool' ∧ pool'.config = pool.config := by
  induction pages generalizing i cache pool with
  | zero =>
    obtain ⟨-, rfl, rfl⟩ := by simpa only [FlatCache.publishLoop, Prod.mk.injEq] using hloop
    exact ⟨h, rfl⟩
  | succ pages ih =>
    rw [FlatCache.publishLoop] at hloop
    obtain ⟨result, cache₁, pool₁, hpage⟩ : ∃ result cache₁ pool₁, cache.publishPage pool
        (sequence.tokens.take (min sequence.used ((i + 1) * pool.config.blockTokens)))
        (sequence.blocks.getD i 0) = (result, cache₁, pool₁) := ⟨_, _, _, rfl⟩
    have hblock : sequence.blocks.getD i 0 ∈ sequence.blocks := by
      rw [List.getD_eq_getElem?_getD, List.getElem?_eq_getElem (by omega), Option.getD_some]
      exact List.getElem_mem _
    have hsound := h.publishPage hcap (hpages _ hblock) hpage
    have hconfig := publishPage_config cache pool
      (sequence.tokens.take (min sequence.used ((i + 1) * pool.config.blockTokens)))
      (sequence.blocks.getD i 0)
    rw [hpage] at hconfig
    replace hconfig : pool₁.config = pool.config := hconfig
    simp only [hpage] at hloop
    cases result with
    | error e =>
      obtain ⟨-, rfl, rfl⟩ := by simpa only [Prod.mk.injEq] using hloop
      exact ⟨hsound, hconfig⟩
    | ok _ =>
      obtain ⟨hrest, hcfg⟩ := ih hsound (by rw [hconfig]; exact hcap)
        (by rw [hconfig]; exact hpages) (by omega) hloop
      exact ⟨hrest, hcfg.trans hconfig⟩

/-- Publishing keeps the accounts and the capacity, also when it throws. -/
theorem Sound.publish (h : Sound out cache pool)
    (hpages : ∀ b ∈ sequence.blocks, b < pool.config.maxBlocks → 0 < out b)
    {outcome : Except Exn Unit}
    (heq : cache.publish pool sequence = (outcome, cache', pool')) :
    Sound out cache' pool' ∧ pool'.config = pool.config := by
  rw [FlatCache.publish] at heq
  split at heq
  · obtain ⟨-, rfl, rfl⟩ := by simpa only [Prod.mk.injEq] using heq
    exact ⟨h, rfl⟩
  rcases Nat.eq_zero_or_pos pool.config.prefixCacheBlocks with hzero | hcap
  · have hcount : publishCount pool sequence = 0 := by
      rw [publishCount, hzero, Nat.min_zero, Nat.min_zero]
    rw [hcount] at heq
    obtain ⟨-, rfl, rfl⟩ := by simpa only [FlatCache.publishLoop, Prod.mk.injEq] using heq
    exact ⟨h, rfl⟩
  · refine h.publishLoop hcap hpages ?_ heq
    rw [Nat.zero_add]
    exact Nat.min_le_left _ _

/-! ## The published path -/

/-- When the histories of the first `i` pages are cached, the pages are leased
one below the other. -/
theorem exists_leasedPath {blockTokens : Nat} {c : List Entry} (hpos : 0 < blockTokens)
    (hlen : sequence.tokens.length = sequence.used) {i : Nat}
    (hused : ∀ j < i, j * blockTokens < sequence.used)
    (hmem : ∀ j < i, pageHistory blockTokens sequence j ∈ c.map Prod.fst) :
    ∃ pages, LeasedPath blockTokens c
      (sequence.tokens.take (min sequence.used (i * blockTokens))) pages := by
  induction i with
  | zero => exact ⟨[], by simpa using LeasedPath.nil blockTokens c⟩
  | succ i ih =>
    obtain ⟨pages, hpath⟩ := ih (fun j hj => hused j (by omega)) fun j hj => hmem j (by omega)
    obtain ⟨⟨k, b⟩, hb, hk⟩ := List.mem_map.mp (hmem i (Nat.lt_succ_self i))
    have hi := hused i (Nat.lt_succ_self i)
    have hsucc : (i + 1) * blockTokens = i * blockTokens + blockTokens := Nat.succ_mul _ _
    rw [Nat.min_eq_right hi.le] at hpath
    have hfront : (sequence.tokens.take (i * blockTokens)).length = blockTokens * i := by
      rw [List.length_take, hlen, Nat.min_eq_left hi.le, Nat.mul_comm]
    have hsplit : sequence.tokens.take (min sequence.used ((i + 1) * blockTokens)) =
        sequence.tokens.take (i * blockTokens) ++ (sequence.tokens.drop (i * blockTokens)).take
          (min (sequence.used - i * blockTokens) blockTokens) := by
      rw [← List.take_add]
      congr 1
      omega
    refine ⟨pages ++ [b], ?_⟩
    rw [hsplit]
    refine hpath.snoc hpos hfront ?_ ?_ ?_
    · intro hnil
      have hzero := congrArg List.length hnil
      rw [List.length_take, List.length_drop, hlen, List.length_nil] at hzero
      omega
    · rw [List.length_take]
      omega
    · rw [← hsplit, ← pageHistory, ← hk]
      exact hb

/-- After `i` turns of the loop the first `i` pages are leased. -/
theorem Published.path {i : Nat} (h : Published sequence i cache pool)
    (hlen : sequence.tokens.length = sequence.used)
    (hused : ∀ j < i, j * pool.config.blockTokens < sequence.used) :
    ∃ pages, LeasedPath pool.config.blockTokens cache.entries
      (sequence.tokens.take (min sequence.used (i * pool.config.blockTokens))) pages := by
  refine exists_leasedPath pool.valid.blockTokens_pos hlen hused fun j hj => ?_
  exact h.newest.subset (List.mem_map.mpr ⟨j, List.mem_range.mpr hj, rfl⟩)

end FlatCache

end TinyInfer.MiniPrefix
