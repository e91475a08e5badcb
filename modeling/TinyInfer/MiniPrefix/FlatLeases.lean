import TinyInfer.MiniPrefix.FlatCache

/-!
# Leases and contents of the flat cache

The leases of a flat cache are the pages of its entries. Each operation moves
the pool's accounts by exactly the change of that list, while `out` counts the
leases held by everybody else:

- `evictOne_accounts`, `clear_accounts`: leases are given back;
- `publish_accounts`: pages somebody holds are leased, and the new entries
  are histories of the published sequence with its own pages;
- `walk_spec`, `reuse_accounts`: the pages handed out come from entries, and
  `Backs` says which tokens of the prompt they hold.
-/

namespace TinyInfer.MiniPrefix

open Lib

namespace FlatCache

/-- The leased pages, one for each entry. -/
def pages (cache : FlatCache) : List Nat := cache.entries.map Prod.snd

variable {out : Nat → Nat} {cache : FlatCache} {pool : KvBlockPool}

/-! ## Eviction and clearing -/

/-- An eviction drops the least recently used entry. -/
theorem evictOne_entries (cache : FlatCache) (pool : KvBlockPool) :
    (cache.evictOne pool).2.1.entries = cache.entries.tail := by
  rw [evictOne]
  cases h : cache.entries with
  | nil => exact h
  | cons e rest => rfl

/-- An eviction gives back the entry's reference. -/
theorem evictOne_accounts (h : pool.Accounts fun b => out b + cache.pages.count b) :
    (cache.evictOne pool).2.2.Accounts
      fun b => out b + (cache.evictOne pool).2.1.pages.count b := by
  rw [evictOne]
  cases hent : cache.entries with
  | nil => exact h
  | cons e rest =>
    refine KvBlockPool.unref_accounts h fun x => ?_
    show out x + cache.pages.count x = out x + (rest.map Prod.snd).count x + [e.2].count x
    rw [pages, hent, List.map_cons, KvBlockPool.count_cons_eq e.2 x]
    omega

/-- Clearing gives back every reference of the cache. -/
theorem clear_accounts (h : pool.Accounts fun b => out b + cache.pages.count b) :
    (cache.clear pool).2.Accounts out := by
  refine KvBlockPool.unrefAll_accounts h fun x => ?_
  rw [((inKeyOrder_perm cache.entries).map Prod.snd).count_eq x]
  rfl

@[simp] theorem clear_config (cache : FlatCache) (pool : KvBlockPool) :
    (cache.clear pool).2.config = pool.config := pool.unrefAll_config _

/-! ## Publication -/

/-- Entering a page somebody holds never throws. -/
theorem publishPage_accounts (h : pool.Accounts fun b => out b + cache.pages.count b)
    (history : List TokenId) {page : Nat} (hpage : 0 < out page) :
    ∃ cache' pool', cache.publishPage pool history page = (.ok (), cache', pool') ∧
      pool'.config = pool.config ∧
      pool'.Accounts (fun b => out b + cache'.pages.count b) ∧
      ∀ e ∈ cache'.entries, e ∈ cache.entries ∨ e = (history, page) := by
  rw [publishPage]
  by_cases hfound : (Lru.find? cache.entries history).isSome
  · rw [if_pos hfound]
    have hperm := Lru.touch_perm cache.entries history
    refine ⟨{ cache with entries := Lru.touch cache.entries history }, pool, rfl, rfl,
      h.congr fun b => ?_, fun e he => Or.inl (hperm.mem_iff.mp he)⟩
    exact congrArg (out b + ·) ((hperm.map Prod.snd).count_eq b).symm
  · rw [if_neg hfound]
    obtain ⟨pool₁, hret, hcfg, -, hacc⟩ := KvBlockPool.retain_spec h (b := page) (by omega)
    simp only [hret]
    have hacc' : pool₁.Accounts fun b => (out b + [page].count b) + cache.pages.count b :=
      hacc.congr fun b => by omega
    have happend : ∀ c : FlatCache, ∀ b, ({ c with
          entries := c.entries ++ [(history, page)] } : FlatCache).pages.count b =
        [page].count b + c.pages.count b := by
      intro c b
      simp only [pages, List.map_append, List.count_append, List.map_cons, List.map_nil]
      omega
    by_cases hfull : cache.entries.length = pool₁.config.prefixCacheBlocks
    · rw [if_pos hfull]
      refine ⟨_, _, rfl, ?_, (evictOne_accounts hacc').congr fun b => ?_, fun e he => ?_⟩
      · rw [evictOne_config, hcfg]
      · rw [happend]
        omega
      · rcases List.mem_append.mp he with hin | hin
        · rw [evictOne_entries] at hin
          exact Or.inl (List.mem_of_mem_tail hin)
        · exact Or.inr (List.mem_singleton.mp hin)
    · rw [if_neg hfull]
      refine ⟨{ cache with entries := cache.entries ++ [(history, page)] }, pool₁, rfl, hcfg,
        hacc'.congr fun b => ?_, fun e he => ?_⟩
      · rw [happend]
        omega
      · rcases List.mem_append.mp he with hin | hin
        · exact Or.inl hin
        · exact Or.inr (List.mem_singleton.mp hin)

/-- The history of page `i` of a sequence, with that page. -/
def pageEntry (blockTokens : Nat) (sequence : PagedSequence) (i : Nat) : Entry :=
  (sequence.tokens.take (min sequence.used ((i + 1) * blockTokens)), sequence.blocks.getD i 0)

/-- A publication keeps the account, its new leases counted. -/
theorem publishLoop_accounts {sequence : PagedSequence} (pages : Nat) {i : Nat}
    {cache : FlatCache} {pool : KvBlockPool}
    (h : pool.Accounts fun b => out b + cache.pages.count b)
    (hheld : ∀ b ∈ sequence.blocks, 0 < out b) (hlast : i + pages ≤ sequence.blocks.length) :
    ∃ cache' pool', publishLoop sequence pages i cache pool = (.ok (), cache', pool') ∧
      pool'.config = pool.config ∧
      pool'.Accounts (fun b => out b + cache'.pages.count b) ∧
      ∀ e ∈ cache'.entries, e ∈ cache.entries ∨
        ∃ j, j < i + pages ∧ e = pageEntry pool.config.blockTokens sequence j := by
  induction pages generalizing i cache pool with
  | zero => exact ⟨cache, pool, rfl, rfl, h, fun e he => Or.inl he⟩
  | succ pages ih =>
    have hpage : 0 < out (sequence.blocks.getD i 0) := by
      refine hheld _ ?_
      rw [List.getD_eq_getElem?_getD, List.getElem?_eq_getElem (by omega), Option.getD_some]
      exact List.getElem_mem _
    obtain ⟨cache₁, pool₁, heq, hcfg, hacc, hmem⟩ := publishPage_accounts h
      (sequence.tokens.take (min sequence.used ((i + 1) * pool.config.blockTokens))) hpage
    obtain ⟨cache₂, pool₂, heq₂, hcfg₂, hacc₂, hmem₂⟩ := ih hacc (i := i + 1) (by omega)
    refine ⟨cache₂, pool₂, ?_, hcfg₂.trans hcfg, hacc₂, fun e he => ?_⟩
    · rw [publishLoop]
      simp only [heq]
      exact heq₂
    · rcases hmem₂ e he with hin | ⟨j, hj, hej⟩
      · rcases hmem e hin with hin | heq
        · exact Or.inl hin
        · exact Or.inr ⟨i, by omega, heq⟩
      · exact Or.inr ⟨j, by omega, by rw [hej, hcfg]⟩

/-- Publishing a committed sequence whose pages are held never throws; the new
entries are its page histories. -/
theorem publish_accounts (h : pool.Accounts fun b => out b + cache.pages.count b)
    {sequence : PagedSequence} (hlen : sequence.tokens.length = sequence.used)
    (hheld : ∀ b ∈ sequence.blocks, 0 < out b) :
    ∃ cache' pool', cache.publish pool sequence = (.ok (), cache', pool') ∧
      pool'.config = pool.config ∧
      pool'.Accounts (fun b => out b + cache'.pages.count b) ∧
      ∀ e ∈ cache'.entries, e ∈ cache.entries ∨
        ∃ j, j < publishCount pool sequence ∧ e = pageEntry pool.config.blockTokens sequence j := by
  rw [publish, if_neg (not_not.mpr hlen)]
  have hle : 0 + publishCount pool sequence ≤ sequence.blocks.length := by
    rw [Nat.zero_add]
    exact Nat.min_le_left _ _
  obtain ⟨cache', pool', heq, hcfg, hacc, hmem⟩ := publishLoop_accounts _ h hheld hle
  exact ⟨cache', pool', heq, hcfg, hacc, fun e he => (hmem e he).imp_right
    fun ⟨j, hj, hej⟩ => ⟨j, by simpa using hj, hej⟩⟩

/-! ## Reuse -/

/-- Page `j` of a prompt, `total` tokens of which are matched, can be the page of
the entry `k`: both agree on the matched tokens through that page. -/
structure Backs (blockTokens : Nat) (prompt : List TokenId) (total j : Nat)
    (k : List TokenId) : Prop where
  lt : blockTokens * j < k.length
  le : k.length ≤ blockTokens * (j + 1)
  covers : min total (blockTokens * (j + 1)) ≤ k.length
  agrees : k.take (min total (blockTokens * (j + 1))) =
    prompt.take (min total (blockTokens * (j + 1)))

/-- A best match shares its matched tokens with the prompt. -/
theorem take_of_bestMatch {blockTokens d len : Nat} {prompt edge : List TokenId}
    (hd : blockTokens * d ≤ prompt.length) {m : Nat}
    (hm : m ≤ commonPrefix edge ((prompt.drop (blockTokens * d)).take len)) :
    (prompt.take (blockTokens * d) ++ edge).take (blockTokens * d + m) =
      prompt.take (blockTokens * d + m) := by
  have hhist : (prompt.take (blockTokens * d)).length = blockTokens * d := by
    rw [List.length_take, Nat.min_eq_left hd]
  have hedge : edge.take m = (prompt.drop (blockTokens * d)).take m := by
    have htake := congrArg (List.take m)
      (take_commonPrefix edge ((prompt.drop (blockTokens * d)).take len))
    rw [List.take_take, List.take_take, Nat.min_eq_left hm, List.take_take] at htake
    have hlen := commonPrefix_le_length_right edge ((prompt.drop (blockTokens * d)).take len)
    rw [List.length_take] at hlen
    rwa [Nat.min_eq_left (by omega)] at htake
  rw [List.take_append, hhist, Nat.add_sub_cancel_left, hedge, List.take_take,
    Nat.min_eq_right (by omega), List.take_add]

/-- The walk collects pages that back the prompt, within its limit. -/
theorem walk_spec {blockTokens limit : Nat} {prompt : List TokenId} (hpos : 0 < blockTokens)
    (hlimit : limit ≤ prompt.length) (fuel : Nat) {c : List Entry} {d : Nat} {pages : List Nat}
    (hlen : pages.length = d) (hle : blockTokens * d ≤ limit) :
    ∃ c' total found, walk blockTokens limit prompt fuel c (blockTokens * d) pages =
        (c', total, found) ∧
      c'.Perm c ∧ blockTokens * d ≤ total ∧ total ≤ limit ∧
      found.length = pagesFor blockTokens total ∧ pages <+: found ∧
      ∀ j b, found[j]? = some b → d ≤ j →
        ∃ k, (k, b) ∈ c ∧ Backs blockTokens prompt total j k := by
  -- where the walk stops, the pages cover exactly the full ones before
  have hstop : ∀ {c : List Entry} {d : Nat} {pages : List Nat}, pages.length = d →
      blockTokens * d ≤ limit → ∃ c' total found, (c, blockTokens * d, pages) = (c', total, found) ∧
      c'.Perm c ∧ blockTokens * d ≤ total ∧ total ≤ limit ∧
      found.length = pagesFor blockTokens total ∧ pages <+: found ∧
      ∀ j b, found[j]? = some b → d ≤ j →
        ∃ k, (k, b) ∈ c ∧ Backs blockTokens prompt total j k := by
    intro c d pages hlen hle
    refine ⟨c, _, pages, rfl, .refl c, le_rfl, hle, ?_, List.prefix_rfl, fun j b hj hd => ?_⟩
    · rw [hlen, pagesFor_mul d hpos]
    · rw [List.getElem?_eq_none (by omega)] at hj
      cases hj
  -- on the fuel, with the full pages matched so far as `d`
  induction fuel generalizing c d pages with
  | zero => exact hstop hlen hle
  | succ fuel ih =>
    rw [walk]
    by_cases hlt : blockTokens * d < limit
    swap
    · rw [if_neg hlt]
      exact hstop hlen hle
    rw [if_pos hlt]
    have hd : blockTokens * d ≤ prompt.length := by omega
    cases hbest : bestMatch blockTokens (prompt.take (blockTokens * d))
        ((prompt.drop (blockTokens * d)).take (min blockTokens (limit - blockTokens * d))) c with
    | none =>
      simp only [hbest]
      exact hstop hlen hle
    | some r =>
      obtain ⟨edge, page⟩ := r
      simp only [hbest]
      obtain ⟨hmem, hedge, hmatch⟩ := bestMatch_mem hbest
      have hhist : (prompt.take (blockTokens * d)).length = blockTokens * d := by
        rw [List.length_take, Nat.min_eq_left hd]
      have hquery := commonPrefix_le_length_right edge
        ((prompt.drop (blockTokens * d)).take (min blockTokens (limit - blockTokens * d)))
      have hedge' := commonPrefix_le_length_left edge
        ((prompt.drop (blockTokens * d)).take (min blockTokens (limit - blockTokens * d)))
      rw [List.length_take, List.length_drop] at hquery
      generalize hm : commonPrefix edge
        ((prompt.drop (blockTokens * d)).take (min blockTokens (limit - blockTokens * d))) = m
        at *
      have hmul : blockTokens * (d + 1) = blockTokens * d + blockTokens := Nat.mul_succ _ _
      have hperm := Lru.touch_perm c (prompt.take (blockTokens * d) ++ edge)
      -- the new page agrees with the prompt as far as it is matched
      have hbacks : ∀ total, min total (blockTokens * (d + 1)) = blockTokens * d + m →
          Backs blockTokens prompt total d (prompt.take (blockTokens * d) ++ edge) := by
        intro total htotal
        refine { lt := ?_, le := ?_, covers := ?_, agrees := ?_ }
        · rw [List.length_append, hhist]
          omega
        · rw [List.length_append, hhist]
          omega
        · rw [htotal, List.length_append, hhist]
          omega
        · rw [htotal]
          exact take_of_bestMatch hd hm.ge
      -- a partial match ends the walk with this page
      by_cases hfull : m ≠ blockTokens
      · rw [if_pos hfull]
        refine ⟨_, _, _, rfl, hperm, by omega, by omega, ?_, List.prefix_append _ _, ?_⟩
        · rw [List.length_append, hlen, pagesFor_of_lt (k := d) (by omega) (by omega)]
          rfl
        · intro j b hj hdj
          rw [List.getElem?_append_right (by omega), List.getElem?_singleton] at hj
          split at hj
          · obtain rfl := Option.some.inj hj
            obtain rfl : j = d := by omega
            exact ⟨_, hmem, hbacks _ (by omega)⟩
          · cases hj
      -- a full page: the walk goes on behind it
      · rw [if_neg hfull]
        have hmb := not_not.mp hfull
        have hnext : blockTokens * d + m = blockTokens * (d + 1) := by omega
        rw [hnext]
        obtain ⟨c', total, found, heq, hperm', hge, hle', hfound, hpre, hback⟩ :=
          ih (c := Lru.touch c (prompt.take (blockTokens * d) ++ edge)) (d := d + 1)
            (show (pages ++ [page]).length = d + 1 by simp [hlen]) (by omega)
        refine ⟨c', total, found, heq, hperm'.trans hperm, by omega, hle', hfound,
          (List.prefix_append _ _).trans hpre, fun j b hj hdj => ?_⟩
        rcases Nat.eq_or_lt_of_le hdj with rfl | hgt
        · obtain ⟨t, rfl⟩ := hpre
          rw [List.append_assoc, List.getElem?_append_right (by omega), hlen, Nat.sub_self] at hj
          obtain rfl : page = b := by simpa using hj
          exact ⟨_, hmem, hbacks _ (by omega)⟩
        · obtain ⟨k, hk, hbk⟩ := hback j b hj hgt
          exact ⟨k, hperm.mem_iff.mp hk, hbk⟩

/-- What a `reuse` that gets as far as the walk does: it never throws. -/
theorem reuse_accounts (h : pool.Accounts fun b => out b + cache.pages.count b)
    {sequence : PagedSequence} (hused : sequence.used = 0) (hblocks : sequence.blocks = [])
    (htokens : sequence.tokens = []) (prompt : List TokenId) :
    ∃ count found cache' pool', cache.reuse pool sequence prompt =
        (.ok count, { used := count, blocks := found, tokens := prompt.take count },
          cache', pool') ∧
      pool'.config = pool.config ∧ cache'.entries.Perm cache.entries ∧
      count ≤ prompt.length - 1 ∧ found.length = pagesFor pool.config.blockTokens count ∧
      pool'.Accounts (fun b => (out b + found.count b) + cache'.pages.count b) ∧
      ∀ j b, found[j]? = some b →
        ∃ k, (k, b) ∈ cache.entries ∧ Backs pool.config.blockTokens prompt count j k := by
  rw [reuse, if_neg (by simp [hused, hblocks, htokens])]
  by_cases hoff : pool.config.prefixCacheBlocks = 0
  · rw [if_pos hoff]
    refine ⟨0, [], cache, pool, ?_, rfl, .refl _, Nat.zero_le _, by simp, h.congr fun b => by simp,
      fun j b hj => by simp at hj⟩
    obtain ⟨u, bs, ts⟩ := sequence
    simp only at hused hblocks htokens
    rw [hused, hblocks, htokens, List.take_zero]
  rw [if_neg hoff]
  obtain ⟨c', total, found, hwalk, hperm, -, hle, hlen, -, hback⟩ :=
    walk_spec pool.valid.blockTokens_pos (Nat.sub_le prompt.length 1) (prompt.length - 1)
      (c := cache.entries) (d := 0) (show ([] : List Nat).length = 0 from rfl) (by simp)
  rw [Nat.mul_zero] at hwalk
  have hheld : ∀ b ∈ found, 0 < out b + cache.pages.count b := by
    intro b hb
    obtain ⟨j, hj⟩ := List.mem_iff_getElem?.mp hb
    obtain ⟨k, hk, -⟩ := hback j b hj (Nat.zero_le _)
    have : 0 < cache.pages.count b := List.count_pos_iff.mpr (List.mem_map.mpr ⟨_, hk, rfl⟩)
    omega
  obtain ⟨pool', hret, hcfg, -, hacc⟩ := KvBlockPool.retainAll_spec h hheld
  simp only [hwalk, hret]
  refine ⟨total, found, _, pool', rfl, hcfg, ?_, hle, hlen, hacc.congr fun b => ?_,
    fun j b hj => hback j b hj (Nat.zero_le _)⟩
  · split <;> exact hperm
  · have hcount : (c'.map Prod.snd).count b = cache.pages.count b :=
      (hperm.map Prod.snd).count_eq b
    split <;> simp only [pages, hcount] <;> omega

/-! ## The peak -/

/-- An eviction leaves the peak and adds no live page. -/
theorem evictOne_peak (cache : FlatCache) (pool : KvBlockPool) :
    (cache.evictOne pool).2.2.peak = pool.peak ∧ (cache.evictOne pool).2.2.live ≤ pool.live := by
  rw [evictOne]
  split
  · exact ⟨rfl, le_rfl⟩
  · exact pool.unref_peak _

theorem clear_peak (cache : FlatCache) (pool : KvBlockPool) :
    (cache.clear pool).2.peak = pool.peak ∧ (cache.clear pool).2.live ≤ pool.live :=
  pool.unrefAll_peak _

theorem publishPage_peak (cache : FlatCache) (pool : KvBlockPool) (history : List TokenId)
    (page : Nat) :
    (cache.publishPage pool history page).2.2.peak = pool.peak ∧
      (cache.publishPage pool history page).2.2.live ≤ pool.live := by
  have hret := pool.retain_peak page
  rw [publishPage]
  split
  · exact ⟨rfl, le_rfl⟩
  · generalize pool.retain page = r at hret
    obtain ⟨_ | _, pool'⟩ := r
    · exact ⟨hret.1, hret.2.le⟩
    · simp only
      split
      · obtain ⟨h1, h2⟩ := cache.evictOne_peak pool'
        exact ⟨h1.trans hret.1, h2.trans hret.2.le⟩
      · exact ⟨hret.1, hret.2.le⟩

theorem publishLoop_peak (sequence : PagedSequence) (pages i : Nat) (cache : FlatCache)
    (pool : KvBlockPool) :
    (publishLoop sequence pages i cache pool).2.2.peak = pool.peak ∧
      (publishLoop sequence pages i cache pool).2.2.live ≤ pool.live := by
  induction pages generalizing i cache pool with
  | zero => exact ⟨rfl, le_rfl⟩
  | succ pages ih =>
    have hpage := publishPage_peak cache pool
      (sequence.tokens.take (min sequence.used ((i + 1) * pool.config.blockTokens)))
      (sequence.blocks.getD i 0)
    rw [publishLoop]
    generalize publishPage cache pool
      (sequence.tokens.take (min sequence.used ((i + 1) * pool.config.blockTokens)))
      (sequence.blocks.getD i 0) = r at hpage
    obtain ⟨_ | _, cache', pool'⟩ := r
    · exact hpage
    · obtain ⟨h1, h2⟩ := ih (i + 1) cache' pool'
      exact ⟨h1.trans hpage.1, h2.trans hpage.2⟩

theorem publish_peak (cache : FlatCache) (pool : KvBlockPool) (sequence : PagedSequence) :
    (cache.publish pool sequence).2.2.peak = pool.peak ∧
      (cache.publish pool sequence).2.2.live ≤ pool.live := by
  rw [publish]
  split
  · exact ⟨rfl, le_rfl⟩
  · exact publishLoop_peak _ _ _ _ _

/-- A reuse leaves the peak and adds no live page. -/
theorem reuse_peak (cache : FlatCache) (pool : KvBlockPool) (sequence : PagedSequence)
    (prompt : List TokenId) :
    (cache.reuse pool sequence prompt).2.2.2.peak = pool.peak ∧
      (cache.reuse pool sequence prompt).2.2.2.live ≤ pool.live := by
  rw [reuse]
  split
  · exact ⟨rfl, le_rfl⟩
  split
  · exact ⟨rfl, le_rfl⟩
  simp only
  have hret := pool.retainAll_peak (walk pool.config.blockTokens (prompt.length - 1) prompt
    (prompt.length - 1) cache.entries 0 []).2.2
  generalize pool.retainAll _ = r at hret ⊢
  obtain ⟨_ | _, pool'⟩ := r <;> exact ⟨hret.1, hret.2.le⟩

end FlatCache

end TinyInfer.MiniPrefix
