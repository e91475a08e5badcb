import TinyInfer.Lib.CommonPrefix
import TinyInfer.Lib.Lru
import TinyInfer.MiniPrefix.PagedKv
import Mathlib.Data.List.Sort

/-!
# The prefix cache without a trie

What the exact prefix cache is for, stated on a flat list of entries in order of
use: an entry is a whole token history through the end of a page, together with
the page that holds its last tokens. `FlatCache` has the operations of
`ExactPrefixCache` on that list: no trie, no hint, no recycled storage.

- `bestMatch` picks, among the entries one page below a history, the one
  preferred to all others by `outranks`;
- `walk` follows best matches from the empty history.
-/

namespace TinyInfer.MiniPrefix

open Lib

/-- A cached history and the page of its last tokens. -/
abbrev Entry := List TokenId × Nat

structure FlatCache where
  entries : List Entry := []
  hits : Nat := 0
  misses : Nat := 0
  reused : Nat := 0
  evictions : Nat := 0

namespace FlatCache

/-! ## Operations -/

/-- The entries at most one page longer than a history, without that history. -/
def below (blockTokens : Nat) (history : List TokenId) (c : List Entry) : List Entry :=
  (c.filter fun e => e.1.take history.length = history ∧ history.length < e.1.length ∧
    e.1.length ≤ history.length + blockTokens).map fun e => (e.1.drop history.length, e.2)

/-- The entry below a history that is preferred to all others for a query. -/
def bestMatch (blockTokens : Nat) (history query : List TokenId) (c : List Entry) :
    Option Entry :=
  (below blockTokens history c).find? fun e => 0 < commonPrefix e.1 query ∧
    ∀ e' ∈ below blockTokens history c, e'.1 ≠ e.1 → outranks query e.1 e'.1

/-- Follow best matches: the touched entries, the number of matched tokens and
the pages that hold them. -/
def walk (blockTokens limit : Nat) (prompt : List TokenId) :
    Nat → List Entry → Nat → List Nat → List Entry × Nat × List Nat
  | 0, c, count, pages => (c, count, pages)
  | fuel + 1, c, count, pages =>
    if count < limit then
      let history := prompt.take count
      let query := (prompt.drop count).take (min blockTokens (limit - count))
      match bestMatch blockTokens history query c with
      | none => (c, count, pages)
      | some (edge, page) =>
        let c := Lru.touch c (history ++ edge)
        let matched := commonPrefix edge query
        if matched ≠ blockTokens then (c, count + matched, pages ++ [page])
        else walk blockTokens limit prompt fuel c (count + matched) (pages ++ [page])
    else (c, count, pages)

def reuse (cache : FlatCache) (pool : KvBlockPool) (sequence : PagedSequence)
    (prompt : List TokenId) : Except Exn Nat × PagedSequence × FlatCache × KvBlockPool :=
  if sequence.used ≠ 0 ∨ sequence.blocks ≠ [] ∨ sequence.tokens ≠ [] then
    (.error (.invalidArgument "prefix reuse requires an empty sequence"), sequence, cache, pool)
  else if pool.config.prefixCacheBlocks = 0 then (.ok 0, sequence, cache, pool)
  else
    let limit := prompt.length - 1
    let (entries, count, pages) :=
      walk pool.config.blockTokens limit prompt limit cache.entries 0 []
    let cache := { cache with entries }
    match pool.retainAll pages with
    | (.error e, pool) => (.error e, sequence, cache, pool)
    | (.ok (), pool) =>
      let sequence := { used := count, blocks := pages, tokens := prompt.take count }
      let cache :=
        if count ≠ 0 then { cache with hits := cache.hits + 1, reused := cache.reused + count }
        else { cache with misses := cache.misses + 1 }
      (.ok count, sequence, cache, pool)

/-- Drop the least recently used entry. -/
def evictOne (cache : FlatCache) (pool : KvBlockPool) : Bool × FlatCache × KvBlockPool :=
  match cache.entries with
  | [] => (false, cache, pool)
  | (_, page) :: rest =>
    (true, { cache with entries := rest, evictions := cache.evictions + 1 }, pool.unref page)

/-- Entries in lexicographic order of their histories. -/
def inKeyOrder (c : List Entry) : List Entry := c.insertionSort fun a b => a.1 ≤ b.1

def clear (cache : FlatCache) (pool : KvBlockPool) : FlatCache × KvBlockPool :=
  ({ cache with entries := [] }, pool.unrefAll ((inKeyOrder cache.entries).map Prod.snd))

/-- Enter one history: touch it, or lease its page and make room for it. -/
def publishPage (cache : FlatCache) (pool : KvBlockPool) (history : List TokenId) (page : Nat) :
    Except Exn Unit × FlatCache × KvBlockPool :=
  if (Lru.find? cache.entries history).isSome then
    (.ok (), { cache with entries := Lru.touch cache.entries history }, pool)
  else
    match pool.retain page with
    | (.error e, pool) => (.error e, cache, pool)
    | (.ok (), pool) =>
      let (cache, pool) :=
        if cache.entries.length = pool.config.prefixCacheBlocks then (cache.evictOne pool).2
        else (cache, pool)
      (.ok (), { cache with entries := cache.entries ++ [(history, page)] }, pool)

/-- Enter the histories of `pages` pages from page `i` on. -/
def publishLoop (sequence : PagedSequence) :
    Nat → Nat → FlatCache → KvBlockPool → Except Exn Unit × FlatCache × KvBlockPool
  | 0, _, cache, pool => (.ok (), cache, pool)
  | pages + 1, i, cache, pool =>
    let history :=
      sequence.tokens.take (min sequence.used ((i + 1) * pool.config.blockTokens))
    match cache.publishPage pool history (sequence.blocks.getD i 0) with
    | (.error e, cache, pool) => (.error e, cache, pool)
    | (.ok (), cache, pool) => publishLoop sequence pages (i + 1) cache pool

/-- The number of pages `publish` enters: never more than the cache capacity. -/
def publishCount (pool : KvBlockPool) (sequence : PagedSequence) : Nat :=
  min sequence.blocks.length
    (min ((sequence.used + pool.config.blockTokens - 1) / pool.config.blockTokens)
      pool.config.prefixCacheBlocks)

def publish (cache : FlatCache) (pool : KvBlockPool) (sequence : PagedSequence) :
    Except Exn Unit × FlatCache × KvBlockPool :=
  if sequence.tokens.length ≠ sequence.used then
    (.error (.logicError "invalid committed KV token history"), cache, pool)
  else publishLoop sequence (publishCount pool sequence) 0 cache pool

def cacheOnlyBlocks (cache : FlatCache) (pool : KvBlockPool) : Nat :=
  ((List.range pool.config.maxBlocks).filter fun b =>
    (cache.entries.map Prod.snd).count b ≠ 0 &&
      pool.references b == (cache.entries.map Prod.snd).count b).length

@[simp] theorem evictOne_config (cache : FlatCache) (pool : KvBlockPool) :
    (cache.evictOne pool).2.2.config = pool.config := by
  rw [evictOne]
  split
  · rfl
  · exact pool.unref_config _

/-! ## The pages of `publish` -/

theorem publishCount_le_capacity (pool : KvBlockPool) (sequence : PagedSequence) :
    publishCount pool sequence ≤ pool.config.prefixCacheBlocks :=
  (Nat.min_le_right _ _).trans (Nat.min_le_right _ _)

/-- Every published page holds a token. -/
theorem mul_lt_used {pool : KvBlockPool} {sequence : PagedSequence} {j : Nat}
    (hj : j < publishCount pool sequence) :
    j * pool.config.blockTokens < sequence.used := by
  have hpos := pool.valid.blockTokens_pos
  have hle : j + 1 ≤ (sequence.used + pool.config.blockTokens - 1) / pool.config.blockTokens :=
    Nat.le_trans hj ((Nat.min_le_right _ _).trans (Nat.min_le_left _ _))
  have hmul := (Nat.le_div_iff_mul_le hpos).mp hle
  have hsucc : (j + 1) * pool.config.blockTokens =
      j * pool.config.blockTokens + pool.config.blockTokens := Nat.succ_mul _ _
  omega

/-! ## The order of `clear` -/

theorem inKeyOrder_perm (c : List Entry) : (inKeyOrder c).Perm c := List.perm_insertionSort _ c

/-- In key order the keys ascend. -/
theorem inKeyOrder_sorted (c : List Entry) :
    (inKeyOrder c).Pairwise fun a b => a.1 ≤ b.1 := by
  have : IsTrans Entry fun a b => a.1 ≤ b.1 := ⟨fun _ _ _ => le_trans⟩
  have : Std.Total fun a b : Entry => a.1 ≤ b.1 := ⟨fun a b => le_total a.1 b.1⟩
  exact List.pairwise_insertionSort _ c

/-- The entry with the least history comes first. -/
theorem inKeyOrder_eq_cons {c d : List Entry} {e : Entry} (hperm : c.Perm (e :: d))
    (hnd : (c.map Prod.fst).Nodup) (hmin : ∀ x ∈ d, e.1 ≤ x.1) :
    inKeyOrder c = e :: inKeyOrder d := by
  refine List.Perm.eq_of_pairwise ?_ (inKeyOrder_sorted c) ?_
    ((inKeyOrder_perm c).trans (hperm.trans ((inKeyOrder_perm d).symm.cons e)))
  · intro a b ha hb hab hba
    have ha' := (inKeyOrder_perm c).mem_iff.mp ha
    have hb' := (hperm.trans ((inKeyOrder_perm d).symm.cons e)).mem_iff.mpr hb
    exact List.inj_on_of_nodup_map hnd ha' hb' (le_antisymm hab hba)
  · exact List.pairwise_cons.mpr
      ⟨fun x hx => hmin x ((inKeyOrder_perm d).mem_iff.mp hx), inKeyOrder_sorted d⟩

/-! ## Best matches -/

/-- The entries below a history are its one-page extensions. -/
theorem mem_below {blockTokens : Nat} {history e : List TokenId} {b : Nat} {c : List Entry} :
    (e, b) ∈ below blockTokens history c ↔
      (history ++ e, b) ∈ c ∧ e ≠ [] ∧ e.length ≤ blockTokens := by
  rw [below, List.mem_map]
  constructor
  · rintro ⟨⟨k, b'⟩, hmem, heq⟩
    obtain ⟨hin, hcond⟩ := List.mem_filter.mp hmem
    obtain ⟨hpre, hlt, hle⟩ := of_decide_eq_true hcond
    obtain ⟨rfl, rfl⟩ : k.drop history.length = e ∧ b' = b := by simpa using heq
    have hk : history ++ k.drop history.length = k := by
      conv_rhs => rw [← List.take_append_drop history.length k, hpre]
    refine ⟨by rw [hk]; exact hin, ?_, ?_⟩
    · intro hnil
      have := congrArg List.length hnil
      simp only [List.length_drop, List.length_nil] at this
      have hlt' : history.length < k.length := hlt
      omega
    · have hle' : k.length ≤ history.length + blockTokens := hle
      rw [List.length_drop]
      omega
  · rintro ⟨hin, hne, hle⟩
    have hpos : 0 < e.length := List.length_pos_iff.mpr hne
    refine ⟨(history ++ e, b), List.mem_filter.mpr ⟨hin, decide_eq_true ?_⟩, by simp⟩
    exact ⟨by simp, by simpa using hpos, by simpa using hle⟩

/-- An extension has one page. -/
theorem below_inj {blockTokens : Nat} {history e : List TokenId} {b b' : Nat} {c : List Entry}
    (hnd : (c.map Prod.fst).Nodup) (h : (e, b) ∈ below blockTokens history c)
    (h' : (e, b') ∈ below blockTokens history c) : b = b' :=
  congrArg Prod.snd (List.inj_on_of_nodup_map hnd (mem_below.mp h).1 (mem_below.mp h').1 rfl)

/-- An entry that matches and is preferred to all others is the best match. -/
theorem bestMatch_eq_some {blockTokens : Nat} {history query e : List TokenId} {b : Nat}
    {c : List Entry} (hnd : (c.map Prod.fst).Nodup)
    (hmem : (e, b) ∈ below blockTokens history c) (hpos : 0 < commonPrefix e query)
    (hbest : ∀ e' b', (e', b') ∈ below blockTokens history c → e' ≠ e → outranks query e e') :
    bestMatch blockTokens history query c = some (e, b) := by
  cases hfind : bestMatch blockTokens history query c with
  | none =>
    have hno := List.find?_eq_none.mp hfind (e, b) hmem
    rw [decide_eq_true_eq] at hno
    exact absurd ⟨hpos, fun e' he' => hbest e'.1 e'.2 he'⟩ hno
  | some r =>
    obtain ⟨e', b'⟩ := r
    rw [bestMatch] at hfind
    have hsome := List.find?_some hfind
    rw [decide_eq_true_eq] at hsome
    obtain ⟨-, hbest'⟩ := hsome
    have hmem' : (e', b') ∈ below blockTokens history c := List.mem_of_find?_eq_some hfind
    have heq : e' = e := by
      by_contra hne
      exact outranks_asymm (hbest e' b' hmem' hne) (hbest' (e, b) hmem (Ne.symm hne))
    subst heq
    rw [below_inj hnd hmem hmem']

/-- Without a common token there is no match. -/
theorem bestMatch_eq_none {blockTokens : Nat} {history query : List TokenId} {c : List Entry}
    (h : ∀ e b, (e, b) ∈ below blockTokens history c → commonPrefix e query = 0) :
    bestMatch blockTokens history query c = none := by
  refine List.find?_eq_none.mpr fun e he => ?_
  have := h e.1 e.2 he
  simp [this]

/-- The best match is an entry that shares a token. -/
theorem bestMatch_mem {blockTokens : Nat} {history query e : List TokenId} {b : Nat}
    {c : List Entry} (h : bestMatch blockTokens history query c = some (e, b)) :
    (history ++ e, b) ∈ c ∧ e.length ≤ blockTokens ∧ 0 < commonPrefix e query := by
  rw [bestMatch] at h
  have hsome := List.find?_some h
  rw [decide_eq_true_eq] at hsome
  have hmem := mem_below.mp (List.mem_of_find?_eq_some h)
  exact ⟨hmem.1, hmem.2.2, hsome.1⟩

end FlatCache

end TinyInfer.MiniPrefix
