import TinyInfer.MiniPrefix.TrieShape
import Mathlib.Algebra.Group.Action.Defs
import Mathlib.Algebra.Order.BigOperators.Group.Finset
import Mathlib.Order.Interval.Finset.Nat

/-!
# The stored trie over whole runs

What the pointers, maps, lists and counters of `ExactPrefixCache::Index` mean after any
sequence of calls, with the pool in any state at each of them (`trie_invariant`). The index
cannot outgrow the cache (`index_bounded`), and `clear` leaves nothing behind
(`clear_empties`).

Main definitions: `ExactPrefixCache.Reached`, `TrieInvariant`, `Index.Cleared`.
-/

namespace TinyInfer.MiniPrefix

open Lib

/-! ## The capacity -/

namespace FlatCache

variable {cache cache' : FlatCache} {pool pool' : KvBlockPool}

theorem publishLoop_capacity {sequence : PagedSequence} (pages : Nat) {i : Nat}
    {cache : FlatCache} {pool : KvBlockPool} (hnd : cache.keys.Nodup)
    (hcap : 0 < pool.config.prefixCacheBlocks)
    (hle : cache.keys.length ≤ pool.config.prefixCacheBlocks) :
    (publishLoop sequence pages i cache pool).2.1.keys.length ≤ pool.config.prefixCacheBlocks := by
  induction pages generalizing i cache pool with
  | zero => exact hle
  | succ pages ih =>
    rw [publishLoop]
    have hcfg := publishPage_config cache pool
      (sequence.tokens.take (min sequence.used ((i + 1) * pool.config.blockTokens)))
      (sequence.blocks.getD i 0)
    cases hpage : cache.publishPage pool
      (sequence.tokens.take (min sequence.used ((i + 1) * pool.config.blockTokens)))
      (sequence.blocks.getD i 0) with
    | mk outcome rest =>
      obtain ⟨cache', pool'⟩ := rest
      rw [hpage] at hcfg
      cases outcome with
      | error err =>
        rw [(publishPage_error hpage).1]
        exact hle
      | ok _ =>
        have hwithin := publishPage_capacity hnd hcap hle hpage
        rw [← hcfg] at hcap hwithin ⊢
        exact ih (publishPage_nodup hnd hpage) hcap hwithin

theorem publish_capacity (hnd : cache.keys.Nodup)
    (hle : cache.keys.length ≤ pool.config.prefixCacheBlocks) (sequence : PagedSequence) :
    (cache.publish pool sequence).2.1.keys.length ≤ pool.config.prefixCacheBlocks := by
  rw [publish]
  split
  · exact hle
  · rcases Nat.eq_zero_or_pos pool.config.prefixCacheBlocks with hzero | hcap
    · have hcount := publishCount_le_capacity pool sequence
      rw [hzero, Nat.le_zero] at hcount
      rw [hcount]
      exact hle
    · exact publishLoop_capacity _ hnd hcap hle

theorem reuse_length (cache : FlatCache) (pool : KvBlockPool) (sequence : PagedSequence)
    (prompt : List TokenId) :
    (cache.reuse pool sequence prompt).2.2.1.entries.length = cache.entries.length := by
  obtain ⟨c', total, found, hwalk, hperm, -⟩ :=
    walk_spec pool.valid.blockTokens_pos (Nat.sub_le prompt.length 1) (prompt.length - 1)
      (c := cache.entries) (d := 0) (show ([] : List Nat).length = 0 from rfl) (by simp)
  rw [Nat.mul_zero] at hwalk
  rw [reuse]
  split
  · rfl
  split
  · rfl
  simp only [hwalk]
  split
  · exact hperm.length_eq
  · split <;> exact hperm.length_eq

end FlatCache

/-! ## Runs -/

/-- The states of a cache. The pool it is given may be in any state at each call. -/
inductive ExactPrefixCache.Reached (config : KvCacheConfig) : ExactPrefixCache → Prop where
  | start : Reached config {}
  | publish {cache : ExactPrefixCache} (before : Reached config cache) (pool : KvBlockPool)
      (hcfg : pool.config = config) (sequence : PagedSequence) :
      Reached config (cache.publish pool sequence).2.1
  | reuse {cache : ExactPrefixCache} (before : Reached config cache) (pool : KvBlockPool)
      (hcfg : pool.config = config) (sequence : PagedSequence) (prompt : List TokenId) :
      Reached config (cache.reuse pool sequence prompt).2.2.1
  | evictOne {cache : ExactPrefixCache} (before : Reached config cache) (pool : KvBlockPool)
      (hcfg : pool.config = config) : Reached config (cache.evictOne pool).2.1
  | clear {cache : ExactPrefixCache} (before : Reached config cache) (pool : KvBlockPool)
      (hcfg : pool.config = config) : Reached config (cache.clear pool).1

/-- Every state stores a flat cache within the capacity, in a tree with the right counters. -/
theorem ExactPrefixCache.Reached.inv {config : KvCacheConfig} {cache : ExactPrefixCache}
    (h : cache.Reached config) : ∃ flat : FlatCache, Represents config.blockTokens cache flat ∧
      flat.keys.length ≤ config.prefixCacheBlocks ∧ cache.index.Shaped config := by
  induction h with
  | start => exact ⟨{}, Represents.empty _, Nat.zero_le _, .start config⟩
  | publish _ pool hcfg sequence ih =>
    obtain ⟨flat, hstored, hwithin, hshaped⟩ := ih
    subst hcfg
    obtain ⟨_, cache', flat', pool', heq, hflat, hrep⟩ := hstored.publish sequence
    have hnext := hshaped.publish hstored rfl sequence
    have hcapacity := FlatCache.publish_capacity hstored.keys_nodup hwithin sequence
    rw [heq] at hnext ⊢
    rw [hflat] at hcapacity
    exact ⟨flat', hrep, hcapacity, hnext⟩
  | reuse _ pool hcfg sequence prompt ih =>
    obtain ⟨flat, hstored, hwithin, hshaped⟩ := ih
    subst hcfg
    obtain ⟨_, _, cache', flat', pool', heq, hflat, hrep⟩ := hstored.reuse sequence prompt
    have hnext := hshaped.reuse pool sequence prompt
    have hlength := flat.reuse_length pool sequence prompt
    rw [heq] at hnext ⊢
    rw [hflat] at hlength
    refine ⟨flat', hrep, ?_, hnext⟩
    rw [FlatCache.keys, List.length_map] at hwithin ⊢
    rw [hlength]
    exact hwithin
  | evictOne _ pool hcfg ih =>
    obtain ⟨flat, hstored, hwithin, hshaped⟩ := ih
    refine ⟨_, (hstored.evictOne pool).2.2, ?_, hshaped.evictOne hstored pool⟩
    rw [FlatCache.evictOne_keys, List.length_tail]
    exact (Nat.sub_le _ _).trans hwithin
  | clear _ pool hcfg ih =>
    obtain ⟨flat, hstored, hwithin, hshaped⟩ := ih
    exact ⟨_, (hstored.clear pool).2, Nat.zero_le _, hshaped.clear hstored pool⟩

/-! ## The invariant -/

/-- What the counters of an index count; `all` are the nodes of the trie. -/
structure Index.Counts (ix : Index) (all : Finset Ptr) : Prop where
  mem : ∀ p, p ∈ all ↔ ix.Node p
  nodes : ix.nodes = all.card
  keyTokens : ix.keyTokens = ∑ p ∈ all, (ix.edge p).length
  cached : ix.cached = (all.filter fun p => (ix.block p).isSome).card
  leases : ∀ b, ix.leases b = (all.filter fun p => ix.block p = some b).card

/-- The invariant of the stored trie, read from the fields of the index. -/
structure TrieInvariant (config : KvCacheConfig) (ix : Index) : Prop where
  child : ∀ q k e p, ix.Spells k q → (ix.children q).find? e = some p →
    p ≠ root ∧ ix.parent p = some q ∧ ix.edge p = e ∧ ix.depth p = ix.depth q + 1
  edge : ∀ p, ix.Node p → ix.edge p ≠ [] ∧ (ix.edge p).length ≤ config.blockTokens
  full : ∀ p e c, ix.Node p → (ix.children p).find? e = some c →
    (ix.edge p).length = config.blockTokens
  unique : ∀ k k' p p', ix.Spells k p → ix.Spells k' p' → (k = k' ↔ p = p')
  lru : ∃ order, ix.lru.IsList order ∧ ∀ p, p ∈ order ↔ ix.Node p ∧ (ix.block p).isSome
  available : ∀ q k e p, ix.Spells k q → ((ix.available q).find? e = some p ↔
    (ix.children q).find? e = some p ∧ (ix.block p).isSome)
  leaf : ∀ p, ix.Node p → (∀ e, (ix.children p).find? e = none) → (ix.block p).isSome
  page : ∀ p b, ix.block p = some b → b < config.maxBlocks
  publication : ∀ i p, ix.publication[i]? = some p → ix.Node p ∧ ix.depth p = i + 1 ∧
    ix.parent p = (root :: ix.publication)[i]?
  spare : ∀ e p, ix.spareNode = some (e, p) → ¬ ix.Node p ∧ p ≠ root ∧ ix.block p = none ∧
    ix.children p = OrdMap.empty ∧ ix.available p = OrdMap.empty
  counts : ∃ all, ix.Counts all

namespace Mirrors

open Index

variable {config : KvCacheConfig} {cache : ExactPrefixCache} {flat : FlatCache} {keys : Keys}
  {P : List Ptr}

/-- The counters count what they are named after. -/
theorem counts (h : Mirrors config.blockTokens cache flat keys P) {all : Finset Ptr}
    (hcounted : Counted config cache.index keys all) : cache.index.Counts all := by
  have hleased : ∀ p ∈ P, p ∈ all := fun p hp =>
    (hcounted.mem p).mpr ⟨h.rep.ne_root hp, ((h.rep.leased p).mp hp).1⟩
  have horder : P.toFinset = all.filter fun p => (cache.index.block p).isSome := by
    ext p
    rw [List.mem_toFinset, Finset.mem_filter]
    constructor
    · exact fun hp => ⟨hleased p hp, ((h.rep.leased p).mp hp).2⟩
    · rintro ⟨hp, hb⟩
      exact (h.rep.leased p).mpr ⟨((hcounted.mem p).mp hp).2, hb⟩
  constructor
  · exact fun p => (hcounted.mem p).trans h.rep.tree.node_iff.symm
  · exact hcounted.count
  · exact hcounted.tokens
  · rw [h.rep.cached, ← horder, List.toFinset_card_of_nodup h.rep.lru.nodup]
  · intro b
    have hpages : P.filter (fun p => cache.index.block p = some b) =
        P.filter fun p => cache.index.block p == some b := by
      refine List.filter_congr fun p _ => ?_
      rw [Bool.eq_iff_iff, decide_eq_true_iff, beq_iff_eq]
    have hthese : (P.filter fun p => cache.index.block p = some b).toFinset =
        all.filter fun p => cache.index.block p = some b := by
      ext p
      rw [List.mem_toFinset, List.mem_filter, Finset.mem_filter, decide_eq_true_iff]
      constructor
      · exact fun ⟨hp, hb⟩ => ⟨hleased p hp, hb⟩
      · rintro ⟨hp, hb⟩
        exact ⟨(h.rep.leased p).mpr ⟨((hcounted.mem p).mp hp).2, by rw [hb]; rfl⟩, hb⟩
    rw [h.rep.leases, ← hthese, List.toFinset_card_of_nodup (h.rep.lru.nodup.filter _), hpages,
      List.count, List.countP_filterMap, List.countP_eq_length_filter]
    congr 1
    refine List.filter_congr fun p _ => ?_
    cases cache.index.block p with
    | none => rfl
    | some c => simp

/-- A mirrored trie of the right shape satisfies the invariant. -/
theorem invariant (h : Mirrors config.blockTokens cache flat keys P)
    (hshaped : cache.index.Shaped config) : TrieInvariant config cache.index := by
  obtain ⟨all, hcounted⟩ := hshaped.of_tree h.rep.tree
  have htree := h.rep.tree
  have hchild : ∀ q k e p, cache.index.Spells k q → (cache.index.children q).find? e = some p →
      ChildOf config.blockTokens cache.index keys q k e p := fun q k e p hq hfind =>
    htree.down q k e p (htree.spells_iff.mp hq) hfind
  have hofNode : ∀ p, cache.index.Node p →
      ∃ q kq, ChildOf config.blockTokens cache.index keys q kq (cache.index.edge p) p := by
    rintro p ⟨hroot, k, hk⟩
    obtain ⟨q, kq, -, -, -, hc⟩ := htree.parent_of (htree.spells_iff.mp hk) hroot
    exact ⟨q, kq, hc⟩
  constructor
  · intro q k e p hq hfind
    have hc := hchild q k e p hq hfind
    exact ⟨hc.ne_root, hc.parent, hc.edge, hc.depth⟩
  · intro p hp
    obtain ⟨q, kq, hc⟩ := hofNode p hp
    exact ⟨hc.edge_ne, hc.edge_le⟩
  · -- a node with children ends at a page boundary, and so does its parent
    intro p e c hp hfind
    obtain ⟨q, kq, hc⟩ := hofNode p hp
    have hfull := (htree.down p _ e c hc.key hfind).full
    rw [List.length_append, hc.full, hc.depth, Nat.mul_succ] at hfull
    omega
  -- two nodes never spell the same tokens
  · intro k k' p p' hp hp'
    rw [htree.spells_iff] at hp hp'
    constructor
    · rintro rfl
      exact htree.inj hp hp'
    · rintro rfl
      exact Option.some.inj (hp.symm.trans hp')
  -- the nodes with a page are the ones in order of use
  · exact ⟨P, h.rep.lru, fun p => by
      rw [htree.node_iff, and_assoc, ← h.rep.leased p]
      exact ⟨fun hp => ⟨h.rep.ne_root hp, hp⟩, fun hp => hp.2⟩⟩
  -- the index of available pages of a node
  · intro q k e p hq
    rw [h.rep.avail q k (htree.spells_iff.mp hq) e]
    simp [Option.filter_eq_some_iff]
  -- no leaf is without a page
  · intro p hp hleaf
    by_contra hb
    obtain ⟨hroot, k, hk⟩ := hp
    exact h.noEmptyLeaf p k (htree.spells_iff.mp hk) hroot hleaf
      (Option.not_isSome_iff_eq_none.mp hb)
  · exact hcounted.pages
  -- a node that is being published
  · intro i p hp
    obtain ⟨hk, hd, hpar⟩ := h.rep.publication i p hp
    refine ⟨htree.node_iff.mpr ⟨?_, hk⟩, hd, hpar⟩
    rintro rfl
    rw [htree.root_depth] at hd
    omega
  -- a spare node is no part of the trie
  · intro e p hp
    obtain ⟨hk, hroot, -, hchildren, havail, hb⟩ := h.rep.spare e p hp
    refine ⟨fun hnode => ?_, hroot, hb, hchildren, havail⟩
    have hlive := (htree.node_iff.mp hnode).2
    rw [hk] at hlive
    cases hlive
  · exact ⟨all, h.counts hcounted⟩

end Mirrors

/-- Three pages in use. -/
def pagesInUse : KvBlockPool where
  config := ⟨1, 4, 3⟩
  valid := ⟨by decide, by decide, by decide⟩
  blockElements := 1
  live := 3
  peak := 3
  free := [3]
  references := fun b => if b < 3 then 1 else 0

/-- A history and a branch of it. The last page of the branch does not exist, so publishing it
throws after two pages. -/
def thrownBranch : ExactPrefixCache :=
  let cache := (({} : ExactPrefixCache).publish pagesInUse
    { used := 3, blocks := [0, 1, 2], tokens := [1, 2, 3] }).2.1
  (cache.publish pagesInUse { used := 3, blocks := [0, 1, 9], tokens := [1, 2, 7] }).2.1

theorem thrownBranch_reached : thrownBranch.Reached ⟨1, 4, 3⟩ :=
  .publish (.publish .start pagesInUse rfl _) pagesInUse rfl _

/-- After any sequence of calls, also of `publish` calls that throw, the pointers, maps, lists
and counters of the index describe one trie. -/
theorem trie_invariant {config : KvCacheConfig} {cache : ExactPrefixCache}
    (h : cache.Reached config) : TrieInvariant config cache.index := by
  obtain ⟨flat, ⟨keys, P, hmirrors⟩, -, hshaped⟩ := h.inv
  exact hmirrors.invariant hshaped

/-- A branch whose publication threw: the hint ends at its second node. -/
theorem trie_invariant_thrown :
    thrownBranch.index.publication = [1, 2] ∧ TrieInvariant ⟨1, 4, 3⟩ thrownBranch.index :=
  ⟨by decide, trie_invariant thrownBranch_reached⟩

/-! ## The size of the index -/

namespace Index

variable {config : KvCacheConfig} {ix : Index} {keys : Keys} {P : List Ptr} {all : Finset Ptr}

open Index.Tree

/-- Below every node there is a leased one: follow children to a leaf. -/
theorem exists_leased_below (hrep : Rep config.blockTokens ix keys P none)
    (hempty : NoEmptyLeaf ix keys fun _ => False) (hcounted : Counted config ix keys all) {p : Ptr}
    (hp : p ∈ all) : ∃ leaf ∈ P, Below ix p leaf := by
  induction hn : config.prefixCacheBlocks - ix.depth p generalizing p with
  | zero =>
    obtain ⟨hroot, hk⟩ := (hcounted.mem p).mp hp
    obtain ⟨k, hk⟩ := Option.isSome_iff_exists.mp hk
    refine ⟨p, (hrep.leased p).mpr ⟨by rw [hk]; rfl, ?_⟩, .refl⟩
    by_contra hb
    refine hempty p k hk hroot (fun e => ?_) (Option.not_isSome_iff_eq_none.mp hb)
    cases hfind : (ix.children p).find? e with
    | none => rfl
    | some c =>
      -- there is no room for a child of a deepest node
      have hc := hrep.tree.down p k e c hk hfind
      have hdeep := hcounted.depth c ((hcounted.mem c).mpr ⟨hc.ne_root, by rw [hc.key]; rfl⟩)
      rw [hc.depth] at hdeep
      omega
  | succ n ih =>
    obtain ⟨hroot, hk⟩ := (hcounted.mem p).mp hp
    obtain ⟨k, hk⟩ := Option.isSome_iff_exists.mp hk
    by_cases hchild : ∃ e c, (ix.children p).find? e = some c
    · obtain ⟨e, c, hfind⟩ := hchild
      have hc := hrep.tree.down p k e c hk hfind
      have hlive : c ∈ all := (hcounted.mem c).mpr ⟨hc.ne_root, by rw [hc.key]; rfl⟩
      have hdepth := hc.depth
      obtain ⟨leaf, hleaf, hbelow⟩ := ih hlive (by omega)
      exact ⟨leaf, hleaf, hbelow.head ⟨e, hfind⟩⟩
    · refine ⟨p, (hrep.leased p).mpr ⟨by rw [hk]; rfl, ?_⟩, .refl⟩
      by_contra hb
      refine hempty p k hk hroot (fun e => ?_) (Option.not_isSome_iff_eq_none.mp hb)
      cases hfind : (ix.children p).find? e with
      | none => rfl
      | some c => exact absurd ⟨e, c, hfind⟩ hchild

theorem Tree.live_of_below {blockTokens : Nat} (h : Tree blockTokens ix keys) {m p : Ptr}
    (hm : (keys m).isSome) (hb : Below ix m p) : (keys p).isSome := by
  obtain ⟨k, hk⟩ := Option.isSome_iff_exists.mp hm
  obtain ⟨s, hs, -⟩ := h.key_of_below hk hb
  rw [hs]
  rfl

theorem Tree.depth_le_of_below {blockTokens : Nat} (h : Tree blockTokens ix keys) {m p : Ptr}
    (hm : (keys m).isSome) (hb : Below ix m p) : ix.depth m ≤ ix.depth p := by
  induction hb with
  | refl => exact Nat.le_refl _
  | @tail q p hbelow hchild ih =>
    obtain ⟨k, hk⟩ := Option.isSome_iff_exists.mp (h.live_of_below hm hbelow)
    obtain ⟨e, he⟩ := hchild
    rw [(h.down q k e p hk he).depth]
    exact Nat.le_succ_of_le ih

/-- The path to a node meets every depth once. -/
theorem Tree.eq_of_below {blockTokens : Nat} (h : Tree blockTokens ix keys) {m m' p : Ptr}
    (hm : (keys m).isSome) (hm' : (keys m').isSome) (hb : Below ix m p) (hb' : Below ix m' p)
    (hdepth : ix.depth m = ix.depth m') : m = m' := by
  induction hb with
  | refl =>
    rcases hb'.cases_tail with heq | ⟨q, hbelow, e, he⟩
    · exact heq
    · obtain ⟨k, hk⟩ := Option.isSome_iff_exists.mp (h.live_of_below hm' hbelow)
      have hle := h.depth_le_of_below hm' hbelow
      have hq := (h.down q k e m hk he).depth
      omega
  | @tail q p hbelow hchild ih =>
    obtain ⟨k, hk⟩ := Option.isSome_iff_exists.mp (h.live_of_below hm hbelow)
    obtain ⟨e, he⟩ := hchild
    have hc := h.down q k e p hk he
    rcases hb'.cases_tail with heq | ⟨q', hbelow', e', he'⟩
    · have hle := h.depth_le_of_below hm hbelow
      have hp := hc.depth
      rw [heq] at hp
      omega
    · obtain ⟨k', hk'⟩ := Option.isSome_iff_exists.mp (h.live_of_below hm' hbelow')
      have hc' := h.down q' k' e' p hk' he'
      obtain rfl : q = q' := Option.some.inj (hc.parent.symm.trans hc'.parent)
      exact ih hbelow'

/-- Every node is on the path to a leased node, and no path is longer than the capacity. -/
theorem nodes_le (hrep : Rep config.blockTokens ix keys P none)
    (hempty : NoEmptyLeaf ix keys fun _ => False) (hcounted : Counted config ix keys all) :
    all.card ≤ P.length * config.prefixCacheBlocks := by
  have hleaf : ∀ p, p ∈ all → ∃ leaf, leaf ∈ P ∧ Below ix p leaf := fun p hp =>
    exists_leased_below hrep hempty hcounted hp
  choose! leaf hleaf using hleaf
  have hcard := Finset.card_le_card_of_injOn (s := all)
    (t := P.toFinset ×ˢ Finset.Icc 1 config.prefixCacheBlocks) (fun p => (leaf p, ix.depth p))
    (fun p hp => by
      obtain ⟨hroot, hk⟩ := (hcounted.mem p).mp hp
      obtain ⟨k, hk⟩ := Option.isSome_iff_exists.mp hk
      rw [Finset.mem_coe, Finset.mem_product, List.mem_toFinset, Finset.mem_Icc]
      exact ⟨(hleaf p hp).1, hrep.tree.depth_pos hk hroot, hcounted.depth p hp⟩)
    (fun p hp p' hp' heq => by
      obtain ⟨hsame, hdepth⟩ := Prod.mk.inj heq
      refine hrep.tree.eq_of_below ((hcounted.mem p).mp hp).2 ((hcounted.mem p').mp hp').2
        (hleaf p hp).2 ?_ hdepth
      rw [hsame]
      exact (hleaf p' hp').2)
  rw [Finset.card_product, List.toFinset_card_of_nodup hrep.lru.nodup, Nat.card_Icc,
    Nat.add_sub_cancel] at hcard
  exact hcard

end Index

/-- The index cannot outgrow the cache, however many branches are published: its nodes are on
the paths to the leased ones, and what an edge costs is at most a page of tokens. -/
theorem index_bounded {config : KvCacheConfig} {cache : ExactPrefixCache}
    (h : cache.Reached config) : cache.size ≤ config.prefixCacheBlocks ∧
      cache.indexNodes ≤ cache.size * config.prefixCacheBlocks ∧
      cache.keyTokenBytes ≤ cache.indexNodes * config.blockTokens * 4 := by
  obtain ⟨flat, hstored, hwithin, hshaped⟩ := h.inv
  have hsize := hstored.size
  obtain ⟨keys, P, hmirrors⟩ := hstored
  obtain ⟨all, hcounted⟩ := hshaped.of_tree hmirrors.rep.tree
  refine ⟨?_, ?_, ?_⟩
  · rw [FlatCache.keys, List.length_map, ← hsize] at hwithin
    exact hwithin
  · show cache.index.nodes ≤ cache.index.cached * _
    rw [hcounted.count, hmirrors.rep.cached]
    exact Index.nodes_le hmirrors.rep hmirrors.noEmptyLeaf hcounted
  · show cache.index.keyTokens * 4 ≤ cache.index.nodes * config.blockTokens * 4
    refine Nat.mul_le_mul_right 4 ?_
    rw [hcounted.count, hcounted.tokens]
    rw [← smul_eq_mul]
    refine Finset.sum_le_card_nsmul all _ config.blockTokens fun p hp => ?_
    exact ((hmirrors.invariant hshaped).edge p (hmirrors.rep.tree.node_iff.mpr
      ((hcounted.mem p).mp hp))).2

/-- The bound on the nodes, after a publication that threw. -/
theorem index_bounded_thrown : thrownBranch.indexNodes ≤ thrownBranch.size * 3 :=
  (index_bounded thrownBranch_reached).2.1

/-! ## `clear` -/

namespace Index

variable {blockTokens : Nat}

/-- The traversal has come to its end before the bound on it matters. -/
theorem Rep.clearLoop_more (more fuel : Nat) {ix : Index} {keys : Keys} {P : List Ptr}
    (h : Rep blockTokens ix keys P none) (hempty : NoEmptyLeaf ix keys fun _ => False)
    {kn : List TokenId} {next : Option Ptr} (hnext : Next keys kn next)
    (hmin : ∀ e ∈ entriesOf ix keys P, kn < e.1)
    (hfuel : ∀ s ks, next = some s → keys s = some ks → (ahead ix keys ks).card ≤ fuel)
    (pool : KvBlockPool) :
    Index.clearLoop (fuel + more) next ix pool = Index.clearLoop fuel next ix pool := by
  induction fuel generalizing ix keys P kn next pool with
  | zero =>
    cases next with
    | none => cases more <;> rfl
    | some s =>
      obtain ⟨ks, hs, -, -⟩ := hnext.found s rfl
      have hcard := hfuel s ks rfl hs
      rw [Nat.le_zero, Finset.card_eq_zero] at hcard
      exact absurd ((mem_ahead h.tree).mpr ⟨ks, hs, le_rfl⟩) (by simp [hcard])
  | succ fuel ih =>
    cases next with
    | none => cases more <;> rfl
    | some s =>
      obtain ⟨ks, hs, -, hleast⟩ := hnext.found s rfl
      have hsucc := h.tree.successor hs
      obtain ⟨ix', keys', P', gone, heq, hrep, hem, -, hsub, hkeep, habove, -⟩ :=
        h.visit hempty hs (fun e he => by
          obtain ⟨p, hp, -⟩ := h.mem_entries.mp he
          exact hleast p e.1 hp (hmin e he)) pool
      rw [Nat.add_right_comm, Index.clearLoop, Index.clearLoop, heq]
      refine ih hrep hem (hsucc.mono hsub hkeep) habove (fun t kt ht hkt => ?_) _
      obtain ⟨kt', hkt', hst, -⟩ := hsucc.found t ht
      obtain rfl := Option.some.inj ((hsub t kt hkt).symm.trans hkt')
      -- the node just visited is not ahead any more
      have hss : ahead ix' keys' kt ⊂ ahead ix keys ks := by
        refine (Finset.ssubset_iff_of_subset fun p hp => ?_).mpr
          ⟨s, (mem_ahead h.tree).mpr ⟨ks, hs, le_rfl⟩, fun hin => ?_⟩
        · obtain ⟨k, hk, hle⟩ := (mem_ahead hrep.tree).mp hp
          exact (mem_ahead h.tree).mpr ⟨k, hsub p k hk, hst.le.trans hle⟩
        · obtain ⟨k, hk, hle⟩ := (mem_ahead hrep.tree).mp hin
          rw [Option.some.inj ((hsub s k hk).symm.trans hs)] at hle
          exact absurd hst hle.not_gt
      have := Finset.card_lt_card hss
      have := hfuel s ks rfl hs
      omega

end Index

/-- What is left of an index after `clear`. -/
structure Index.Cleared (ix : Index) : Prop where
  no_node : ∀ p, ¬ ix.Node p
  nodes : ix.nodes = 0
  keyTokens : ix.keyTokens = 0
  cached : ix.cached = 0
  leases : ∀ b, ix.leases b = 0
  lru : ix.lru.IsList []
  publication : ix.publication = []
  spares : ix.spareNode = none ∧ ix.spareAvailable = none

/-- `clear` comes to an end, gives every lease of the cache back to the pool, and leaves an
empty trie. -/
theorem clear_empties {config : KvCacheConfig} {cache : ExactPrefixCache}
    (h : cache.Reached config) (pool : KvBlockPool) :
    (∀ more, Index.clearLoop (cache.index.fresh + more)
        ((cache.index.children root).first.map Prod.snd) cache.index pool =
      Index.clearLoop cache.index.fresh
        ((cache.index.children root).first.map Prod.snd) cache.index pool) ∧
      (∃ pages : List Nat, (cache.clear pool).2 = pool.unrefAll pages ∧
        ∀ b, pages.count b = cache.index.leases b) ∧
      (cache.clear pool).1.index.Cleared := by
  obtain ⟨flat, hstored, hwithin, hshaped⟩ := h.inv
  refine ⟨fun more => ?_, ?_, ?_⟩
  · obtain ⟨keys, P, hmirrors⟩ := hstored
    rw [hmirrors.rep.tree.first_eq_successor]
    refine hmirrors.rep.clearLoop_more more cache.index.fresh hmirrors.noEmptyLeaf
      (hmirrors.rep.tree.successor hmirrors.rep.tree.root_key) (fun e he => ?_) (fun s ks _ _ => ?_)
      pool
    · obtain ⟨p, hp, hb⟩ := hmirrors.rep.mem_entries.mp he
      have hne := hmirrors.rep.tree.ne_nil hp
        (hmirrors.rep.ne_root (hmirrors.rep.mem_of_block hp hb))
      exact lt_of_le_of_ne (Index.Tree.le_append_self [] e.1) (Ne.symm hne)
    · refine (Finset.card_filter_le _ _).trans ?_
      rw [Finset.card_range]
  · refine ⟨_, (hstored.clear pool).1, fun b => ?_⟩
    rw [hstored.leases]
    exact ((FlatCache.inKeyOrder_perm flat.entries).map Prod.snd).count_eq b
  · have hnext := (hstored.clear pool).2
    have hshaped' := hshaped.clear hstored pool
    obtain ⟨keys, P, hmirrors⟩ := hnext
    obtain ⟨all, hcounted⟩ := hshaped'.of_tree hmirrors.rep.tree
    have hnil : P = [] := List.map_eq_nil_iff.mp hmirrors.entries.symm
    subst hnil
    have hnone_left : all = ∅ := by
      refine Finset.eq_empty_of_forall_notMem fun p hp => ?_
      obtain ⟨leaf, hleaf, -⟩ :=
        Index.exists_leased_below hmirrors.rep hmirrors.noEmptyLeaf hcounted hp
      cases hleaf
    have hempty : ∀ p, ¬ (cache.clear pool).1.index.Node p := fun p hp => by
      have hlive := (hcounted.mem p).mpr (hmirrors.rep.tree.node_iff.mp hp)
      rw [hnone_left] at hlive
      exact Finset.notMem_empty p hlive
    exact { no_node := hempty
            nodes := by rw [hcounted.count, hnone_left, Finset.card_empty]
            keyTokens := by rw [hcounted.tokens, hnone_left, Finset.sum_empty]
            cached := hmirrors.rep.cached
            leases := hmirrors.rep.leases
            lru := hmirrors.rep.lru
            publication := rfl
            spares := ⟨rfl, rfl⟩ }

/-- Clearing also drops the nodes a thrown publication left. -/
theorem clear_empties_thrown : (thrownBranch.clear pagesInUse).1.index.Cleared :=
  (clear_empties thrownBranch_reached pagesInUse).2.2

end TinyInfer.MiniPrefix
