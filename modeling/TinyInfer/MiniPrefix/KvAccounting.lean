import TinyInfer.MiniPrefix.KvRuns

/-!
# Page leases of reachable states

`page_accounting`: in every reachable state the reference counts are exactly the
leases of the sequences, of the cache nodes and of the transaction, the free-list
is what nobody leases, and all holders of a page have it at the same page index.

The cache is read from the stored trie here: `Index.Spells ix k p` says that the
edges from the root to the node `p` spell the history `k`.
-/

namespace TinyInfer.MiniPrefix

open Lib KVManager

/-! ## The nodes of the trie -/

/-- The node `p` is reached from the root by edges that spell `k`. -/
inductive Index.Spells (ix : Index) : List TokenId → Ptr → Prop where
  | root : Spells ix [] root
  | child {k e : List TokenId} {q p : Ptr} (parent : Spells ix k q)
      (edge : (ix.children q).find? e = some p) : Spells ix (k ++ e) p

/-- All nodes of the trie that lease a page. -/
structure Index.LeasingNodes (ix : Index) (nodes : List Ptr) : Prop where
  nodup : nodes.Nodup
  mem : ∀ p, p ∈ nodes ↔ (∃ k, ix.Spells k p) ∧ (ix.block p).isSome

theorem Index.Tree.spells_iff {blockTokens : Nat} {ix : Index} {keys : Index.Keys}
    (h : Index.Tree blockTokens ix keys) {k : List TokenId} {p : Ptr} :
    ix.Spells k p ↔ keys p = some k := by
  constructor
  · intro hs
    induction hs with
    | root => exact h.root_key
    | child hparent hedge ih => exact (h.down _ _ _ _ ih hedge).key
  · intro hk
    induction hn : k.length using Nat.strong_induction_on generalizing k p with
    | _ n ih =>
      by_cases hr : p = root
      · subst hr
        rw [← Option.some.inj (h.root_key.symm.trans hk)]
        exact .root
      · obtain ⟨q, kq, hq, rfl, hfind, hc⟩ := h.parent_of hk hr
        have hpos : 0 < (ix.edge p).length := List.length_pos_iff.mpr hc.edge_ne
        rw [List.length_append] at hn
        exact .child (ih kq.length (by omega) hq rfl) hfind

/-- A node is as deep as its history has pages. -/
theorem Index.Tree.depth_eq {blockTokens : Nat} {ix : Index} {keys : Index.Keys}
    (h : Index.Tree blockTokens ix keys) {k : List TokenId} {p : Ptr} (hk : keys p = some k) :
    pagesFor blockTokens k.length = ix.depth p := by
  by_cases hr : p = root
  · subst hr
    rw [← Option.some.inj (h.root_key.symm.trans hk), h.root_depth]
    exact pagesFor_zero _
  · obtain ⟨q, kq, hq, rfl, hfind, hc⟩ := h.parent_of hk hr
    have hpos : 0 < (ix.edge p).length := List.length_pos_iff.mpr hc.edge_ne
    have hle := hc.edge_le
    rw [hc.depth, List.length_append, hc.full]
    refine pagesFor_of_lt (by omega) ?_
    rw [Nat.mul_succ]
    omega

/-- The leased nodes of the representation are the leasing nodes. -/
theorem Mirrors.leasingNodes {blockTokens : Nat} {cache : ExactPrefixCache} {flat : FlatCache}
    {keys : Index.Keys} {P : List Ptr} (h : Mirrors blockTokens cache flat keys P) :
    cache.index.LeasingNodes P where
  nodup := h.rep.lru.nodup
  mem := fun p => by
    rw [h.rep.leased, Option.isSome_iff_exists]
    simp only [h.rep.tree.spells_iff]

namespace Represents

variable {blockTokens : Nat} {cache : ExactPrefixCache} {flat : FlatCache}

/-- There are as many leasing nodes as entries. -/
theorem leasingNodes_length (h : Represents blockTokens cache flat) {nodes : List Ptr}
    (hnodes : cache.index.LeasingNodes nodes) : nodes.length = flat.entries.length := by
  obtain ⟨keys, P, hm⟩ := h
  have hP := hm.leasingNodes
  have hperm := (List.perm_ext_iff_of_nodup hnodes.nodup hP.nodup).mpr fun p =>
    (hnodes.mem p).trans (hP.mem p).symm
  rw [hperm.length_eq, hm.entries, Index.entriesOf, List.length_map]

/-- The leasing nodes, and what they lease. -/
theorem leasingNodes (h : Represents blockTokens cache flat) :
    ∃ nodes, cache.index.LeasingNodes nodes ∧ ∀ b,
      nodes.countP (fun p => cache.index.block p = some b) = flat.pages.count b := by
  obtain ⟨keys, P, hm⟩ := h
  refine ⟨P, hm.leasingNodes, fun b => ?_⟩
  rw [FlatCache.pages, hm.entries, Index.entriesOf, List.map_map, List.count, List.countP_map]
  refine List.countP_congr fun p hp => ?_
  obtain ⟨k, b', hk, hb⟩ := hm.rep.of_mem hp
  simp [hb]

/-- A leasing node is an entry of the flat cache. -/
theorem entry_of_node (h : Represents blockTokens cache flat) {k : List TokenId} {p : Ptr} {b : Nat}
    (hs : cache.index.Spells k p) (hb : cache.index.block p = some b) :
    (k, b) ∈ flat.entries ∧ pagesFor blockTokens k.length = cache.index.depth p := by
  obtain ⟨keys, P, hm⟩ := h
  have hk := hm.rep.tree.spells_iff.mp hs
  rw [hm.entries]
  exact ⟨hm.rep.mem_entries.mpr ⟨p, hk, hb⟩, hm.rep.tree.depth_eq hk⟩

end Represents

/-! ## The accounting -/

/-- The number of live sequences whose block table contains a page. -/
def KVManager.holders (kv : KVManager) (b : Nat) : Nat :=
  kv.sequences.entries.countP fun item => b ∈ item.2.sequence.blocks

/-- Does a copy-on-write transaction still retain a page as its source? -/
def retainsSource (append : Option KVManager.Append) (b : Nat) : Bool :=
  ((append.bind Append.copy).map TailCopy.source) == some b

/-- What the page references of a manager amount to; `nodes` are the leasing nodes. -/
structure PageAccounting (s : KvSystem) (nodes : List Ptr) : Prop where
  references : ∀ b, s.kv.pool.references b = s.kv.holders b +
    nodes.countP (fun p => s.kv.prefixCache.index.block p = some b) +
    (retainsSource s.append b).toNat
  free_nodup : s.kv.pool.free.Nodup
  mem_free : ∀ b, b ∈ s.kv.pool.free ↔
    b < s.kv.config.maxBlocks ∧ s.kv.pool.references b = 0
  live_add_free : s.kv.pool.live + s.kv.pool.freeBlocks = s.kv.config.maxBlocks
  live_le_peak : s.kv.pool.live ≤ s.kv.pool.peak
  no_underflow : s.kv.pool.underflow = false
  sequence : ∀ id state, s.kv.sequences.find? id = some state →
    (∀ a, s.append = some a → a.id ≠ id) →
    state.sequence.tokens.length = state.sequence.used ∧
      state.sequence.blocks.length = pagesFor s.kv.config.blockTokens state.sequence.used ∧
      state.sequence.blocks.Nodup
  position : ∃ pos : Nat → Nat,
    (∀ id state j b, s.kv.sequences.find? id = some state →
      state.sequence.blocks[j]? = some b → pos b = j) ∧
    (∀ k p b, s.kv.prefixCache.index.Spells k p → s.kv.prefixCache.index.block p = some b →
      pos b + 1 = s.kv.prefixCache.index.depth p) ∧
    ∀ a c, s.append = some a → a.copy = some c → pos c.source + 1 = a.originalBlocks

variable {α : Type} {spec : List TokenId → α} {payload : Nat → Nat → α} {kv : KVManager}
  {append : Option KVManager.Append} {flat : FlatCache} {pos : Nat → Nat}

theorem SequenceInv.blocks_nodup {id : RequestId} {sequence : PagedSequence}
    (h : SequenceInv spec payload kv append pos id sequence) : sequence.blocks.Nodup := by
  rw [List.nodup_iff_getElem?_ne_getElem?]
  intro i j hij hj heq
  have hget := List.getElem?_eq_getElem hj
  have h1 := h.position i _ (heq.trans hget)
  have h2 := h.position j _ hget
  omega

/-- No table holds a page twice, so leases and holders agree. -/
theorem KvInv.sequenceLeases_eq (h : KvInv spec payload kv append flat pos) (b : Nat) :
    kv.sequenceLeases b = kv.holders b := by
  have hone : ∀ item ∈ kv.sequences.entries, item.2.sequence.blocks.count b =
      if b ∈ item.2.sequence.blocks then 1 else 0 := by
    rintro ⟨id, state⟩ hmem
    have hnd := (h.sequence id state (OrdMap.find?_eq_some_iff.mpr hmem)).blocks_nodup
    split
    · next hin => exact List.count_eq_one_of_mem hnd hin
    · next hout => exact List.count_eq_zero.mpr hout
  rw [sequenceLeases, OrdMap.sum, KVManager.holders, List.map_congr_left hone]
  generalize kv.sequences.entries = entries
  induction entries with
  | nil => rfl
  | cons item entries ih =>
    rw [List.map_cons, List.sum_cons, ih, List.countP_cons, Nat.add_comm]
    simp

theorem sourcePages_count (append : Option KVManager.Append) (b : Nat) :
    (sourcePages append).count b = (retainsSource append b).toNat := by
  cases append with
  | none => rfl
  | some a =>
    cases hc : a.copy with
    | none => simp [sourcePages, retainsSource, hc]
    | some c =>
      rw [sourcePages, retainsSource, hc, Option.map_some, Option.toList_some,
        KvBlockPool.count_one, Option.bind_some, hc, Option.map_some]
      by_cases hb : c.source = b
      · simp [hb]
      · rw [if_neg (Ne.symm hb), beq_false_of_ne (fun heq => hb (Option.some.inj heq))]
        rfl

/-- The ledger gives the references of every page. -/
theorem Ledger.accounting {s : KvSystem} (h : Ledger s) :
    ∃ nodes, s.kv.prefixCache.index.LeasingNodes nodes ∧ PageAccounting s nodes := by
  obtain ⟨flat, pos, h⟩ := h
  obtain ⟨nodes, hnodes, hcount⟩ := h.cache.leasingNodes
  have hrefs : ∀ b, s.kv.pool.references b = outside s.kv s.append b + flat.pages.count b :=
    h.accounts.refs
  refine ⟨nodes, hnodes,
    { references := fun b => ?_
      free_nodup := h.accounts.free_nodup
      mem_free := fun b => by rw [h.accounts.mem_free, hrefs]; rfl
      live_add_free := h.accounts.live_add_free
      live_le_peak := h.peak
      no_underflow := h.accounts.no_underflow
      sequence := fun id state hs hne => ?_
      position :=
        ⟨pos, fun id state j b hs hb => (h.sequence id state hs).position j b hb, ?_, ?_⟩ }⟩
  · rw [hrefs, outside, h.sequenceLeases_eq, hcount, sourcePages_count]
    omega
  · have hseq := h.sequence id state hs
    exact ⟨hseq.length, (h.idle id state hs hne).2, hseq.blocks_nodup⟩
  · intro k p b hs hb
    obtain ⟨hentry, hdepth⟩ := h.cache.entry_of_node hs hb
    exact (h.entry k b hentry).1.trans hdepth
  · intro a c ha hc
    obtain ⟨state, -, htx⟩ := h.transaction a ha
    exact htx.source c hc

/-! ## Everything given back -/

theorem Ledger.all_free_of_empty {s : KvSystem} (h : Ledger s) (hnone : s.append = none)
    (hempty : ∀ id, s.kv.sequences.find? id = none) :
    (s.step .clearPrefixCache).2.kv.pool.freeBlocks =
      (s.step .clearPrefixCache).2.kv.config.maxBlocks := by
  obtain ⟨flat, pos, h⟩ := h
  rw [hnone] at h
  rcases h.clearPrefixCache with ⟨e, -, hsome⟩ | ⟨cache, pool, flat', -, heq, hentries, hinv, -⟩
  · exact absurd rfl hsome
  simp only [KvSystem.step, heq]
  refine (hinv.accounts.congr fun b => ?_).all_free
  have hleases : s.kv.sequences.sum (fun _ state => state.sequence.blocks.count b) = 0 :=
    OrdMap.sum_eq_zero fun id state hs => by
      rw [hempty id] at hs
      cases hs
  rw [FlatCache.pages, hentries]
  exact hleases

/-- `release` removes one sequence, and no other. -/
theorem Ledger.release_find? {s : KvSystem} (h : Ledger s) (hnone : s.append = none)
    (id other : RequestId) :
    (s.step (.release id)).2.append = none ∧
      (s.step (.release id)).2.kv.sequences.find? other =
        if other = id then none else s.kv.sequences.find? other := by
  obtain ⟨flat, pos, h⟩ := h
  rcases h.release id with ⟨e, heq, hwhy⟩ | ⟨state, -, -, heq, -⟩
  · simp only [KvSystem.step, heq]
    refine ⟨hnone, ?_⟩
    split
    · next hid =>
      subst hid
      exact Option.isNone_iff_eq_none.mp (by
        simpa [OrdMap.contains, hnone] using hwhy)
    · rfl
  · simp only [KvSystem.step, heq]
    exact ⟨hnone, OrdMap.find?_erase _ _ _⟩

/-- Releasing all sequences in any order empties the table. -/
theorem Ledger.releaseAll {s : KvSystem} (h : Ledger s) (hnone : s.append = none)
    (ids : List RequestId) (hids : ∀ id, s.kv.sequences.contains id → id ∈ ids) :
    (s.run (ids.map .release)).append = none ∧
      ∀ id, (s.run (ids.map .release)).kv.sequences.find? id = none := by
  induction ids generalizing s with
  | nil =>
    refine ⟨hnone, fun id => ?_⟩
    cases hfind : s.kv.sequences.find? id with
    | none => exact hfind
    | some state => cases hids id (by rw [OrdMap.contains, hfind]; rfl)
  | cons next ids ih =>
    obtain ⟨hnone', -⟩ := h.release_find? hnone next next
    refine ih (h.step (.release next)) hnone' fun id hid => ?_
    rw [OrdMap.contains, (h.release_find? hnone next id).2] at hid
    split at hid
    · cases hid
    · next hne => exact (List.mem_cons.mp (hids id hid)).resolve_left hne

/-- **Page accounting.** In every reachable state of a manager the reference counts
are the leases, and what is not leased is free; clearing the manager, or releasing
all sequences and clearing the cache, frees every page. -/
theorem page_accounting {s : KvSystem} (h : s.Reachable) :
    (∃ nodes, s.kv.prefixCache.index.LeasingNodes nodes ∧ PageAccounting s nodes) ∧
      ((s.step .clear).1 = .ok () →
        (s.step .clear).2.kv.pool.freeBlocks = (s.step .clear).2.kv.config.maxBlocks) ∧
      (s.append = none → ∀ ids : List RequestId,
        (∀ id, s.kv.sequences.contains id → id ∈ ids) →
        (s.run (ids.map .release ++ [.clearPrefixCache])).kv.pool.freeBlocks =
          (s.run (ids.map .release ++ [.clearPrefixCache])).kv.config.maxBlocks) := by
  refine ⟨h.ledger.accounting, fun hok => ?_, fun hnone ids hids => ?_⟩
  · obtain ⟨flat, pos, hinv⟩ := h.ledger
    rcases hinv.clear with ⟨e, heq⟩ | ⟨cache, pool, flat', -, heq, hacc, -⟩
    · simp only [KvSystem.step, heq] at hok
      cases hok
    · simp only [KvSystem.step, heq]
      exact hacc.all_free
  · obtain ⟨hnone', hempty⟩ := h.ledger.releaseAll hnone ids hids
    rw [KvSystem.run, List.foldl_append]
    exact (h.ledger.run (ids.map .release)).all_free_of_empty hnone' hempty

/-- A cached page and its sequence: clearing frees both of their leases. -/
theorem page_accounting_cached : ∃ kv, construct ⟨2, 4, 2⟩ 1 1 8 8 = .ok kv ∧
    ∃ nodes, PageAccounting (KvSystem.run { kv }
      [.create "a", .prepareAppend "a" [1, 2, 3], .commit, .cachePrefix "a"]) nodes := by
  have h := (page_accounting (s := KvSystem.run _
    [.create "a", .prepareAppend "a" [1, 2, 3], .commit, .cachePrefix "a"])
    ⟨⟨2, 4, 2⟩, 1, 1, 8, 8, _, _, rfl, rfl⟩).1
  obtain ⟨nodes, -, hnodes⟩ := h
  exact ⟨_, rfl, nodes, hnodes⟩

end TinyInfer.MiniPrefix
