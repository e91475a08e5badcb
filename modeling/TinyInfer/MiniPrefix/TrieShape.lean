import TinyInfer.MiniPrefix.PrefixLongest
import Mathlib.Algebra.BigOperators.Group.Finset.Basic

/-!
# The counters of the trie

`Rep` says what the leases of the index are. Here are its other two counters, `nodes` and
`key_tokens`, which only `attach` and `extractLeaf` change, and the depth of the trie,
which `publish` keeps within the number of pages the cache may hold. Every operation keeps
`Shaped`, also when it throws.

Main definitions: `Index.Node`, `Index.Counted`, `Index.Shaped`.
-/

namespace TinyInfer.MiniPrefix

open Lib
open Function (update)

namespace Index

variable {blockTokens : Nat} {config : KvCacheConfig} {ix : Index} {keys keys' : Keys}
  {P : List Ptr} {pending : Option Ptr}

/-! ## Nodes -/

/-- A node of the trie other than its root. -/
def Node (ix : Index) (p : Ptr) : Prop := p ≠ root ∧ ∃ k, ix.Spells k p

/-- The histories are stored in the `children` maps. -/
theorem Spells.frame {ix' : Index} (hchildren : ix'.children = ix.children) {k : List TokenId}
    {p : Ptr} (h : ix.Spells k p) : ix'.Spells k p := by
  induction h with
  | root => exact .root
  | child hparent hedge ih => exact .child ih (by rw [hchildren]; exact hedge)

theorem Tree.unique (h : Tree blockTokens ix keys) (h' : Tree blockTokens ix keys') :
    keys = keys' := by
  funext p
  refine Option.ext fun k => ?_
  rw [← h.spells_iff, ← h'.spells_iff]

theorem Tree.node_iff (h : Tree blockTokens ix keys) {p : Ptr} :
    ix.Node p ↔ p ≠ root ∧ (keys p).isSome := by
  rw [Node, Option.isSome_iff_exists]
  simp only [h.spells_iff]

/-- Extracting a childless node leaves a tree; whether nodes are leased does not matter. -/
theorem Tree.extractLeaf (h : Tree blockTokens ix keys) {n q : Ptr} {kn : List TokenId}
    (hn : keys n = some kn) (hroot : n ≠ root) (hpar : ix.parent n = some q)
    (hleaf : ∀ e, (ix.children n).find? e = none) :
    Tree blockTokens (ix.extractLeaf n q) (update keys n none) := by
  -- the same tree without any lease satisfies `Rep`
  have hbare : Rep blockTokens { ix with
      available := fun _ => OrdMap.empty
      block := fun _ => none
      lru := Links.nil
      cached := 0
      leases := fun _ => 0
      publication := []
      spareNode := none } keys [] none :=
    { tree := h.frame rfl rfl rfl rfl rfl
      avail := fun q kq hq e => by
        show none = ((ix.children q).find? e).filter fun p => false || some p == none
        cases (ix.children q).find? e <;> rfl
      lru := Links.isList_nil
      leased := fun p => by simp
      cached := rfl
      leases := fun b => rfl
      publication := fun i p hp => by simp at hp
      spare := fun e p hp => by cases hp
      root_block := rfl
      pending_live := fun p hp => by cases hp }
  exact (hbare.extractLeaf hn hroot hpar rfl hleaf (by simp)).tree.frame rfl rfl rfl rfl rfl

/-! ## Counters -/

/-- `nodes` and `key_tokens` count the nodes and the tokens of their edges. No node is
deeper than the number of pages the cache may hold, and what is leased is a page. -/
structure Counted (config : KvCacheConfig) (ix : Index) (keys : Keys) (nodes : Finset Ptr) :
    Prop where
  mem : ∀ p, p ∈ nodes ↔ p ≠ root ∧ (keys p).isSome
  count : ix.nodes = nodes.card
  tokens : ix.keyTokens = ∑ p ∈ nodes, (ix.edge p).length
  depth : ∀ p ∈ nodes, ix.depth p ≤ config.prefixCacheBlocks
  pages : ∀ p b, ix.block p = some b → b < config.maxBlocks

/-- A tree with the right counters. -/
def Shaped (config : KvCacheConfig) (ix : Index) : Prop :=
  ∃ keys nodes, Tree config.blockTokens ix keys ∧ Counted config ix keys nodes

namespace Shaped

theorem of_tree (h : Shaped config ix) (htree : Tree config.blockTokens ix keys) :
    ∃ nodes, Counted config ix keys nodes := by
  obtain ⟨keys', nodes, htree', hcounted⟩ := h
  rw [htree.unique htree']
  exact ⟨nodes, hcounted⟩

/-- What neither the tree nor the counters read may change. -/
theorem frame (h : Shaped config ix) {ix' : Index} (hparent : ix'.parent = ix.parent)
    (hdepth : ix'.depth = ix.depth) (hedge : ix'.edge = ix.edge)
    (hchildren : ix'.children = ix.children) (hfresh : ix'.fresh = ix.fresh)
    (hnodes : ix'.nodes = ix.nodes) (hkeyTokens : ix'.keyTokens = ix.keyTokens)
    (hpages : ∀ p b, ix'.block p = some b → ix.block p = some b ∨ b < config.maxBlocks) :
    Shaped config ix' := by
  obtain ⟨keys, ns, htree, hcounted⟩ := h
  refine ⟨keys, ns, htree.frame hparent hdepth hedge hchildren hfresh, ?_⟩
  exact { mem := hcounted.mem
          count := hnodes.trans hcounted.count
          tokens := by rw [hkeyTokens, hedge]; exact hcounted.tokens
          depth := by rw [hdepth]; exact hcounted.depth
          pages := fun p b hb => (hpages p b hb).elim (hcounted.pages p b) id }

theorem start (config : KvCacheConfig) : Shaped config {} :=
  ⟨_, ∅, (rep_empty config.blockTokens).1.tree,
    { mem := fun p => by
        by_cases hp : p = root <;> simp [hp]
      count := rfl
      tokens := rfl
      depth := fun p hp => absurd hp (Finset.notMem_empty p)
      pages := fun p b hb => by cases hb }⟩

/-- Extracting a leaf keeps all other nodes. -/
theorem extractLeaf (h : Shaped config ix) {n q : Ptr} {kn : List TokenId}
    (hn : ix.Spells kn n) (hroot : n ≠ root) (hpar : ix.parent n = some q)
    (hleaf : ∀ e, (ix.children n).find? e = none) :
    Shaped config (ix.extractLeaf n q) ∧
      ∀ p k, p ≠ n → ix.Spells k p → (ix.extractLeaf n q).Spells k p := by
  obtain ⟨keys, nodes, htree, hcounted⟩ := h
  have hkey := htree.spells_iff.mp hn
  have hrest := htree.extractLeaf hkey hroot hpar hleaf
  have hlive : n ∈ nodes := (hcounted.mem n).mpr ⟨hroot, by rw [hkey]; rfl⟩
  refine ⟨⟨update keys n none, nodes.erase n, hrest, ?_⟩, fun p k hp hk => ?_⟩
  · constructor
    · intro p
      rw [Finset.mem_erase, hcounted.mem, Function.update_apply]
      split
      · next heq => simp [heq]
      · next hne => simp [hne]
    · show ix.nodes - 1 = _
      rw [hcounted.count, Finset.card_erase_of_mem hlive]
    · show ix.keyTokens - (ix.edge n).length = ∑ p ∈ nodes.erase n, (ix.edge p).length
      rw [hcounted.tokens, ← Finset.add_sum_erase _ _ hlive, Nat.add_sub_cancel_left]
    · exact fun p hp => hcounted.depth p (Finset.mem_of_mem_erase hp)
    · exact hcounted.pages
  · rw [hrest.spells_iff, Function.update_of_ne hp]
    exact htree.spells_iff.mp hk

/-- The parent of a node. -/
theorem parent_of (h : Shaped config ix) {n : Ptr} {kn : List TokenId} (hn : ix.Spells kn n)
    (hroot : n ≠ root) : ∃ q kq, ix.parent n = some q ∧ ix.Spells kq q ∧
      (ix.children q).find? (ix.edge n) = some n := by
  obtain ⟨keys, nodes, htree, -⟩ := h
  obtain ⟨q, kq, hq, -, hfind, hc⟩ := htree.parent_of (htree.spells_iff.mp hn) hroot
  exact ⟨q, kq, hc.parent, htree.spells_iff.mpr hq, hfind⟩

/-- Pruning upwards keeps the shape, by induction on the fuel. -/
theorem pruneLoop (fuel : Nat) {ix : Index} (h : Shaped config ix) {n : Ptr} {kn : List TokenId}
    (hn : ix.Spells kn n) (protectedNode : Option Ptr) :
    Shaped config (Index.pruneLoop fuel ix n protectedNode) := by
  induction fuel generalizing ix n kn with
  | zero => exact h
  | succ fuel ih =>
    rw [Index.pruneLoop]
    split
    · next hprunable =>
      obtain ⟨hroot, -, -, hleaf⟩ := prunable_iff.mp hprunable
      obtain ⟨q, kq, hpar, hq, hfind⟩ := h.parent_of hn hroot
      have hqn : q ≠ n := by
        rintro rfl
        rw [hleaf] at hfind
        cases hfind
      obtain ⟨hrest, hothers⟩ := h.extractLeaf hn hroot hpar hleaf
      rw [hpar]
      exact ih hrest (hothers q kq hqn hq)
    · exact h

theorem prune (h : Shaped config ix) {n : Ptr} {kn : List TokenId} (hn : ix.Spells kn n)
    (protectedNode : Option Ptr) : Shaped config (ix.prune n protectedNode) :=
  h.pruneLoop _ hn protectedNode

/-- Dropping a lease keeps the shape. -/
theorem dropNode (h : Shaped config ix) {n : Ptr} {kn : List TokenId} (hn : ix.Spells kn n)
    (pool : KvBlockPool) (protectedNode : Option Ptr) :
    Shaped config (ix.dropNode pool n protectedNode).1 := by
  rw [Index.dropNode]
  split
  · next parent block _ _ =>
    have hunleased : ∀ p b, update ix.block n none p = some b → ix.block p = some b := by
      intro p b hb
      rw [Function.update_apply] at hb
      split at hb
      · cases hb
      · exact hb
    have hended : Shaped config { (ix.extractAvailable n parent) with
        leases := update ix.leases block (ix.leases block - 1)
        lru := ix.lru.unlink n
        block := update ix.block n none
        cached := ix.cached - 1 } :=
      h.frame rfl rfl rfl rfl rfl rfl rfl fun p b hb => Or.inl (hunleased p b hb)
    exact hended.prune (hn.frame (by rfl)) protectedNode
  · exact h

/-- What is dropped is the oldest node of the LRU list. -/
theorem drop (h : Shaped config ix) (hlive : ∀ p, ix.lru.oldest = some p → ∃ k, ix.Spells k p)
    (pool : KvBlockPool) (protectedNode : Option Ptr) :
    Shaped config (ix.drop pool protectedNode).1 := by
  rw [Index.drop]
  cases hhold : ix.lru.oldest with
  | none => exact h
  | some node =>
    obtain ⟨k, hk⟩ := hlive node hhold
    exact h.dropNode hk pool protectedNode

end Shaped

theorem Rep.oldest_live (h : Rep blockTokens ix keys P pending) :
    ∀ p, ix.lru.oldest = some p → ∃ k, ix.Spells k p := by
  intro p hp
  rw [h.lru.oldest] at hp
  obtain ⟨k, b, hk, -⟩ := h.of_mem (List.mem_of_head? hp)
  exact ⟨k, h.tree.spells_iff.mpr hk⟩

/-! ## Inserting a node -/

/-- The storage of a node comes with the counters as they were. -/
theorem takeNode_same (ix : Index) :
    ix.takeNode.2.nodes = ix.nodes ∧ ix.takeNode.2.keyTokens = ix.keyTokens ∧
    ix.takeNode.2.edge = ix.edge ∧ ix.takeNode.2.depth = ix.depth ∧
    ∀ p b, ix.takeNode.2.block p = some b → ix.block p = some b := by
  rw [Index.takeNode]
  split
  · exact ⟨rfl, rfl, rfl, rfl, fun _ _ hb => hb⟩
  · refine ⟨rfl, rfl, rfl, rfl, fun p b hb => ?_⟩
    have hb : update ix.block ix.fresh none p = some b := hb
    rw [Function.update_apply] at hb
    split at hb
    · cases hb
    · exact hb

theorem insertChild_eq (q : Ptr) (e : List TokenId) :
    ix.insertChild q e = (ix.takeNode.1, ix.takeNode.2.attach q e ix.takeNode.1) := rfl

namespace Shaped

/-- A new child keeps the shape. -/
theorem insertChild (h : Shaped config ix) (hrep' : Rep config.blockTokens ix keys P none)
    (hempty : NoEmptyLeaf ix keys fun _ => False) {q : Ptr} {kq e : List TokenId}
    (hq : keys q = some kq) (hfull : kq.length = config.blockTokens * ix.depth q) (hne : e ≠ [])
    (hle : e.length ≤ config.blockTokens) (hfind : (ix.children q).find? e = none)
    (hroom : ix.depth q + 1 ≤ config.prefixCacheBlocks) :
    Shaped config (ix.insertChild q e).2 := by
  obtain ⟨nodes, hcounted⟩ := h.of_tree hrep'.tree
  obtain ⟨n, ix', heq, hnone, hrep, -⟩ := hrep'.insertChild hempty hq hfull hne hle hfind
  obtain ⟨hcount, htokens, hedge, hdepth, hpages⟩ := takeNode_same ix
  rw [insertChild_eq, Prod.mk.injEq] at heq
  obtain ⟨hn, rfl⟩ := heq
  rw [hn] at hrep
  rw [insertChild_eq, hn]
  have habsent : n ∉ nodes := fun hin => by
    have hlive := ((hcounted.mem n).mp hin).2
    rw [hnone] at hlive
    cases hlive
  have hne' : ∀ p ∈ nodes, p ≠ n := fun p hp heq => habsent (heq ▸ hp)
  have hroot : n ≠ root := by
    rintro rfl
    rw [hrep'.tree.root_key] at hnone
    cases hnone
  refine ⟨update keys n (some (kq ++ e)), insert n nodes, hrep.tree, ?_⟩
  constructor
  · intro p
    rw [Finset.mem_insert, hcounted.mem, Function.update_apply]
    split
    · next heq => simp [heq, hroot]
    · next hne => simp [hne]
  · show ix.takeNode.2.nodes + 1 = _
    rw [hcount, hcounted.count, Finset.card_insert_of_notMem habsent]
  · show ix.takeNode.2.keyTokens + e.length =
      ∑ p ∈ insert n nodes, (update ix.takeNode.2.edge n e p).length
    rw [htokens, hedge, hcounted.tokens, Finset.sum_insert habsent,
      Function.update_self, Nat.add_comm]
    congr 1
    exact Finset.sum_congr rfl fun p hp => by rw [Function.update_of_ne (hne' p hp)]
  · intro p hp
    show update ix.takeNode.2.depth n (ix.takeNode.2.depth q + 1) p ≤ _
    rw [hdepth]
    rcases Finset.mem_insert.mp hp with rfl | hp
    · rw [Function.update_self]
      exact hroom
    · rw [Function.update_of_ne (hne' p hp)]
      exact hcounted.depth p hp
  · exact fun p b hb => hcounted.pages p b (hpages p b hb)

theorem takePublication (h : Shaped config ix) (i : Nat) :
    Shaped config { ix with publication := ix.publication.take i } :=
  h.frame rfl rfl rfl rfl rfl rfl rfl fun _ _ hb => Or.inl hb

/-- The child that `publish` picks may be new; it is as deep as the page is far. -/
theorem selectChild (h : Shaped config ix) (hrep : Rep config.blockTokens ix keys P none)
    (hempty : NoEmptyLeaf ix keys fun _ => False) {i : Nat} {q : Ptr} {kq e : List TokenId}
    (hcur : Cursor config.blockTokens ix keys i q kq) (hne : e ≠ [])
    (hle : e.length ≤ config.blockTokens) (hroom : i + 1 ≤ config.prefixCacheBlocks) :
    Shaped config (ix.selectChild i q e).2 := by
  have hsearch : ∀ {ix : Index}, Shaped config ix → Rep config.blockTokens ix keys P none →
      NoEmptyLeaf ix keys (fun _ => False) → Cursor config.blockTokens ix keys i q kq →
      (ix.children q).find? e = none → Shaped config (ix.insertChild q e).2 :=
    fun h hrep hempty hcur hfind => h.insertChild hrep hempty hcur.key
      (by rw [hcur.depth, hcur.full]) hne hle hfind (by rw [hcur.depth]; exact hroom)
  rw [Index.selectChild, checkHint]
  cases hhint : ix.publication[i]? with
  | none =>
    simp only
    cases hfind : (ix.children q).find? e with
    | some p => exact h
    | none => exact hsearch h hrep hempty hcur hfind
  | some hint =>
    simp only
    by_cases hok : ix.parent hint = some q ∧ ix.edge hint = e
    · rw [if_pos hok]
      exact h
    · rw [if_neg hok]
      simp only
      cases hfind : (ix.children q).find? e with
      | some p => exact h.takePublication i
      | none =>
        refine hsearch (h.takePublication i) (hrep.takePublication i) hempty ?_ hfind
        exact { key := hcur.key, depth := hcur.depth, full := hcur.full,
                hint := Cursor.hint_of_take hcur.hint }

end Shaped

end Index

/-! ## The operations -/

namespace Index.Shaped

variable {config : KvCacheConfig} {cache : ExactPrefixCache} {flat : FlatCache} {keys : Keys}
  {P : List Ptr}

/-- An unleased node takes its lease, or disappears again with what was empty above it. -/
theorem leasePage (cache : ExactPrefixCache) (h : Shaped config cache.index)
    (hlive : ∀ p, cache.index.lru.oldest = some p → ∃ k, cache.index.Spells k p)
    {pool : KvBlockPool} (hcfg : pool.config = config) (parent : Ptr) {node : Ptr}
    {kn : List TokenId} (hn : cache.index.Spells kn node) (page : Nat) :
    Shaped config (cache.leasePage pool parent node page).2.1.index := by
  have hentered : Shaped config (cache.index.insertAvailable parent node) :=
    h.frame rfl rfl rfl rfl rfl rfl rfl fun _ _ hb => Or.inl hb
  have hgranted : ∀ ix : Index, page < config.maxBlocks → Shaped config ix →
      Shaped config (ix.grantLease node page) := by
    intro ix hpage hix
    refine hix.frame rfl rfl rfl rfl rfl rfl rfl fun p b hb => ?_
    have hb : update ix.block node (some page) p = some b := hb
    rw [Function.update_apply] at hb
    split at hb
    · exact Or.inr (Option.some.inj hb ▸ hpage)
    · exact Or.inl hb
  subst hcfg
  rw [ExactPrefixCache.leasePage, KvBlockPool.retain]
  by_cases hpage : page < pool.config.maxBlocks
  · simp only [if_pos hpage]
    split
    · have hdropped := hentered.drop (fun p hp => (hlive p hp).imp fun _ hk => hk.frame (by rfl))
      exact hgranted _ hpage (hdropped _ _)
    · exact hgranted _ hpage hentered
  · simp only [if_neg hpage]
    have hleft : Shaped pool.config
        ((cache.index.insertAvailable parent node).extractAvailable node parent) :=
      h.frame rfl rfl rfl rfl rfl rfl rfl fun _ _ hb => Or.inl hb
    exact hleft.prune (hn.frame (by rfl)) none

/-- Publishing a page keeps the shape, also where it throws. -/
theorem publishPage (hmirrors : Mirrors config.blockTokens cache flat keys P)
    (h : Shaped config cache.index) {i : Nat} {q : Ptr} {sequence : PagedSequence}
    {pool : KvBlockPool} (hcfg : pool.config = config)
    (hlen : sequence.tokens.length = sequence.used) (hi : i * config.blockTokens < sequence.used)
    (hroom : i + 1 ≤ config.prefixCacheBlocks)
    (hcur : Cursor config.blockTokens cache.index keys i q
      (sequence.tokens.take (i * config.blockTokens))) :
    Shaped config (cache.publishPage pool sequence i q).2.1.index := by
  have hpos : 0 < config.blockTokens := hcfg ▸ pool.valid.blockTokens_pos
  obtain ⟨-, hne, hle⟩ := Mirrors.page_eq hlen hi hpos
  obtain ⟨n, ix, keys₁, hsel, hrep, -, hkey, -⟩ :=
    hmirrors.rep.selectChild hmirrors.noEmptyLeaf hcur hne hle
  have hselected := h.selectChild hmirrors.rep hmirrors.noEmptyLeaf hcur hne hle hroom
  rw [hsel] at hselected
  have hextended : ∀ {ix : Index}, Shaped config ix → Shaped config (ix.extendPublication i n) :=
    fun hix => hix.frame rfl rfl rfl rfl rfl rfl rfl fun _ _ hb => Or.inl hb
  simp only [ExactPrefixCache.publishPage, hcfg, hsel]
  by_cases hblock : (ix.block n).isSome
  · simp only [if_pos hblock]
    exact hextended (hselected.frame rfl rfl rfl rfl rfl rfl rfl fun _ _ hb => Or.inl hb)
  · simp only [if_neg hblock]
    have hleased := leasePage { cache with index := ix } hselected hrep.oldest_live hcfg q
      (hrep.tree.spells_iff.mpr hkey) (sequence.blocks.getD i 0)
    revert hleased
    generalize { cache with index := ix }.leasePage pool q n (sequence.blocks.getD i 0) = result
    obtain ⟨outcome, cache', pool'⟩ := result
    intro hleased
    cases outcome with
    | error err => exact hleased
    | ok _ => exact hextended hleased

/-- The loop of `publish`, whether it returns or throws. -/
theorem publishLoop (pages : Nat) {cache : ExactPrefixCache} {flat : FlatCache} {keys : Keys}
    {P : List Ptr} (hmirrors : Mirrors config.blockTokens cache flat keys P)
    (h : Shaped config cache.index) {i : Nat} {q : Ptr} {sequence : PagedSequence}
    {pool : KvBlockPool} (hcfg : pool.config = config)
    (hlen : sequence.tokens.length = sequence.used)
    (hpages : pages = 0 ∨ (i + pages - 1) * config.blockTokens < sequence.used)
    (hroom : i + pages ≤ config.prefixCacheBlocks)
    (hcur : pages = 0 ∨ Cursor config.blockTokens cache.index keys i q
      (sequence.tokens.take (i * config.blockTokens))) :
    Shaped config (ExactPrefixCache.publishLoop sequence pages i q cache pool).2.1.index := by
  induction pages generalizing cache flat keys P i q pool with
  | zero => exact h
  | succ pages ih =>
    have hlast : (i + pages) * config.blockTokens < sequence.used := by
      simpa using hpages.resolve_left (Nat.succ_ne_zero pages)
    have hi : i * config.blockTokens < sequence.used :=
      Nat.lt_of_le_of_lt (Nat.mul_le_mul_right _ (Nat.le_add_right i pages)) hlast
    have hcur := hcur.resolve_left (Nat.succ_ne_zero pages)
    have hpage := h.publishPage hmirrors hcfg hlen hi (by omega) hcur
    rw [ExactPrefixCache.publishLoop]
    rcases hmirrors.publishPage (by rw [hcfg]) (by rw [hcfg]; omega) hlen hi hcur with
      ⟨err, cache', flat', pool', heq, -, -⟩ |
      ⟨n, cache', flat', pool', keys', P', heq, -, hmir, hcfg', hkey, hdepth, hhint⟩
    · rw [heq] at hpage ⊢
      exact hpage
    · rw [heq] at hpage ⊢
      refine ih hmir hpage (hcfg'.trans hcfg) ?_ (by omega) ?_
      · rcases Nat.eq_zero_or_pos pages with hz | hp
        · exact Or.inl hz
        · right
          rwa [show i + 1 + pages - 1 = i + pages by omega]
      · -- one more page follows, so this one was full
        rcases Nat.eq_zero_or_pos pages with hz | hp
        · exact Or.inl hz
        · right
          have hle : (i + 1) * config.blockTokens ≤ sequence.used :=
            (Nat.mul_le_mul_right _ (by omega)).trans hlast.le
          rw [Nat.min_eq_right hle] at hkey
          refine { key := hkey, depth := hdepth, full := ?_, hint := hhint }
          rw [List.length_take, hlen, Nat.min_eq_left hle, Nat.mul_comm]

/-- A publication keeps the shape. -/
theorem publish (hstored : Represents config.blockTokens cache flat)
    (h : Shaped config cache.index) {pool : KvBlockPool} (hcfg : pool.config = config)
    (sequence : PagedSequence) : Shaped config (cache.publish pool sequence).2.1.index := by
  obtain ⟨keys, P, hmirrors⟩ := hstored
  rw [ExactPrefixCache.publish]
  by_cases hlen : sequence.tokens.length = sequence.used
  · rw [if_neg (not_not.mpr hlen)]
    have hroom := FlatCache.publishCount_le_capacity pool sequence
    have hpages := h.publishLoop (ExactPrefixCache.publishCount pool sequence) hmirrors hcfg hlen
      (i := 0) (q := root) (by
        rcases Nat.eq_zero_or_pos (ExactPrefixCache.publishCount pool sequence) with hz | hp
        · exact Or.inl hz
        · right
          rw [Nat.zero_add, ← hcfg]
          exact FlatCache.mul_lt_used (Nat.sub_lt hp Nat.zero_lt_one))
      (by rw [Nat.zero_add, ← hcfg]; exact hroom)
      (Or.inr (by simpa using Cursor.start hmirrors.rep))
    rcases hloop : ExactPrefixCache.publishLoop sequence
      (ExactPrefixCache.publishCount pool sequence) 0 root cache pool with ⟨outcome, cache', pool'⟩
    rw [hloop] at hpages
    simp only [hloop]
    cases outcome with
    | error err => exact hpages
    | ok _ => exact hpages.frame rfl rfl rfl rfl rfl rfl rfl fun _ _ hb => Or.inl hb
  · rw [if_pos hlen]
    exact h

/-- `reuse` only touches nodes. -/
theorem reuseLoop (blockTokens limit : Nat) (prompt : List TokenId) (fuel : Nat) {ix : Index}
    (h : Shaped config ix) (parent : Ptr) (count : Nat) (pages : List Nat) :
    Shaped config (Index.reuseLoop blockTokens limit prompt fuel ix parent count pages).1 := by
  induction fuel generalizing ix parent count pages with
  | zero => exact h
  | succ fuel ih =>
    rw [Index.reuseLoop]
    split
    · dsimp only
      split
      · have htouched : ∀ n, Shaped config (ix.touch n) := fun n =>
          h.frame rfl rfl rfl rfl rfl rfl rfl fun _ _ hb => Or.inl hb
        split
        · exact htouched _
        · exact ih (htouched _) _ _ _
      · exact h
    · exact h

/-- A reuse keeps the shape. -/
theorem reuse (h : Shaped config cache.index) (pool : KvBlockPool) (sequence : PagedSequence)
    (prompt : List TokenId) : Shaped config (cache.reuse pool sequence prompt).2.2.1.index := by
  have hwalked := h.reuseLoop pool.config.blockTokens (prompt.length - 1) prompt
    (prompt.length - 1) root 0 []
  rw [ExactPrefixCache.reuse]
  split
  · exact h
  split
  · exact h
  dsimp only
  split
  · exact hwalked
  · split <;> exact hwalked

theorem evictOne (hstored : Represents config.blockTokens cache flat)
    (h : Shaped config cache.index) (pool : KvBlockPool) :
    Shaped config (cache.evictOne pool).2.1.index := by
  obtain ⟨keys, P, hmirrors⟩ := hstored
  rw [ExactPrefixCache.evictOne]
  split
  · exact h
  · exact h.drop hmirrors.rep.oldest_live pool none

/-- The traversal of `clear` drops live nodes only. -/
theorem clearLoop (fuel : Nat) {ix : Index} {keys : Keys} {P : List Ptr}
    (h : Shaped config ix) (hrep' : Rep config.blockTokens ix keys P none)
    (hempty : NoEmptyLeaf ix keys fun _ => False) {kn : List TokenId} {next : Option Ptr}
    (hnext : Next keys kn next) (hmin : ∀ e ∈ entriesOf ix keys P, kn < e.1)
    (pool : KvBlockPool) : Shaped config (Index.clearLoop fuel next ix pool).1 := by
  induction fuel generalizing ix keys P kn next pool with
  | zero => cases next <;> exact h
  | succ fuel ih =>
    cases next with
    | none => exact h
    | some s =>
      obtain ⟨ks, hs, -, hleast⟩ := hnext.found s rfl
      obtain ⟨ix', keys', P', gone, heq, hrep, hem, -, hsub, hkeep, habove, -⟩ :=
        hrep'.visit hempty hs (fun e he => by
          obtain ⟨p, hp, -⟩ := hrep'.mem_entries.mp he
          exact hleast p e.1 hp (hmin e he)) pool
      have hvisited : Shaped config ix' := by
        have hfirst := congrArg Prod.fst heq
        dsimp only at hfirst
        rw [← hfirst]
        split
        · exact h.dropNode (hrep'.tree.spells_iff.mpr hs) pool none
        · exact h
      rw [Index.clearLoop, heq]
      exact ih hvisited hrep hem ((hrep'.tree.successor hs).mono hsub hkeep) habove _

/-- Clearing keeps the shape. -/
theorem clear (hstored : Represents config.blockTokens cache flat)
    (h : Shaped config cache.index) (pool : KvBlockPool) :
    Shaped config (cache.clear pool).1.index := by
  obtain ⟨keys, P, hmirrors⟩ := hstored
  have hwalked := h.clearLoop cache.index.fresh hmirrors.rep hmirrors.noEmptyLeaf
    (hmirrors.rep.tree.successor hmirrors.rep.tree.root_key) (fun e he => by
      obtain ⟨p, hp, hb⟩ := hmirrors.rep.mem_entries.mp he
      have hne :=
        hmirrors.rep.tree.ne_nil hp (hmirrors.rep.ne_root (hmirrors.rep.mem_of_block hp hb))
      exact lt_of_le_of_ne (Tree.le_append_self [] e.1) (Ne.symm hne)) pool
  rw [ExactPrefixCache.clear, hmirrors.rep.tree.first_eq_successor]
  exact hwalked.frame rfl rfl rfl rfl rfl rfl rfl fun _ _ hb => Or.inl hb

end Index.Shaped

end TinyInfer.MiniPrefix
