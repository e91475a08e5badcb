import TinyInfer.MiniPrefix.PrefixTree
import TinyInfer.MiniPrefix.FlatCache

/-!
# The representation invariant of the trie

`Rep` relates the stored index to the histories of its nodes (`keys`) and to the
list `P` of leased nodes in order of use:

- the tree shape of `Tree`;
- the `available` map of a node holds exactly its leased children, plus the one
  `pending` node of a `publish` in progress, whose lookup entry is in place
  before its lease;
- the LRU list links exactly the leased nodes, and `cached` and `leases` count
  them;
- the publication hint is a path of nodes from below the root;
- the spare node is outside the trie and empty.

`NoEmptyLeaf` says that `prune` has left no childless unleased node behind.
Each index operation has one lemma saying what it does to `keys` and `P`.
-/

namespace TinyInfer.MiniPrefix

open Lib
open Function (update)

namespace Index

structure Rep (blockTokens : Nat) (ix : Index) (keys : Keys) (P : List Ptr)
    (pending : Option Ptr) : Prop where
  tree : Tree blockTokens ix keys
  avail : ∀ q kq, keys q = some kq → ∀ e, (ix.available q).find? e =
    ((ix.children q).find? e).filter fun p => (ix.block p).isSome || some p == pending
  lru : ix.lru.IsList P
  leased : ∀ p, p ∈ P ↔ (keys p).isSome ∧ (ix.block p).isSome
  cached : ix.cached = P.length
  leases : ∀ b, ix.leases b = (P.filterMap ix.block).count b
  publication : ∀ i p, ix.publication[i]? = some p →
    (keys p).isSome ∧ ix.depth p = i + 1 ∧ ix.parent p = (root :: ix.publication)[i]?
  spare : ∀ e p, ix.spareNode = some (e, p) → keys p = none ∧ p ≠ root ∧ p < ix.fresh ∧
    ix.children p = OrdMap.empty ∧ ix.available p = OrdMap.empty ∧ ix.block p = none
  root_block : ix.block root = none
  pending_live : ∀ p, pending = some p → (keys p).isSome ∧ ix.block p = none

/-- Every childless node other than the root is leased, the excepted ones apart. -/
def NoEmptyLeaf (ix : Index) (keys : Keys) (except : Ptr → Prop) : Prop :=
  ∀ p k, keys p = some k → p ≠ root → (∀ e, (ix.children p).find? e = none) →
    ix.block p = none → except p

/-- The cached entries, in order of use. -/
def entriesOf (ix : Index) (keys : Keys) (P : List Ptr) : List Entry :=
  P.map fun p => ((keys p).getD [], (ix.block p).getD 0)

variable {blockTokens : Nat} {ix : Index} {keys : Keys} {P : List Ptr} {pending : Option Ptr}
  {n : Ptr}

/-! ## Frames -/

/-- The tree shape reads five fields only. -/
theorem Tree.frame (h : Tree blockTokens ix keys) {ix' : Index} (hp : ix'.parent = ix.parent)
    (hd : ix'.depth = ix.depth) (he : ix'.edge = ix.edge) (hc : ix'.children = ix.children)
    (hf : ix'.fresh = ix.fresh) : Tree blockTokens ix' keys where
  root_key := h.root_key
  root_depth := hd ▸ h.root_depth
  up := fun p k hk hne => by rw [hc, he]; exact h.up p k hk hne
  down := fun q kq e p hq hfind => by
    have hc' := h.down q kq e p hq (hc ▸ hfind)
    exact { ne_root := hc'.ne_root, key := hc'.key, parent := hp ▸ hc'.parent,
            edge := he ▸ hc'.edge, depth := by rw [hd]; exact hc'.depth,
            edge_ne := hc'.edge_ne, edge_le := hc'.edge_le, full := by rw [hd]; exact hc'.full }
  bounded := fun p k hk => hf ▸ h.bounded p k hk

/-- Reordering the LRU list changes nothing else. -/
theorem Rep.relink (h : Rep blockTokens ix keys P pending) {l : Links Ptr} {P' : List Ptr}
    (hl : l.IsList P') (hperm : P'.Perm P) :
    Rep blockTokens { ix with lru := l } keys P' pending where
  tree := h.tree.frame rfl rfl rfl rfl rfl
  avail := h.avail
  lru := hl
  leased := fun p => hperm.mem_iff.trans (h.leased p)
  cached := h.cached.trans hperm.length_eq.symm
  leases := fun b => (h.leases b).trans ((hperm.filterMap ix.block).count_eq b).symm
  publication := h.publication
  spare := h.spare
  root_block := h.root_block
  pending_live := h.pending_live

/-! ## Reading the invariant -/

theorem Rep.mem_of_block (h : Rep blockTokens ix keys P pending) {p : Ptr} {k : List TokenId}
    {b : Nat} (hk : keys p = some k) (hb : ix.block p = some b) : p ∈ P :=
  (h.leased p).mpr ⟨by simp [hk], by simp [hb]⟩

theorem Rep.of_mem (h : Rep blockTokens ix keys P pending) {p : Ptr} (hp : p ∈ P) :
    ∃ k b, keys p = some k ∧ ix.block p = some b := by
  obtain ⟨hk, hb⟩ := (h.leased p).mp hp
  obtain ⟨k, hk⟩ := Option.isSome_iff_exists.mp hk
  obtain ⟨b, hb⟩ := Option.isSome_iff_exists.mp hb
  exact ⟨k, b, hk, hb⟩

theorem Rep.ne_root (h : Rep blockTokens ix keys P pending) {p : Ptr} (hp : p ∈ P) :
    p ≠ root := by
  rintro rfl
  obtain ⟨k, b, -, hb⟩ := h.of_mem hp
  rw [h.root_block] at hb
  cases hb

/-- The entries are exactly the leased nodes. -/
theorem Rep.mem_entries (h : Rep blockTokens ix keys P pending) {k : List TokenId} {b : Nat} :
    (k, b) ∈ entriesOf ix keys P ↔ ∃ p, keys p = some k ∧ ix.block p = some b := by
  rw [entriesOf, List.mem_map]
  constructor
  · rintro ⟨p, hp, heq⟩
    obtain ⟨k', b', hk, hb⟩ := h.of_mem hp
    rw [hk, hb] at heq
    obtain ⟨rfl, rfl⟩ : k' = k ∧ b' = b := by simpa using heq
    exact ⟨p, hk, hb⟩
  · rintro ⟨p, hk, hb⟩
    exact ⟨p, h.mem_of_block hk hb, by rw [hk, hb]; rfl⟩

theorem Rep.entries_keys_nodup (h : Rep blockTokens ix keys P pending) :
    ((entriesOf ix keys P).map Prod.fst).Nodup := by
  rw [entriesOf, List.map_map]
  refine List.Nodup.map_on (fun p hp p' hp' heq => ?_) h.lru.nodup
  obtain ⟨k, b, hk, -⟩ := h.of_mem hp
  obtain ⟨k', b', hk', -⟩ := h.of_mem hp'
  have : k = k' := by simpa [hk, hk'] using heq
  exact h.tree.inj hk (this ▸ hk')

theorem Rep.entries_length (h : Rep blockTokens ix keys P pending) :
    (entriesOf ix keys P).length = ix.cached := by
  rw [entriesOf, List.length_map, h.cached]

/-- The leases are those of the entries. -/
theorem Rep.leases_eq (h : Rep blockTokens ix keys P pending) (b : Nat) :
    ix.leases b = ((entriesOf ix keys P).map Prod.snd).count b := by
  rw [h.leases b, entriesOf, List.map_map]
  congr 1
  have : ∀ l : List Ptr, (∀ p ∈ l, (ix.block p).isSome) →
      l.filterMap ix.block = l.map
        (Prod.snd ∘ fun p => ((keys p).getD [], (ix.block p).getD 0)) := by
    intro l hl
    induction l with
    | nil => rfl
    | cons p l ih =>
      obtain ⟨b, hb⟩ := Option.isSome_iff_exists.mp (hl p List.mem_cons_self)
      rw [List.filterMap_cons_some hb, ih fun x hx => hl x (List.mem_cons_of_mem p hx),
        List.map_cons]
      simp [hb]
  exact this P fun p hp => ((h.leased p).mp hp).2

/-- Entries only depend on the histories and pages of the listed nodes. -/
theorem entriesOf_congr {ix' : Index} {keys' : Keys}
    (h : ∀ p ∈ P, keys' p = keys p ∧ ix'.block p = ix.block p) :
    entriesOf ix' keys' P = entriesOf ix keys P :=
  List.map_congr_left fun p hp => by rw [(h p hp).1, (h p hp).2]

/-! ## Touching -/

/-- A touch moves a node to the end of the recency list. -/
theorem Rep.touch (h : Rep blockTokens ix keys P pending) {p : Ptr} (hp : p ∈ P) :
    ∃ P', Rep blockTokens (ix.touch p) keys P' pending ∧
      entriesOf (ix.touch p) keys P' = Lru.touch (entriesOf ix keys P) ((keys p).getD []) := by
  obtain ⟨A, B, rfl⟩ := List.append_of_mem hp
  refine ⟨A ++ B ++ [p], h.relink h.lru.touch ?_, ?_⟩
  · rw [List.append_assoc]
    exact (List.perm_append_singleton p B).append_left A
  · have hnd := h.entries_keys_nodup
    simp only [entriesOf, List.map_append, List.map_cons] at hnd ⊢
    rw [Lru.touch_split (by simpa using hnd)]
    rfl

/-! ## Pruning -/

theorem update_none_eq_some {p : Ptr} {k : List TokenId} :
    update keys n none p = some k ↔ p ≠ n ∧ keys p = some k := by
  rw [Function.update_apply]
  split
  · next heq => simp [heq]
  · next hne => simp [hne]

/-- The one entry that `extract_leaf` takes out of the child maps. -/
theorem extractLeaf_children (ix : Index) (n q p : Ptr) (e : List TokenId) :
    ((ix.extractLeaf n q).children p).find? e =
      if p = q ∧ e = ix.edge n then none else (ix.children p).find? e := by
  show (update ix.children q ((ix.children q).erase (ix.edge n)) p).find? e = _
  rw [Function.update_apply]
  by_cases hp : p = q
  · subst hp
    rw [if_pos rfl, OrdMap.find?_erase]
    simp
  · rw [if_neg hp, if_neg (fun hh => hp hh.1)]

/-- A child other than the extracted node is found as before. -/
theorem children_of_extractLeaf {q p c : Ptr} {e : List TokenId}
    (h : ((ix.extractLeaf n q).children p).find? e = some c) :
    (ix.children p).find? e = some c := by
  rw [extractLeaf_children] at h
  split at h
  · cases h
  · exact h

/-- The tree without a childless node is a tree. -/
theorem Tree.withoutLeaf (h : Tree blockTokens ix keys) {q : Ptr} (hroot : n ≠ root)
    (hpar : ix.parent n = some q) (hfind : (ix.children q).find? (ix.edge n) = some n)
    (hleaf : ∀ e, (ix.children n).find? e = none) :
    Tree blockTokens (ix.extractLeaf n q) (update keys n none) := by
  have hkeys : ∀ p, p ≠ n → update keys n none p = keys p := fun p hp => by
    rw [Function.update_apply, if_neg hp]
  refine { root_key := ?_, root_depth := h.root_depth, up := ?_, down := ?_, bounded := ?_ }
  · rw [hkeys root (Ne.symm hroot)]
    exact h.root_key
  · intro p k hp hne
    obtain ⟨hpn, hp⟩ := update_none_eq_some.mp hp
    obtain ⟨r, kr, hr, -, hfr, hcr⟩ := h.parent_of hp hne
    -- the extracted node has no child, so that the parent of `p` stays
    have hrn : r ≠ n := by
      rintro rfl
      rw [hleaf] at hfr
      cases hfr
    refine ⟨r, kr, by rw [hkeys r hrn]; exact hr, ?_⟩
    rw [extractLeaf_children, if_neg]
    · exact hfr
    · rintro ⟨rfl, heq⟩
      have heq' : ix.edge p = ix.edge n := heq
      rw [heq', hfind] at hfr
      exact hpn (Option.some.inj hfr).symm
  · intro r kr e p hr hfind'
    obtain ⟨hrn, hr⟩ := update_none_eq_some.mp hr
    have hcp := h.down r kr e p hr (children_of_extractLeaf hfind')
    have hpn : p ≠ n := by
      rintro rfl
      have hrq : r = q := Option.some.inj (hcp.parent.symm.trans hpar)
      rw [extractLeaf_children, if_pos ⟨hrq, hcp.edge.symm⟩] at hfind'
      cases hfind'
    exact { hcp with key := by rw [hkeys p hpn]; exact hcp.key }
  · exact fun p k hp => h.bounded p k (update_none_eq_some.mp hp).2

/-- The publication hint is cut right before the extracted node, if it goes through it. -/
theorem Rep.extractLeaf_publication (h : Rep blockTokens ix keys P pending) {q : Ptr}
    (hdepth : ix.depth n = ix.depth q + 1) {i : Nat} {p : Ptr}
    (hp : (ix.extractLeaf n q).publication[i]? = some p) :
    (update keys n none p).isSome ∧ ix.depth p = i + 1 ∧
      ix.parent p = (root :: (ix.extractLeaf n q).publication)[i]? := by
  have hkept : p ≠ n → (keys p).isSome → (update keys n none p).isSome := fun hpn hk => by
    rwa [Function.update_apply, if_neg hpn]
  by_cases hcut : ix.depth n ≤ ix.publication.length ∧ ix.publication[ix.depth n - 1]? = some n
  · have hpub : (ix.extractLeaf n q).publication = ix.publication.take (ix.depth n - 1) :=
      if_pos hcut
    have htake : (root :: ix.publication.take (ix.depth n - 1)) =
        (root :: ix.publication).take (ix.depth n - 1 + 1) := rfl
    rw [hpub] at hp ⊢
    rw [List.getElem?_take] at hp
    split at hp
    · next hi =>
      obtain ⟨hk, hd, hpar⟩ := h.publication i p hp
      have hpn : p ≠ n := by
        rintro rfl
        omega
      refine ⟨hkept hpn hk, hd, ?_⟩
      rw [hpar, htake, List.getElem?_take, if_pos (by omega)]
    · cases hp
  · have hpub : (ix.extractLeaf n q).publication = ix.publication := if_neg hcut
    rw [hpub] at hp ⊢
    obtain ⟨hk, hd, hpar⟩ := h.publication i p hp
    have hpn : p ≠ n := by
      rintro rfl
      refine hcut ⟨?_, ?_⟩
      · rw [hd]
        exact (List.getElem?_eq_some_iff.mp hp).1
      · rw [hd, Nat.add_sub_cancel]
        exact hp
    exact ⟨hkept hpn hk, hd, hpar⟩

/-- Extracting a childless unleased node takes its history away. -/
theorem Rep.extractLeaf (h : Rep blockTokens ix keys P pending) {n q : Ptr} {kn : List TokenId}
    (hn : keys n = some kn) (hroot : n ≠ root) (hpar : ix.parent n = some q)
    (hblock : ix.block n = none) (hleaf : ∀ e, (ix.children n).find? e = none)
    (hpend : some n ≠ pending) :
    Rep blockTokens (ix.extractLeaf n q) (update keys n none) P pending := by
  obtain ⟨q', kq, hq, -, hfind, hc⟩ := h.tree.parent_of hn hroot
  obtain rfl : q' = q := Option.some.inj (hc.parent.symm.trans hpar)
  have hqn : q' ≠ n := by
    rintro rfl
    rw [hleaf] at hfind
    cases hfind
  refine {
    tree := h.tree.withoutLeaf hroot hpar hfind hleaf, avail := ?_, lru := h.lru, leased := ?_
    cached := h.cached, leases := h.leases
    publication := fun i p => h.extractLeaf_publication hc.depth
    spare := ?_, root_block := h.root_block, pending_live := ?_ }
  · intro r kr hr e
    obtain ⟨hrn, hr⟩ := update_none_eq_some.mp hr
    rw [extractLeaf_children]
    show (ix.available r).find? e = _
    rw [h.avail r kr hr e]
    split
    · next heq =>
      obtain ⟨rfl, rfl⟩ := heq
      simp [hfind, hblock]
      exact hpend
    · rfl
  · intro p
    show _ ↔ (update keys n none p).isSome ∧ (ix.block p).isSome
    rw [h.leased p, Function.update_apply]
    split
    · next heq => simp [heq, hblock]
    · rfl
  · intro e p hp
    have hp' : ((ix.children q').find? (ix.edge n)).map (fun p => (ix.edge n, p)) = some (e, p) :=
      hp
    rw [hfind] at hp'
    obtain ⟨rfl, rfl⟩ : ix.edge n = e ∧ n = p := by simpa using hp'
    refine ⟨by simp, hroot, h.tree.bounded n kn hn, ?_, ?_, hblock⟩
    · refine OrdMap.ext_find? fun e => ?_
      rw [extractLeaf_children, if_neg (fun hh => hqn hh.1.symm), hleaf]
      rfl
    · refine OrdMap.ext_find? fun e => ?_
      show (ix.available n).find? e = _
      rw [h.avail n kn hn e, hleaf]
      rfl
  · intro p hp
    rw [Function.update_apply, if_neg (fun heq => hpend (by rw [hp, heq]))]
    exact h.pending_live p hp

/-- What removing nodes leaves alone. -/
structure Shrinks (ix ix' : Index) (keys keys' : Keys) : Prop where
  sub : ∀ p k, keys' p = some k → keys p = some k
  parent : ix'.parent = ix.parent
  depth : ix'.depth = ix.depth
  edge : ix'.edge = ix.edge
  fresh : ix'.fresh = ix.fresh
  publication : ∃ m, ix'.publication = ix.publication.take m

theorem Shrinks.refl (ix : Index) (keys : Keys) : Shrinks ix ix keys keys :=
  ⟨fun _ _ h => h, rfl, rfl, rfl, rfl, _, (List.take_length).symm⟩

theorem Shrinks.trans {ix₁ ix₂ ix₃ : Index} {keys₁ keys₂ keys₃ : Keys}
    (h : Shrinks ix₁ ix₂ keys₁ keys₂) (h' : Shrinks ix₂ ix₃ keys₂ keys₃) :
    Shrinks ix₁ ix₃ keys₁ keys₃ := by
  obtain ⟨m, hm⟩ := h.publication
  obtain ⟨m', hm'⟩ := h'.publication
  exact ⟨fun p k hk => h.sub p k (h'.sub p k hk), h'.parent.trans h.parent,
    h'.depth.trans h.depth, h'.edge.trans h.edge, h'.fresh.trans h.fresh,
    min m' m, by rw [hm', hm, List.take_take]⟩

theorem extractLeaf_shrinks (ix : Index) (keys : Keys) (n q : Ptr) :
    Shrinks ix (ix.extractLeaf n q) keys (update keys n none) where
  sub := fun p k hk => by
    rw [Function.update_apply] at hk
    split at hk
    · cases hk
    · exact hk
  parent := rfl
  depth := rfl
  edge := rfl
  fresh := rfl
  publication := by
    show ∃ m, (ite _ _ _ : List Ptr) = _
    split
    · exact ⟨_, rfl⟩
    · exact ⟨_, (List.take_length).symm⟩

/-- Extracting a leaf can make its parent the only new empty leaf. -/
theorem NoEmptyLeaf.extractLeaf {except : Ptr → Prop} (h : NoEmptyLeaf ix keys except)
    (n q : Ptr) :
    NoEmptyLeaf (ix.extractLeaf n q) (update keys n none) fun p => p = q ∨ (p ≠ n ∧ except p) := by
  intro p k hk hroot hleaf hblock
  rw [Function.update_apply] at hk
  split at hk
  · cases hk
  next hpn =>
  by_cases hpq : p = q
  · exact Or.inl hpq
  · refine Or.inr ⟨hpn, h p k hk hroot (fun e => ?_) hblock⟩
    have := hleaf e
    rwa [show (ix.extractLeaf n q).children p = ix.children p from
      Function.update_of_ne hpq _ _] at this

theorem prunable_iff {n : Ptr} {protectedNode : Option Ptr} :
    ix.prunable n protectedNode = true ↔ n ≠ root ∧ some n ≠ protectedNode ∧
      ix.block n = none ∧ ∀ e, (ix.children n).find? e = none := by
  simp only [prunable, Bool.and_eq_true, decide_eq_true_eq, Option.isNone_iff_eq_none,
    OrdMap.isEmpty_iff, and_assoc]

/-- Pruning from `n` restores `NoEmptyLeaf`; it only removes unprotected unleased
nodes on the path to `n`. -/
theorem Rep.pruneLoop (fuel : Nat) {ix : Index} {keys : Keys}
    (h : Rep blockTokens ix keys P pending) {n : Ptr} {kn : List TokenId}
    (hn : keys n = some kn) (hfuel : ix.depth n ≤ fuel)
    (hempty : NoEmptyLeaf ix keys fun p => p = n ∨ some p = pending) :
    ∃ keys', Rep blockTokens (pruneLoop fuel ix n pending) keys' P pending ∧
      NoEmptyLeaf (pruneLoop fuel ix n pending) keys' (fun p => some p = pending) ∧
      Shrinks ix (pruneLoop fuel ix n pending) keys keys' ∧
      (pruneLoop fuel ix n pending).block = ix.block ∧
      ∀ p k, keys p = some k → ¬ k <+: kn → keys' p = some k := by
  induction fuel generalizing ix keys n kn with
  -- the root is never pruned
  | zero =>
    have hroot : n = root := by
      by_contra hne
      exact absurd (h.tree.depth_pos hn hne) (by omega)
    refine ⟨keys, h, ?_, Shrinks.refl ix keys, rfl, fun p k hk _ => hk⟩
    intro p k hk hne hleaf hblock
    exact (hempty p k hk hne hleaf hblock).resolve_left fun heq => hne (heq.trans hroot)
  | succ fuel ih =>
    by_cases hp : ix.prunable n pending = true
    -- the leaf is removed, and its parent is looked at next
    · obtain ⟨hroot, hpend, hblock, hleaf⟩ := prunable_iff.mp hp
      obtain ⟨q, kq, hq, hkn, hfind, hc⟩ := h.tree.parent_of hn hroot
      have hqn : q ≠ n := by
        rintro rfl
        rw [hleaf] at hfind
        cases hfind
      have hrep := h.extractLeaf hn hroot hc.parent hblock hleaf hpend
      have hq' : update keys n none q = some kq := by
        rw [Function.update_of_ne hqn]
        exact hq
      have hempty' : NoEmptyLeaf (ix.extractLeaf n q) (update keys n none)
          fun p => p = q ∨ some p = pending := by
        intro p k hk hne hl hb
        rcases hempty.extractLeaf n q p k hk hne hl hb with heq | ⟨hpn, heq⟩
        · exact Or.inl heq
        · exact Or.inr (heq.resolve_left hpn)
      have hfuel' : (ix.extractLeaf n q).depth q ≤ fuel := by
        have := hc.depth
        show ix.depth q ≤ fuel
        omega
      obtain ⟨keys', hrep', hempty'', hshr, hblk, hkeep⟩ := ih hrep hq' hfuel' hempty'
      have hloop : Index.pruneLoop (fuel + 1) ix n pending =
          Index.pruneLoop fuel (ix.extractLeaf n q) q pending := by
        rw [Index.pruneLoop, if_pos hp, hc.parent]
      rw [hloop]
      refine ⟨keys', hrep', hempty'', (extractLeaf_shrinks ix keys n q).trans hshr, hblk, ?_⟩
      intro p k hk hnp
      refine hkeep p k ?_ fun hpre => hnp ?_
      · rw [Function.update_of_ne]
        · exact hk
        · rintro rfl
          rw [hn] at hk
          exact hnp (Option.some.inj hk ▸ List.prefix_rfl)
      · rw [hkn]
        exact hpre.trans (List.prefix_append _ _)
    -- the node stays, so there is no empty leaf
    · have hloop : Index.pruneLoop (fuel + 1) ix n pending = ix := by
        rw [Index.pruneLoop, if_neg hp]
      rw [hloop]
      refine ⟨keys, h, ?_, Shrinks.refl ix keys, rfl, fun p k hk _ => hk⟩
      intro p k hk hne hleaf hblock
      rcases hempty p k hk hne hleaf hblock with rfl | heq
      · by_contra hpend
        exact hp (prunable_iff.mpr ⟨hne, hpend, hblock, hleaf⟩)
      · exact heq

/-! ## Dropping a lease -/

theorem Shrinks.keys_eq {ix ix' : Index} {keys keys' : Keys} (h : Shrinks ix ix' keys keys')
    {p : Ptr} (hp : (keys' p).isSome) : keys' p = keys p := by
  obtain ⟨k, hk⟩ := Option.isSome_iff_exists.mp hp
  rw [hk, h.sub p k hk]

/-- Giving back the lease of `n`: its page loses one reference, and the nodes
that only `n` kept alive disappear. -/
theorem Rep.dropNode {A B : List Ptr} {n : Ptr} {kn : List TokenId}
    (h : Rep blockTokens ix keys (A ++ n :: B) pending) (hn : keys n = some kn)
    (hempty : NoEmptyLeaf ix keys fun p => some p = pending) (pool : KvBlockPool) :
    ∃ ix' keys', ix.dropNode pool n pending = (ix', pool.unref ((ix.block n).getD 0)) ∧
      Rep blockTokens ix' keys' (A ++ B) pending ∧
      NoEmptyLeaf ix' keys' (fun p => some p = pending) ∧ Shrinks ix ix' keys keys' ∧
      (∀ p, p ≠ n → ix'.block p = ix.block p) ∧
      ∀ p k, keys p = some k → ¬ k <+: kn → keys' p = some k := by
  have hmem : n ∈ A ++ n :: B := by simp
  -- the node's own facts, before its lease ends
  obtain ⟨-, b, -, hb⟩ := h.of_mem hmem
  have hroot := h.ne_root hmem
  obtain ⟨q, kq, hq, -, hfind, hc⟩ := h.tree.parent_of hn hroot
  have hpend : ∀ p, some p = pending → p ≠ n := by
    rintro p hp rfl
    rw [(h.pending_live p hp.symm).2] at hb
    cases hb
  have hnotin : n ∉ A ++ B := fun hin => by
    have hnd := h.lru.nodup
    rw [List.nodup_append, List.nodup_cons] at hnd
    rcases List.mem_append.mp hin with hA | hB
    · exact hnd.2.2 n hA n List.mem_cons_self rfl
    · exact hnd.2.1.1 hB
  -- the index between the end of the lease and the pruning
  let mid : Index := { (ix.extractAvailable n q) with
    leases := update ix.leases b (ix.leases b - 1)
    lru := ix.lru.unlink n
    block := update ix.block n none
    cached := ix.cached - 1 }
  have hblock : ∀ p, p ≠ n → mid.block p = ix.block p := fun p hp =>
    Function.update_of_ne hp _ _
  have hblockn : mid.block n = none := Function.update_self n none ix.block
  have hmid : Rep blockTokens mid keys (A ++ B) pending := by
    refine { tree := h.tree.frame rfl rfl rfl rfl rfl, avail := ?_, lru := h.lru.unlink,
             leased := ?_, cached := ?_, leases := ?_, publication := h.publication,
             spare := ?_, root_block := ?_, pending_live := ?_ }
    -- the node leaves its parent's available children, no other entry changes
    · intro r kr hr e
      show (update ix.available q ((ix.available q).erase (ix.edge n)) r).find? e =
        ((ix.children r).find? e).filter fun p => (mid.block p).isSome || some p == pending
      by_cases hrn : (ix.children r).find? e = some n
      · have hcr := h.tree.down r kr e n hr hrn
        obtain rfl : q = r := Option.some.inj (hc.parent.symm.trans hcr.parent)
        have hno : (some n == pending) = false := by
          rw [beq_eq_false_iff_ne]
          exact fun heq => hpend n heq rfl
        rw [Function.update_self, hcr.edge, OrdMap.find?_erase, if_pos rfl, hrn,
          Option.filter_some, hblockn, hno]
        rfl
      · have hsame : ((ix.children r).find? e).filter
              (fun p => (mid.block p).isSome || some p == pending) =
            ((ix.children r).find? e).filter
              fun p => (ix.block p).isSome || some p == pending := by
          cases hfe : (ix.children r).find? e with
          | none => rfl
          | some p =>
            have hpn : p ≠ n := by
              rintro rfl
              exact hrn hfe
            rw [Option.filter_some, Option.filter_some, hblock p hpn]
        rw [hsame, ← h.avail r kr hr e, Function.update_apply]
        split
        · next heq =>
          subst heq
          refine OrdMap.find?_erase_ne _ ?_
          rintro rfl
          exact hrn hfind
        · rfl
    · intro p
      show _ ↔ (keys p).isSome ∧ (mid.block p).isSome
      by_cases hpn : p = n
      · subst hpn
        rw [hblockn]
        simp [hnotin]
      · rw [hblock p hpn, ← h.leased p]
        simp [hpn]
    · show ix.cached - 1 = _
      rw [h.cached]
      simp
    -- its page has one lease less
    · intro x
      have hA : ∀ l : List Ptr, n ∉ l → l.filterMap mid.block = l.filterMap ix.block :=
        fun l hl => List.filterMap_congr fun p hp => hblock p (by rintro rfl; exact hl hp)
      show update ix.leases b (ix.leases b - 1) x = _
      rw [hA _ hnotin, List.filterMap_append, List.count_append, Function.update_apply]
      have hx := h.leases x
      rw [List.filterMap_append, List.filterMap_cons_some hb, List.count_append,
        KvBlockPool.count_cons_eq b x, KvBlockPool.count_one] at hx
      split
      · next heq =>
        subst heq
        rw [if_pos rfl] at hx
        omega
      · next hne =>
        rw [if_neg hne] at hx
        omega
    -- the spare is another node
    · intro e p hp
      obtain ⟨h1, h2, h3, h4, h5, h6⟩ := h.spare e p hp
      have hpn : p ≠ n := by
        rintro rfl
        rw [h1] at hn
        cases hn
      have hpq : p ≠ q := by
        rintro rfl
        rw [h1] at hq
        cases hq
      exact ⟨h1, h2, h3, h4, (Function.update_of_ne hpq _ _).trans h5, (hblock p hpn).trans h6⟩
    · rw [hblock root (Ne.symm hroot)]
      exact h.root_block
    · intro p hp
      rw [hblock p (hpend p hp.symm)]
      exact h.pending_live p hp
  -- the node may now be an empty leaf, which the pruning removes
  have hempty' : NoEmptyLeaf mid keys fun p => p = n ∨ some p = pending := by
    intro p k hk hne hleaf hbl
    by_cases hpn : p = n
    · exact Or.inl hpn
    · exact Or.inr (hempty p k hk hne hleaf ((hblock p hpn).symm.trans hbl))
  obtain ⟨keys', hrep, hem, hshr, hblk, hkeep⟩ := hmid.pruneLoop (mid.depth n) hn le_rfl hempty'
  have hshr' : Shrinks ix mid keys keys :=
    ⟨fun _ _ hk => hk, rfl, rfl, rfl, rfl, _, (List.take_length).symm⟩
  refine ⟨mid.prune n pending, keys', ?_, hrep, hem, hshr'.trans hshr, fun p hp => ?_, hkeep⟩
  · rw [Index.dropNode, hc.parent, hb]
    rfl
  · rw [Index.prune, hblk, hblock p hp]

/-! ## Inserting a child -/


/-- A node outside the trie, ready to be put in. -/
structure Blank (ix : Index) (keys : Keys) (n : Ptr) : Prop where
  key : keys n = none
  ne_root : n ≠ root
  lt_fresh : n < ix.fresh
  children : ix.children n = OrdMap.empty
  available : ix.available n = OrdMap.empty
  block : ix.block n = none

/-- Allocating a node changes nothing at the nodes of the trie. -/
theorem Rep.newNode (h : Rep blockTokens ix keys P pending) (hspare : ix.spareNode = none) :
    Rep blockTokens ix.newNode keys P pending ∧ Blank ix.newNode keys ix.fresh ∧
      ∀ p, (keys p).isSome → ix.newNode.block p = ix.block p ∧
        ix.newNode.children p = ix.children p := by
  -- every live node is older than the new one
  have hlive : ∀ p, (keys p).isSome → p ≠ ix.fresh := by
    rintro p hp rfl
    obtain ⟨k, hk⟩ := Option.isSome_iff_exists.mp hp
    exact absurd (h.tree.bounded _ k hk) (lt_irrefl _)
  have hnone : keys ix.fresh = none := by
    by_contra hne
    exact hlive ix.fresh (Option.isSome_iff_ne_none.mpr hne) rfl
  have hroot : ix.fresh ≠ root := fun heq =>
    hlive root (by rw [h.tree.root_key]; rfl) heq.symm
  have hsome : ∀ {p k}, keys p = some k → (keys p).isSome := fun hk => by rw [hk]; rfl
  have hchildren : ∀ p, (keys p).isSome → ix.newNode.children p = ix.children p :=
    fun p hp => Function.update_of_ne (hlive p hp) _ _
  have havail : ∀ p, (keys p).isSome → ix.newNode.available p = ix.available p :=
    fun p hp => Function.update_of_ne (hlive p hp) _ _
  have hblock : ∀ p, (keys p).isSome → ix.newNode.block p = ix.block p :=
    fun p hp => Function.update_of_ne (hlive p hp) _ _
  refine ⟨?_, ⟨hnone, hroot, Nat.lt_succ_self _, Function.update_self _ _ _,
    Function.update_self _ _ _, Function.update_self _ _ _⟩,
    fun p hp => ⟨hblock p hp, hchildren p hp⟩⟩
  refine { tree := ?_, avail := ?_, lru := ?_, leased := ?_, cached := h.cached,
           leases := ?_, publication := h.publication, spare := ?_, root_block := ?_,
           pending_live := ?_ }
  -- the tree does not change, as the new node is not linked
  · refine { root_key := h.tree.root_key, root_depth := h.tree.root_depth, up := ?_,
             down := ?_, bounded := ?_ }
    · intro p k hk hne
      obtain ⟨q, kq, hq, hf⟩ := h.tree.up p k hk hne
      exact ⟨q, kq, hq, by rw [hchildren q (hsome hq)]; exact hf⟩
    · intro q kq e p hq hf
      rw [hchildren q (hsome hq)] at hf
      exact { h.tree.down q kq e p hq hf with }
    · exact fun p k hk => Nat.lt_succ_of_lt (h.tree.bounded p k hk)
  -- the page tables of the live nodes do not change
  · intro q kq hq e
    rw [havail q (hsome hq), hchildren q (hsome hq), h.avail q kq hq e]
    cases hfe : (ix.children q).find? e with
    | none => rfl
    | some p =>
      have hp := (h.tree.down q kq e p hq hfe).key
      rw [Option.filter_some, Option.filter_some, hblock p (hsome hp)]
  · refine h.lru.detach fun hin => ?_
    exact hlive _ ((h.leased _).mp hin).1 rfl
  · intro p
    rw [h.leased p]
    exact and_congr_right fun hk => by rw [hblock p hk]
  · intro b
    rw [show P.filterMap ix.newNode.block = P.filterMap ix.block from
      List.filterMap_congr fun p hp => hblock p ((h.leased p).mp hp).1]
    exact h.leases b
  · exact fun e p hp => absurd (hspare.symm.trans hp) (by simp)
  · rw [hblock root (hsome h.tree.root_key)]
    exact h.root_block
  · intro p hp
    obtain ⟨hk, hb⟩ := h.pending_live p hp
    exact ⟨hk, by rw [hblock p hk]; exact hb⟩

/-- The storage of a new node is blank, whether it is recycled or not. -/
theorem Rep.takeNode (h : Rep blockTokens ix keys P pending) :
    ∃ n ix', ix.takeNode = (n, ix') ∧ Rep blockTokens ix' keys P pending ∧ Blank ix' keys n ∧
      ix'.spareNode = none ∧ ix'.publication = ix.publication ∧ ix'.depth = ix.depth ∧
      ∀ p, (keys p).isSome → ix'.block p = ix.block p ∧ ix'.children p = ix.children p := by
  rw [Index.takeNode]
  cases hspare : ix.spareNode with
  | some s =>
    obtain ⟨e, p⟩ := s
    obtain ⟨h1, h2, h3, h4, h5, h6⟩ := h.spare e p hspare
    exact ⟨p, { ix with spareNode := none }, rfl,
      { h with tree := h.tree.frame rfl rfl rfl rfl rfl
               spare := fun e p hp => absurd hp (by simp) },
      ⟨h1, h2, h3, h4, h5, h6⟩, rfl, rfl, rfl, fun _ _ => ⟨rfl, rfl⟩⟩
  | none =>
    obtain ⟨hrep, hblank, hsame⟩ := h.newNode hspare
    exact ⟨ix.fresh, ix.newNode, rfl, hrep, hblank, hspare, rfl, rfl, hsame⟩

/-- A blank node becomes the child of `q` under the page `e`. -/
theorem Rep.attach (h : Rep blockTokens ix keys P none) {n q : Ptr} {kq e : List TokenId}
    (hblank : Blank ix keys n) (hspare : ix.spareNode = none) (hq : keys q = some kq)
    (hfull : kq.length = blockTokens * ix.depth q) (hne : e ≠ []) (hle : e.length ≤ blockTokens)
    (hfind : (ix.children q).find? e = none) :
    Rep blockTokens (ix.attach q e n) (update keys n (some (kq ++ e))) P none := by
  -- the new node is none of the live ones, so no old field changes
  have hqn : q ≠ n := by
    rintro rfl
    rw [hblank.key] at hq
    cases hq
  have hhold : ∀ p, p ≠ n → update keys n (some (kq ++ e)) p = keys p := fun p hp =>
    Function.update_of_ne hp _ _
  have hnew : update keys n (some (kq ++ e)) n = some (kq ++ e) := Function.update_self _ _ _
  have hlive : ∀ p, (keys p).isSome → p ≠ n := by
    rintro p hp rfl
    rw [hblank.key] at hp
    cases hp
  have hsome : ∀ {p k}, keys p = some k → (keys p).isSome := fun hk => by rw [hk]; rfl
  have hparent : ∀ p, p ≠ n → (ix.attach q e n).parent p = ix.parent p := fun p hp =>
    Function.update_of_ne hp _ _
  have hdepth : ∀ p, p ≠ n → (ix.attach q e n).depth p = ix.depth p := fun p hp =>
    Function.update_of_ne hp _ _
  have hedge : ∀ p, p ≠ n → (ix.attach q e n).edge p = ix.edge p := fun p hp =>
    Function.update_of_ne hp _ _
  have hdepthn : (ix.attach q e n).depth n = ix.depth q + 1 := Function.update_self _ _ _
  have hedgen : (ix.attach q e n).edge n = e := Function.update_self _ _ _
  have hparentn : (ix.attach q e n).parent n = some q := Function.update_self _ _ _
  have hchildren : ∀ p x, ((ix.attach q e n).children p).find? x =
      if p = q ∧ x = e then some n else (ix.children p).find? x := by
    intro p x
    show (update ix.children q ((ix.children q).emplace e n) p).find? x = _
    rw [OrdMap.emplace_eq_insert n hfind, Function.update_apply]
    by_cases hp : p = q
    · subst hp
      rw [if_pos rfl, OrdMap.find?_insert]
      simp
    · rw [if_neg hp, if_neg (fun hh => hp hh.1)]
  have hleafn : ∀ x, ((ix.attach q e n).children n).find? x = none := fun x => by
    rw [hchildren, if_neg (fun hh => hqn hh.1.symm), hblank.children]
    rfl
  -- a child in the new index is either the new node or an old child
  have hchild : ∀ r kr x p, keys r = some kr → (ix.children r).find? x = some p →
      ChildOf blockTokens (ix.attach q e n) (update keys n (some (kq ++ e))) r kr x p := by
    intro r kr x p hr hf
    have hc := h.tree.down r kr x p hr hf
    have hpn := hlive p (hsome hc.key)
    have hrn := hlive r (hsome hr)
    exact { ne_root := hc.ne_root, key := by rw [hhold p hpn]; exact hc.key,
            parent := by rw [hparent p hpn]; exact hc.parent,
            edge := by rw [hedge p hpn]; exact hc.edge,
            depth := by rw [hdepth p hpn, hdepth r hrn]; exact hc.depth,
            edge_ne := hc.edge_ne, edge_le := hc.edge_le,
            full := by rw [hdepth r hrn]; exact hc.full }
  refine { tree := ?_, avail := ?_, lru := h.lru, leased := ?_, cached := h.cached,
           leases := h.leases, publication := ?_, spare := ?_, root_block := h.root_block,
           pending_live := fun p hp => absurd hp (by simp) }
  · refine { root_key := ?_, root_depth := ?_, up := ?_, down := ?_, bounded := ?_ }
    · rw [hhold root (Ne.symm hblank.ne_root)]
      exact h.tree.root_key
    · rw [hdepth root (Ne.symm hblank.ne_root)]
      exact h.tree.root_depth
    -- every live node hangs below its parent
    · intro p k hk hroot
      by_cases hpn : p = n
      · subst hpn
        exact ⟨q, kq, by rw [hhold q hqn]; exact hq, by rw [hedgen, hchildren, if_pos ⟨rfl, rfl⟩]⟩
      · rw [hhold p hpn] at hk
        obtain ⟨r, kr, hr, hf⟩ := h.tree.up p k hk hroot
        refine ⟨r, kr, by rw [hhold r (hlive r (hsome hr))]; exact hr, ?_⟩
        rw [hedge p hpn, hchildren, if_neg]
        · exact hf
        · rintro ⟨rfl, heq⟩
          rw [heq, hfind] at hf
          cases hf
    -- every child entry leads to a live node
    · intro r kr x p hr hf
      by_cases hrn : r = n
      · subst hrn
        rw [hleafn] at hf
        cases hf
      · rw [hhold r hrn] at hr
        rw [hchildren] at hf
        split at hf
        · next heq =>
          obtain ⟨rfl, rfl⟩ := heq
          obtain rfl : n = p := Option.some.inj hf
          obtain rfl : kq = kr := Option.some.inj (hq.symm.trans hr)
          exact { ne_root := hblank.ne_root, key := hnew, parent := hparentn, edge := hedgen,
                  depth := by rw [hdepthn, hdepth r hrn], edge_ne := hne, edge_le := hle,
                  full := by rw [hdepth r hrn]; exact hfull }
        · exact hchild r kr x p hr hf
    · intro p k hk
      by_cases hpn : p = n
      · exact hpn ▸ hblank.lt_fresh
      · exact h.tree.bounded p k (by rwa [hhold p hpn] at hk)
  -- the new node has no page, so it is not available to a match
  · intro r kr hr x
    by_cases hrn : r = n
    · subst hrn
      rw [hleafn]
      show (ix.available r).find? x = none
      rw [hblank.available]
      rfl
    · rw [hhold r hrn] at hr
      show (ix.available r).find? x = _
      rw [h.avail r kr hr x, hchildren]
      split
      · next heq =>
        obtain ⟨rfl, rfl⟩ := heq
        rw [hfind, Option.filter_some]
        show none = if ((ix.block n).isSome || some n == none) = true then _ else none
        rw [hblank.block]
        rfl
      · rfl
  -- nor is it in the recency list
  · intro p
    show _ ↔ _ ∧ (ix.block p).isSome
    by_cases hpn : p = n
    · subst hpn
      rw [h.leased p, hblank.block, hblank.key]
      simp
    · rw [h.leased p, hhold p hpn]
  -- the publication hint names live nodes only
  · intro i p hp
    obtain ⟨hk, hd, hpar⟩ := h.publication i p hp
    have hpn := hlive p hk
    exact ⟨by rw [hhold p hpn]; exact hk, by rw [hdepth p hpn]; exact hd,
      by rw [hparent p hpn]; exact hpar⟩
  · exact fun x p hp => absurd (hspare.symm.trans hp) (by simp)

/-- Inserting a child: the new node is the only empty leaf. -/
theorem Rep.insertChild (h : Rep blockTokens ix keys P none)
    (hempty : NoEmptyLeaf ix keys fun _ => False) {q : Ptr} {kq e : List TokenId}
    (hq : keys q = some kq) (hfull : kq.length = blockTokens * ix.depth q) (hne : e ≠ [])
    (hle : e.length ≤ blockTokens) (hfind : (ix.children q).find? e = none) :
    ∃ n ix', ix.insertChild q e = (n, ix') ∧ keys n = none ∧
      Rep blockTokens ix' (update keys n (some (kq ++ e))) P none ∧
      NoEmptyLeaf ix' (update keys n (some (kq ++ e))) (fun p => p = n) ∧
      ix'.publication = ix.publication ∧ ix'.block n = none ∧
      (∀ p, (keys p).isSome → ix'.block p = ix.block p ∧ ix'.depth p = ix.depth p) ∧
      (ix'.children q).find? e = some n := by
  obtain ⟨n, ix₁, htake, hrep, hblank, hspare, hpub, hdep, hsame⟩ := h.takeNode
  have hsome : ∀ {p k}, keys p = some k → (keys p).isSome := fun hk => by rw [hk]; rfl
  have hfind₁ : (ix₁.children q).find? e = none := by
    rw [(hsame q (hsome hq)).2]
    exact hfind
  have hlive : ∀ p, (keys p).isSome → p ≠ n := by
    rintro p hp rfl
    rw [hblank.key] at hp
    cases hp
  have hatt := hrep.attach hblank hspare hq (by rw [hdep]; exact hfull) hne hle hfind₁
  refine ⟨n, ix₁.attach q e n, ?_, hblank.key, hatt, ?_, hpub, hblank.block, fun p hp => ⟨?_, ?_⟩,
    ?_⟩
  · rw [Index.insertChild, htake]
  · intro p k hk hroot hleaf hb
    by_contra hpn
    rw [Function.update_of_ne hpn] at hk
    by_cases hpq : p = q
    · subst hpq
      have := hleaf e
      rw [show (ix₁.attach p e n).children p = (ix₁.children p).emplace e n from
        Function.update_self _ _ _, OrdMap.emplace_eq_insert n hfind₁, OrdMap.find?_insert,
        if_pos rfl] at this
      cases this
    · refine hempty p k hk hroot (fun x => ?_) ?_
      · have := hleaf x
        rwa [show (ix₁.attach q e n).children p = ix₁.children p from
          Function.update_of_ne hpq _ _, (hsame p (hsome hk)).2] at this
      · rw [← (hsame p (hsome hk)).1]
        exact hb
  · exact (hsame p hp).1
  · rw [← hdep]
    exact Function.update_of_ne (hlive p hp) _ _
  · show (update ix₁.children q ((ix₁.children q).emplace e n) q).find? e = some n
    rw [Function.update_self, OrdMap.emplace_eq_insert n hfind₁, OrdMap.find?_insert, if_pos rfl]

/-! ## Taking a lease -/

/-- The lookup entry of an unleased node goes in first: the node is pending. -/
theorem Rep.insertAvailable (h : Rep blockTokens ix keys P none) {n q : Ptr} {kq : List TokenId}
    (hq : keys q = some kq) (hfind : (ix.children q).find? (ix.edge n) = some n)
    (hblock : ix.block n = none) :
    Rep blockTokens (ix.insertAvailable q n) keys P (some n) := by
  have hc := h.tree.down q kq _ n hq hfind
  have hnone : (ix.available q).find? (ix.edge n) = none := by
    rw [h.avail q kq hq, hfind, Option.filter_some, hblock]
    rfl
  refine { tree := h.tree.frame rfl rfl rfl rfl rfl, avail := ?_, lru := h.lru,
           leased := h.leased, cached := h.cached, leases := h.leases,
           publication := h.publication, spare := ?_, root_block := h.root_block,
           pending_live := ?_ }
  · intro r kr hr x
    show (update ix.available q ((ix.available q).emplace (ix.edge n) n) r).find? x =
      ((ix.children r).find? x).filter fun p => (ix.block p).isSome || some p == some n
    rw [OrdMap.emplace_eq_insert n hnone]
    by_cases hn : (ix.children r).find? x = some n
    · have hcr := h.tree.down r kr x n hr hn
      obtain rfl : q = r := Option.some.inj (hc.parent.symm.trans hcr.parent)
      obtain rfl := hcr.edge
      rw [Function.update_self, OrdMap.find?_insert, if_pos rfl, hn, Option.filter_some]
      simp
    · have hsame : ((ix.children r).find? x).filter
            (fun p => (ix.block p).isSome || some p == some n) =
          ((ix.children r).find? x).filter fun p => (ix.block p).isSome || some p == none := by
        cases hfx : (ix.children r).find? x with
        | none => rfl
        | some p =>
          have hpn : p ≠ n := by
            rintro rfl
            exact hn hfx
          simp [Option.filter_some, hpn]
      rw [hsame, ← h.avail r kr hr x, Function.update_apply]
      split
      · next heq =>
        subst heq
        refine OrdMap.find?_insert_ne _ _ ?_
        rintro rfl
        exact hn hfind
      · rfl
  · intro e p hp
    obtain ⟨h1, h2, h3, h4, h5, h6⟩ := h.spare e p hp
    have hpq : p ≠ q := by
      rintro rfl
      rw [h1] at hq
      cases hq
    exact ⟨h1, h2, h3, h4, (Function.update_of_ne hpq _ _).trans h5, h6⟩
  · intro p hp
    obtain rfl := Option.some.inj hp
    exact ⟨by rw [hc.key]; rfl, hblock⟩

/-- Undoing it, when the page cannot be retained. -/
theorem Rep.extractAvailable (h : Rep blockTokens ix keys P (some n)) {q : Ptr}
    {kq : List TokenId} (hq : keys q = some kq)
    (hfind : (ix.children q).find? (ix.edge n) = some n) :
    Rep blockTokens (ix.extractAvailable n q) keys P none := by
  have hc := h.tree.down q kq _ n hq hfind
  have hblock := (h.pending_live n rfl).2
  refine { tree := h.tree.frame rfl rfl rfl rfl rfl, avail := ?_, lru := h.lru,
           leased := h.leased, cached := h.cached, leases := h.leases,
           publication := h.publication, spare := ?_, root_block := h.root_block,
           pending_live := fun p hp => absurd hp (by simp) }
  · intro r kr hr x
    show (update ix.available q ((ix.available q).erase (ix.edge n)) r).find? x =
      ((ix.children r).find? x).filter fun p => (ix.block p).isSome || some p == none
    by_cases hn : (ix.children r).find? x = some n
    · have hcr := h.tree.down r kr x n hr hn
      obtain rfl : q = r := Option.some.inj (hc.parent.symm.trans hcr.parent)
      obtain rfl := hcr.edge
      rw [Function.update_self, OrdMap.find?_erase, if_pos rfl, hn, Option.filter_some, hblock]
      rfl
    · have hsame : ((ix.children r).find? x).filter
            (fun p => (ix.block p).isSome || some p == none) =
          ((ix.children r).find? x).filter fun p => (ix.block p).isSome || some p == some n := by
        cases hfx : (ix.children r).find? x with
        | none => rfl
        | some p =>
          have hpn : p ≠ n := by
            rintro rfl
            exact hn hfx
          simp [Option.filter_some, hpn]
      rw [hsame, ← h.avail r kr hr x, Function.update_apply]
      split
      · next heq =>
        subst heq
        refine OrdMap.find?_erase_ne _ ?_
        rintro rfl
        exact hn hfind
      · rfl
  · intro e p hp
    obtain ⟨h1, h2, h3, h4, h5, h6⟩ := h.spare e p hp
    have hpq : p ≠ q := by
      rintro rfl
      rw [h1] at hq
      cases hq
    exact ⟨h1, h2, h3, h4, (Function.update_of_ne hpq _ _).trans h5, h6⟩

/-- The pending node takes its lease and becomes the most recently used. -/
theorem Rep.grantLease (h : Rep blockTokens ix keys P (some n)) (hroot : n ≠ root) (page : Nat) :
    Rep blockTokens (ix.grantLease n page) keys (P ++ [n]) none := by
  obtain ⟨hkey, hblock⟩ := h.pending_live n rfl
  have hnP : n ∉ P := fun hin => by
    obtain ⟨k, b, -, hb⟩ := h.of_mem hin
    rw [hblock] at hb
    cases hb
  have hsame : ∀ p, p ≠ n → update ix.block n (some page) p = ix.block p := fun p hp =>
    Function.update_of_ne hp _ _
  have hself : update ix.block n (some page) n = some page := Function.update_self _ _ _
  refine { tree := h.tree.frame rfl rfl rfl rfl rfl, avail := ?_, lru := h.lru.append hnP,
           leased := ?_, cached := ?_, leases := ?_, publication := h.publication, spare := ?_,
           root_block := (hsame root (Ne.symm hroot)).trans h.root_block,
           pending_live := fun p hp => absurd hp (by simp) }
  -- the pages below a node now include the leased one
  · intro q kq hq e
    show (ix.available q).find? e = ((ix.children q).find? e).filter
      fun p => (update ix.block n (some page) p).isSome || some p == none
    rw [h.avail q kq hq e]
    congr 1
    funext p
    by_cases hpn : p = n
    · subst hpn
      rw [hself]
      simp
    · rw [hsame p hpn]
      simp [hpn]
  · intro p
    show _ ↔ _ ∧ (update ix.block n (some page) p).isSome
    rw [List.mem_append, List.mem_singleton, h.leased p]
    by_cases hpn : p = n
    · subst hpn
      rw [hself]
      simp [hkey]
    · rw [hsame p hpn]
      simp [hpn]
  -- the counts of pages and of leases
  · show ix.cached + 1 = _
    rw [h.cached]
    simp
  · intro b
    show update ix.leases page (ix.leases page + 1) b =
      ((P ++ [n]).filterMap (update ix.block n (some page))).count b
    rw [List.filterMap_append, List.filterMap_cons_some hself, List.filterMap_nil,
      List.count_append, KvBlockPool.count_one,
      List.filterMap_congr (g := ix.block) fun p hp => hsame p (by rintro rfl; exact hnP hp),
      ← h.leases b, Function.update_apply]
    split
    · next heq => rw [heq]
    · rfl
  -- the spare node is not the one that got the page
  · intro e p hp
    obtain ⟨h1, h2, h3, h4, h5, h6⟩ := h.spare e p hp
    have hpn : p ≠ n := by
      rintro rfl
      rw [h1] at hkey
      cases hkey
    exact ⟨h1, h2, h3, h4, h5, (hsame p hpn).trans h6⟩

/-- With its lease the node is no empty leaf any more. -/
theorem NoEmptyLeaf.grantLease (h : NoEmptyLeaf ix keys fun p => some p = some n) (page : Nat) :
    NoEmptyLeaf (ix.grantLease n page) keys fun _ => False := by
  intro p k hk hne hleaf hb
  have hpn : p ≠ n := by
    rintro rfl
    rw [show (ix.grantLease p page).block p = some page from Function.update_self _ _ _] at hb
    cases hb
  rw [show (ix.grantLease n page).block p = ix.block p from Function.update_of_ne hpn _ _] at hb
  exact hpn (Option.some.inj (h p k hk hne hleaf hb))

/-- Leasing a node adds its entry at the end. -/
theorem entriesOf_grantLease (hnP : n ∉ P) (page : Nat) {kn : List TokenId}
    (hn : keys n = some kn) :
    entriesOf (ix.grantLease n page) keys (P ++ [n]) = entriesOf ix keys P ++ [(kn, page)] := by
  have hsame : ∀ p ∈ P, (ix.grantLease n page).block p = ix.block p := fun p hp =>
    Function.update_of_ne (by rintro rfl; exact hnP hp) _ _
  have hself : (ix.grantLease n page).block n = some page := Function.update_self _ _ _
  rw [entriesOf, List.map_append, List.map_singleton, hn, hself]
  congr 1
  exact entriesOf_congr fun p hp => ⟨rfl, hsame p hp⟩

end Index

end TinyInfer.MiniPrefix
