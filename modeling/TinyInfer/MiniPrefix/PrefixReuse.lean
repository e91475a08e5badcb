import TinyInfer.MiniPrefix.PrefixPublish
import Mathlib.Data.Finset.Card
import Mathlib.Data.Finset.Range

/-!
# Reuse and clearing on the trie

`reuse` asks the two lexicographic neighbours of a query in the lookup map of one
node; `Rep.bestNeighbour` shows that this finds the entry `bestMatch` picks among
all. `clear` walks the trie in lexicographic order while it prunes it;
`Rep.successor` and `Rep.clearLoop` show that it gives the leases back in the
order of the histories.
-/

namespace TinyInfer.MiniPrefix

open Lib
open Function (update)

namespace Index

variable {blockTokens : Nat} {ix : Index} {keys : Keys} {P : List Ptr}

/-! ## Best matches -/

/-- The lookup map of a node lists the entries one page below its history. -/
theorem Rep.mem_below (h : Rep blockTokens ix keys P none) {q : Ptr} {kq : List TokenId}
    (hq : keys q = some kq) (hfull : kq.length = blockTokens * ix.depth q) {e : List TokenId}
    {b : Nat} :
    (e, b) ∈ FlatCache.below blockTokens kq (entriesOf ix keys P) ↔
      ∃ p, (ix.available q).find? e = some p ∧ ix.block p = some b := by
  rw [FlatCache.mem_below, h.mem_entries]
  constructor
  · rintro ⟨⟨p, hp, hb⟩, hne, hle⟩
    refine ⟨p, ?_, hb⟩
    rw [h.avail q kq hq, h.tree.child_of_key hq hfull hp hne hle, Option.filter_some, hb]
    rfl
  · rintro ⟨p, hp, hb⟩
    rw [h.avail q kq hq, Option.filter_eq_some_iff] at hp
    have hc := h.tree.down q kq e p hq hp.1
    exact ⟨⟨p, hc.key, hb⟩, hc.edge_ne, hc.edge_le⟩

theorem Rep.of_available (h : Rep blockTokens ix keys P none) {q p : Ptr} {kq e : List TokenId}
    (hq : keys q = some kq) (hfind : (ix.available q).find? e = some p) :
    ChildOf blockTokens ix keys q kq e p ∧ ∃ b, ix.block p = some b := by
  rw [h.avail q kq hq, Option.filter_eq_some_iff] at hfind
  refine ⟨h.tree.down q kq e p hq hfind.1, Option.isSome_iff_exists.mp ?_⟩
  simpa using hfind.2

/-- A child that matches and is preferred to its siblings is the best match. -/
theorem Rep.bestMatch_of_outranks (h : Rep blockTokens ix keys P none) {q p : Ptr}
    {kq e query : List TokenId} (hq : keys q = some kq)
    (hfull : kq.length = blockTokens * ix.depth q) (hfind : (ix.available q).find? e = some p)
    (hpos : 0 < commonPrefix e query)
    (hbest : ∀ k w, (ix.available q).find? k = some w → k ≠ e → outranks query e k) :
    ∃ b, ix.block p = some b ∧
      FlatCache.bestMatch blockTokens kq query (entriesOf ix keys P) = some (e, b) := by
  obtain ⟨-, b, hb⟩ := h.of_available hq hfind
  refine ⟨b, hb, FlatCache.bestMatch_eq_some h.entries_keys_nodup
    ((h.mem_below hq hfull).mpr ⟨p, hfind, hb⟩) hpos fun e' b' hmem hne => ?_⟩
  obtain ⟨w, hw, -⟩ := (h.mem_below hq hfull).mp hmem
  exact hbest e' w hw hne

theorem consider_none (ix : Index) (query : List TokenId) (best : Option Ptr × Nat) :
    ix.consider query best none = best := rfl

theorem consider_eq (ix : Index) (query : List TokenId) (best : Option Ptr × Nat)
    {e : List TokenId} {p : Ptr} (hedge : ix.edge p = e) :
    ix.consider query best (some (e, p)) =
      if commonPrefix e query > best.2 then (some p, commonPrefix e query) else best := by
  rw [consider, hedge]

/-- The two neighbours of a query decide its best match. -/
theorem Rep.bestNeighbour (h : Rep blockTokens ix keys P none) {q : Ptr} {kq : List TokenId}
    (hq : keys q = some kq) (hfull : kq.length = blockTokens * ix.depth q)
    (query : List TokenId) :
    (ix.bestNeighbour q query = (none, 0) ∧
        FlatCache.bestMatch blockTokens kq query (entriesOf ix keys P) = none) ∨
      ∃ n e b, ix.bestNeighbour q query = (some n, commonPrefix e query) ∧
        ChildOf blockTokens ix keys q kq e n ∧ ix.block n = some b ∧
        FlatCache.bestMatch blockTokens kq query (entriesOf ix keys P) = some (e, b) := by
  have hedge : ∀ {e p}, (ix.available q).find? e = some p → ix.edge p = e := fun hf =>
    (h.of_available hq hf).1.edge
  -- how a neighbour that outranks all others ends the search
  have hwin : ∀ {e p}, (ix.available q).find? e = some p → 0 < commonPrefix e query →
      (∀ k w, (ix.available q).find? k = some w → k ≠ e → outranks query e k) →
      ix.bestNeighbour q query = (some p, commonPrefix e query) →
      ∃ n e b, ix.bestNeighbour q query = (some n, commonPrefix e query) ∧
        ChildOf blockTokens ix keys q kq e n ∧ ix.block n = some b ∧
        FlatCache.bestMatch blockTokens kq query (entriesOf ix keys P) = some (e, b) := by
    intro e p hfind hpos hbest hres
    obtain ⟨b, hb, hmatch⟩ := h.bestMatch_of_outranks hq hfull hfind hpos hbest
    exact ⟨p, e, b, hres, (h.of_available hq hfind).1, hb, hmatch⟩
  -- no common token with any neighbour means no match
  have hnone : (∀ k w, (ix.available q).find? k = some w → commonPrefix k query = 0) →
      FlatCache.bestMatch blockTokens kq query (entriesOf ix keys P) = none := by
    refine fun hzero => FlatCache.bestMatch_eq_none fun e b hmem => ?_
    obtain ⟨w, hw, -⟩ := (h.mem_below hq hfull).mp hmem
    exact hzero e w hw
  rw [Index.bestNeighbour] at hwin ⊢
  -- the candidates are the two entries around the query
  cases hlb : (ix.available q).lowerBound query with
  | none =>
    rw [hlb] at hwin
    cases hpv : (ix.available q).prev query with
    | none =>
      exact Or.inl ⟨rfl, hnone (commonPrefix_eq_zero_of_neighbours
        (by simp [hlb]) (by simp [hpv]))⟩
    -- only the entry before it
    | some r =>
      obtain ⟨e, p⟩ := r
      have hfind := (OrdMap.prev_eq_some hpv).1
      rw [hpv] at hwin
      rw [consider_none, consider_eq ix query _ (hedge hfind)] at hwin ⊢
      by_cases hpos : commonPrefix e query > 0
      · rw [if_pos hpos] at hwin ⊢
        exact Or.inr (hwin hfind hpos (prev_outranks hpv (by simp [hlb])) rfl)
      · rw [if_neg hpos]
        exact Or.inl ⟨rfl, hnone (commonPrefix_eq_zero_of_neighbours (by simp [hlb])
          (by simp only [hpv]; rintro _ _ ⟨⟩; omega))⟩
  | some l =>
    obtain ⟨e, p⟩ := l
    have hfind := (OrdMap.lowerBound_eq_some hlb).1
    rw [hlb] at hwin
    rw [consider_eq ix query _ (hedge hfind)] at hwin ⊢
    cases hpv : (ix.available q).prev query with
    -- only the entry at or after it
    | none =>
      rw [hpv] at hwin
      rw [consider_none] at hwin ⊢
      by_cases hpos : commonPrefix e query > 0
      · rw [if_pos hpos] at hwin ⊢
        exact Or.inr (hwin hfind hpos (lowerBound_outranks hlb (by simp [hpv])) rfl)
      · rw [if_neg hpos]
        exact Or.inl ⟨rfl, hnone (commonPrefix_eq_zero_of_neighbours
          (by simp only [hlb]; rintro _ _ ⟨⟩; omega) (by simp [hpv]))⟩
    | some r =>
      obtain ⟨e', p'⟩ := r
      have hfind' := (OrdMap.prev_eq_some hpv).1
      rw [hpv] at hwin
      rw [consider_eq ix query _ (hedge hfind')] at hwin ⊢
      by_cases hpos : commonPrefix e query > 0
      · rw [if_pos hpos] at hwin ⊢
        -- both: the one before wins only with strictly more common tokens
        by_cases hgt : commonPrefix e' query > commonPrefix e query
        · rw [if_pos hgt] at hwin ⊢
          exact Or.inr (hwin hfind' (by omega)
            (prev_outranks hpv (by simp only [hlb]; rintro _ _ ⟨⟩; exact hgt)) rfl)
        · rw [if_neg hgt] at hwin ⊢
          exact Or.inr (hwin hfind hpos
            (lowerBound_outranks hlb (by simp only [hpv]; rintro _ _ ⟨⟩; omega)) rfl)
      · rw [if_neg hpos] at hwin ⊢
        by_cases hgt : commonPrefix e' query > 0
        · rw [if_pos hgt] at hwin ⊢
          exact Or.inr (hwin hfind' hgt
            (prev_outranks hpv (by simp only [hlb]; rintro _ _ ⟨⟩; omega)) rfl)
        · rw [if_neg hgt]
          exact Or.inl ⟨rfl, hnone (commonPrefix_eq_zero_of_neighbours
            (by simp only [hlb]; rintro _ _ ⟨⟩; omega)
            (by simp only [hpv]; rintro _ _ ⟨⟩; omega))⟩

/-! ## The walk of `reuse` -/

/-- A full match of a page is the page itself. -/
theorem edge_eq_query {e query : List TokenId} (hle : e.length ≤ blockTokens)
    (hmatch : commonPrefix e query = blockTokens) : e = query.take blockTokens := by
  have hlen : e.length = blockTokens :=
    Nat.le_antisymm hle (hmatch ▸ commonPrefix_le_length_left e query)
  have htake := take_commonPrefix e query
  rw [hmatch, ← hlen, List.take_length] at htake
  rw [← hlen]
  exact htake

theorem Rep.reuseLoop {limit : Nat} {prompt : List TokenId} (hlimit : limit ≤ prompt.length)
    (fuel : Nat) {ix : Index} {P : List Ptr} (h : Rep blockTokens ix keys P none)
    (hempty : NoEmptyLeaf ix keys fun _ => False) {q : Ptr} {count : Nat}
    (hq : keys q = some (prompt.take count)) (hcount : count = blockTokens * ix.depth q)
    (hle : count ≤ limit) (pages : List Nat) :
    ∃ ix' P' total found, Index.reuseLoop blockTokens limit prompt fuel ix q count pages =
        (ix', total, found) ∧ Rep blockTokens ix' keys P' none ∧
      NoEmptyLeaf ix' keys (fun _ => False) ∧
      FlatCache.walk blockTokens limit prompt fuel (entriesOf ix keys P) count pages =
        (entriesOf ix' keys P', total, found) := by
  induction fuel generalizing ix P q count pages with
  | zero => exact ⟨ix, P, count, pages, rfl, h, hempty, rfl⟩
  | succ fuel ih =>
    rw [Index.reuseLoop, FlatCache.walk]
    by_cases hlt : count < limit
    · have hfull : (prompt.take count).length = blockTokens * ix.depth q := by
        rw [List.length_take, Nat.min_eq_left (by omega), hcount]
      simp only [if_pos hlt]
      rcases h.bestNeighbour hq hfull ((prompt.drop count).take (min blockTokens (limit - count)))
        with ⟨hbest, hmatch⟩ | ⟨n, e, b, hbest, hc, hb, hmatch⟩
      · rw [hbest, hmatch]
        exact ⟨ix, P, count, pages, rfl, h, hempty, rfl⟩
      · rw [hbest, hmatch]
        simp only [hb, Option.toList_some]
        obtain ⟨P', htouch, hents⟩ := h.touch (h.mem_of_block hc.key hb)
        rw [hc.key, Option.getD_some] at hents
        rw [← hents]
        have hempty' : NoEmptyLeaf (ix.touch n) keys fun _ => False := hempty
        by_cases hstop : commonPrefix e
            ((prompt.drop count).take (min blockTokens (limit - count))) ≠ blockTokens
        · simp only [if_pos hstop]
          exact ⟨_, P', _, _, rfl, htouch, hempty', rfl⟩
        · simp only [if_neg hstop]
          have hfullmatch := not_not.mp hstop
          have hlen : blockTokens ≤ min blockTokens (limit - count) := by
            have hle' := commonPrefix_le_length_right e
              ((prompt.drop count).take (min blockTokens (limit - count)))
            rw [hfullmatch, List.length_take] at hle'
            omega
          have he := edge_eq_query hc.edge_le hfullmatch
          rw [List.take_take, Nat.min_eq_left hlen] at he
          refine ih htouch hempty' (q := n) ?_ ?_ ?_ _
          · rw [hfullmatch, hc.key, he, ← List.take_add]
          · rw [hfullmatch, show (ix.touch n).depth n = ix.depth n from rfl, hc.depth,
              Nat.mul_succ, hcount]
          · omega
    · simp only [if_neg hlt]
      exact ⟨ix, P, count, pages, rfl, h, hempty, rfl⟩

end Index

/-- `reuse` on the trie is `reuse` on the flat cache. -/
theorem Represents.reuse {cache : ExactPrefixCache} {flat : FlatCache} {pool : KvBlockPool}
    (h : Represents pool.config.blockTokens cache flat) (sequence : PagedSequence)
    (prompt : List TokenId) :
    ∃ outcome sequence' cache' flat' pool',
      cache.reuse pool sequence prompt = (outcome, sequence', cache', pool') ∧
      flat.reuse pool sequence prompt = (outcome, sequence', flat', pool') ∧
      Represents pool.config.blockTokens cache' flat' := by
  rw [ExactPrefixCache.reuse, FlatCache.reuse]
  by_cases hbusy : sequence.used ≠ 0 ∨ sequence.blocks ≠ [] ∨ sequence.tokens ≠ []
  · rw [if_pos hbusy, if_pos hbusy]
    exact ⟨_, sequence, cache, flat, pool, rfl, rfl, h⟩
  rw [if_neg hbusy, if_neg hbusy]
  by_cases hoff : pool.config.prefixCacheBlocks = 0
  · rw [if_pos hoff, if_pos hoff]
    exact ⟨_, sequence, cache, flat, pool, rfl, rfl, h⟩
  rw [if_neg hoff, if_neg hoff]
  obtain ⟨keys, P, hmir⟩ := h
  obtain ⟨ix', P', total, found, hloop, hrep, hempty, hwalk⟩ :=
    hmir.rep.reuseLoop (Nat.sub_le prompt.length 1) (prompt.length - 1) hmir.noEmptyLeaf
      (show keys root = some (prompt.take 0) from hmir.rep.tree.root_key)
      (by rw [hmir.rep.tree.root_depth, Nat.mul_zero]) (Nat.zero_le _) []
  rw [← hmir.entries] at hwalk
  simp only [hloop, hwalk]
  cases hret : pool.retainAll found with
  | mk outcome pool' =>
  cases outcome with
  | error err =>
    exact ⟨_, _, _, _, _, rfl, rfl, keys, P',
      { rep := hrep, noEmptyLeaf := hempty, entries := rfl, hits := hmir.hits,
        misses := hmir.misses, reused := hmir.reused, evictions := hmir.evictions }⟩
  | ok _ =>
    refine ⟨_, _, _, _, _, rfl, rfl, keys, P', ?_⟩
    by_cases htotal : total ≠ 0
    · simp only [if_pos htotal]
      exact { rep := hrep, noEmptyLeaf := hempty, entries := rfl, hits := by rw [hmir.hits],
              misses := hmir.misses, reused := by rw [hmir.reused], evictions := hmir.evictions }
    · simp only [if_neg htotal]
      exact { rep := hrep, noEmptyLeaf := hempty, entries := rfl, hits := hmir.hits,
              misses := by rw [hmir.misses], reused := hmir.reused, evictions := hmir.evictions }

/-! ## The traversal of `clear` -/

namespace Index

variable {blockTokens : Nat} {ix : Index} {keys : Keys} {P : List Ptr}

open Index.Tree

/-- Every child of `q` from the edge `e` on comes at or after the child under `e`. -/
theorem Tree.le_of_edge_le (h : Tree blockTokens ix keys) {q c c' p : Ptr}
    {kq e e' k : List TokenId} (hq : keys q = some kq) (hc : (ix.children q).find? e = some c)
    (hc' : (ix.children q).find? e' = some c') (hle : e ≤ e') (hb : Below ix c' p)
    (hp : keys p = some k) : kq ++ e ≤ k := by
  have hkey := (h.down q kq e c hq hc).key
  rcases eq_or_lt_of_le hle with rfl | hlt
  · obtain rfl : c = c' := Option.some.inj (hc.symm.trans hc')
    obtain ⟨s, hs, -⟩ := h.key_of_below hkey hb
    obtain rfl := Option.some.inj (hp.symm.trans hs)
    exact le_append_self _ s
  · exact (h.lt_of_sibling hq hc hc' hlt .refl hb hkey hp).le

/-- A history beyond `q` that does not start with the one of `q` is beyond its subtree. -/
theorem append_le_of_not_prefix {kq e k : List TokenId} (hlt : kq < k) (hnp : ¬ kq <+: k) :
    kq ++ e ≤ k := by
  have := append_lt_append_of_not_prefix (s := e) (t := []) hlt hnp
  rw [List.append_nil] at this
  exact this.le

/-- What a search for the next node in lexicographic order finds. -/
structure Next (keys : Keys) (kn : List TokenId) (next : Option Ptr) : Prop where
  found : ∀ s, next = some s → ∃ ks, keys s = some ks ∧ kn < ks ∧
    ∀ p k, keys p = some k → kn < k → ks ≤ k
  last : next = none → ∀ p k, keys p = some k → k ≤ kn

theorem Next.of_some {s : Ptr} {kn ks : List TokenId} (hs : keys s = some ks) (hlt : kn < ks)
    (hmin : ∀ p k, keys p = some k → kn < k → ks ≤ k) : Next keys kn (some s) where
  found := fun s' heq => by
    obtain rfl := Option.some.inj heq
    exact ⟨ks, hs, hlt, hmin⟩
  last := fun heq => by cases heq

theorem Next.of_none {kn : List TokenId} (h : ∀ p k, keys p = some k → k ≤ kn) :
    Next keys kn none where
  found := fun s heq => by cases heq
  last := fun _ => h

/-- Going up, the first later sibling is the successor. -/
theorem Tree.successorUp (h : Tree blockTokens ix keys) {n : Ptr} {kn : List TokenId}
    (hn : keys n = some kn) (fuel : Nat) {m : Ptr} {km : List TokenId} (hm : keys m = some km)
    (hb : Below ix m n) (hfuel : ix.depth m ≤ fuel)
    (hmax : ∀ p k, keys p = some k → Below ix m p → k ≤ kn) :
    Next keys kn (Index.successorUp fuel ix m) := by
  -- everything is below the root
  have hatroot : ∀ {m : Ptr}, (∀ p k, keys p = some k → Below ix m p → k ≤ kn) → m = root →
      ∀ p k, keys p = some k → k ≤ kn := by
    rintro m hmax rfl p k hp
    refine hmax p k hp (h.below_of_prefix (s := k) h.root_key ?_ hp)
    rw [h.root_depth]
    rfl
  induction fuel generalizing m km with
  -- the root: there is no larger key
  | zero =>
    have hroot : m = root := by
      by_contra hne
      exact absurd (h.depth_pos hm hne) (by omega)
    exact Next.of_none (hatroot hmax hroot)
  | succ fuel ih =>
    by_cases hroot : m = root
    · rw [Index.successorUp, if_pos hroot]
      exact Next.of_none (hatroot hmax hroot)
    -- a sibling of `m`, or the parent's own successor
    · obtain ⟨q, kq, hq, hkm, hfind, hc⟩ := h.parent_of hm hroot
      have hkqn : kq ≤ kn := by
        obtain ⟨s, hs, -⟩ := h.key_of_below hm hb
        obtain rfl := Option.some.inj (hn.symm.trans hs)
        rw [hkm, List.append_assoc]
        exact le_append_self kq _
      -- below the parent, everything up to the subtree of `m` is at most `kn`
      have hupto : ∀ e c p k, (ix.children q).find? e = some c → e ≤ ix.edge m →
          Below ix c p → keys p = some k → k ≤ kn := by
        intro e c p k hec hle hcp hp
        rcases eq_or_lt_of_le hle with heq | hlt
        · rw [heq, hfind] at hec
          exact hmax p k hp (Option.some.inj hec ▸ hcp)
        · exact (h.lt_of_sibling hq hec hfind hlt hcp hb hp hn).le
      rw [Index.successorUp, if_neg hroot, hc.parent]
      cases hub : (ix.children q).upperBound (ix.edge m) with
      -- the next sibling is the least key above
      | some r =>
        obtain ⟨e, c⟩ := r
        obtain ⟨hec, hlt, hmin⟩ := OrdMap.upperBound_eq_some hub
        have hkey := (h.down q kq e c hq hec).key
        simp only [hub]
        refine Next.of_some hkey (h.lt_of_sibling hq hfind hec hlt hb .refl hn hkey)
          fun p k hp hlt' => ?_
        by_cases hpre : kq <+: k
        · obtain ⟨t, rfl⟩ := hpre
          rcases (h.below_of_prefix hq hc.full hp).cases_head with heq | ⟨c', ⟨e', hec'⟩, hcp⟩
          · rw [← heq] at hp
            rw [← Option.some.inj (hq.symm.trans hp)] at hlt'
            exact absurd hkqn hlt'.not_ge
          · rcases le_or_gt e' (ix.edge m) with hle | hgt
            · exact absurd (hupto e' c' p _ hec' hle hcp hp) hlt'.not_ge
            · exact h.le_of_edge_le hq hec hec' (hmin e' c' hec' hgt) hcp hp
        · exact append_le_of_not_prefix (lt_of_le_of_lt hkqn hlt') hpre
      -- no sibling follows: one level up
      | none =>
        simp only [hub]
        refine ih hq (hb.head ⟨_, hfind⟩) (by have := hc.depth; omega) ?_
        intro p k hp hqp
        rcases hqp.cases_head with rfl | ⟨c, ⟨e, hec⟩, hcp⟩
        · rw [← Option.some.inj (hq.symm.trans hp)]
          exact hkqn
        · exact hupto e c p k hec (OrdMap.upperBound_eq_none hub e c hec) hcp hp

/-- The traversal order is the lexicographic order of the histories. -/
theorem Tree.successor (h : Tree blockTokens ix keys) {n : Ptr} {kn : List TokenId}
    (hn : keys n = some kn) : Next keys kn (ix.successor n) := by
  rw [Index.successor]
  cases hf : (ix.children n).first with
  | some r =>
    obtain ⟨e, c⟩ := r
    obtain ⟨hec, hmin⟩ := OrdMap.first_eq_some hf
    have hc := h.down n kn e c hn hec
    refine Next.of_some hc.key ?_ fun p k hp hlt => ?_
    · exact lt_of_le_of_ne (le_append_self kn e) fun heq => hc.edge_ne (by simpa using heq.symm)
    · by_cases hpre : kn <+: k
      · obtain ⟨t, rfl⟩ := hpre
        rcases (h.below_of_prefix hn hc.full hp).cases_head with heq | ⟨c', ⟨e', hec'⟩, hcp⟩
        · rw [← heq] at hp
          exact absurd (Option.some.inj (hn.symm.trans hp)) hlt.ne
        · exact h.le_of_edge_le hn hec hec' (hmin e' c' hec') hcp hp
      · exact append_le_of_not_prefix hlt hpre
  | none =>
    refine h.successorUp hn _ hn .refl le_rfl fun p k hp hb => ?_
    rcases hb.cases_head with rfl | ⟨c, ⟨e, hec⟩, -⟩
    · exact (Option.some.inj (hn.symm.trans hp)).ge
    · rw [OrdMap.first_eq_none hf] at hec
      cases hec

/-- `clear` starts at the successor of the root. -/
theorem Tree.first_eq_successor (h : Tree blockTokens ix keys) :
    (ix.children root).first.map Prod.snd = ix.successor root := by
  rw [Index.successor, h.root_depth, Index.successorUp]
  cases (ix.children root).first <;> rfl

/-- The nodes `clear` still has to visit when it stands at history `kn`. -/
def ahead (ix : Index) (keys : Keys) (kn : List TokenId) : Finset Ptr :=
  (Finset.range ix.fresh).filter fun p => (keys p).any fun k => kn ≤ k

theorem mem_ahead (h : Tree blockTokens ix keys) {kn : List TokenId} {p : Ptr} :
    p ∈ ahead ix keys kn ↔ ∃ k, keys p = some k ∧ kn ≤ k := by
  rw [ahead, Finset.mem_filter, Finset.mem_range, Option.any_eq_true]
  constructor
  · rintro ⟨-, k, hk, hle⟩
    exact ⟨k, hk, of_decide_eq_true hle⟩
  · rintro ⟨k, hk, hle⟩
    exact ⟨h.bounded p k hk, k, hk, decide_eq_true hle⟩

/-- One visit of `clear`: a leased node is dropped, and the next node stays. -/
theorem Rep.visit (h : Rep blockTokens ix keys P none)
    (hempty : NoEmptyLeaf ix keys fun _ => False) {n : Ptr} {kn : List TokenId}
    (hn : keys n = some kn) (hmin : ∀ e ∈ entriesOf ix keys P, kn ≤ e.1) (pool : KvBlockPool) :
    ∃ ix' keys' P' gone,
      (if (ix.block n).isSome then ix.dropNode pool n else (ix, pool)) =
        (ix', pool.unrefAll gone) ∧
      Rep blockTokens ix' keys' P' none ∧ NoEmptyLeaf ix' keys' (fun _ => False) ∧
      ix'.fresh = ix.fresh ∧ (∀ p k, keys' p = some k → keys p = some k) ∧
      (∀ p k, keys p = some k → kn < k → keys' p = some k) ∧
      (∀ e ∈ entriesOf ix' keys' P', kn < e.1) ∧
      (FlatCache.inKeyOrder (entriesOf ix keys P)).map Prod.snd =
        gone ++ (FlatCache.inKeyOrder (entriesOf ix' keys' P')).map Prod.snd := by
  have hle_of_prefix : ∀ {k : List TokenId}, k <+: kn → ¬ kn < k := by
    rintro k ⟨t, rfl⟩ hlt
    exact absurd (le_append_self k t) hlt.not_ge
  cases hblock : ix.block n with
  -- the node holds no page
  | none =>
    refine ⟨ix, keys, P, [], rfl, h, hempty, rfl, fun _ _ hk => hk, fun _ _ hk _ => hk, ?_, rfl⟩
    intro e he
    refine lt_of_le_of_ne (hmin e he) ?_
    rintro rfl
    obtain ⟨p, hp, hb⟩ := h.mem_entries.mp he
    rw [h.tree.inj hp hn, hblock] at hb
    cases hb
  -- the node is dropped with its page, the least in key order
  | some b =>
    obtain ⟨A, B, rfl⟩ := List.append_of_mem (h.mem_of_block hn hblock)
    obtain ⟨ix', keys', heq, hrep, hem, hshr, hblk, hkeep⟩ :=
      h.dropNode hn (hempty.mono fun _ hp => hp.elim) pool
    have hnAB : n ∉ A ++ B := fun hin => by
      obtain ⟨k, b', hk, hb⟩ := hrep.of_mem hin
      have hnd := h.lru.nodup
      rw [List.nodup_append, List.nodup_cons] at hnd
      rcases List.mem_append.mp hin with hA | hB
      · exact hnd.2.2 n hA n List.mem_cons_self rfl
      · exact hnd.2.1.1 hB
    have hents : entriesOf ix' keys' (A ++ B) = entriesOf ix keys (A ++ B) :=
      entriesOf_congr fun p hp => ⟨hshr.keys_eq ((hrep.leased p).mp hp).1,
        hblk p (by rintro rfl; exact hnAB hp)⟩
    have hsplit : entriesOf ix keys (A ++ n :: B) =
        entriesOf ix keys A ++ (kn, b) :: entriesOf ix keys B := by
      simp [entriesOf, hn, hblock]
    have hperm : (entriesOf ix keys (A ++ n :: B)).Perm
        ((kn, b) :: entriesOf ix' keys' (A ++ B)) := by
      rw [hsplit, hents]
      simp [entriesOf]
    have hnd := h.entries_keys_nodup
    -- the entries that are left are larger, as keys are distinct
    have hlt : ∀ e ∈ entriesOf ix' keys' (A ++ B), kn < e.1 := by
      intro e he
      refine lt_of_le_of_ne (hmin e (hperm.mem_iff.mpr (List.mem_cons_of_mem _ he))) ?_
      have hnd' := ((hperm.map Prod.fst).nodup_iff.mp hnd)
      rw [List.map_cons, List.nodup_cons] at hnd'
      exact fun heq => hnd'.1 (List.mem_map.mpr ⟨e, he, heq.symm⟩)
    refine ⟨ix', keys', A ++ B, [b], ?_, hrep, hem.mono (by simp), hshr.fresh, hshr.sub,
      fun p k hk hlt => hkeep p k hk fun hpre => hle_of_prefix hpre hlt, hlt, ?_⟩
    · rw [hblock, Option.getD_some] at heq
      exact heq
    · rw [FlatCache.inKeyOrder_eq_cons hperm hnd fun x hx => (hlt x hx).le]
      rfl

/-- Nodes may disappear behind the search. -/
theorem Next.mono {keys keys' : Keys} {kn : List TokenId} {next : Option Ptr}
    (h : Next keys kn next) (hsub : ∀ p k, keys' p = some k → keys p = some k)
    (hkeep : ∀ p k, keys p = some k → kn < k → keys' p = some k) : Next keys' kn next where
  found := fun s hs => by
    obtain ⟨ks, hk, hlt, hmin⟩ := h.found s hs
    exact ⟨ks, hkeep s ks hk hlt, hlt, fun p k hp => hmin p k (hsub p k hp)⟩
  last := fun hnone p k hp => h.last hnone p k (hsub p k hp)

/-- The traversal ends with no lease left. -/
theorem Rep.clearLoop_none (h : Rep blockTokens ix keys P none)
    (hempty : NoEmptyLeaf ix keys fun _ => False) {kn : List TokenId}
    (hnext : Next keys kn none) (hmin : ∀ e ∈ entriesOf ix keys P, kn < e.1) (fuel : Nat)
    (pool : KvBlockPool) :
    ∃ ix' keys', Index.clearLoop fuel none ix pool =
        (ix', pool.unrefAll ((FlatCache.inKeyOrder (entriesOf ix keys P)).map Prod.snd)) ∧
      Rep blockTokens ix' keys' [] none ∧ NoEmptyLeaf ix' keys' fun _ => False := by
  have hnil : P = [] := by
    refine List.eq_nil_iff_forall_not_mem.mpr fun p hp => ?_
    obtain ⟨k, b, hk, hb⟩ := h.of_mem hp
    exact absurd (hnext.last rfl p k hk) (hmin (k, b) (h.mem_entries.mpr ⟨p, hk, hb⟩)).not_ge
  subst hnil
  exact ⟨ix, keys, by cases fuel <;> rfl, h, hempty⟩

/-- The traversal gives all leases back in the order of the histories. -/
theorem Rep.clearLoop (fuel : Nat) {ix : Index} {keys : Keys} {P : List Ptr}
    (h : Rep blockTokens ix keys P none) (hempty : NoEmptyLeaf ix keys fun _ => False)
    {kn : List TokenId} {next : Option Ptr} (hnext : Next keys kn next)
    (hmin : ∀ e ∈ entriesOf ix keys P, kn < e.1)
    (hfuel : ∀ s ks, next = some s → keys s = some ks → (ahead ix keys ks).card ≤ fuel)
    (pool : KvBlockPool) :
    ∃ ix' keys', Index.clearLoop fuel next ix pool =
        (ix', pool.unrefAll ((FlatCache.inKeyOrder (entriesOf ix keys P)).map Prod.snd)) ∧
      Rep blockTokens ix' keys' [] none ∧ NoEmptyLeaf ix' keys' fun _ => False := by
  induction fuel generalizing ix keys P kn next pool with
  | zero =>
    cases next with
    | none => exact h.clearLoop_none hempty hnext hmin 0 pool
    | some s =>
      obtain ⟨ks, hs, -, -⟩ := hnext.found s rfl
      have hcard := hfuel s ks rfl hs
      rw [Nat.le_zero, Finset.card_eq_zero] at hcard
      exact absurd ((mem_ahead h.tree).mpr ⟨ks, hs, le_rfl⟩) (by simp [hcard])
  | succ fuel ih =>
    cases next with
    | none => exact h.clearLoop_none hempty hnext hmin (fuel + 1) pool
    | some s =>
      obtain ⟨ks, hs, hlt, hleast⟩ := hnext.found s rfl
      have hmin' : ∀ e ∈ entriesOf ix keys P, ks ≤ e.1 := by
        intro e he
        obtain ⟨p, hp, -⟩ := h.mem_entries.mp he
        exact hleast p e.1 hp (hmin e he)
      have hsucc := h.tree.successor hs
      obtain ⟨ix', keys', P', gone, heq, hrep, hem, hfresh, hsub, hkeep, habove, horder⟩ :=
        h.visit hempty hs hmin' pool
      obtain ⟨ix'', keys'', hloop, hrep', hem'⟩ := ih hrep hem (hsucc.mono hsub hkeep) habove (by
        intro t kt ht hkt
        obtain ⟨kt', hkt', hst, -⟩ := hsucc.found t ht
        obtain rfl := Option.some.inj ((hsub t kt hkt).symm.trans hkt')
        -- the node just visited is not ahead any more
        have hss : ahead ix' keys' kt ⊂ ahead ix keys ks := by
          refine (Finset.ssubset_iff_of_subset fun p hp => ?_).mpr
            ⟨s, (mem_ahead h.tree).mpr ⟨ks, hs, le_rfl⟩, fun hin => ?_⟩
          · obtain ⟨k, hk, hle⟩ := (mem_ahead hrep.tree).mp hp
            exact (mem_ahead h.tree).mpr ⟨k, hsub p k hk, hst.le.trans hle⟩
          · obtain ⟨k, hk, hle⟩ := (mem_ahead hrep.tree).mp hin
            rw [Option.some.inj ((hsub s k hk).symm.trans hs)] at hle
            exact absurd hst hle.not_gt
        have := Finset.card_lt_card hss
        have := hfuel s ks rfl hs
        omega) (pool.unrefAll gone)
      refine ⟨ix'', keys'', ?_, hrep', hem'⟩
      rw [Index.clearLoop, heq]
      refine hloop.trans ?_
      rw [horder, KvBlockPool.unrefAll, KvBlockPool.unrefAll, KvBlockPool.unrefAll,
        List.foldl_append]

end Index

/-- `clear` on the trie is `clear` on the flat cache. -/
theorem Represents.clear {blockTokens : Nat} {cache : ExactPrefixCache} {flat : FlatCache}
    (h : Represents blockTokens cache flat) (pool : KvBlockPool) :
    (cache.clear pool).2 = (flat.clear pool).2 ∧
      Represents blockTokens (cache.clear pool).1 (flat.clear pool).1 := by
  obtain ⟨keys, P, hmir⟩ := h
  have hroot := hmir.rep.tree.root_key
  obtain ⟨ix', keys', hloop, hrep, hempty⟩ := hmir.rep.clearLoop cache.index.fresh
    hmir.noEmptyLeaf (hmir.rep.tree.successor hroot) (fun e he => by
      obtain ⟨p, hp, hb⟩ := hmir.rep.mem_entries.mp he
      have hne := hmir.rep.tree.ne_nil hp (hmir.rep.ne_root (hmir.rep.mem_of_block hp hb))
      exact lt_of_le_of_ne (Index.Tree.le_append_self [] e.1) (Ne.symm hne)) (fun s ks _ _ => by
      refine (Finset.card_filter_le _ _).trans ?_
      rw [Finset.card_range]) pool
  rw [ExactPrefixCache.clear, FlatCache.clear, hmir.rep.tree.first_eq_successor, hloop,
    ← hmir.entries]
  refine ⟨rfl, keys', [], ?_⟩
  exact { rep := { hrep with
            tree := hrep.tree.frame rfl rfl rfl rfl rfl
            publication := fun i p hp => by simp at hp
            spare := fun e p hp => by cases hp },
          noEmptyLeaf := hempty, entries := rfl, hits := hmir.hits, misses := hmir.misses,
          reused := hmir.reused, evictions := hmir.evictions }

end TinyInfer.MiniPrefix
