import TinyInfer.MiniPrefix.PrefixRep

/-!
# Eviction and publication on the trie

`Represents` ties the trie to a flat cache: the leased nodes in order of use are
the flat entries. Here `evictOne` and `publish` are shown to keep it, with the
same outcomes and the same pool.

`Cursor` is the invariant of the loop of `publish`: where the loop stands in the
trie, and that the publication hint, as far as it reaches, leads there.
-/

namespace TinyInfer.MiniPrefix

open Lib
open Function (update)

/-- The trie with histories `keys` and leased nodes `P` stores the entries of
the flat cache, with the same statistics. -/
structure Mirrors (blockTokens : Nat) (cache : ExactPrefixCache) (flat : FlatCache)
    (keys : Index.Keys) (P : List Ptr) : Prop where
  rep : Index.Rep blockTokens cache.index keys P none
  noEmptyLeaf : Index.NoEmptyLeaf cache.index keys fun _ => False
  entries : flat.entries = Index.entriesOf cache.index keys P
  hits : cache.hits = flat.hits
  misses : cache.misses = flat.misses
  reused : cache.reused = flat.reused
  evictions : cache.evictions = flat.evictions

/-- The trie stores the flat cache. -/
def Represents (blockTokens : Nat) (cache : ExactPrefixCache) (flat : FlatCache) : Prop :=
  ∃ keys P, Mirrors blockTokens cache flat keys P

namespace Index

variable {blockTokens : Nat} {ix : Index} {keys : Keys} {P : List Ptr} {pending : Option Ptr}

theorem NoEmptyLeaf.mono {e e' : Ptr → Prop} (h : NoEmptyLeaf ix keys e)
    (himp : ∀ p, e p → e' p) : NoEmptyLeaf ix keys e' :=
  fun p k hk hne hl hb => himp p (h p k hk hne hl hb)

/-- The empty index. -/
theorem rep_empty (blockTokens : Nat) :
    Rep blockTokens {} (fun p => if p = root then some [] else none) [] none ∧
      NoEmptyLeaf {} (fun p => if p = root then some [] else none) (fun _ => False) := by
  have hroot : ∀ p k, (if p = root then some [] else none) = some k → p = root :=
    fun p (k : List TokenId) hk => by
      by_contra hne
      rw [if_neg hne] at hk
      cases hk
  refine ⟨{ tree := ?_, avail := fun q kq _ e => rfl, lru := Links.isList_nil, leased := ?_,
            cached := rfl, leases := fun b => rfl, publication := fun i p hp => ?_,
            spare := fun e p hp => ?_, root_block := rfl, pending_live := fun p hp => ?_ }, ?_⟩
  · exact { root_key := if_pos rfl, root_depth := rfl,
            up := fun p k hk hne => absurd (hroot p k hk) hne,
            down := fun q kq e p _ hf => absurd hf (by simp),
            bounded := fun p k hk => by rw [hroot p k hk]; exact Nat.lt_succ_self _ }
  · intro p
    simp
  · simp at hp
  · cases hp
  · cases hp
  · exact fun p k hk hne => absurd (hroot p k hk) hne

/-- Dropping the least recently used lease. -/
theorem Rep.drop {n : Ptr} {B : List Ptr} (h : Rep blockTokens ix keys (n :: B) pending)
    (hempty : NoEmptyLeaf ix keys fun p => some p = pending) (pool : KvBlockPool) :
    ∃ ix' keys', ix.drop pool pending = (ix', pool.unref ((ix.block n).getD 0)) ∧
      Rep blockTokens ix' keys' B pending ∧
      NoEmptyLeaf ix' keys' (fun p => some p = pending) ∧ Shrinks ix ix' keys keys' ∧
      entriesOf ix' keys' B = entriesOf ix keys B := by
  obtain ⟨kn, b, hn, -⟩ := h.of_mem List.mem_cons_self
  obtain ⟨ix', keys', heq, hrep, hem, hshr, hblk, -⟩ :=
    Rep.dropNode (A := []) h hn hempty pool
  refine ⟨ix', keys', ?_, hrep, hem, hshr, entriesOf_congr fun p hp => ⟨?_, hblk p ?_⟩⟩
  · rw [Index.drop, h.lru.oldest]
    exact heq
  · exact hshr.keys_eq ((hrep.leased p).mp hp).1
  · rintro rfl
    exact (List.nodup_cons.mp h.lru.nodup).1 hp

/-! ## One page of `publish` -/

/-- Where the loop of `publish` stands before page `i`. -/
structure Cursor (blockTokens : Nat) (ix : Index) (keys : Keys) (i : Nat) (q : Ptr)
    (kq : List TokenId) : Prop where
  key : keys q = some kq
  depth : ix.depth q = i
  full : kq.length = blockTokens * i
  hint : i ≤ ix.publication.length → (root :: ix.publication)[i]? = some q

theorem Cursor.start (h : Rep blockTokens ix keys P pending) :
    Cursor blockTokens ix keys 0 root [] where
  key := h.tree.root_key
  depth := h.tree.root_depth
  full := rfl
  hint := fun _ => rfl

/-- Cutting the hint off. -/
theorem Rep.takePublication (h : Rep blockTokens ix keys P pending) (m : Nat) :
    Rep blockTokens { ix with publication := ix.publication.take m } keys P pending :=
  { h with
    tree := h.tree.frame rfl rfl rfl rfl rfl
    publication := fun i p hp => by
      have hp' : (ix.publication.take m)[i]? = some p := hp
      rw [List.getElem?_take] at hp'
      split at hp'
      · next hi =>
        obtain ⟨hk, hd, hpar⟩ := h.publication i p hp'
        refine ⟨hk, hd, ?_⟩
        show ix.parent p = ((root :: ix.publication).take (m + 1))[i]?
        rw [hpar, List.getElem?_take, if_pos (by omega)]
      · cases hp' }

/-- A shortened hint still leads to the cursor. -/
theorem Cursor.hint_of_take {i : Nat} {q : Ptr} {l : List Ptr} {m : Nat}
    (h : i ≤ l.length → (root :: l)[i]? = some q) (hi : i ≤ (l.take m).length) :
    (root :: l.take m)[i]? = some q := by
  rw [List.length_take] at hi
  show ((root :: l).take (m + 1))[i]? = some q
  rw [List.getElem?_take, if_pos (by omega)]
  exact h (by omega)

/-- Without a usable hint the map of the parent is asked, and a missing child is
inserted as an empty leaf. -/
theorem Rep.searchChild (h : Rep blockTokens ix keys P none)
    (hempty : NoEmptyLeaf ix keys fun _ => False) {i : Nat} {q : Ptr} {kq e : List TokenId}
    (hcur : Cursor blockTokens ix keys i q kq) (hne : e ≠ []) (hle : e.length ≤ blockTokens)
    (hpub : ix.publication[i]? = none) :
    ∃ n ix' keys', (match (ix.children q).find? e with
        | some p => (p, ix)
        | none => ix.insertChild q e) = (n, ix') ∧ Rep blockTokens ix' keys' P none ∧
      NoEmptyLeaf ix' keys' (fun p => p = n) ∧ keys' n = some (kq ++ e) ∧
      (ix'.children q).find? e = some n ∧ Cursor blockTokens ix' keys' i q kq ∧
      (∀ p, ix'.publication[i]? = some p → p = n) ∧
      entriesOf ix' keys' P = entriesOf ix keys P := by
  cases hf : (ix.children q).find? e with
  | some p =>
    refine ⟨p, ix, keys, rfl, h, hempty.mono fun _ hp => hp.elim,
      (h.tree.down q kq e p hcur.key hf).key, hf, hcur, fun x hx => ?_, rfl⟩
    rw [hpub] at hx
    cases hx
  | none =>
    have hfull : kq.length = blockTokens * ix.depth q := by rw [hcur.depth, hcur.full]
    obtain ⟨n, ix', heq, hnone, hrep', hem', hpub', -, hsame, hfind'⟩ :=
      h.insertChild hempty hcur.key hfull hne hle hf
    have hlive : ∀ p, (keys p).isSome → p ≠ n := by
      rintro p hp rfl
      rw [hnone] at hp
      cases hp
    have hqs : (keys q).isSome := by rw [hcur.key]; rfl
    refine ⟨n, ix', update keys n (some (kq ++ e)), heq, hrep', hem',
      Function.update_self _ _ _, hfind', ?_, fun x hx => ?_, ?_⟩
    · exact { key := (Function.update_of_ne (hlive q hqs) _ _).trans hcur.key,
              depth := (hsame q hqs).2.trans hcur.depth, full := hcur.full,
              hint := by rw [hpub']; exact hcur.hint }
    · rw [hpub', hpub] at hx
      cases hx
    · refine entriesOf_congr fun p hp => ?_
      have hk := ((h.leased p).mp hp).1
      exact ⟨Function.update_of_ne (hlive p hk) _ _, (hsame p hk).1⟩

/-- The node `publish` picks for a page is the child under that page; it may be
a new empty leaf. -/
theorem Rep.selectChild (h : Rep blockTokens ix keys P none)
    (hempty : NoEmptyLeaf ix keys fun _ => False) {i : Nat} {q : Ptr} {kq e : List TokenId}
    (hcur : Cursor blockTokens ix keys i q kq) (hne : e ≠ []) (hle : e.length ≤ blockTokens) :
    ∃ n ix' keys', ix.selectChild i q e = (n, ix') ∧ Rep blockTokens ix' keys' P none ∧
      NoEmptyLeaf ix' keys' (fun p => p = n) ∧ keys' n = some (kq ++ e) ∧
      (ix'.children q).find? e = some n ∧ Cursor blockTokens ix' keys' i q kq ∧
      (∀ p, ix'.publication[i]? = some p → p = n) ∧
      entriesOf ix' keys' P = entriesOf ix keys P := by
  rw [Index.selectChild, checkHint]
  cases hhint : ix.publication[i]? with
  | none => exact h.searchChild hempty hcur hne hle hhint
  | some hint =>
    obtain ⟨hk, hd, hpar⟩ := h.publication i hint hhint
    have hi : i < ix.publication.length := (List.getElem?_eq_some_iff.mp hhint).1
    by_cases hok : ix.parent hint = some q ∧ ix.edge hint = e
    · simp only [if_pos hok]
      obtain ⟨kh, hkh⟩ := Option.isSome_iff_exists.mp hk
      have hroot : hint ≠ root := by
        rintro rfl
        rw [h.tree.root_depth] at hd
        omega
      obtain ⟨q', kq', hq', hkq', hfind, hc⟩ := h.tree.parent_of hkh hroot
      obtain rfl : q' = q := Option.some.inj (hc.parent.symm.trans hok.1)
      obtain rfl : kq' = kq := Option.some.inj (hq'.symm.trans hcur.key)
      rw [hok.2] at hfind hkq'
      exact ⟨hint, ix, keys, rfl, h, hempty.mono fun _ hp => hp.elim, hkh.trans (by rw [hkq']),
        hfind, hcur, fun x hx => (Option.some.inj (hhint.symm.trans hx)).symm, rfl⟩
    · simp only [if_neg hok]
      refine (h.takePublication i).searchChild hempty ?_ hne hle ?_
      · exact { key := hcur.key, depth := hcur.depth, full := hcur.full,
                hint := Cursor.hint_of_take hcur.hint }
      · show (ix.publication.take i)[i]? = none
        rw [List.getElem?_eq_none_iff, List.length_take]
        omega

/-- Extending the hint by the node of page `i`. -/
theorem Rep.extendPublication (h : Rep blockTokens ix keys P none) {i : Nat} {q n : Ptr}
    {kq e : List TokenId} (hcur : Cursor blockTokens ix keys i q kq)
    (hfind : (ix.children q).find? e = some n)
    (hhint : ∀ p, ix.publication[i]? = some p → p = n) :
    Rep blockTokens (ix.extendPublication i n) keys P none ∧
      (i + 1 ≤ (ix.extendPublication i n).publication.length →
        (root :: (ix.extendPublication i n).publication)[i + 1]? = some n) := by
  have hc := h.tree.down q kq e n hcur.key hfind
  by_cases hlen : ix.publication.length = i
  · have hpub : (ix.extendPublication i n).publication = ix.publication ++ [n] := if_pos hlen
    refine ⟨{ h with tree := h.tree.frame rfl rfl rfl rfl rfl, publication := ?_ }, fun _ => ?_⟩
    · intro j p hj
      rw [hpub] at hj ⊢
      rcases Nat.lt_or_ge j ix.publication.length with hlt | hge
      · rw [List.getElem?_append_left hlt] at hj
        obtain ⟨hk, hd, hpar⟩ := h.publication j p hj
        refine ⟨hk, hd, hpar.trans ?_⟩
        rw [← List.cons_append, List.getElem?_append_left (by simp; omega)]
      · rw [List.getElem?_append_right hge, List.getElem?_singleton] at hj
        split at hj
        · next hz =>
          obtain rfl := Option.some.inj hj
          have hji : j = i := by omega
          subst hji
          refine ⟨by rw [hc.key]; rfl, hc.depth.trans (by rw [hcur.depth]), hc.parent.trans ?_⟩
          rw [← List.cons_append, List.getElem?_append_left (by simp; omega)]
          exact (hcur.hint (by omega)).symm
        · cases hj
    · rw [hpub, List.getElem?_cons_succ, List.getElem?_append_right (by omega), hlen]
      simp
  · have hsame : ix.extendPublication i n = ix := by
      show { ix with publication := if _ then _ else _ } = ix
      rw [if_neg hlen]
    rw [hsame]
    refine ⟨h, fun hle => ?_⟩
    obtain ⟨x, hx⟩ : ∃ x, ix.publication[i]? = some x :=
      ⟨_, List.getElem?_eq_getElem (by omega)⟩
    rw [List.getElem?_cons_succ, hx, hhint x hx]

end Index

/-! ## Reading the relation -/

namespace Represents

variable {blockTokens : Nat} {cache : ExactPrefixCache} {flat : FlatCache}

theorem keys_nodup (h : Represents blockTokens cache flat) :
    (flat.entries.map Prod.fst).Nodup := by
  obtain ⟨keys, P, h⟩ := h
  exact h.entries ▸ h.rep.entries_keys_nodup

theorem size (h : Represents blockTokens cache flat) : cache.size = flat.entries.length := by
  obtain ⟨keys, P, h⟩ := h
  rw [h.entries, h.rep.entries_length]
  rfl

theorem leases (h : Represents blockTokens cache flat) (b : Nat) :
    cache.index.leases b = (flat.entries.map Prod.snd).count b := by
  obtain ⟨keys, P, h⟩ := h
  rw [h.entries, h.rep.leases_eq]

theorem cacheOnlyBlocks (h : Represents blockTokens cache flat) (pool : KvBlockPool) :
    cache.cacheOnlyBlocks pool = flat.cacheOnlyBlocks pool := by
  simp only [ExactPrefixCache.cacheOnlyBlocks, FlatCache.cacheOnlyBlocks, h.leases]

/-- The empty caches. -/
theorem empty (blockTokens : Nat) : Represents blockTokens {} {} :=
  ⟨_, [], { rep := (Index.rep_empty blockTokens).1, noEmptyLeaf := (Index.rep_empty blockTokens).2,
            entries := rfl, hits := rfl, misses := rfl, reused := rfl, evictions := rfl }⟩

/-! ## Eviction -/

/-- They evict the same page. -/
theorem evictOne (h : Represents blockTokens cache flat) (pool : KvBlockPool) :
    (cache.evictOne pool).1 = (flat.evictOne pool).1 ∧
      (cache.evictOne pool).2.2 = (flat.evictOne pool).2.2 ∧
      Represents blockTokens (cache.evictOne pool).2.1 (flat.evictOne pool).2.1 := by
  obtain ⟨keys, P, h⟩ := h
  rw [ExactPrefixCache.evictOne, FlatCache.evictOne, h.entries, h.rep.lru.oldest]
  cases P with
  | nil => exact ⟨rfl, rfl, keys, [], h⟩
  | cons n B =>
    obtain ⟨ix', keys', heq, hrep', hem, -, hents⟩ :=
      h.rep.drop (h.noEmptyLeaf.mono fun p hp => hp.elim) pool
    simp only [List.head?_cons, heq]
    exact ⟨rfl, rfl, keys', B,
      { rep := hrep', noEmptyLeaf := hem.mono (by simp), entries := hents.symm, hits := h.hits,
        misses := h.misses, reused := h.reused, evictions := congrArg (· + 1) h.evictions }⟩

end Represents

/-! ## Publication -/

namespace Mirrors

open Index

variable {blockTokens : Nat} {cache : ExactPrefixCache} {flat : FlatCache} {keys : Keys}
  {P : List Ptr}

/-- The last part of entering an unleased node: retain its page, make room,
take the lease. The node may be an empty leaf until then. -/
theorem leasePage (cache : ExactPrefixCache) {ix : Index} {q n : Ptr} {kq kn : List TokenId}
    (hrep : Rep blockTokens ix keys P none) (hempty : NoEmptyLeaf ix keys fun p => p = n)
    (hq : keys q = some kq) (hn : keys n = some kn)
    (hfind : (ix.children q).find? (ix.edge n) = some n) (hblock : ix.block n = none)
    (hent : flat.entries = entriesOf ix keys P)
    (hhits : cache.hits = flat.hits) (hmisses : cache.misses = flat.misses)
    (hreused : cache.reused = flat.reused) (hevictions : cache.evictions = flat.evictions)
    (pool : KvBlockPool) (hcap : 0 < pool.config.prefixCacheBlocks) (page : Nat) :
    (∃ err pool' cache', { cache with index := ix }.leasePage pool q n page =
          (.error err, cache', pool') ∧ pool.retain page = (.error err, pool') ∧
        Represents blockTokens cache' flat) ∨
      ∃ pool' pool'' cache' flat' keys' P', { cache with index := ix }.leasePage pool q n page =
          (.ok (), cache', pool'') ∧ pool.retain page = (.ok (), pool') ∧
        (if flat.entries.length = pool'.config.prefixCacheBlocks then (flat.evictOne pool').2
          else (flat, pool')) = (flat', pool'') ∧
        Mirrors blockTokens cache' { flat' with entries := flat'.entries ++
          [(kn, page)] } keys' P' ∧
        Shrinks ix cache'.index keys keys' ∧ keys' n = some kn := by
  have hins := hrep.insertAvailable hq hfind hblock
  have hroot : n ≠ root := (hrep.tree.down q kq _ n hq hfind).ne_root
  have hcfg := pool.retain_config page
  rw [ExactPrefixCache.leasePage]
  cases hret : pool.retain page with
  | mk outcome pool' =>
  rw [hret] at hcfg
  cases outcome with
  | error err =>
    -- the lookup entry is taken out again and an empty leaf is pruned
    have hext := hins.extractAvailable hq hfind
    obtain ⟨keys', hrep', hem', hshr, hblk, -⟩ := hext.pruneLoop _ hn le_rfl
      (hempty.mono fun p hp => Or.inl hp)
    refine Or.inl ⟨err, pool', _, rfl, rfl, keys', P, ?_⟩
    exact { rep := hrep', noEmptyLeaf := hem'.mono (by simp), hits := hhits, misses := hmisses,
            reused := hreused, evictions := hevictions,
            entries := hent.trans (entriesOf_congr fun p hp =>
              ⟨hshr.keys_eq ((hrep'.leased p).mp hp).1, congrFun hblk p⟩).symm }
  | ok _ =>
    refine Or.inr ?_
    have hem : NoEmptyLeaf (ix.insertAvailable q n) keys fun p => some p = some n :=
      hempty.mono fun p hp => congrArg some hp
    -- as many entries as cached pages
    have hlen : flat.entries.length = ix.cached := by rw [hent, hrep.entries_length]
    have hnP : n ∉ P := fun hin => by
      obtain ⟨k, b, -, hb⟩ := hrep.of_mem hin
      rw [hblock] at hb
      cases hb
    by_cases hfull : flat.entries.length = pool'.config.prefixCacheBlocks
    · -- the cache is full: the least recently used lease makes room
      cases P with
      | nil =>
        rw [hent] at hfull
        rw [← hcfg, ← hfull] at hcap
        exact absurd hcap (by simp [entriesOf])
      | cons m B =>
        obtain ⟨ix', keys', heq, hrep', hem', hshr, hents⟩ := hins.drop hem pool'
        have hkeep : keys' n = some kn := by
          rw [hshr.keys_eq (hrep'.pending_live n rfl).1, hn]
        have hgrant := hrep'.grantLease hroot page
        have hfull' : (ix.insertAvailable q n).cached = pool'.config.prefixCacheBlocks := by
          rw [← hfull, hlen]
          rfl
        have hflat : flat.evictOne pool' = (true, { flat with
            entries := entriesOf ix keys B, evictions := flat.evictions + 1 },
            pool'.unref ((ix.block m).getD 0)) := by
          rw [FlatCache.evictOne, hent]
          rfl
        refine ⟨pool', pool'.unref ((ix.block m).getD 0),
          { cache with index := ix'.grantLease n page, evictions := cache.evictions + 1 },
          { flat with entries := entriesOf ix keys B, evictions := flat.evictions + 1 },
          keys', B ++ [n], ?_, rfl, by rw [if_pos hfull, hflat], ?_, ?_, hkeep⟩
        · simp only [if_pos hfull', heq]
          rfl
        · exact { rep := hgrant, hits := hhits, misses := hmisses, reused := hreused,
                  evictions := congrArg (· + 1) hevictions,
                  noEmptyLeaf := hem'.grantLease page
                  entries := by
                    rw [entriesOf_grantLease (fun hin => hnP (List.mem_cons_of_mem m hin)) page
                      hkeep, hents]
                    rfl }
        · exact { sub := hshr.sub, parent := hshr.parent, depth := hshr.depth, edge := hshr.edge,
                  fresh := hshr.fresh, publication := hshr.publication }
    -- there is room for one more lease
    · have hgrant := hins.grantLease hroot page
      have hfull' : ¬ (ix.insertAvailable q n).cached = pool'.config.prefixCacheBlocks := by
        rw [hlen] at hfull
        exact hfull
      refine ⟨pool', pool', { cache with index := (ix.insertAvailable q n).grantLease n page },
        flat, keys, P ++ [n], ?_, rfl, if_neg hfull, ?_, ?_, hn⟩
      · simp only [if_neg hfull']
      · exact { rep := hgrant, hits := hhits, misses := hmisses, reused := hreused,
                evictions := hevictions,
                noEmptyLeaf := hem.grantLease page
                entries := by
                  rw [entriesOf_grantLease hnP page hn, hent]
                  rfl }
      · exact { sub := fun _ _ hk => hk, parent := rfl, depth := rfl, edge := rfl, fresh := rfl,
                publication := ⟨_, (List.take_length).symm⟩ }

/-- What `publish` enters at page `i`: the next tokens of the history. -/
theorem page_eq {tokens : List TokenId} {blockTokens used i : Nat} (hlen : tokens.length = used)
    (hi : i * blockTokens < used) (hpos : 0 < blockTokens) :
    let page := (tokens.drop (i * blockTokens)).take (min blockTokens (used - i * blockTokens))
    tokens.take (i * blockTokens) ++ page = tokens.take (min used ((i + 1) * blockTokens)) ∧
      page ≠ [] ∧ page.length ≤ blockTokens := by
  intro page
  have hmin : min used ((i + 1) * blockTokens) =
      i * blockTokens + min blockTokens (used - i * blockTokens) := by
    rw [Nat.succ_mul]
    omega
  have hplen : page.length = min blockTokens (used - i * blockTokens) := by
    rw [List.length_take, List.length_drop, hlen]
    omega
  refine ⟨by rw [hmin, List.take_add], ?_, by omega⟩
  rw [← List.length_pos_iff]
  omega

/-- One page of `publish` does what the flat cache does with its history. -/
theorem publishPage (h : Mirrors blockTokens cache flat keys P) {i : Nat} {q : Ptr}
    {sequence : PagedSequence} {pool : KvBlockPool} (hbt : pool.config.blockTokens = blockTokens)
    (hcap : 0 < pool.config.prefixCacheBlocks) (hlen : sequence.tokens.length = sequence.used)
    (hi : i * blockTokens < sequence.used)
    (hcur : Cursor blockTokens cache.index keys i q (sequence.tokens.take (i * blockTokens))) :
    let history := sequence.tokens.take (min sequence.used ((i + 1) * blockTokens))
    (∃ err cache' flat' pool', cache.publishPage pool sequence i q = (.error err, cache', pool') ∧
        flat.publishPage pool history (sequence.blocks.getD i 0) = (.error err, flat', pool') ∧
        Represents blockTokens cache' flat') ∨
      ∃ n cache' flat' pool' keys' P', cache.publishPage pool sequence i q =
          (.ok n, cache', pool') ∧
        flat.publishPage pool history (sequence.blocks.getD i 0) = (.ok (), flat', pool') ∧
        Mirrors blockTokens cache' flat' keys' P' ∧ pool'.config = pool.config ∧
        keys' n = some history ∧ cache'.index.depth n = i + 1 ∧
        (i + 1 ≤ cache'.index.publication.length →
          (root :: cache'.index.publication)[i + 1]? = some n) := by
  intro history
  have hpos : 0 < blockTokens := hbt ▸ pool.valid.blockTokens_pos
  -- the page's history is its own edge after the history before it
  obtain ⟨hhist, hne, hle⟩ := page_eq hlen hi hpos
  obtain ⟨n, ix, keys₁, hsel, hrep, hempty, hkey, hfind, hcur₁, hhint, hents⟩ :=
    h.rep.selectChild h.noEmptyLeaf hcur hne hle
  rw [hhist] at hkey
  have hc := hrep.tree.down q _ _ n hcur₁.key hfind
  have hent : flat.entries = entriesOf ix keys₁ P := h.entries.trans hents.symm
  -- the flat cache has the history iff the node has a page
  have hiff : (Lru.find? flat.entries history).isSome = (ix.block n).isSome := by
    rw [hent, Bool.eq_iff_iff]
    constructor
    · intro hs
      obtain ⟨b, hb⟩ := Option.isSome_iff_exists.mp hs
      obtain ⟨p, hp, hbp⟩ :=
        hrep.mem_entries.mp ((Lru.find?_eq_some_iff hrep.entries_keys_nodup).mp hb)
      rw [← hrep.tree.inj hp hkey, hbp]
      rfl
    · intro hs
      obtain ⟨b, hb⟩ := Option.isSome_iff_exists.mp hs
      rw [(Lru.find?_eq_some_iff hrep.entries_keys_nodup).mpr (hrep.mem_entries.mpr ⟨n, hkey, hb⟩)]
      rfl
  simp only [ExactPrefixCache.publishPage, FlatCache.publishPage, hbt, hsel]
  rw [hiff]
  cases hblock : ix.block n with
  | some b =>
    -- a leased node is touched
    refine Or.inr ?_
    obtain ⟨P', htouch, hents'⟩ := hrep.touch (hrep.mem_of_block hkey hblock)
    have hcur' : Cursor blockTokens (ix.touch n) keys₁ i q _ :=
      { key := hcur₁.key, depth := hcur₁.depth, full := hcur₁.full, hint := hcur₁.hint }
    obtain ⟨hext, hhint'⟩ := htouch.extendPublication hcur' hfind hhint
    simp only [Option.isSome_some, if_true]
    refine ⟨n, { cache with index := (ix.touch n).extendPublication i n },
      { flat with entries := Lru.touch flat.entries history }, pool, keys₁, P', rfl, rfl, ?_, rfl,
      hkey, hc.depth.trans (by rw [hcur₁.depth]), hhint'⟩
    · refine { rep := hext, noEmptyLeaf := ?_, entries := ?_, hits := h.hits,
               misses := h.misses, reused := h.reused, evictions := h.evictions }
      · intro p k hk hroot hleaf hb
        have hpn := hempty p k hk hroot hleaf hb
        subst hpn
        cases hblock.symm.trans hb
      · show Lru.touch flat.entries history = entriesOf (ix.touch n) keys₁ P'
        rw [hents', hkey, hent]
        rfl
  -- a node without a page leases one, or throws
  | none =>
    simp only [Option.isSome_none, Bool.false_eq_true, if_false]
    have hfind' : (ix.children q).find? (ix.edge n) = some n := by rw [hc.edge]; exact hfind
    have hcfg := pool.retain_config (sequence.blocks.getD i 0)
    rcases leasePage cache hrep hempty hcur₁.key hkey hfind' hblock hent h.hits h.misses
        h.reused h.evictions pool hcap (sequence.blocks.getD i 0) with
      ⟨err, pool', cache', hlease, hret, hres⟩ |
      ⟨pool', pool'', cache', flat', keys', P', hlease, hret, hflat, hmir, hshr, hkey'⟩
    · left
      simp only [hlease, hret]
      exact ⟨err, _, _, _, rfl, rfl, hres⟩
    · right
      simp only [hlease, hret, hflat]
      have hroot : n ≠ root := hc.ne_root
      -- evictions may have pruned the index, but not this node or its parent
      obtain ⟨q', kq', hq', -, hfind'', hc'⟩ := hmir.rep.tree.parent_of hkey' hroot
      have hqq : q' = q := by
        have hpar := hc'.parent
        rw [hshr.parent] at hpar
        exact Option.some.inj (hpar.symm.trans hc.parent)
      subst hqq
      have hkq : kq' = sequence.tokens.take (i * blockTokens) :=
        Option.some.inj ((hshr.sub _ _ hq').symm.trans hcur₁.key)
      subst hkq
      obtain ⟨m, hm⟩ := hshr.publication
      have hdepth : cache'.index.depth q' = i := by rw [hshr.depth, hcur₁.depth]
      have hcur' : Cursor blockTokens cache'.index keys' i q' _ :=
        { key := hq', depth := hdepth, full := hcur₁.full,
          hint := by
            rw [hm]
            exact Cursor.hint_of_take hcur₁.hint }
      -- the hint was cut at most before this page
      obtain ⟨hext, hhint'⟩ := hmir.rep.extendPublication hcur' hfind'' fun p hp => by
        rw [hm, List.getElem?_take] at hp
        split at hp
        · exact hhint p hp
        · cases hp
      refine ⟨n, { cache' with index := cache'.index.extendPublication i n },
        { flat' with entries := flat'.entries ++ [(history, sequence.blocks.getD i 0)] }, pool'',
        keys', P', rfl, rfl, ?_, ?_, hkey', ?_, hhint'⟩
      · exact { rep := hext, noEmptyLeaf := hmir.noEmptyLeaf, entries := hmir.entries,
                hits := hmir.hits, misses := hmir.misses, reused := hmir.reused,
                evictions := hmir.evictions }
      -- neither the lease nor an eviction changes the configuration
      · rw [hret] at hcfg
        rw [← hcfg]
        have hevict := flat.evictOne_config pool'
        split at hflat
        · rw [hflat] at hevict
          exact hevict
        · rw [(Prod.mk.inj hflat).2]
      · exact hc'.depth.trans (by rw [hdepth])

/-- The loop of `publish`. -/
theorem publishLoop (pages : Nat) {cache : ExactPrefixCache} {flat : FlatCache} {keys : Keys}
    {P : List Ptr} (h : Mirrors blockTokens cache flat keys P) {i : Nat} {q : Ptr}
    {sequence : PagedSequence} {pool : KvBlockPool} (hbt : pool.config.blockTokens = blockTokens)
    (hcap : 0 < pool.config.prefixCacheBlocks) (hlen : sequence.tokens.length = sequence.used)
    (hpages : pages = 0 ∨ (i + pages - 1) * blockTokens < sequence.used)
    (hcur : pages = 0 ∨
      Cursor blockTokens cache.index keys i q (sequence.tokens.take (i * blockTokens))) :
    ∃ outcome cache' flat' pool', ExactPrefixCache.publishLoop sequence pages i q cache pool =
        (outcome, cache', pool') ∧
      FlatCache.publishLoop sequence pages i flat pool = (outcome, flat', pool') ∧
      Represents blockTokens cache' flat' := by
  induction pages generalizing cache flat keys P i q pool with
  | zero => exact ⟨.ok (), cache, flat, pool, rfl, rfl, keys, P, h⟩
  | succ pages ih =>
    have hlast : (i + pages) * blockTokens < sequence.used := by
      simpa using hpages.resolve_left (Nat.succ_ne_zero pages)
    have hi : i * blockTokens < sequence.used :=
      Nat.lt_of_le_of_lt (Nat.mul_le_mul_right _ (Nat.le_add_right i pages)) hlast
    have hcur := hcur.resolve_left (Nat.succ_ne_zero pages)
    rw [ExactPrefixCache.publishLoop, FlatCache.publishLoop, hbt]
    rcases h.publishPage hbt hcap hlen hi hcur with ⟨err, cache', flat', pool', h1, h2, hres⟩ |
      ⟨n, cache', flat', pool', keys', P', h1, h2, hmir, hcfg, hkey, hdepth, hhint⟩
    · exact ⟨.error err, cache', flat', pool', by rw [h1], by rw [h2], hres⟩
    · rw [h1, h2]
      refine ih hmir (by rw [hcfg, hbt]) (by rw [hcfg]; exact hcap) ?_ ?_
      · rcases Nat.eq_zero_or_pos pages with hz | hp
        · exact Or.inl hz
        · right
          rwa [show i + 1 + pages - 1 = i + pages by omega]
      · -- one more page follows, so this one was full
        rcases Nat.eq_zero_or_pos pages with hz | hp
        · exact Or.inl hz
        · right
          have hle : (i + 1) * blockTokens ≤ sequence.used :=
            (Nat.mul_le_mul_right _ (by omega)).trans hlast.le
          rw [Nat.min_eq_right hle] at hkey
          refine { key := hkey, depth := hdepth, full := ?_, hint := hhint }
          rw [List.length_take, hlen, Nat.min_eq_left hle, Nat.mul_comm]

end Mirrors

/-- Any number of turns of `publish` on the trie are turns on the flat cache. -/
theorem Represents.publishLoop {cache : ExactPrefixCache} {flat : FlatCache} {pool : KvBlockPool}
    (h : Represents pool.config.blockTokens cache flat) {sequence : PagedSequence}
    (hlen : sequence.tokens.length = sequence.used) {pages : Nat}
    (hpages : pages ≤ ExactPrefixCache.publishCount pool sequence) :
    ∃ outcome cache' flat' pool', ExactPrefixCache.publishLoop sequence pages 0 root cache pool =
        (outcome, cache', pool') ∧
      FlatCache.publishLoop sequence pages 0 flat pool = (outcome, flat', pool') ∧
      Represents pool.config.blockTokens cache' flat' := by
  obtain ⟨keys, P, hmir⟩ := h
  rcases Nat.eq_zero_or_pos pages with rfl | hpos
  · exact ⟨.ok (), cache, flat, pool, rfl, rfl, keys, P, hmir⟩
  · have hcap : 0 < pool.config.prefixCacheBlocks :=
      Nat.lt_of_lt_of_le hpos (hpages.trans (FlatCache.publishCount_le_capacity pool sequence))
    refine hmir.publishLoop _ rfl hcap hlen (Or.inr ?_) (Or.inr ?_)
    · rw [Nat.zero_add]
      exact FlatCache.mul_lt_used (Nat.lt_of_lt_of_le (Nat.sub_lt hpos Nat.zero_lt_one) hpages)
    · simpa using Index.Cursor.start hmir.rep

/-- `publish` on the trie is `publish` on the flat cache. -/
theorem Represents.publish {cache : ExactPrefixCache} {flat : FlatCache} {pool : KvBlockPool}
    (h : Represents pool.config.blockTokens cache flat) (sequence : PagedSequence) :
    ∃ outcome cache' flat' pool', cache.publish pool sequence = (outcome, cache', pool') ∧
      flat.publish pool sequence = (outcome, flat', pool') ∧
      Represents pool.config.blockTokens cache' flat' := by
  rw [ExactPrefixCache.publish, FlatCache.publish]
  by_cases hlen : sequence.tokens.length = sequence.used
  · rw [if_neg (not_not.mpr hlen), if_neg (not_not.mpr hlen)]
    obtain ⟨outcome, cache', flat', pool', h1, h2, keys', P', hmir'⟩ :=
      h.publishLoop hlen le_rfl
    simp only [h1]
    refine ⟨outcome, ?_⟩
    cases outcome with
    | error err => exact ⟨cache', flat', pool', rfl, h2, keys', P', hmir'⟩
    | ok _ =>
      refine ⟨_, flat', pool', rfl, h2, keys', P', ?_⟩
      refine { rep := ?_, noEmptyLeaf := hmir'.noEmptyLeaf, entries := hmir'.entries,
               hits := hmir'.hits, misses := hmir'.misses, reused := hmir'.reused,
               evictions := hmir'.evictions }
      by_cases hlong : cache'.index.publication.length >
          ExactPrefixCache.publishCount pool sequence
      · simp only [if_pos hlong]
        exact hmir'.rep.takePublication _
      · simp only [if_neg hlong]
        exact hmir'.rep
  · rw [if_pos hlen, if_pos hlen]
    exact ⟨_, cache, flat, pool, rfl, rfl, h⟩

end TinyInfer.MiniPrefix
