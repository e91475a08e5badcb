import TinyInfer.MiniPrefix.KvOperations

/-!
# Preparing an append

`prepare_append` checks its arguments, evicts cache entries until the pages fit,
takes the new pages, and replaces a shared partial tail page.

- `Evicted` is all that a failing call can leave behind: the cache lost its least
  recently used entries, and the pool their leases;
- `KvInv.prepareAppend` describes both outcomes. `Refused` says why a call failed,
  `Prepared` what the transaction did to the block table.

Eviction may free the tail page from its last other holder. The copy-on-write
decision is then withdrawn, so after the loop a tail page is replaced exactly
when somebody else still holds it.
-/

namespace TinyInfer.MiniPrefix

open Lib KVManager

variable {α : Type} {spec : List TokenId → α} {payload : Nat → Nat → α} {kv : KVManager}
  {append : Option KVManager.Append} {flat : FlatCache} {pos : Nat → Nat}

/-! ## Eviction -/

/-- The cache lost entries from the cold end, and nothing else happened. -/
structure Evicted (kv kv' : KVManager) (flat flat' : FlatCache) : Prop where
  same : kv' = { kv with pool := kv'.pool, prefixCache := kv'.prefixCache }
  config : kv'.config = kv.config
  entries : flat'.entries <:+ flat.entries

/-- The eviction loop. It ends with enough free pages or with an empty cache, and
a tail page it still wants to replace is held by somebody else. -/
theorem evictLoop_spec {bt : Nat} (required tail : Nat) {out : Nat → Nat} (fuel : Nat) (cow : Bool)
    {cache : ExactPrefixCache} {flat : FlatCache} {pool : KvBlockPool}
    (hcache : Represents bt cache flat) (hacc : pool.Accounts fun b => out b + flat.pages.count b)
    (hfuel : flat.entries.length ≤ fuel) (hpeak : pool.live ≤ pool.peak)
    (htail : cow = true → 0 < out tail ∧ 1 < pool.references tail) :
    ∃ cow' cache' flat' pool', evictLoop required tail fuel cow cache pool =
        (cow', cache', pool') ∧
      Represents bt cache' flat' ∧ (pool'.Accounts fun b => out b + flat'.pages.count b) ∧
      pool'.config = pool.config ∧ pool'.live ≤ pool'.peak ∧ flat'.entries <:+ flat.entries ∧
      (cow' = true → cow = true ∧ 1 < pool'.references tail) ∧
      (cow = true → cow' = false → pool'.references tail = 1) ∧
      (pool'.freeBlocks < required + cow'.toNat → flat'.entries = []) := by
  -- on the fuel: each round evicts one entry, and there is fuel for all
  induction fuel generalizing cow cache flat pool with
  | zero =>
    refine ⟨cow, cache, flat, pool, rfl, hcache, hacc, rfl, hpeak, List.suffix_rfl,
      fun h => ⟨h, (htail h).2⟩, fun h h' => ?_, fun _ => List.length_eq_zero_iff.mp (by omega)⟩
    rw [h] at h'
    cases h'
  | succ fuel ih =>
    rw [evictLoop]
    by_cases hfull : pool.freeBlocks < required + cow.toNat
    swap
    -- there is room: the loop ends
    · rw [if_neg hfull]
      refine ⟨cow, cache, flat, pool, rfl, hcache, hacc, rfl, hpeak, List.suffix_rfl,
        fun h => ⟨h, (htail h).2⟩, fun h h' => ?_, fun h => absurd h hfull⟩
      rw [h] at h'
      cases h'
    rw [if_pos hfull]
    obtain ⟨h1, h2, h3⟩ := hcache.evictOne pool
    have hacc' := FlatCache.evictOne_accounts hacc
    have hpeak' := flat.evictOne_peak pool
    have hcfg := flat.evictOne_config pool
    have hentries := flat.evictOne_entries pool
    generalize hevict : cache.evictOne pool = r at h1 h2 h3
    obtain ⟨evicted, cache₁, pool₁⟩ := r
    dsimp only at h1 h2 h3
    subst h2
    rw [FlatCache.evictOne] at h1
    cases hent : flat.entries with
    -- nothing is left to evict
    | nil =>
      rw [hent] at h1
      dsimp only at h1
      subst h1
      have hsame : flat.evictOne pool = (false, flat, pool) := by rw [FlatCache.evictOne, hent]
      rw [hsame] at hacc' hpeak' hcfg h3 ⊢
      refine ⟨cow, cache₁, flat, pool, rfl, h3, hacc, rfl, hpeak, hent ▸ List.suffix_rfl,
        fun h => ⟨h, (htail h).2⟩, fun h h' => ?_, fun _ => hent⟩
      rw [h] at h'
      cases h'
    | cons e rest =>
      rw [hent] at h1 hentries
      dsimp only at h1
      subst h1
      rw [List.tail_cons] at hentries
      have hfuel' : (flat.evictOne pool).2.1.entries.length ≤ fuel := by
        rw [hent, List.length_cons] at hfuel
        rw [hentries]
        omega
      have hcount : flat.pages.count tail = [e.2].count tail + (rest.map Prod.snd).count tail := by
        rw [FlatCache.pages, hent, List.map_cons]
        exact KvBlockPool.count_cons_eq e.2 tail _
      have hrest : (flat.evictOne pool).2.1.pages.count tail = (rest.map Prod.snd).count tail := by
        rw [FlatCache.pages, hentries]
      have hone : [e.2].count tail ≤ 1 := by
        rw [KvBlockPool.count_one]
        split <;> omega
      have hrefs := hacc.refs tail
      have hrefs' := hacc'.refs tail
      have hsuffix : (flat.evictOne pool).2.1.entries <:+ e :: rest := by
        rw [hentries]
        exact List.suffix_cons e rest
      -- the flag is dropped when the tail page is no longer shared
      by_cases hlast : (cow && (flat.evictOne pool).2.2.references tail == 1) = true
      · -- the tail page lost its last other holder
        rw [Bool.and_eq_true, beq_iff_eq] at hlast
        obtain ⟨cow', cache', flat', pool', heq, hrep, hacc'', hcfg', hpk, hsuf, hcow, -, hstop⟩ :=
          ih false h3 hacc' hfuel' (hpeak'.2.trans (hpeak.trans hpeak'.1.ge))
            (fun h => by cases h)
        have hfalse : cow' = false := Bool.eq_false_iff.mpr fun h => by cases (hcow h).1
        have hsame : flat'.pages.count tail ≤ (flat.evictOne pool).2.1.pages.count tail :=
          (hsuf.sublist.map Prod.snd).count_le tail
        refine ⟨cow', cache', flat', pool', ?_, hrep, hacc'', hcfg'.trans hcfg, hpk,
          hsuf.trans hsuffix, fun h => ?_, fun _ _ => ?_, hstop⟩
        · simp only [hlast.1, hlast.2, beq_self_eq_true, Bool.and_self, if_true]
          exact heq
        · rw [hfalse] at h
          cases h
        · have := hacc''.refs tail
          have := (htail hlast.1).1
          omega
      -- the tail page is still shared, or no copy was asked for
      · obtain ⟨cow', cache', flat', pool', heq, hrep, hacc'', hcfg', hpk, hsuf, hcow, hgone,
            hstop⟩ := ih cow h3 hacc' hfuel' (hpeak'.2.trans (hpeak.trans hpeak'.1.ge))
          (fun h => by
            have := htail h
            simp only [h, Bool.true_and, beq_iff_eq] at hlast
            omega)
        refine ⟨cow', cache', flat', pool', ?_, hrep, hacc'', hcfg'.trans hcfg, hpk,
          hsuf.trans hsuffix, hcow, hgone, hstop⟩
        simp only [if_neg hlast]
        exact heq

/-! ## `reserve_pages` -/

/-- The pages a sequence of `used` tokens lacks for `tokens` more. -/
def missingPages (kv : KVManager) (sequence : PagedSequence) (last : Nat) : Nat :=
  pagesFor kv.config.blockTokens last - sequence.blocks.length

/-- Physical memory is exhausted: nothing is cached any more and the free pages do
not suffice, counting one for a tail page that others hold too. -/
def Exhausted (kv : KVManager) (flat : FlatCache) (tail missing : Nat) : Prop :=
  flat.entries = [] ∧ ∃ cow : Bool, (cow = true → 1 < kv.pool.references tail) ∧
    kv.pool.freeBlocks < missing + cow.toNat

theorem evicted_inv (h : KvInv spec payload kv none flat pos) {flat' : FlatCache}
    {prefixCache : ExactPrefixCache} {pool : KvBlockPool} (hconfig : pool.config = kv.pool.config)
    (hcache : Represents kv.config.blockTokens prefixCache flat')
    (hacc : pool.Accounts fun b => kv.sequenceLeases b + flat'.pages.count b)
    (hpeak : pool.live ≤ pool.peak) (hentries : flat'.entries <:+ flat.entries) :
    Evicted kv { kv with pool, prefixCache } flat flat' ∧
      KvInv spec payload { kv with pool, prefixCache } none flat' pos :=
  ⟨⟨rfl, hconfig, hentries⟩, h.withCache rfl rfl hconfig rfl rfl hcache hacc hpeak
    fun _ he => Or.inl (hentries.subset he)⟩

/-- Reserving pages evicts what it must, and returns fresh pages or refuses. -/
theorem reservePages_spec (h : KvInv spec payload kv none flat pos) {id : RequestId}
    {sequence : PagedSequence} {last : Nat} (hused : sequence.used ≤ last) (cow : Bool)
    (htail : cow = true → 0 < kv.sequenceLeases (sequence.blocks.getLastD 0) ∧
      1 < kv.pool.references (sequence.blocks.getLastD 0)) :
    (∃ e, kv.reservePages id sequence last cow = (.error e, kv) ∧
      kv.refusePages id (pagesFor kv.config.blockTokens last) (missingPages kv sequence last) =
        some e) ∨
    (∃ e kv' flat', kv.reservePages id sequence last cow = (.error e, kv') ∧
      Evicted kv kv' flat flat' ∧ KvInv spec payload kv' none flat' pos ∧
      kv.refusePages id (pagesFor kv.config.blockTokens last) (missingPages kv sequence last) =
        none ∧
      Exhausted kv' flat' (sequence.blocks.getLastD 0) (missingPages kv sequence last)) ∨
    ∃ cow' fresh kv' flat' pool, kv.reservePages id sequence last cow =
        (.ok (cow', { sequence with blocks := sequence.blocks ++ fresh }), { kv' with pool }) ∧
      kv.refusePages id (pagesFor kv.config.blockTokens last) (missingPages kv sequence last) =
        none ∧
      Evicted kv kv' flat flat' ∧ KvInv spec payload kv' none flat' pos ∧
      (cow' = true → cow = true ∧ 1 < kv'.pool.references (sequence.blocks.getLastD 0) ∧
        pool.free ≠ []) ∧
      (cow = true → cow' = false → kv'.pool.references (sequence.blocks.getLastD 0) = 1) ∧
      fresh.length = missingPages kv sequence last ∧ fresh.Nodup ∧
      (∀ b ∈ fresh, kv.sequenceLeases b + flat'.pages.count b = 0) ∧
      pool.config = kv.pool.config ∧ pool.live ≤ pool.peak ∧
      pool.Accounts fun b => kv.sequenceLeases b + flat'.pages.count b + fresh.count b := by
  rw [KVManager.reservePages]
  have hmissing : pagesFor kv.config.blockTokens last - sequence.blocks.length =
    missingPages kv sequence last := rfl
  simp only [hmissing]
  cases hrefuse : kv.refusePages id (pagesFor kv.config.blockTokens last)
      (missingPages kv sequence last) with
  -- refused before any page is touched
  | some e => exact Or.inl ⟨e, rfl, rfl⟩
  | none =>
  right
  -- the cache gives up pages until there is room
  have hsize : flat.entries.length ≤ kv.prefixCache.size := h.cache.size.ge
  obtain ⟨cow', cache', flat', pool', hevict, hrep, hacc, hcfg, hpeak, hsuffix, hcow,
    hgone, hstop⟩ :=
    evictLoop_spec (missingPages kv sequence last) (sequence.blocks.getLastD 0)
      kv.prefixCache.size cow h.cache
      (h.accounts : kv.pool.Accounts fun b => kv.sequenceLeases b + flat.pages.count b) hsize
      h.peak htail
  obtain ⟨hevicted, hinv⟩ := evicted_inv h hcfg hrep hacc hpeak hsuffix
  have hfree : pool'.freeBlocks = pool'.free.length := rfl
  simp only [hevict]
  by_cases hshort : cow' = true ∧ pool'.freeBlocks < missingPages kv sequence last + 1
  -- too few pages, with one more asked for the copy
  · rw [if_pos hshort]
    have hnum : cow'.toNat = 1 := by rw [hshort.1]; rfl
    exact Or.inl ⟨_, _, flat', rfl, hevicted, hinv, trivial, hstop (by omega), cow',
      fun hc => (hcow hc).2, hnum ▸ hshort.2⟩
  rw [if_neg hshort]
  have hpages : pagesFor pool'.config.blockTokens last - sequence.blocks.length =
      missingPages kv sequence last := by rw [hcfg]; rfl
  -- the pool may still be short of the pages themselves
  rcases Nat.lt_or_ge pool'.free.length (missingPages kv sequence last) with hfull | hroom
  · rw [KvBlockPool.reserve_full hused (by rw [hpages]; exact hfull)]
    refine Or.inl ⟨_, _, flat', rfl, hevicted, hinv, trivial, hstop (by omega), cow', fun hc =>
      (hcow hc).2, ?_⟩
    show pool'.freeBlocks < _
    omega
  -- the fresh pages, and one more left for the copy
  · obtain ⟨fresh, pool, hres, hcfg', hlen, hnd, hnew, hpk, hrest, hacc'⟩ :=
      KvBlockPool.reserve_spec hacc hused (by rw [hpages]; exact hroom)
    rw [hpages] at hlen
    rw [hres]
    refine Or.inr ⟨cow', fresh, { kv with pool := pool', prefixCache := cache' }, flat', pool, rfl,
      trivial, hevicted, hinv, fun hc => ⟨(hcow hc).1, (hcow hc).2, fun hnil => ?_⟩,
      hgone, hlen, hnd, hnew, hcfg'.trans hcfg, hpk hpeak, hacc'⟩
    have hlonger : ¬ pool'.freeBlocks < missingPages kv sequence last + 1 :=
      fun hlt => hshort ⟨hc, hlt⟩
    have := congrArg List.length hnil
    rw [hrest, List.length_drop, List.length_nil] at this
    omega

/-! ## `prepare_append` -/

/-- The checks of `prepare_append` that come before any eviction. -/
structure Checked (kv : KVManager) (append : Option KVManager.Append) (id : RequestId)
    (tokens : List TokenId) (state : State) : Prop where
  idle : append = none
  found : kv.sequences.find? id = some state
  tokens_ne : tokens ≠ []
  fits : state.sequence.used + tokens.length ≤ kv.context
  valid : kv.validTokens tokens = true
  pages : kv.refusePages id (pagesFor kv.config.blockTokens (state.sequence.used + tokens.length))
    (missingPages kv state.sequence (state.sequence.used + tokens.length)) = none

/-- The table of a sequence with its tail page replaced. -/
def replaceTail (copy : Option TailCopy) (blocks : List Nat) : List Nat :=
  match copy with
  | none => blocks
  | some copy => blocks.set (blocks.length - 1) copy.destination

/-- The pages a transaction replaced the tail by. -/
def destinationPages (copy : Option TailCopy) : List Nat := (copy.map TailCopy.destination).toList

/-- What `prepare_append` did after evicting, `kv` being the evicted state. -/
structure Prepared (kv kv' : KVManager) (flat : FlatCache) (state : State) (a : KVManager.Append)
    (fresh : List Nat) : Prop where
  shape : kv' = { kv with
    pool := kv'.pool
    sequences := kv.sequences.insert a.id
      { sequence := { state.sequence with
          blocks := replaceTail a.copy state.sequence.blocks ++ fresh }
        appending := true }
    appendActive := true }
  originalBlocks : a.originalBlocks = state.sequence.blocks.length
  copied : a.copied = false
  missing : fresh.length = missingPages kv state.sequence (state.sequence.used + a.tokens.length)
  nodup : (destinationPages a.copy ++ fresh).Nodup
  new : ∀ b ∈ destinationPages a.copy ++ fresh, kv.sequenceLeases b + flat.pages.count b = 0
  partial_tail : a.copy.isSome → state.sequence.used % kv.config.blockTokens ≠ 0
  source : ∀ copy, a.copy = some copy → state.sequence.blocks.getLast? = some copy.source ∧
    copy.validTokens = state.sequence.used % kv.config.blockTokens ∧
    1 < kv.pool.references copy.source
  in_place : a.copy = none → state.sequence.used % kv.config.blockTokens ≠ 0 →
    ∀ b, state.sequence.blocks.getLast? = some b → kv.pool.references b = 1
  config : kv'.config = kv.config
  peak : kv'.pool.live ≤ kv'.pool.peak
  accounts : kv'.pool.Accounts fun b => kv.sequenceLeases b + flat.pages.count b +
    (destinationPages a.copy ++ fresh).count b

/-- A sequence that ends inside a page has that page. -/
theorem KvInv.tail (h : KvInv spec payload kv none flat pos) {id : RequestId} {state : State}
    (hfind : kv.sequences.find? id = some state)
    (hmod : state.sequence.used % kv.config.blockTokens ≠ 0) :
    ∃ b, state.sequence.blocks.getLast? = some b ∧ state.sequence.blocks.getLastD 0 = b ∧
      state.sequence.blocks[state.sequence.blocks.length - 1]? = some b ∧
      state.sequence.blocks.length = state.sequence.used / kv.config.blockTokens + 1 := by
  have hlen := (h.idle id state hfind fun a ha => by cases ha).2
  rw [pagesFor, if_pos hmod] at hlen
  have hlast : state.sequence.blocks.getLast? =
      state.sequence.blocks[state.sequence.blocks.length - 1]? := List.getLast?_eq_getElem?
  have hpos : 0 < state.sequence.blocks.length := by
    rw [hlen]
    exact Nat.succ_pos _
  have hget := List.getElem?_eq_getElem
    (show state.sequence.blocks.length - 1 < state.sequence.blocks.length by omega)
  refine ⟨_, hlast.trans hget, ?_, hget, hlen⟩
  rw [List.getLastD_eq_getLast?, hlast, hget, Option.getD_some]

/-- The two ways `prepare_append` fails and the way it succeeds. -/
theorem KvInv.prepareAppend (h : KvInv spec payload kv append flat pos) (id : RequestId)
    (tokens : List TokenId) :
    (∃ e, kv.prepareAppend id tokens = (.error e, kv) ∧
      ∀ state, ¬ Checked kv append id tokens state) ∨
    (∃ e kv' flat' state, kv.prepareAppend id tokens = (.error e, kv') ∧
      Checked kv append id tokens state ∧ Evicted kv kv' flat flat' ∧
      KvInv spec payload kv' none flat' pos ∧
      Exhausted kv' flat' (state.sequence.blocks.getLastD 0)
        (missingPages kv state.sequence (state.sequence.used + tokens.length))) ∨
    ∃ a kv₁ kv' flat' state fresh, kv.prepareAppend id tokens = (.ok a, kv') ∧
      Checked kv append id tokens state ∧ Evicted kv kv₁ flat flat' ∧
      KvInv spec payload kv₁ none flat' pos ∧ a.id = id ∧ a.tokens = tokens ∧
      Prepared kv₁ kv' flat' state a fresh := by
  rw [KVManager.prepareAppend]
  rcases h.idleState id with ⟨e, hstate⟩ | ⟨state, hstate, rfl, hfind⟩
  -- not idle or no such sequence: nothing was checked yet
  · rw [hstate]
    refine Or.inl ⟨e, rfl, fun state hc => ?_⟩
    obtain rfl := hc.idle
    have hidle := h.requireIdle.resolve_right fun hbusy => by simp at hbusy
    simp [KVManager.idleState, hidle.1, hc.found, h.not_appending hc.found] at hstate
  rw [hstate]
  have hsame : ∀ other, Checked kv none id tokens other → other = state := fun other hc =>
    Option.some.inj (hc.found.symm.trans hfind)
  have hseq := h.sequence id state hfind
  have hidle := h.idle id state hfind fun a ha => by cases ha
  have hcontext := hseq.fits
  dsimp only
  by_cases hfits : tokens = [] ∨ tokens.length > kv.context - state.sequence.used
  -- an empty append, or one past the context
  · rw [if_pos hfits]
    refine Or.inl ⟨_, rfl, fun other hc => hfits.elim hc.tokens_ne fun hlong => ?_⟩
    have := hc.fits
    rw [hsame other hc] at this
    omega
  rw [if_neg hfits]
  by_cases hvalid : kv.validTokens tokens = true
  swap
  -- a token outside the vocabulary
  · rw [if_pos hvalid]
    exact Or.inl ⟨_, rfl, fun other hc => hvalid hc.valid⟩
  rw [if_neg (not_not.mpr hvalid)]
  simp only [not_or, not_lt] at hfits
  -- a partial tail page has its own lease, so sharing it means two references
  have htail : (decide (state.sequence.used % kv.config.blockTokens ≠ 0) &&
        decide (kv.pool.references (state.sequence.blocks.getLastD 0) > 1)) = true →
      0 < kv.sequenceLeases (state.sequence.blocks.getLastD 0) ∧
        1 < kv.pool.references (state.sequence.blocks.getLastD 0) := by
    rw [Bool.and_eq_true, decide_eq_true_iff, decide_eq_true_iff]
    rintro ⟨hmod, hrefs⟩
    obtain ⟨b, -, hb, hget, -⟩ := h.tail hfind hmod
    exact ⟨hb ▸ sequenceLeases_pos hfind hget, hrefs⟩
  have hchecked : kv.refusePages id
        (pagesFor kv.config.blockTokens (state.sequence.used + tokens.length))
        (missingPages kv state.sequence (state.sequence.used + tokens.length)) = none →
      Checked kv none id tokens state := fun hpages =>
    ⟨rfl, hfind, hfits.1, by omega, hvalid, hpages⟩
  rcases reservePages_spec h (Nat.le_add_right state.sequence.used tokens.length) _ htail with
    ⟨e, hres, hrefuse⟩ | ⟨e, kv', flat', hres, hevicted, hinv, hrefuse, hfull⟩ |
    ⟨cow', fresh, kv₁, flat', pool, hres, hrefuse, hevicted, hinv, hcow, hgone, hlen, hnd, hnew,
      hcfg, hpeak, hacc⟩
  -- refused by the reservations: no page was evicted
  · rw [hres]
    refine Or.inl ⟨e, rfl, fun other hc => ?_⟩
    have := hc.pages
    rw [hsame other hc, hrefuse] at this
    cases this
  -- exhausted: pages were evicted, and the caller rolls back to there
  · rw [hres]
    exact Or.inr (Or.inl ⟨e, kv', flat', state, rfl, hchecked hrefuse, hevicted, hinv, hfull⟩)
  rw [hres]
  right
  right
  have hleases : ∀ b, kv₁.sequenceLeases b = kv.sequenceLeases b := fun b => by
    rw [hevicted.same]
    rfl
  have hmissing : missingPages kv₁ state.sequence (state.sequence.used + tokens.length) =
      missingPages kv state.sequence (state.sequence.used + tokens.length) := by
    rw [missingPages, hevicted.config, missingPages]
  have hcfg₁ : pool.config = kv₁.pool.config := hcfg.trans hevicted.config.symm
  cases cow' with
  -- the tail is appended in place
  | false =>
    refine ⟨_, kv₁, _, flat', state, fresh, rfl, hchecked hrefuse, hevicted, hinv, rfl, rfl, ?_⟩
    refine { shape := rfl, originalBlocks := rfl, copied := rfl,
             missing := hlen.trans hmissing.symm, nodup := hnd, new := fun b hb => by
               rw [hleases]; exact hnew b hb,
             partial_tail := fun hc => (by cases hc), source := fun copy hc => (by cases hc),
             in_place := fun _ hmod b hb => ?_, config := hcfg₁, peak := hpeak,
             accounts := hacc.congr fun b => by rw [hleases]; rfl }
    rw [hevicted.config] at hmod
    obtain ⟨b', hlast, hb', hget, -⟩ := h.tail hfind hmod
    obtain rfl := Option.some.inj (hlast.symm.trans hb)
    by_cases hshared : kv.pool.references b' > 1
    · rw [← hb']
      exact hgone (by rw [Bool.and_eq_true, decide_eq_true_iff, decide_eq_true_iff, hb'];
                      exact ⟨hmod, hshared⟩) rfl
    -- it was not shared before, and evicting only removed leases
    · have hpos := sequenceLeases_pos hfind hget
      have hrefs := h.accounts.refs b'
      have hrefs₁ := hinv.accounts.refs b'
      have hle : flat'.pages.count b' ≤ flat.pages.count b' :=
        (hevicted.entries.sublist.map Prod.snd).count_le b'
      simp only [outside, sourcePages, List.count_nil, Nat.add_zero, hleases] at hrefs hrefs₁
      omega
  | true =>
    -- the tail is copied to a page of its own
    obtain ⟨hcow₀, hshared, hfree⟩ := hcow rfl
    rw [Bool.and_eq_true, decide_eq_true_iff] at hcow₀
    obtain ⟨replacement, pool', halloc, hzero, -, hcfg', hpeak', hacc'⟩ :=
      KvBlockPool.allocate_spec hacc hfree
    obtain ⟨b, hlast, hb, hget, -⟩ := h.tail hfind hcow₀.1
    have hlt : state.sequence.blocks.length - 1 < state.sequence.blocks.length :=
      (List.getElem?_eq_some_iff.mp hget).1
    simp only [halloc, if_true, List.set_append_left _ _ hlt, List.getD_eq_getElem?_getD,
      List.getElem?_append_left hlt, hget, Option.getD_some]
    refine ⟨_, kv₁, _, flat', state, fresh, rfl, hchecked hrefuse, hevicted, hinv, rfl, rfl, ?_⟩
    refine { shape := rfl, originalBlocks := rfl, copied := rfl,
             missing := hlen.trans hmissing.symm,
             nodup := List.nodup_cons.mpr ⟨fun hm => ?_, hnd⟩, new := fun x hx => ?_,
             partial_tail := fun _ => ?_, source := fun copy hc => ?_,
             in_place := fun hc => (by cases hc), config := hcfg'.trans hcfg₁, peak := hpeak',
             accounts := hacc'.congr fun x => ?_ }
    · have hcount : 0 < fresh.count replacement := List.count_pos_iff.mpr hm
      omega
    -- the new page has no lease, as it was free
    · rw [hleases]
      rcases List.mem_cons.mp hx with rfl | hx
      · omega
      · exact hnew x hx
    · rw [hevicted.config]
      exact hcow₀.1
    · obtain rfl := Option.some.inj hc
      exact ⟨hlast, by rw [hevicted.config], hb ▸ hshared⟩
    · rw [hleases]
      show _ = _ + (replacement :: fresh).count x
      rw [KvBlockPool.count_cons_eq replacement x fresh]
      omega

end TinyInfer.MiniPrefix
