import TinyInfer.MiniPrefix.KvInvariant

/-!
# The operations between transactions

Each operation of `KVManager` other than those of an append transaction keeps
`KvInv`. While a transaction is active they all refuse to run, except
`release_reservation`.

`fork_sequence` and `reuse_prefix` come with what a throwing call leaves behind:
`SameLedger`, that is the same sequences, reservations and page references.
-/

namespace TinyInfer.MiniPrefix

open Lib KVManager

/-- The manager has some flat cache and page positions that explain it. -/
def KvOk {α : Type} (spec : List TokenId → α) (payload : Nat → Nat → α) (kv : KVManager)
    (append : Option KVManager.Append) : Prop :=
  ∃ flat pos, KvInv spec payload kv append flat pos

variable {α : Type} {spec : List TokenId → α} {payload : Nat → Nat → α} {kv : KVManager}
  {append : Option KVManager.Append} {flat : FlatCache} {pos : Nat → Nat}

theorem KvInv.ok (h : KvInv spec payload kv append flat pos) : KvOk spec payload kv append :=
  ⟨flat, pos, h⟩

/-! ## Guards -/

theorem KvInv.requireIdle (h : KvInv spec payload kv append flat pos) :
    kv.requireIdle = .ok () ∧ append = none ∨
      append.isSome ∧
        kv.requireIdle = .error (.logicError "KV append transaction is active") := by
  rw [KVManager.requireIdle, h.active]
  cases append with
  | none => exact Or.inl ⟨rfl, rfl⟩
  | some a => exact Or.inr ⟨rfl, rfl⟩

theorem KvInv.not_appending (h : KvInv spec payload kv none flat pos) {id : RequestId}
    {state : State} (hs : kv.sequences.find? id = some state) : state.appending = false :=
  (h.idle id state hs fun a ha => by cases ha).1

theorem KvInv.anyAppending (h : KvInv spec payload kv none flat pos) :
    kv.anyAppending = false := by
  rw [KVManager.anyAppending, List.any_eq_false]
  rintro ⟨id, state⟩ hin
  simpa using h.not_appending (OrdMap.find?_eq_some_iff.mpr hin)

/-- `idle_state` hands out a state only between transactions. -/
theorem KvInv.idleState (h : KvInv spec payload kv append flat pos) (id : RequestId) :
    (∃ e, kv.idleState id = .error e) ∨
      ∃ state, kv.idleState id = .ok state ∧ append = none ∧
        kv.sequences.find? id = some state := by
  rw [KVManager.idleState]
  rcases h.requireIdle with ⟨hidle, rfl⟩ | ⟨-, hbusy⟩
  · rw [hidle]
    cases hfind : kv.sequences.find? id with
    | none => exact Or.inl ⟨_, rfl⟩
    | some state =>
      refine Or.inr ⟨state, ?_, rfl, rfl⟩
      simp only [h.not_appending hfind, Bool.false_eq_true, if_false]
  · rw [hbusy]
    exact Or.inl ⟨_, rfl⟩

/-! ## Reservations -/

/-- Only the reservations change. -/
theorem KvInv.withReservations (h : KvInv spec payload kv append flat pos)
    (reservations : OrdMap RequestId Nat)
    (hreserved : ∀ id pages, reservations.find? id = some pages → ∀ state,
      kv.sequences.find? id = some state → state.sequence.blocks.length ≤ pages)
    (hcommitted : reservations.isEmpty = false →
      ({ kv with reservations } : KVManager).committedBlocks ≤ kv.config.maxBlocks) :
    KvInv spec payload { kv with reservations } append flat pos where
  cache := h.cache
  accounts := h.accounts
  peak := h.peak
  entry := h.entry
  sequence := fun id state hs => { h.sequence id state hs with }
  active := h.active
  transaction := fun a ha => by
    obtain ⟨state, hs, hinv⟩ := h.transaction a ha
    exact ⟨state, hs, { hinv with }⟩
  idle := h.idle
  reserved := hreserved
  committed := hcommitted

theorem contains_iff {m : OrdMap RequestId Nat} {id : RequestId} :
    m.contains id = true ↔ ∃ pages, m.find? id = some pages := Option.isSome_iff_exists

/-- `reserve_request` on an id with neither a sequence nor a reservation. -/
theorem committedBlocks_reserve {id : RequestId} (pages : Nat)
    (hseq : kv.sequences.find? id = none) (hres : kv.reservations.find? id = none) :
    ({ kv with reservations := kv.reservations.insert id pages } : KVManager).committedBlocks =
      kv.committedBlocks + pages := by
  rw [committedBlocks, committedBlocks, OrdMap.sum_insert, OrdMap.erase_eq_self hres]
  have hcongr : (kv.sequences.sum fun other state =>
        if (kv.reservations.insert id pages).contains other then 0
        else state.sequence.blocks.length) =
      kv.sequences.sum fun other state =>
        if kv.reservations.contains other then 0 else state.sequence.blocks.length := by
    refine OrdMap.sum_congr fun other state hs => ?_
    have hne : other ≠ id := by
      rintro rfl
      rw [hseq] at hs
      cases hs
    rw [OrdMap.contains, OrdMap.contains, OrdMap.find?_insert_ne _ _ hne]
  simp only [hcongr]
  omega

/-- A reservation keeps the invariant, granted or refused. -/
theorem KvInv.reserveRequest (h : KvInv spec payload kv append flat pos) (id : RequestId)
    (maxTokens : Nat) : KvInv spec payload (kv.reserveRequest id maxTokens).2 append flat pos := by
  rw [KVManager.reserveRequest]
  rcases h.requireIdle with ⟨hidle, rfl⟩ | ⟨-, hbusy⟩
  swap
  · rw [hbusy]
    exact h
  rw [hidle]
  simp only
  split
  · exact h
  next hnew =>
  split
  · exact h
  split
  · exact h
  split
  · exact h
  next hroom =>
  simp only [not_or, Bool.not_eq_true, not_lt] at hnew hroom
  have hseq : kv.sequences.find? id = none := Option.isNone_iff_eq_none.mp (by
    simpa [KVManager.contains, OrdMap.contains] using hnew.1)
  have hres : kv.reservations.find? id = none := Option.isNone_iff_eq_none.mp (by
    simpa [OrdMap.contains] using hnew.2)
  rw [OrdMap.emplace_eq_insert _ hres]
  refine h.withReservations _ (fun other pages hr state hs => ?_) fun _ => ?_
  · rw [OrdMap.find?_insert_ne] at hr
    · exact h.reserved other pages hr state hs
    · rintro rfl
      rw [hseq] at hs
      cases hs
  · rw [committedBlocks_reserve _ hseq hres]
    omega

/-- Releasing a reservation keeps the invariant. -/
theorem KvInv.releaseReservation (h : KvInv spec payload kv append flat pos) (id : RequestId) :
    KvInv spec payload (kv.releaseReservation id) append flat pos := by
  refine h.withReservations _ (fun other pages hr state hs => ?_) fun hne => ?_
  -- the other reservations are kept
  · rw [OrdMap.find?_erase] at hr
    split at hr
    · cases hr
    · exact h.reserved other pages hr state hs
  · cases hfind : kv.reservations.find? id with
    -- there was no reservation to release
    | none =>
      rw [OrdMap.erase_eq_self hfind] at hne ⊢
      exact h.committed hne
    -- the pages promised to the request are free again
    | some pages =>
      have hbefore : kv.reservations.isEmpty = false := by
        rw [Bool.eq_false_iff, Ne, OrdMap.isEmpty_iff]
        intro hall
        rw [hall] at hfind
        cases hfind
      refine le_trans ?_ (h.committed hbefore)
      rw [committedBlocks, committedBlocks,
        OrdMap.sum_eq_add_erase (fun _ pages => pages) hfind]
      -- only the released sequence counts differently, and it kept to its pages
      have hsame : ∀ other, other ≠ id →
          (kv.reservations.erase id).contains other = kv.reservations.contains other :=
        fun other hother => by
          rw [OrdMap.contains, OrdMap.contains, OrdMap.find?_erase_ne _ hother]
      cases hs : kv.sequences.find? id with
      | none =>
        have hcongr : (kv.sequences.sum fun other state =>
              if (kv.reservations.erase id).contains other then 0
              else state.sequence.blocks.length) =
            kv.sequences.sum fun other state =>
              if kv.reservations.contains other then 0 else state.sequence.blocks.length := by
          refine OrdMap.sum_congr fun other state hs' => ?_
          have hother : other ≠ id := by
            rintro rfl
            rw [hs] at hs'
            cases hs'
          rw [hsame other hother]
        simp only [hcongr]
        omega
      | some state =>
        have hle := h.reserved id pages hfind state hs
        have hcongr : ((kv.sequences.erase id).sum fun other state =>
              if (kv.reservations.erase id).contains other then 0
              else state.sequence.blocks.length) =
            (kv.sequences.erase id).sum fun other state =>
              if kv.reservations.contains other then 0 else state.sequence.blocks.length := by
          refine OrdMap.sum_congr fun other state hs' => ?_
          have hother : other ≠ id := by
            rintro rfl
            rw [OrdMap.find?_erase, if_pos rfl] at hs'
            cases hs'
          rw [hsame other hother]
        rw [OrdMap.sum_eq_add_erase _ hs, OrdMap.sum_eq_add_erase _ hs]
        simp only [hcongr]
        split <;> omega

/-! ## The ledger -/

/-- Nothing a throwing `fork_sequence` or `reuse_prefix` may touch has changed. -/
structure SameLedger (kv kv' : KVManager) : Prop where
  sequences : kv'.sequences = kv.sequences
  reservations : kv'.reservations = kv.reservations
  references : kv'.pool.references = kv.pool.references
  forwardTokens : kv'.forwardTokens = kv.forwardTokens
  appendActive : kv'.appendActive = kv.appendActive

theorem SameLedger.refl (kv : KVManager) : SameLedger kv kv := ⟨rfl, rfl, rfl, rfl, rfl⟩

/-! ## Changing one sequence -/

/-- Between transactions: only the sequence `id`, the cache and the pool change. -/
theorem KvInv.replaceIdle (h : KvInv spec payload kv none flat pos) (id : RequestId)
    (state' : State) {kv' : KVManager} {flat' : FlatCache} {old : State}
    (hhold : (kv.sequences.find? id).getD {} = old)
    (hseq : kv'.sequences = kv.sequences.insert id state') (hcontext : kv'.context = kv.context)
    (hconfig : kv'.config = kv.config) (hres : kv'.reservations = kv.reservations)
    (hactive : kv'.appendActive = kv.appendActive)
    (hcache : Represents kv.config.blockTokens kv'.prefixCache flat') {held : Nat → Nat}
    (haccounts : kv'.pool.Accounts held)
    (hheld : ∀ b, held b + old.sequence.blocks.count b =
      kv.sequenceLeases b + state'.sequence.blocks.count b + flat'.pages.count b)
    (hpeak : kv'.pool.live ≤ kv'.pool.peak)
    (hentry : ∀ e ∈ flat'.entries, e ∈ flat.entries ∨
      EntryInv spec payload kv.config.blockTokens pos e.1 e.2)
    (hsequence : SequenceInv spec payload kv none pos id state'.sequence)
    (happending : state'.appending = false)
    (hlength : state'.sequence.blocks.length =
      pagesFor kv.config.blockTokens state'.sequence.used)
    (hreserved : ∀ pages, kv.reservations.find? id = some pages →
      state'.sequence.blocks.length ≤ pages)
    (hcommitted : kv.reservations.isEmpty = false →
      kv.committedBlocks + commitment kv.reservations id state' ≤
        kv.config.maxBlocks + commitment kv.reservations id old) :
    KvInv spec payload kv' none flat' pos := by
  have hno : ∀ a, (none : Option KVManager.Append) = some a → a.id = id := fun a ha => by cases ha
  refine h.replace id state' hno hno hseq hcontext hconfig hres (by rw [hconfig]; exact hcache)
    (haccounts.congr fun b => ?_) hpeak (fun _ _ _ _ _ _ _ => rfl)
    (fun k b he => (hentry _ he).elim (h.entry k b) fun hnew => hnew) ?_ (hactive.trans h.active)
      (fun a ha => by cases ha)
    (fun _ => ⟨happending, hlength⟩) hreserved fun hne => ?_
  · have hleases := sequenceLeases_insert kv kv' id state' hseq b
    rw [hhold] at hleases
    have hb := hheld b
    show held b = kv'.sequenceLeases b + 0 + flat'.pages.count b
    omega
  · refine { length := hsequence.length, fits := by rw [hcontext]; exact hsequence.fits,
             covered := by rw [hconfig]; exact hsequence.covered, position := hsequence.position,
             stored := by rw [hconfig]; exact hsequence.stored }
  · have hsum := committedBlocks_insert kv kv' id state' hseq hres
    rw [hhold] at hsum
    have := hcommitted hne
    omega

/-- Between transactions: only the cache and the pool change. -/
theorem KvInv.withCache (h : KvInv spec payload kv none flat pos) {kv' : KVManager}
    {flat' : FlatCache} (hseq : kv'.sequences = kv.sequences) (hcontext : kv'.context = kv.context)
    (hconfig : kv'.config = kv.config) (hres : kv'.reservations = kv.reservations)
    (hactive : kv'.appendActive = kv.appendActive)
    (hcache : Represents kv.config.blockTokens kv'.prefixCache flat')
    (haccounts : kv'.pool.Accounts fun b => kv.sequenceLeases b + flat'.pages.count b)
    (hpeak : kv'.pool.live ≤ kv'.pool.peak)
    (hentry : ∀ e ∈ flat'.entries, e ∈ flat.entries ∨
      EntryInv spec payload kv.config.blockTokens pos e.1 e.2) :
    KvInv spec payload kv' none flat' pos where
  cache := by rw [hconfig]; exact hcache
  accounts := haccounts.congr fun b => by rw [outside, sequenceLeases, sequenceLeases, hseq]; rfl
  peak := hpeak
  entry := fun k b he => by
    rw [hconfig]
    exact (hentry _ he).elim (h.entry k b) fun hnew => hnew
  sequence := fun id state hs => by
    have hhold := h.sequence id state (hseq ▸ hs)
    exact { length := hhold.length, fits := by rw [hcontext]; exact hhold.fits,
            covered := by rw [hconfig]; exact hhold.covered, position := hhold.position,
            stored := by rw [hconfig]; exact hhold.stored }
  active := hactive.trans h.active
  transaction := fun a ha => by cases ha
  idle := fun id state hs hne => by
    rw [hconfig]
    exact h.idle id state (hseq ▸ hs) hne
  reserved := fun id pages hp state hs => h.reserved id pages (hres ▸ hp) state (hseq ▸ hs)
  committed := fun hne => by
    rw [committedBlocks, hseq, hres, hconfig]
    exact h.committed (hres ▸ hne)

theorem SequenceInv.empty (kv : KVManager) (pos : Nat → Nat) (id : RequestId) :
    SequenceInv spec payload kv none pos id {} where
  length := rfl
  fits := Nat.zero_le _
  covered := by simp
  position := fun j b hb => by simp at hb
  stored := fun t ht => by simp at ht

/-- Creating a sequence keeps the invariant, also where it throws. -/
theorem KvInv.create (h : KvInv spec payload kv append flat pos) (id : RequestId) :
    KvInv spec payload (kv.create id).2 append flat pos := by
  rw [KVManager.create]
  rcases h.requireIdle with ⟨hidle, rfl⟩ | ⟨-, hbusy⟩
  swap
  · rw [hbusy]
    exact h
  rw [hidle]
  simp only
  split
  · exact h
  next hnew =>
  have hfind : kv.sequences.find? id = none := Option.isNone_iff_eq_none.mp (by
    simpa [KVManager.contains, OrdMap.contains] using hnew)
  rw [OrdMap.emplace_eq_insert _ hfind]
  refine h.replaceIdle id {} (show (kv.sequences.find? _).getD {} = {} by rw [hfind]; rfl) rfl rfl
    rfl rfl rfl h.cache h.accounts
    (fun b => rfl) h.peak (fun e he => Or.inl he) (.empty kv pos id) rfl (by simp)
    (fun _ _ => Nat.zero_le _) fun hne => ?_
  have := h.committed hne
  omega

/-! ## Forks -/

theorem sequence_eq_ok {id : RequestId} {sequence : PagedSequence}
    (h : kv.sequence id = .ok sequence) :
    ∃ state, kv.sequences.find? id = some state ∧ state.sequence = sequence := by
  rw [KVManager.sequence] at h
  cases hfind : kv.sequences.find? id with
  | none =>
    rw [hfind] at h
    cases h
  | some state =>
    rw [hfind] at h
    cases h
    exact ⟨state, rfl, rfl⟩

theorem PagedSequence.eq_empty {sequence : PagedSequence} (hused : sequence.used = 0)
    (hblocks : sequence.blocks = []) (htokens : sequence.tokens = []) : sequence = {} := by
  obtain ⟨u, bs, ts⟩ := sequence
  simp only at hused hblocks htokens
  rw [hused, hblocks, htokens]

/-- The pages of a sequence are leased. -/
theorem outside_pos {id : RequestId} {state : State} (hs : kv.sequences.find? id = some state) :
    ∀ b ∈ state.sequence.blocks, 0 < outside kv append b := by
  intro b hb
  obtain ⟨j, hj⟩ := List.mem_iff_getElem?.mp hb
  exact Nat.lt_of_lt_of_le (sequenceLeases_pos hs hj) (Nat.le_add_right _ _)

/-- A fork throws and changes nothing, or gives the empty target the history and
the pages of the source. -/
theorem KvInv.forkSequence (h : KvInv spec payload kv append flat pos)
    (source target : RequestId) :
    (∃ e, kv.forkSequence source target = (.error e, kv)) ∨
      ∃ original pool, append = none ∧ kv.sequences.find? source = some original ∧
        kv.sequences.find? target = some {} ∧
        kv.forkSequence source target = (.ok (), { kv with
          pool, sequences := kv.sequences.insert target { sequence := original.sequence } }) ∧
        KvInv spec payload { kv with
          pool, sequences := kv.sequences.insert target { sequence := original.sequence } }
          none flat pos ∧ pool.config = kv.pool.config := by
  rw [KVManager.forkSequence]
  rcases h.requireIdle with ⟨hidle, rfl⟩ | ⟨-, hbusy⟩
  swap
  · rw [hbusy]
    exact Or.inl ⟨_, rfl⟩
  rw [hidle]
  simp only
  cases hsource : kv.sequence source with
  | error e => exact Or.inl ⟨e, rfl⟩
  | ok sequence =>
  rcases h.idleState target with ⟨e, htarget⟩ | ⟨state, htarget, -, hfind⟩
  · simp only [htarget]
    exact Or.inl ⟨e, rfl⟩
  simp only [htarget]
  split
  · exact Or.inl ⟨_, rfl⟩
  -- the target exists and is empty
  next hempty =>
  simp only [not_or, not_not] at hempty
  obtain ⟨hne, hused, hblocks, htokens⟩ := hempty
  obtain ⟨original, horiginal, rfl⟩ := sequence_eq_ok hsource
  have hstate : state = {} := by
    have happending := h.not_appending hfind
    have hseq := PagedSequence.eq_empty hused hblocks htokens
    -- an idle and empty sequence is the initial state
    obtain ⟨sequence, appending⟩ := state
    simp only at happending hseq
    rw [happending, hseq]
  subst hstate
  split
  · next e he => exact Or.inl ⟨e, rfl⟩
  -- the reservation of the target covers the shared pages
  next hroom =>
  -- every page of the source gets one reference more
  obtain ⟨pool, hret, hcfg, -, hacc⟩ := KvBlockPool.retainAll_spec h.accounts fun b hb =>
    Nat.lt_of_lt_of_le (outside_pos horiginal b hb) (Nat.le_add_right _ _)
  have hpeak := kv.pool.retainAll_peak original.sequence.blocks
  rw [hret] at hpeak ⊢
  refine Or.inr ⟨original, pool, trivial, horiginal, hfind, ?_, ?_, hcfg⟩
  · simp only [setSequence, hfind, Option.getD_some]
  refine h.replaceIdle target { sequence := original.sequence }
    (show (kv.sequences.find? _).getD {} = {} by rw [hfind]; rfl)
    rfl rfl hcfg rfl rfl h.cache hacc (fun b => ?_) ?_ (fun e he => Or.inl he)
    { h.sequence source original horiginal with } rfl
    (h.idle source original horiginal fun a ha => by cases ha).2 (fun pages hpages => ?_)
    fun hne => ?_
  · simp only [outside, sourcePages, List.count_nil]
    omega
  · exact hpeak.2.le.trans (h.peak.trans hpeak.1.ge)
  -- the limits of the reservations
  · rw [hpages] at hroom
    simp only [gt_iff_lt, ite_eq_right_iff, reduceCtorEq, imp_false, not_lt] at hroom
    exact hroom
  · have hle := h.committed hne
    rw [commitment, commitment]
    split
    · omega
    · next hnone =>
      have hnone' : kv.reservations.find? target = none := Option.isNone_iff_eq_none.mp (by
        simpa [OrdMap.contains] using hnone)
      rw [hnone'] at hroom
      simp only [gt_iff_lt, ite_eq_right_iff, reduceCtorEq, imp_false, not_or, not_lt] at hroom
      dsimp only
      omega

/-! ## Prefix reuse -/

theorem KvInv.position_of_backs (h : KvInv spec payload kv append flat pos)
    {k prompt : List TokenId} {b j total : Nat} (hk : (k, b) ∈ flat.entries)
    (hb : FlatCache.Backs kv.config.blockTokens prompt total j k) : pos b = j := by
  have hpos := (h.entry k b hk).1
  rw [pagesFor_of_lt hb.lt hb.le] at hpos
  omega

/-- A matched token is stored in the page that backs it. -/
theorem KvInv.stored_of_backs (h : KvInv spec payload kv append flat pos)
    {k prompt : List TokenId} {b total t : Nat} (hk : (k, b) ∈ flat.entries)
    (hb : FlatCache.Backs kv.config.blockTokens prompt total (t / kv.config.blockTokens) k)
    (ht : t < total) :
    payload b (t % kv.config.blockTokens) = spec (prompt.take (t + 1)) := by
  have hbt := kv.pool.valid.blockTokens_pos
  have hlt : t < min total (kv.config.blockTokens * (t / kv.config.blockTokens + 1)) := by
    have hdm := Nat.div_add_mod t kv.config.blockTokens
    have hml := Nat.mod_lt t hbt
    rw [Nat.mul_add]
    exact Nat.lt_min.mpr ⟨ht, by simp only [KVManager.config] at hdm hml ⊢; omega⟩
  rw [(h.entry k b hk).2 t (Nat.lt_of_lt_of_le hlt hb.covers) (h.position_of_backs hk hb).symm]
  have htake := congrArg (List.take (t + 1)) hb.agrees
  rw [List.take_take, List.take_take, Nat.min_eq_left hlt] at htake
  rw [htake]

/-- A call of `reuse_prefix` that no check refuses. -/
structure ReuseReady (kv : KVManager) (append : Option KVManager.Append) (id : RequestId)
    (prompt : List TokenId) : Prop where
  idle : append = none
  prompt_ne : prompt ≠ []
  fits : prompt.length ≤ kv.context
  tokens : kv.validTokens prompt = true
  sequence : kv.sequences.find? id = some {}
  pages : ∃ pages, kv.reservations.find? id = some pages ∧
    pagesFor kv.config.blockTokens prompt.length ≤ pages

/-- The cache has given an empty sequence a prefix of a prompt. -/
structure Restored (spec : List TokenId → α) (payload : Nat → Nat → α) (kv : KVManager)
    (flat flat' : FlatCache) (pos : Nat → Nat) (id : RequestId) (prompt : List TokenId)
    (count : Nat) (found : List Nat) (cache : ExactPrefixCache) (pool : KvBlockPool) : Prop where
  config : pool.config = kv.pool.config
  perm : flat'.entries.Perm flat.entries
  rep : Represents kv.config.blockTokens cache flat'
  count_le : count ≤ prompt.length - 1
  length : found.length = pagesFor kv.config.blockTokens count
  accounts : pool.Accounts fun b => (kv.sequenceLeases b + found.count b) + flat'.pages.count b
  peak : pool.live ≤ pool.peak
  sequence : SequenceInv spec payload kv none pos id
    { used := count, blocks := found, tokens := prompt.take count }

/-- The trie answers like the flat cache, and that one is known never to throw. -/
theorem KvInv.restored (h : KvInv spec payload kv none flat pos) (id : RequestId)
    {prompt : List TokenId} (hfits : prompt.length ≤ kv.context) :
    ∃ count found cache pool flat', kv.prefixCache.reuse kv.pool {} prompt =
        (.ok count, { used := count, blocks := found, tokens := prompt.take count }, cache, pool) ∧
      Restored spec payload kv flat flat' pos id prompt count found cache pool := by
  have hbefore : kv.pool.Accounts fun b => kv.sequenceLeases b + flat.pages.count b := h.accounts
  obtain ⟨outcome, sequence, cache', flat', pool', hrun, hflat, hrep⟩ := h.cache.reuse {} prompt
  obtain ⟨count, found, flat₁, pool₁, heq, hcfg, hperm, hcount, hlen, hacc, hback⟩ :=
    FlatCache.reuse_accounts hbefore (show ({} : PagedSequence).used = 0 from rfl) rfl rfl prompt
  rw [hflat] at heq
  simp only [Prod.mk.injEq] at heq
  obtain ⟨rfl, rfl, rfl, rfl⟩ := heq
  have hpeak := flat.reuse_peak kv.pool {} prompt
  rw [hflat] at hpeak
  have hle : count ≤ prompt.length := by omega
  refine ⟨count, found, cache', pool', flat', hrun, hcfg, hperm, hrep, hcount, hlen, hacc,
    hpeak.2.trans (h.peak.trans hpeak.1.ge), ?_⟩
  exact {
    length := by simp [hle]
    fits := hle.trans hfits
    covered := hlen.ge
    position := fun j b hj => by
      obtain ⟨k, hk, hb⟩ := hback j b hj
      exact h.position_of_backs hk hb
    stored := fun t ht b hb => by
      obtain ⟨k, hk, hbk⟩ := hback _ b hb
      rw [h.stored_of_backs hk hbk ht, List.take_take, Nat.min_eq_left ht] }

section Restored

variable {flat' : FlatCache} {id : RequestId} {prompt : List TokenId} {count : Nat}
  {found : List Nat} {cache : ExactPrefixCache} {pool : KvBlockPool} {kv' : KVManager}

theorem Restored.entry
    (hr : Restored spec payload kv flat flat' pos id prompt count found cache pool)
    {e : List TokenId × Nat} (he : e ∈ flat'.entries) :
    e ∈ flat.entries ∨ EntryInv spec payload kv.config.blockTokens pos e.1 e.2 :=
  Or.inl (hr.perm.mem_iff.mp he)

/-- A late refusal gives the pages back. -/
theorem Restored.released
    (hr : Restored spec payload kv flat flat' pos id prompt count found cache pool)
    (h : KvInv spec payload kv none flat pos) (hfind : kv.sequences.find? id = some {})
    (hseq : kv'.sequences = (kv.sequences.insert id { sequence :=
      { used := count, blocks := found, tokens := prompt.take count } }).insert id {})
    (hpool : kv'.pool = pool.unrefAll found.reverse) (hcache : kv'.prefixCache = cache)
    (hcontext : kv'.context = kv.context) (hres : kv'.reservations = kv.reservations)
    (hforward : kv'.forwardTokens = kv.forwardTokens)
    (hactive : kv'.appendActive = kv.appendActive) (hno : ¬ ReuseReady kv none id prompt) :
    SameLedger kv kv' ∧ KvInv spec payload kv' none flat' pos ∧
      ¬ ReuseReady kv none id prompt ∧ kv'.config = kv.config := by
  have hbefore : kv.pool.Accounts fun b => kv.sequenceLeases b + flat.pages.count b := h.accounts
  have hseq' : kv'.sequences = kv.sequences := by
    rw [hseq, OrdMap.insert_insert_self, OrdMap.insert_eq_self hfind]
  have hacc' : kv'.pool.Accounts fun b => kv.sequenceLeases b + flat'.pages.count b := by
    rw [hpool]
    refine KvBlockPool.unrefAll_accounts hr.accounts fun b => ?_
    rw [List.count_reverse]
    omega
  have hcfg' : kv'.config = kv.config := by
    rw [KVManager.config, hpool, KvBlockPool.unrefAll_config, hr.config]
    rfl
  have hpeak := pool.unrefAll_peak found.reverse
  refine ⟨⟨hseq', hres, funext fun b => ?_, hforward, hactive⟩,
    h.withCache hseq' hcontext hcfg' hres hactive (hcache ▸ hr.rep) hacc' ?_ (fun e => hr.entry),
    hno, hcfg'⟩
  · rw [hacc'.refs, hbefore.refs, FlatCache.pages, FlatCache.pages,
      (hr.perm.map Prod.snd).count_eq b]
  · rw [hpool]
    exact hpeak.2.trans (hr.peak.trans hpeak.1.ge)

/-- The sequence keeps what the cache gave it, if its reservation or the pool has room. -/
theorem Restored.kept
    (hr : Restored spec payload kv flat flat' pos id prompt count found cache pool)
    (h : KvInv spec payload kv none flat pos) (hfind : kv.sequences.find? id = some {})
    (hseq : kv'.sequences = kv.sequences.insert id { sequence :=
      { used := count, blocks := found, tokens := prompt.take count } })
    (hpool : kv'.pool = pool) (hcache : kv'.prefixCache = cache)
    (hcontext : kv'.context = kv.context) (hres : kv'.reservations = kv.reservations)
    (hactive : kv'.appendActive = kv.appendActive)
    (hpages : ∀ pages, kv.reservations.find? id = some pages → found.length ≤ pages)
    (hcommitted : kv.reservations.isEmpty = false →
      kv'.committedBlocks ≤ kv.config.maxBlocks) :
    KvInv spec payload kv' none flat' pos := by
  have hcfg' : kv'.config = kv.config := by
    rw [KVManager.config, hpool, hr.config]
    rfl
  refine h.replaceIdle id _ (show (kv.sequences.find? id).getD {} = {} by rw [hfind]; rfl) hseq
    hcontext hcfg' hres hactive (hcache ▸ hr.rep) (hpool ▸ hr.accounts) (fun b => ?_)
    (hpool ▸ hr.peak) (fun e => hr.entry) hr.sequence rfl hr.length hpages fun hne => ?_
  · dsimp only
    simp only [List.count_nil]
    omega
  · have hsum := committedBlocks_insert kv kv' id _ hseq hres
    rw [hfind, Option.getD_some] at hsum
    have := hcommitted hne
    omega

end Restored

/-- A reserved sequence does not count, so a new one commits no further page. -/
theorem KvInv.committed_reserved (h : KvInv spec payload kv append flat pos) {id : RequestId}
    {old state : State} {pages : Nat} (hfind : kv.sequences.find? id = some old)
    (hpages : kv.reservations.find? id = some pages) {kv' : KVManager}
    (hseq : kv'.sequences = kv.sequences.insert id state)
    (hres : kv'.reservations = kv.reservations) :
    kv'.committedBlocks ≤ kv.config.maxBlocks := by
  have hne : kv.reservations.isEmpty = false := by
    rw [Bool.eq_false_iff, Ne, OrdMap.isEmpty_iff]
    intro hall
    rw [hall] at hpages
    cases hpages
  have hsum := committedBlocks_insert kv kv' id state hseq hres
  rw [hfind, Option.getD_some, commitment, commitment,
    if_pos (contains_iff.mpr ⟨_, hpages⟩), if_pos (contains_iff.mpr ⟨_, hpages⟩)] at hsum
  have := h.committed hne
  omega

/-- What is left to check once the cache has answered: the reservation of the sequence,
or the pages that the reservations of others leave. -/
theorem Restored.reusePrefix {flat' : FlatCache} {id : RequestId} {prompt : List TokenId}
    {count : Nat} {found : List Nat} {cache : ExactPrefixCache} {pool : KvBlockPool}
    (hr : Restored spec payload kv flat flat' pos id prompt count found cache pool)
    (h : KvInv spec payload kv none flat pos) (hfind : kv.sequences.find? id = some {})
    (hrun : kv.prefixCache.reuse kv.pool {} prompt =
      (.ok count, { used := count, blocks := found, tokens := prompt.take count }, cache, pool))
    (hfits : prompt.length ≤ kv.context) (hprompt : prompt ≠ [])
    (htokens : kv.validTokens prompt = true) (hstate : kv.idleState id = .ok {}) :
    (∃ e kv' flat', kv.reusePrefix id prompt = (.error e, kv') ∧ SameLedger kv kv' ∧
        KvInv spec payload kv' none flat' pos ∧ ¬ ReuseReady kv none id prompt ∧
        kv'.config = kv.config) ∨
      ∃ costs, kv.reusePrefix id prompt = (.ok count, { kv with
          pool, prefixCache := cache, costs
          sequences := kv.sequences.insert id
            { sequence := { used := count, blocks := found, tokens := prompt.take count } } }) ∧
        KvInv spec payload { kv with
          pool, prefixCache := cache, costs
          sequences := kv.sequences.insert id
            { sequence := { used := count, blocks := found, tokens := prompt.take count } } }
          none flat' pos := by
  have hle : count ≤ prompt.length := by
    have := hr.count_le
    omega
  rw [KVManager.reusePrefix, if_neg (by simp [hprompt, hfits]), if_neg (not_not.mpr htokens),
    hstate]
  -- the restored pages are kept or given back, as the limits say
  simp only [hrun, setSequence, hfind, Option.getD_some, OrdMap.find?_insert_self,
    KvBlockPool.release_eq]
  cases hres : kv.reservations.find? id with
  -- the request has a reservation
  | some pages =>
    simp only
    split
    · next hmore =>
      refine Or.inl ⟨_, _, flat', rfl,
        hr.released h hfind rfl rfl rfl rfl rfl rfl rfl fun hready => ?_⟩
      obtain ⟨pages', hpages', hroom⟩ := hready.pages
      rw [hres] at hpages'
      obtain rfl := Option.some.inj hpages'
      have hmono : found.length ≤ pagesFor kv.config.blockTokens prompt.length :=
        hr.length.trans_le (pagesFor_mono hle)
      omega
    next hroom =>
    -- the check on the committed pages cannot refuse after the one on the reservation
    split
    · next hmore =>
      exact absurd hmore (Nat.not_lt.mpr (le_of_le_of_eq (h.committed_reserved hfind hres rfl rfl)
        (congrArg KvCacheConfig.maxBlocks hr.config.symm)))
    · refine Or.inr ⟨_, rfl, hr.kept h hfind rfl rfl rfl rfl rfl rfl (fun pages' hp => ?_)
        fun _ => h.committed_reserved hfind hres rfl rfl⟩
      rw [hres] at hp
      obtain rfl := Option.some.inj hp
      omega
  -- the request has none
  | none =>
    simp only
    split
    · refine Or.inl ⟨_, _, flat', rfl,
        hr.released h hfind rfl rfl rfl rfl rfl rfl rfl fun hready => ?_⟩
      obtain ⟨pages, hpages, -⟩ := hready.pages
      rw [hres] at hpages
      cases hpages
    · next hroom =>
      refine Or.inr ⟨_, rfl, hr.kept h hfind rfl rfl rfl rfl rfl rfl (fun pages hp => ?_)
        fun hne => ?_⟩
      · rw [hres] at hp
        cases hp
      · simp only [hne, Bool.false_eq_true, not_false_eq_true, true_and, gt_iff_lt, not_lt]
          at hroom
        exact hroom.trans_eq (congrArg _ hr.config)

/-- The cache refuses a sequence that is not empty. -/
theorem KvInv.reusePrefix_busy (h : KvInv spec payload kv none flat pos) {id : RequestId}
    {prompt : List TokenId} {state : State} (hfind : kv.sequences.find? id = some state)
    (hstate : kv.idleState id = .ok state)
    (hbusy : state.sequence.used ≠ 0 ∨ state.sequence.blocks ≠ [] ∨ state.sequence.tokens ≠ [])
    (hfits : prompt.length ≤ kv.context) (hprompt : prompt ≠ [])
    (htokens : kv.validTokens prompt = true) :
    ∃ e kv', kv.reusePrefix id prompt = (.error e, kv') ∧ SameLedger kv kv' ∧
      KvInv spec payload kv' none flat pos ∧ kv'.config = kv.config := by
  have hrun : kv.prefixCache.reuse kv.pool state.sequence prompt =
      (.error (.invalidArgument "prefix reuse requires an empty sequence"), state.sequence,
        kv.prefixCache, kv.pool) := by
    rw [ExactPrefixCache.reuse, if_pos hbusy]
  have hself : kv.sequences.insert id { (kv.sequences.find? id).getD {} with
      sequence := state.sequence } = kv.sequences := by
    rw [hfind]
    exact OrdMap.insert_eq_self hfind
  rw [KVManager.reusePrefix, if_neg (by simp [hprompt, hfits]), if_neg (not_not.mpr htokens),
    hstate]
  simp only [hrun]
  exact ⟨_, _, rfl, ⟨hself, rfl, rfl, rfl, rfl⟩,
    h.withCache hself rfl rfl rfl rfl h.cache h.accounts h.peak fun e he => Or.inl he, rfl⟩

/-- A reuse throws and leaves the ledger as it was, or gives the empty sequence a
proper prefix of the prompt. -/
theorem KvInv.reusePrefix (h : KvInv spec payload kv append flat pos) (id : RequestId)
    (prompt : List TokenId) :
    (∃ e kv' flat', kv.reusePrefix id prompt = (.error e, kv') ∧ SameLedger kv kv' ∧
        KvInv spec payload kv' append flat' pos ∧ ¬ ReuseReady kv append id prompt ∧
        kv'.config = kv.config) ∨
      ∃ count found prefixCache pool costs flat', append = none ∧
        kv.sequences.find? id = some {} ∧ count ≤ prompt.length - 1 ∧
        kv.reusePrefix id prompt = (.ok count, { kv with
          pool, prefixCache, costs
          sequences := kv.sequences.insert id
            { sequence := { used := count, blocks := found, tokens := prompt.take count } } }) ∧
        KvInv spec payload { kv with
          pool, prefixCache, costs
          sequences := kv.sequences.insert id
            { sequence := { used := count, blocks := found, tokens := prompt.take count } } }
          none flat' pos ∧ pool.config = kv.pool.config := by
  by_cases hrefused : prompt = [] ∨ prompt.length > kv.context
  · rw [KVManager.reusePrefix, if_pos hrefused]
    refine Or.inl ⟨_, kv, flat, rfl, .refl kv, h, fun hready => ?_, rfl⟩
    exact hrefused.elim hready.prompt_ne (Nat.not_lt.mpr hready.fits)
  obtain ⟨hprompt, hlong⟩ := not_or.mp hrefused
  have hfits := Nat.not_lt.mp hlong
  by_cases htokens : kv.validTokens prompt = true
  swap
  · rw [KVManager.reusePrefix, if_neg hrefused, if_pos htokens]
    exact Or.inl ⟨_, kv, flat, rfl, .refl kv, h, fun hready => htokens hready.tokens, rfl⟩
  rcases h.idleState id with ⟨e, hstate⟩ | ⟨state, hstate, rfl, hfind⟩
  · rw [KVManager.reusePrefix, if_neg hrefused, if_neg (not_not.mpr htokens), hstate]
    refine Or.inl ⟨e, kv, flat, rfl, .refl kv, h, fun hready => ?_, rfl⟩
    have hidle := h.requireIdle.resolve_right fun hbusy => by simp [hready.idle] at hbusy
    simp [KVManager.idleState, hidle.1, hready.sequence] at hstate
  by_cases hbusy : state.sequence.used ≠ 0 ∨ state.sequence.blocks ≠ [] ∨
      state.sequence.tokens ≠ []
  · obtain ⟨e, kv', hrun, hledger, hinv, hcfg⟩ :=
      h.reusePrefix_busy hfind hstate hbusy hfits hprompt htokens
    refine Or.inl ⟨e, kv', flat, hrun, hledger, hinv, fun hready => ?_, hcfg⟩
    obtain rfl : state = {} := (Option.some.inj (hready.sequence.symm.trans hfind)).symm
    simp at hbusy
  simp only [not_or, not_not] at hbusy
  obtain ⟨hused, hblocks, hhist⟩ := hbusy
  have happending := h.not_appending hfind
  obtain rfl : state = {} := by
    have hseq := PagedSequence.eq_empty hused hblocks hhist
    obtain ⟨sequence, appending⟩ := state
    simp only at happending hseq
    rw [happending, hseq]
  obtain ⟨count, found, cache, pool, flat', hrun, hr⟩ := h.restored id hfits
  rcases hr.reusePrefix h hfind hrun hfits hprompt htokens hstate with hthrown | ⟨costs, heq, hinv⟩
  · exact Or.inl hthrown
  · exact Or.inr ⟨count, found, cache, pool, costs, flat', rfl, hfind, hr.count_le, heq, hinv,
      hr.config⟩

/-! ## The prefix cache -/

/-- The histories `publish` enters are stored in the pages of their sequence. -/
theorem KvInv.pageEntry (h : KvInv spec payload kv none flat pos) {id : RequestId}
    {state : State} (hfind : kv.sequences.find? id = some state) {j : Nat}
    (hj : j < FlatCache.publishCount kv.pool state.sequence) :
    EntryInv spec payload kv.config.blockTokens pos
      (FlatCache.pageEntry kv.config.blockTokens state.sequence j).1
      (FlatCache.pageEntry kv.config.blockTokens state.sequence j).2 := by
  have hseq := h.sequence id state hfind
  have hbt : 0 < kv.config.blockTokens := kv.pool.valid.blockTokens_pos
  have hcount : FlatCache.publishCount kv.pool state.sequence = min state.sequence.blocks.length
      (min ((state.sequence.used + kv.config.blockTokens - 1) / kv.config.blockTokens)
        kv.config.prefixCacheBlocks) := rfl
  have hblock : j < state.sequence.blocks.length := by omega
  have hbelow : kv.config.blockTokens * j < state.sequence.used := by
    have hdiv : (j + 1) * kv.config.blockTokens ≤
        state.sequence.used + kv.config.blockTokens - 1 :=
      (Nat.le_div_iff_mul_le hbt).mp (by omega)
    rw [Nat.add_mul, Nat.mul_comm j] at hdiv
    omega
  have hget : state.sequence.blocks[j]? = some (state.sequence.blocks.getD j 0) := by
    rw [List.getD_eq_getElem?_getD, List.getElem?_eq_getElem hblock, Option.getD_some]
  have hpos := hseq.position j _ hget
  have hmul : (j + 1) * kv.config.blockTokens = kv.config.blockTokens * (j + 1) :=
    Nat.mul_comm _ _
  have hnext : kv.config.blockTokens * (j + 1) =
      kv.config.blockTokens * j + kv.config.blockTokens := Nat.mul_succ _ _
  have hklen : (state.sequence.tokens.take
      (min state.sequence.used ((j + 1) * kv.config.blockTokens))).length =
      min state.sequence.used ((j + 1) * kv.config.blockTokens) := by
    rw [List.length_take, hseq.length]
    omega
  refine ⟨?_, fun t ht htj => ?_⟩
  · show pos (state.sequence.blocks.getD j 0) + 1 = pagesFor _ (state.sequence.tokens.take _).length
    rw [hklen, hpos, pagesFor_of_lt (k := j) (by omega) (by omega)]
  · have ht' : t < min state.sequence.used ((j + 1) * kv.config.blockTokens) := hklen ▸ ht
    have htj' : t / kv.config.blockTokens = j := htj.trans hpos
    show payload (state.sequence.blocks.getD j 0) _ = spec ((state.sequence.tokens.take _).take _)
    rw [List.take_take, Nat.min_eq_left ht']
    exact hseq.stored t (by omega) _ (htj' ▸ hget)

/-- `cache_prefix` throws only without an idle sequence of that name. -/
theorem KvInv.cachePrefix (h : KvInv spec payload kv append flat pos) (id : RequestId) :
    (∃ e, kv.cachePrefix id = (.error e, kv) ∧
        ¬ (append = none ∧ kv.sequences.contains id)) ∨
      ∃ prefixCache pool costs flat', append = none ∧
        kv.cachePrefix id = (.ok (), { kv with pool, prefixCache, costs }) ∧
        KvInv spec payload { kv with pool, prefixCache, costs } none flat' pos ∧
        pool.config = kv.pool.config := by
  rw [KVManager.cachePrefix]
  rcases h.idleState id with ⟨e, hstate⟩ | ⟨state, hstate, rfl, hfind⟩
  · rw [hstate]
    refine Or.inl ⟨e, rfl, fun ⟨hnone, hcontains⟩ => ?_⟩
    obtain ⟨state, hfind⟩ := Option.isSome_iff_exists.mp hcontains
    subst hnone
    have hidle := h.requireIdle.resolve_right fun hbusy => by simp at hbusy
    simp [KVManager.idleState, hidle.1, hfind, h.not_appending hfind] at hstate
  rw [hstate]
  have hbefore : kv.pool.Accounts fun b => kv.sequenceLeases b + flat.pages.count b := h.accounts
  have hseq := h.sequence id state hfind
  have hheld : ∀ b ∈ state.sequence.blocks, 0 < outside kv none b := outside_pos hfind
  obtain ⟨outcome, cache', flat', pool', hrun, hflat, hrep⟩ := h.cache.publish state.sequence
  obtain ⟨flat₁, pool₁, heq, hcfg, hacc, hmem⟩ :=
    FlatCache.publish_accounts hbefore hseq.length hheld
  rw [hflat] at heq
  simp only [Prod.mk.injEq] at heq
  obtain ⟨rfl, rfl, rfl⟩ := heq
  have hpeak := flat.publish_peak kv.pool state.sequence
  rw [hflat] at hpeak
  simp only [hrun]
  refine Or.inr ⟨cache', pool', _, flat', trivial, rfl, h.withCache rfl rfl hcfg rfl rfl hrep
    hacc (hpeak.2.trans (h.peak.trans hpeak.1.ge)) fun e he => (hmem e he).imp_right ?_, hcfg⟩
  rintro ⟨j, hj, rfl⟩
  exact h.pageEntry hfind hj

/-- Clearing the cache keeps the invariant, or throws while an append is open. -/
theorem KvInv.clearPrefixCache (h : KvInv spec payload kv append flat pos) :
    (∃ e, kv.clearPrefixCache = (.error e, kv) ∧ append ≠ none) ∨
      ∃ prefixCache pool flat', append = none ∧
        kv.clearPrefixCache = (.ok (), { kv with pool, prefixCache }) ∧ flat'.entries = [] ∧
        KvInv spec payload { kv with pool, prefixCache } none flat' pos ∧
        pool.config = kv.pool.config := by
  rw [KVManager.clearPrefixCache]
  rcases h.requireIdle with ⟨hidle, rfl⟩ | ⟨hsome, hbusy⟩
  swap
  · rw [hbusy]
    exact Or.inl ⟨_, rfl, Option.isSome_iff_ne_none.mp hsome⟩
  have hbefore : kv.pool.Accounts fun b => kv.sequenceLeases b + flat.pages.count b := h.accounts
  obtain ⟨hpool, hrep⟩ := h.cache.clear kv.pool
  have hpeak := flat.clear_peak kv.pool
  simp only [hidle, h.anyAppending, Bool.false_eq_true, if_false, hpool]
  refine Or.inr ⟨_, _, (flat.clear kv.pool).1, trivial, rfl, rfl, h.withCache rfl rfl
    (flat.clear_config kv.pool) rfl rfl hrep ((FlatCache.clear_accounts hbefore).congr fun b => rfl)
    (hpeak.2.trans (h.peak.trans hpeak.1.ge)) fun e he => ?_, flat.clear_config kv.pool⟩
  cases he

/-! ## Giving sequences up -/

/-- `reset_sequence` empties the sequence and gives its pages back. -/
theorem KvInv.resetSequence (h : KvInv spec payload kv append flat pos) (id : RequestId) :
    (∃ e, kv.resetSequence id = (.error e, kv)) ∨
      ∃ state, append = none ∧ kv.sequences.find? id = some state ∧
        kv.resetSequence id = (.ok (), { kv with
          pool := kv.pool.unrefAll state.sequence.blocks.reverse
          sequences := kv.sequences.insert id {} }) := by
  rw [KVManager.resetSequence]
  rcases h.idleState id with ⟨e, hstate⟩ | ⟨state, hstate, rfl, hfind⟩
  · rw [hstate]
    exact Or.inl ⟨e, rfl⟩
  refine Or.inr ⟨state, rfl, hfind, ?_⟩
  simp only [hstate, KvBlockPool.release_eq, setSequence, hfind, Option.getD_some,
    h.not_appending hfind]

/-- Releasing the pages of a sequence keeps the invariant. -/
theorem KvInv.emptySequence (h : KvInv spec payload kv none flat pos) {id : RequestId}
    {state : State} (hfind : kv.sequences.find? id = some state) :
    KvInv spec payload { kv with
      pool := kv.pool.unrefAll state.sequence.blocks.reverse
      sequences := kv.sequences.insert id {} } none flat pos := by
  have hpeak := kv.pool.unrefAll_peak state.sequence.blocks.reverse
  have hacc : (kv.pool.unrefAll state.sequence.blocks.reverse).Accounts fun b =>
      kv.sequenceLeases b - state.sequence.blocks.count b + flat.pages.count b := by
    refine KvBlockPool.unrefAll_accounts h.accounts fun b => ?_
    have := le_sequenceLeases hfind b
    rw [List.count_reverse, outside, sourcePages, List.count_nil]
    omega
  have hcfg := kv.pool.unrefAll_config state.sequence.blocks.reverse
  refine h.replaceIdle id {} (show (kv.sequences.find? id).getD {} = state by rw [hfind]; rfl) rfl
    rfl hcfg rfl rfl h.cache hacc (fun b => ?_) (hpeak.2.trans (h.peak.trans hpeak.1.ge))
    (fun e he => Or.inl he) (.empty kv pos id) rfl (by simp) (fun _ _ => Nat.zero_le _)
    fun hne => ?_
  · have := le_sequenceLeases hfind b
    simp only [List.count_nil]
    omega
  · have hzero : commitment kv.reservations id {} = 0 := by
      rw [commitment]
      split <;> rfl
    have := h.committed hne
    omega

/-- Dropping a sequence that holds no pages. -/
theorem KvInv.eraseSequence (h : KvInv spec payload kv none flat pos) {id : RequestId}
    (hfind : kv.sequences.find? id = some {}) :
    KvInv spec payload { kv with sequences := kv.sequences.erase id } none flat pos := by
  have hhold : ∀ other state, (kv.sequences.erase id).find? other = some state →
      kv.sequences.find? other = some state := fun other state hs => by
    rw [OrdMap.find?_erase] at hs
    split at hs
    · cases hs
    · exact hs
  exact
    { cache := h.cache
      accounts := h.accounts.congr fun b => by
        rw [outside, outside, sequenceLeases, sequenceLeases, OrdMap.sum_eq_add_erase _ hfind]
        simp
      peak := h.peak
      entry := h.entry
      sequence := fun other state hs => { h.sequence other state (hhold other state hs) with }
      active := h.active
      transaction := fun a ha => by cases ha
      idle := fun other state hs => h.idle other state (hhold other state hs)
      reserved := fun other pages hp state hs =>
        h.reserved other pages hp state (hhold other state hs)
      committed := fun hne => by
        have hsum := h.committed hne
        rw [committedBlocks, OrdMap.sum_eq_add_erase _ hfind] at hsum
        have hzero : (if kv.reservations.contains id = true then 0
            else ({} : State).sequence.blocks.length) = 0 := by split <;> rfl
        rw [hzero, Nat.zero_add] at hsum
        exact hsum }

/-- `release` is `reset_sequence`, then the sequence and its reservation go. -/
theorem KvInv.release (h : KvInv spec payload kv append flat pos) (id : RequestId) :
    (∃ e, kv.release id = (.error e, kv) ∧ ¬ (append = none ∧ kv.sequences.contains id)) ∨
      ∃ state, append = none ∧ kv.sequences.find? id = some state ∧
        kv.release id = (.ok (), { kv with
          pool := kv.pool.unrefAll state.sequence.blocks.reverse
          sequences := kv.sequences.erase id
          reservations := kv.reservations.erase id }) ∧
        KvInv spec payload (kv.release id).2 none flat pos := by
  rw [KVManager.release]
  rcases h.requireIdle with ⟨hidle, rfl⟩ | ⟨hsome, hbusy⟩
  swap
  · rw [hbusy]
    refine Or.inl ⟨_, rfl, fun ⟨hnone, _⟩ => ?_⟩
    rw [hnone] at hsome
    cases hsome
  rw [hidle]
  cases hfind : kv.sequences.find? id with
  | none =>
    refine Or.inl ⟨_, rfl, fun ⟨_, hcontains⟩ => ?_⟩
    rw [OrdMap.contains, hfind] at hcontains
    cases hcontains
  | some state =>
    have hempty := (h.emptySequence hfind).eraseSequence (OrdMap.find?_insert_self _ _ _)
    have hreleased := hempty.releaseReservation id
    simp only [OrdMap.erase_insert_self, KVManager.releaseReservation] at hreleased
    simp only [h.not_appending hfind, Bool.false_eq_true, if_false, KvBlockPool.release_eq]
    exact Or.inr ⟨state, trivial, rfl, rfl, hreleased⟩

/-- Releasing every sequence in turn. -/
theorem releaseAll_accounts {entries : List (RequestId × State)} {pool : KvBlockPool}
    {rest : Nat → Nat} (h : pool.Accounts fun b =>
      (entries.map fun item => item.2.sequence.blocks.count b).sum + rest b) :
    (entries.foldl (fun pool item => (pool.release item.2.sequence).2) pool).Accounts rest := by
  induction entries generalizing pool with
  | nil => exact h.congr fun b => by simp
  | cons item entries ih =>
    rw [List.foldl_cons, KvBlockPool.release_eq]
    refine ih (KvBlockPool.unrefAll_accounts h fun b => ?_)
    rw [List.count_reverse, List.map_cons, List.sum_cons]
    omega

theorem releaseAll_config (entries : List (RequestId × State)) (pool : KvBlockPool) :
    (entries.foldl (fun pool item => (pool.release item.2.sequence).2) pool).config =
      pool.config := by
  induction entries generalizing pool with
  | nil => rfl
  | cons item entries ih =>
    rw [List.foldl_cons, ih, KvBlockPool.release_eq, KvBlockPool.unrefAll_config]

theorem releaseAll_peak (entries : List (RequestId × State)) (pool : KvBlockPool) :
    (entries.foldl (fun pool item => (pool.release item.2.sequence).2) pool).peak = pool.peak ∧
      (entries.foldl (fun pool item => (pool.release item.2.sequence).2) pool).live ≤
        pool.live := by
  induction entries generalizing pool with
  | nil => exact ⟨rfl, le_rfl⟩
  | cons item entries ih =>
    have hitem := pool.unrefAll_peak item.2.sequence.blocks.reverse
    obtain ⟨h1, h2⟩ := ih (pool.unrefAll item.2.sequence.blocks.reverse)
    rw [List.foldl_cons, KvBlockPool.release_eq]
    exact ⟨h1.trans hitem.1, h2.trans hitem.2⟩

/-- `clear` leaves a manager without sequences, reservations and leases. -/
theorem KvInv.clear (h : KvInv spec payload kv append flat pos) :
    (∃ e, kv.clear = (.error e, kv)) ∨
      ∃ prefixCache pool flat', append = none ∧ kv.clear = (.ok (), { kv with
          pool, prefixCache, sequences := OrdMap.empty, reservations := OrdMap.empty }) ∧
        pool.Accounts (fun _ => 0) ∧
        KvInv spec payload { kv with
          pool, prefixCache, sequences := OrdMap.empty, reservations := OrdMap.empty }
          none flat' pos ∧ pool.config = kv.pool.config := by
  rw [KVManager.clear]
  rcases h.requireIdle with ⟨hidle, rfl⟩ | ⟨-, hbusy⟩
  swap
  · rw [hbusy]
    exact Or.inl ⟨_, rfl⟩
  generalize hpool : kv.sequences.entries.foldl
    (fun pool item => (pool.release item.2.sequence).2) kv.pool = pool₁
  have hcfg : pool₁.config = kv.pool.config := hpool ▸ releaseAll_config _ _
  have hpeak : pool₁.peak = kv.pool.peak ∧ pool₁.live ≤ kv.pool.live := hpool ▸ releaseAll_peak _ _
  have hacc : pool₁.Accounts fun b => 0 + flat.pages.count b := by
    rw [← hpool]
    refine releaseAll_accounts (h.accounts.congr fun b => ?_)
    rw [outside, sourcePages, List.count_nil, Nat.add_zero, Nat.zero_add]
    rfl
  obtain ⟨hclear, hrep⟩ := h.cache.clear pool₁
  have hpeak' := flat.clear_peak pool₁
  have hfree : (flat.clear pool₁).2.Accounts fun _ => 0 := FlatCache.clear_accounts hacc
  have hcfg' : (flat.clear pool₁).2.config = kv.pool.config := (flat.clear_config pool₁).trans hcfg
  simp only [hidle, h.anyAppending, Bool.false_eq_true, if_false, hclear]
  refine Or.inr ⟨_, _, (flat.clear pool₁).1, trivial, rfl, hfree, ?_, hcfg'⟩
  exact
    { cache := by
        show Represents (flat.clear pool₁).2.config.blockTokens _ _
        rw [hcfg']
        exact hrep
      accounts := hfree.congr fun b => by simp [outside, sequenceLeases, sourcePages,
        FlatCache.pages, FlatCache.clear]
      peak := hpeak'.2.trans (hpeak.2.trans (h.peak.trans (hpeak'.1.trans hpeak.1).ge))
      entry := fun k b he => by cases he
      sequence := fun id state hs => by cases hs
      active := h.active
      transaction := fun a ha => by cases ha
      idle := fun id state hs => by cases hs
      reserved := fun id pages hp => by cases hp
      committed := fun hne => by cases hne }

end TinyInfer.MiniPrefix
