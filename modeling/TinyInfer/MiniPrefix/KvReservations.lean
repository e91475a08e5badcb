import TinyInfer.Lib.Counting
import TinyInfer.MiniPrefix.KvRuns

/-!
# A reservation is a guarantee

Logical promises are counted sequence by sequence while pages are shared, and an
append to a shared tail page takes one page more than its reservation counts. It is
there all the same: once the cache is empty, every page in use is in some block
table, and the shared tail page is in two of them.

- `KvInv.in_use_le`: pages in use, sharing counted once less, are at most the
  table entries;
- `KvInv.entries_le_committed`: the table entries, with those an append is going to
  add, are at most the committed pages;
- `reservation_guarantee` puts both together.
-/

namespace TinyInfer.MiniPrefix

open Lib KVManager

variable {α : Type} {spec : List TokenId → α} {payload : Nat → Nat → α} {kv : KVManager}
  {append : Option KVManager.Append} {flat : FlatCache} {pos : Nat → Nat}

/-- The entries of all block tables. -/
def KVManager.tableEntries (kv : KVManager) : Nat :=
  kv.sequences.sum fun _ state => state.sequence.blocks.length

theorem KvInv.in_use_le (h : KvInv spec payload kv none flat pos) (hempty : flat.entries = [])
    (b : Nat) :
    kv.config.maxBlocks + (kv.pool.references b - 1) ≤ kv.pool.freeBlocks + kv.tableEntries := by
  have hacc := h.accounts
  have hheld : ∀ b, outside kv none b + flat.pages.count b = kv.sequenceLeases b := fun b => by
    rw [FlatCache.pages, hempty]
    rfl
  have hacc' := hacc.congr hheld
  have hbound : ∀ b, 0 < kv.sequenceLeases b → b < kv.config.maxBlocks := hacc'.bounded
  have hsum : (Finset.range kv.config.maxBlocks).sum kv.sequenceLeases = kv.tableEntries := by
    rw [tableEntries, OrdMap.sum]
    refine (sum_range_map _ kv.sequences.entries fun item b =>
      item.2.sequence.blocks.count b).trans (congrArg List.sum (List.map_congr_left ?_))
    rintro ⟨id, state⟩ hmem
    refine sum_count_range _ fun b hb => ?_
    obtain ⟨j, hj⟩ := List.mem_iff_getElem?.mp hb
    exact hbound b (sequenceLeases_pos (OrdMap.find?_eq_some_iff.mpr hmem) hj)
  have hle := le_free_add_held hacc'.free_nodup (fun b => hacc'.mem_free b) hbound b
  rw [← hsum, hacc'.refs b]
  exact hle

/-- The tables, once a reserved sequence has grown to its reservation, fit the
committed pages. -/
theorem KvInv.entries_le_committed (h : KvInv spec payload kv none flat pos) {id : RequestId}
    {state : State} {pages missing : Nat} (hs : kv.sequences.find? id = some state)
    (hres : kv.reservations.find? id = some pages)
    (hfits : state.sequence.blocks.length + missing ≤ pages) :
    kv.tableEntries + missing ≤ kv.committedBlocks := by
  have hgrown : kv.tableEntries + missing = kv.sequences.sum fun other state =>
      state.sequence.blocks.length + if other = id then missing else 0 := by
    have hone : kv.sequences.sum (fun other _ => if other = id then missing else 0) = missing := by
      rw [OrdMap.sum_eq_add_erase _ hs, if_pos rfl, OrdMap.sum_eq_zero fun other state hs' => ?_]
      · rfl
      · rw [OrdMap.find?_erase] at hs'
        split at hs'
        · cases hs'
        · next hne => exact if_neg hne
    rw [OrdMap.sum_add, hone]
    rfl
  have hpoint : ∀ other otherState, kv.sequences.find? other = some otherState →
      otherState.sequence.blocks.length + (if other = id then missing else 0) ≤
        (kv.reservations.find? other).getD 0 +
          if kv.reservations.contains other then 0 else otherState.sequence.blocks.length := by
    intro other otherState hother
    by_cases hid : other = id
    · subst hid
      obtain rfl := Option.some.inj (hs.symm.trans hother)
      rw [if_pos rfl, hres, Option.getD_some]
      omega
    · rw [if_neg hid]
      cases hr : kv.reservations.find? other with
      | none =>
        rw [if_neg (by rw [OrdMap.contains, hr]; exact Bool.false_ne_true)]
        omega
      | some pages =>
        have := h.reserved other pages hr otherState hother
        rw [Option.getD_some]
        omega
  have hpromised := OrdMap.sum_getD_le kv.sequences kv.reservations
  calc kv.tableEntries + missing
      ≤ _ := hgrown.le.trans (OrdMap.sum_le_sum hpoint)
    _ = kv.sequences.sum (fun other _ => (kv.reservations.find? other).getD 0) +
          kv.sequences.sum (fun other state =>
            if kv.reservations.contains other then 0 else state.sequence.blocks.length) :=
        OrdMap.sum_add _ _ _
    _ ≤ kv.committedBlocks := Nat.add_le_add_right hpromised _

/-- With a reservation that covers it, physical memory is never exhausted. -/
theorem KvInv.not_exhausted (h : KvInv spec payload kv none flat pos) {id : RequestId}
    {state : State} {pages missing tail : Nat} (hs : kv.sequences.find? id = some state)
    (hres : kv.reservations.find? id = some pages)
    (hfits : state.sequence.blocks.length + missing ≤ pages) :
    ¬ Exhausted kv flat tail missing := by
  rintro ⟨hempty, cow, hcow, hfree⟩
  have huse := h.in_use_le hempty tail
  have htables := h.entries_le_committed hs hres hfits
  have hcommitted := h.committed (isEmpty_eq_false hres)
  have hshared : cow.toNat ≤ kv.pool.references tail - 1 := by
    cases cow with
    | false => exact Nat.zero_le _
    | true =>
      have := hcow rfl
      show 1 ≤ _
      omega
  omega

theorem refusePages_of_reserved {id : RequestId} {pages count required : Nat}
    (hres : kv.reservations.find? id = some pages) (hfits : count ≤ pages) :
    kv.refusePages id count required = none := by
  rw [refusePages, if_neg (by rw [isEmpty_eq_false hres]; exact Bool.false_ne_true), hres]
  exact if_neg (Nat.not_lt.mpr hfits)

/-- A reserved sequence can always be extended up to its reservation. -/
theorem KvInv.prepare_reserved (h : KvInv spec payload kv none flat pos) {id : RequestId}
    {state : State} {pages : Nat} {tokens : List TokenId}
    (hs : kv.sequences.find? id = some state) (hres : kv.reservations.find? id = some pages)
    (hne : tokens ≠ []) (hvalid : kv.validTokens tokens = true)
    (hfits : state.sequence.used + tokens.length ≤ kv.context)
    (hpages : pagesFor kv.config.blockTokens (state.sequence.used + tokens.length) ≤ pages) :
    ∃ a kv₁ kv' flat' fresh, kv.prepareAppend id tokens = (.ok a, kv') ∧
      Checked kv none id tokens state ∧ Evicted kv kv₁ flat flat' ∧
      KvInv spec payload kv₁ none flat' pos ∧ a.id = id ∧ a.tokens = tokens ∧
      Prepared kv₁ kv' flat' state a fresh := by
  have hchecked : Checked kv none id tokens state :=
    ⟨rfl, hs, hne, hfits, hvalid, refusePages_of_reserved hres hpages⟩
  rcases h.prepareAppend id tokens with ⟨e, -, hno⟩ |
    ⟨e, kv', flat', other, -, hc, hevicted, hinv, hfull⟩ |
    ⟨a, kv₁, kv', flat', other, fresh, heq, hc, hevicted, hinv, hid, htokens, hp⟩
  · exact absurd hchecked (hno state)
  · obtain rfl : other = state := Option.some.inj (hc.found.symm.trans hs)
    have hs' : kv'.sequences.find? id = some other := by
      rw [hevicted.same]
      exact hs
    have hres' : kv'.reservations.find? id = some pages := by
      rw [hevicted.same]
      exact hres
    refine absurd hfull (hinv.not_exhausted hs' hres' ?_)
    have hlen := (h.idle id other hs fun a ha => by cases ha).2
    have hmono : pagesFor kv.config.blockTokens other.sequence.used ≤
        pagesFor kv.config.blockTokens (other.sequence.used + tokens.length) :=
      pagesFor_mono (Nat.le_add_right _ _)
    rw [missingPages]
    omega
  · obtain rfl : other = state := Option.some.inj (hc.found.symm.trans hs)
    exact ⟨a, kv₁, kv', flat', fresh, heq, hc, hevicted, hinv, hid, htokens, hp⟩

/-- **A reservation is a guarantee.** While reservations exist they fit the pool and
every reserved sequence keeps to its own; and between transactions `prepare_append`
returns for every reserved sequence whose append is well formed and stays within
its reservation. -/
theorem reservation_guarantee {s : KvSystem} (h : s.Reachable) :
    (s.kv.reservations.isEmpty = false → s.kv.committedBlocks ≤ s.kv.config.maxBlocks ∧
      ∀ id pages state, s.kv.reservations.find? id = some pages →
        s.kv.sequences.find? id = some state → state.sequence.blocks.length ≤ pages) ∧
    (s.append = none → ∀ id pages state tokens, s.kv.reservations.find? id = some pages →
      s.kv.sequences.find? id = some state → tokens ≠ [] → s.kv.validTokens tokens = true →
      state.sequence.used + tokens.length ≤ s.kv.context →
      pagesFor s.kv.config.blockTokens (state.sequence.used + tokens.length) ≤ pages →
      (s.step (.prepareAppend id tokens)).1 = .ok ()) := by
  obtain ⟨flat, pos, h⟩ := h.ledger
  refine ⟨fun hne => ⟨h.committed hne, fun id pages state hp hs => h.reserved id pages hp state hs⟩,
    fun hnone id pages state tokens hres hs hne hvalid hfits hpages => ?_⟩
  rw [hnone] at h
  obtain ⟨a, kv₁, kv', flat', fresh, heq, -⟩ :=
    h.prepare_reserved hs hres hne hvalid hfits hpages
  simp only [KvSystem.step, heq]

/-- A reserved sequence whose tail page is cached too: the append needs a third page
for two promised ones, and gets it. -/
theorem reservation_guarantee_shared_tail : ∃ kv, construct ⟨2, 3, 2⟩ 1 1 8 8 = .ok kv ∧
    ((KvSystem.run { kv } [.reserveRequest "a" 4, .create "a", .prepareAppend "a" [1], .commit,
      .cachePrefix "a"]).step (.prepareAppend "a" [2, 3])).1 = .ok () :=
  ⟨_, rfl, (reservation_guarantee (s := KvSystem.run _ [.reserveRequest "a" 4, .create "a",
    .prepareAppend "a" [1], .commit, .cachePrefix "a"])
    ⟨⟨2, 3, 2⟩, 1, 1, 8, 8, _, _, rfl, rfl⟩).2 rfl "a" 2 _ [2, 3] rfl rfl (by decide) rfl
    (by decide) (by decide)⟩

end TinyInfer.MiniPrefix
