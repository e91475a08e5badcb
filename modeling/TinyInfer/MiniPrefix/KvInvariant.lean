import TinyInfer.MiniPrefix.KvManager
import TinyInfer.MiniPrefix.PrefixReuse
import TinyInfer.MiniPrefix.FlatLeases

/-!
# The invariant of the KV manager

`KvInv` says what holds of a manager between any two operations, with or without
an append transaction in flight:

- the pool's counts are exactly the leases of the sequences, of the cache entries
  and of the transaction (`accounts`);
- a held page sits at one page index in all its holders (`pos`);
- the payload stored at a slot is the one of the history through that slot, for
  every sequence and every cache entry (`Stored`);
- the pages a transaction writes to are held by its sequence alone (`AppendInv`);
- reservations are kept (`reserved`, `committed`).

The payload is a ghost: `payload b s` is what slot `s` of page `b` contains, and
`spec h` what should be there after the history `h`; both are arbitrary here.
-/

namespace TinyInfer.MiniPrefix

open Lib

namespace KVManager

/-- How often the sequences hold a page. -/
def sequenceLeases (kv : KVManager) (b : Nat) : Nat :=
  kv.sequences.sum fun _ state => state.sequence.blocks.count b

/-- The page whose lease a copy-on-write transaction keeps. -/
def sourcePages (append : Option KVManager.Append) : List Nat :=
  match append with
  | some a => (a.copy.map TailCopy.source).toList
  | none => []

/-- The leases outside the cache. -/
def outside (kv : KVManager) (append : Option KVManager.Append) (b : Nat) : Nat :=
  kv.sequenceLeases b + (sourcePages append).count b

/-- The block table that the committed tokens of a sequence are read from: a tail
page that is being replaced counts as the old one. -/
def stableBlocks (append : Option KVManager.Append) (id : RequestId) (blocks : List Nat) :
    List Nat :=
  match append with
  | none => blocks
  | some a =>
    if a.id = id then
      match a.copy with
      | some copy => blocks.set (a.originalBlocks - 1) copy.source
      | none => blocks
    else blocks

end KVManager

open KVManager

section Definitions

variable {α : Type} (spec : List TokenId → α) (payload : Nat → Nat → α)

/-- The slots of the first `n` tokens hold the payload of their histories. -/
def Stored (blockTokens : Nat) (blocks : List Nat) (tokens : List TokenId) (n : Nat) : Prop :=
  ∀ t < n, ∀ b, blocks[t / blockTokens]? = some b →
    payload b (t % blockTokens) = spec (tokens.take (t + 1))

/-- A cache entry sits at its page index, and its page holds its history. -/
def EntryInv (blockTokens : Nat) (pos : Nat → Nat) (k : List TokenId) (b : Nat) : Prop :=
  pos b + 1 = pagesFor blockTokens k.length ∧
    ∀ t < k.length, t / blockTokens = pos b → payload b (t % blockTokens) = spec (k.take (t + 1))

structure SequenceInv (kv : KVManager) (append : Option KVManager.Append) (pos : Nat → Nat)
    (id : RequestId) (sequence : PagedSequence) : Prop where
  length : sequence.tokens.length = sequence.used
  fits : sequence.used ≤ kv.context
  covered : pagesFor kv.config.blockTokens sequence.used ≤ sequence.blocks.length
  position : ∀ j b, sequence.blocks[j]? = some b → pos b = j
  stored : Stored spec payload kv.config.blockTokens
    (stableBlocks append id sequence.blocks) sequence.tokens sequence.used

/-- The transaction `a` on the sequence of `state`; `held` counts all leases. -/
structure AppendInv (kv : KVManager) (held pos : Nat → Nat) (a : KVManager.Append) (state : State) :
    Prop where
  appending : state.appending = true
  tokens_ne : a.tokens ≠ []
  fits : state.sequence.used + a.tokens.length ≤ kv.context
  original : a.originalBlocks = pagesFor kv.config.blockTokens state.sequence.used
  grown : state.sequence.blocks.length =
    pagesFor kv.config.blockTokens (state.sequence.used + a.tokens.length)
  exclusive : ∀ j b, state.sequence.used / kv.config.blockTokens ≤ j →
    state.sequence.blocks[j]? = some b → held b = 1
  partial_tail : ∀ copy, a.copy = some copy →
    copy.validTokens = state.sequence.used % kv.config.blockTokens ∧ 0 < copy.validTokens
  destination : ∀ copy, a.copy = some copy →
    state.sequence.blocks[a.originalBlocks - 1]? = some copy.destination
  source : ∀ copy, a.copy = some copy → pos copy.source + 1 = a.originalBlocks
  copied : a.copied = true → ∀ copy, a.copy = some copy → ∀ t < state.sequence.used,
    t / kv.config.blockTokens + 1 = a.originalBlocks →
    payload copy.destination (t % kv.config.blockTokens) =
      spec (state.sequence.tokens.take (t + 1))

structure KvInv (kv : KVManager) (append : Option KVManager.Append) (flat : FlatCache)
    (pos : Nat → Nat) :
    Prop where
  cache : Represents kv.config.blockTokens kv.prefixCache flat
  accounts : kv.pool.Accounts fun b => outside kv append b + flat.pages.count b
  peak : kv.pool.live ≤ kv.pool.peak
  entry : ∀ k b, (k, b) ∈ flat.entries → EntryInv spec payload kv.config.blockTokens pos k b
  sequence : ∀ id state, kv.sequences.find? id = some state →
    SequenceInv spec payload kv append pos id state.sequence
  active : kv.appendActive = append.isSome
  transaction : ∀ a, append = some a → ∃ state, kv.sequences.find? a.id = some state ∧
    AppendInv spec payload kv (fun b => outside kv append b + flat.pages.count b) pos a state
  idle : ∀ id state, kv.sequences.find? id = some state → (∀ a, append = some a → a.id ≠ id) →
    state.appending = false ∧
      state.sequence.blocks.length = pagesFor kv.config.blockTokens state.sequence.used
  reserved : ∀ id pages, kv.reservations.find? id = some pages → ∀ state,
    kv.sequences.find? id = some state → state.sequence.blocks.length ≤ pages
  committed : kv.reservations.isEmpty = false → kv.committedBlocks ≤ kv.config.maxBlocks

end Definitions

variable {α : Type} {spec : List TokenId → α} {payload : Nat → Nat → α} {kv : KVManager}
  {append : Option KVManager.Append} {flat : FlatCache} {pos : Nat → Nat}

/-! ## Sums over the sequences -/

/-- What a sequence contributes to the committed pages. -/
def KVManager.commitment (reservations : OrdMap RequestId Nat) (id : RequestId) (state : State) :
    Nat :=
  if reservations.contains id then 0 else state.sequence.blocks.length

/-- Replacing a sequence changes the leases by its pages. -/
theorem sequenceLeases_insert (kv kv' : KVManager) (id : RequestId) (state : State)
    (h : kv'.sequences = kv.sequences.insert id state) (b : Nat) :
    kv'.sequenceLeases b +
        ((kv.sequences.find? id).getD {}).sequence.blocks.count b =
      kv.sequenceLeases b + state.sequence.blocks.count b := by
  have := OrdMap.sum_insert_add kv.sequences id state fun _ s => s.sequence.blocks.count b
  rw [sequenceLeases, sequenceLeases, h]
  cases hfind : kv.sequences.find? id with
  | none =>
    rw [hfind] at this
    exact this
  | some old =>
    rw [hfind] at this
    exact this

/-- Replacing a sequence changes the committed pages by its own. -/
theorem committedBlocks_insert (kv kv' : KVManager) (id : RequestId) (state : State)
    (h : kv'.sequences = kv.sequences.insert id state)
    (hres : kv'.reservations = kv.reservations) :
    kv'.committedBlocks + commitment kv.reservations id ((kv.sequences.find? id).getD {}) =
      kv.committedBlocks + commitment kv.reservations id state := by
  have := OrdMap.sum_insert_add kv.sequences id state (commitment kv.reservations)
  have hzero : commitment kv.reservations id {} = 0 := by
    rw [commitment]
    split <;> rfl
  have hkv : kv.committedBlocks = kv.reservations.sum (fun _ pages => pages) +
    kv.sequences.sum (commitment kv.reservations) := rfl
  have hkv' : kv'.committedBlocks = kv'.reservations.sum (fun _ pages => pages) +
    kv'.sequences.sum (commitment kv'.reservations) := rfl
  rw [hkv, hkv', h, hres]
  cases hfind : kv.sequences.find? id with
  | none =>
    rw [hfind, Option.map_none, Option.getD_none] at this
    rw [Option.getD_none, hzero]
    omega
  | some old =>
    rw [hfind, Option.map_some, Option.getD_some] at this
    rw [Option.getD_some]
    omega

/-- A page of a sequence is leased. -/
theorem le_sequenceLeases {id : RequestId} {state : State}
    (h : kv.sequences.find? id = some state) (b : Nat) :
    state.sequence.blocks.count b ≤ kv.sequenceLeases b :=
  OrdMap.le_sum (fun _ s => s.sequence.blocks.count b) h

/-- A page of a sequence is leased. -/
theorem sequenceLeases_pos {id : RequestId} {state : State} {j b : Nat}
    (h : kv.sequences.find? id = some state) (hb : state.sequence.blocks[j]? = some b) :
    0 < kv.sequenceLeases b :=
  Nat.lt_of_lt_of_le (List.count_pos_iff.mpr (List.mem_of_getElem? hb)) (le_sequenceLeases h b)

/-! ## Replacing one sequence -/

theorem stableBlocks_of_ne {id : RequestId} (h : ∀ a, append = some a → a.id ≠ id)
    (blocks : List Nat) : stableBlocks append id blocks = blocks := by
  cases append with
  | none => rfl
  | some a => exact if_neg (h a rfl)

/-- Every operation on one sequence, seen from the rest of the state: only the
sequence `id`, its transaction, the cache and the pool may change. -/
theorem KvInv.replace (h : KvInv spec payload kv append flat pos) (id : RequestId)
    (state' : State) {kv' : KVManager} {append' : Option KVManager.Append} {flat' : FlatCache}
    {pos' : Nat → Nat} (hid : ∀ a, append = some a → a.id = id)
    (hid' : ∀ a, append' = some a → a.id = id)
    (hseq : kv'.sequences = kv.sequences.insert id state') (hcontext : kv'.context = kv.context)
    (hconfig : kv'.config = kv.config) (hres : kv'.reservations = kv.reservations)
    (hcache : Represents kv'.config.blockTokens kv'.prefixCache flat')
    (haccounts : kv'.pool.Accounts fun b => outside kv' append' b + flat'.pages.count b)
    (hpeak : kv'.pool.live ≤ kv'.pool.peak)
    (hpos : ∀ other (state : State) (j b : Nat), other ≠ id →
      kv.sequences.find? other = some state →
      state.sequence.blocks[j]? = some b → pos' b = pos b)
    (hentry : ∀ k b, (k, b) ∈ flat'.entries →
      EntryInv spec payload kv.config.blockTokens pos' k b)
    (hsequence : SequenceInv spec payload kv' append' pos' id state'.sequence)
    (hactive : kv'.appendActive = append'.isSome)
    (happend : ∀ a, append' = some a → AppendInv spec payload kv'
      (fun b => outside kv' append' b + flat'.pages.count b) pos' a state')
    (hidle : append' = none → state'.appending = false ∧
      state'.sequence.blocks.length = pagesFor kv.config.blockTokens state'.sequence.used)
    (hreserved : ∀ pages, kv.reservations.find? id = some pages →
      state'.sequence.blocks.length ≤ pages)
    (hcommitted : kv.reservations.isEmpty = false →
      kv'.committedBlocks ≤ kv.config.maxBlocks) :
    KvInv spec payload kv' append' flat' pos' := by
  -- a sequence after the step is the one that changed, or an old one
  have hfind : ∀ other state, kv'.sequences.find? other = some state →
      (other = id ∧ state = state') ∨ (other ≠ id ∧ kv.sequences.find? other = some state) := by
    intro other state hs
    rw [hseq, OrdMap.find?_insert] at hs
    by_cases hother : other = id
    · rw [if_pos hother] at hs
      exact Or.inl ⟨hother, (Option.some.inj hs).symm⟩
    · rw [if_neg hother] at hs
      exact Or.inr ⟨hother, hs⟩
  refine { cache := hcache, accounts := haccounts, peak := hpeak, entry := ?_, sequence := ?_,
           active := hactive, transaction := ?_, idle := ?_, reserved := ?_, committed := ?_ }
  · rw [hconfig]
    exact hentry
  · intro other state hs
    rcases hfind other state hs with ⟨rfl, rfl⟩ | ⟨hne, hs⟩
    · exact hsequence
    · have hhold := h.sequence other state hs
      -- what a transaction stores of other sequences is not seen
      have hstored := hhold.stored
      rw [stableBlocks_of_ne fun a ha heq => hne (heq.symm.trans (hid a ha))] at hstored
      refine { length := hhold.length, fits := by rw [hcontext]; exact hhold.fits,
               covered := by rw [hconfig]; exact hhold.covered,
               position := fun j b hb => (hpos other state j b hne hs hb).trans
                 (hhold.position j b hb), stored := ?_ }
      rw [stableBlocks_of_ne fun a ha heq => hne (heq.symm.trans (hid' a ha)), hconfig]
      exact hstored
  · intro a ha
    exact ⟨state', by rw [hseq, hid' a ha, OrdMap.find?_insert_self], happend a ha⟩
  · intro other state hs hne
    rcases hfind other state hs with ⟨rfl, rfl⟩ | ⟨hother, hs⟩
    · have hnone : append' = none := by
        cases append' with
        | none => rfl
        | some a => exact absurd (hid' a rfl) (hne a rfl)
      rw [hconfig]
      exact hidle hnone
    · rw [hconfig]
      exact h.idle other state hs fun a ha heq => hother (heq.symm.trans (hid a ha))
  · intro other pages hr state hs
    rw [hres] at hr
    rcases hfind other state hs with ⟨rfl, rfl⟩ | ⟨hother, hs⟩
    · exact hreserved pages hr
    · exact h.reserved other pages hr state hs
  · rw [hres, hconfig]
    exact hcommitted

end TinyInfer.MiniPrefix
