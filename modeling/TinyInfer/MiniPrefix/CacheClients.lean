import TinyInfer.MiniPrefix.PrefixReuse
import TinyInfer.MiniPrefix.PrefixReference

/-!
# Clients of one pool and one prefix cache

Any number of sequences share a pool and a cache. The clients reserve, roll back,
release and fill their sequences, publish them, reuse prefixes, evict and clear,
in any order. The same system is built over the page trie and over the reference
cache of the tests; `run` lists what can be observed after every step.

`Linked` is the simulation: equal pools and sequences, caches that stand for one
flat cache, and exact accounts of the leases of both kinds.
-/

namespace TinyInfer.MiniPrefix

open Lib

/-- The interface of a prefix cache. -/
structure CacheOps (γ : Type) where
  publish : γ → KvBlockPool → PagedSequence → Except Exn Unit × γ × KvBlockPool
  reuse : γ → KvBlockPool → PagedSequence → List TokenId →
    Except Exn Nat × PagedSequence × γ × KvBlockPool
  evictOne : γ → KvBlockPool → Bool × γ × KvBlockPool
  clear : γ → KvBlockPool → γ × KvBlockPool
  size : γ → Nat
  hits : γ → Nat
  misses : γ → Nat
  reused : γ → Nat
  evictions : γ → Nat
  cacheOnlyBlocks : γ → KvBlockPool → Nat

def ExactPrefixCache.ops : CacheOps ExactPrefixCache where
  publish := publish
  reuse := reuse
  evictOne := evictOne
  clear := clear
  size := size
  hits := hits
  misses := misses
  reused := reused
  evictions := evictions
  cacheOnlyBlocks := cacheOnlyBlocks

def PartialPrefixReference.ops : CacheOps PartialPrefixReference where
  publish := publish
  reuse := reuse
  evictOne := evictOne
  clear := clear
  size := size
  hits := hits
  misses := misses
  reused := reused
  evictions := evictions
  cacheOnlyBlocks := cacheOnlyBlocks

/-- A cache, its pool and the sequences of the clients. -/
structure Clients (γ : Type) where
  cache : γ
  pool : KvBlockPool
  sequences : OrdMap Nat PagedSequence := OrdMap.empty

inductive ClientOp where
  /-- `pool.reserve(sequence, last)` -/
  | reserve (id last : Nat)
  /-- `pool.rollback(sequence, original_blocks)` -/
  | rollback (id originalBlocks : Nat)
  /-- `pool.release(sequence)` -/
  | release (id : Nat)
  /-- the client sets the fields of its sequence other than the block table -/
  | fill (id used : Nat) (tokens : List TokenId)
  | publish (id : Nat)
  | reuse (id : Nat) (prompt : List TokenId)
  | evictOne
  | clear

inductive Outcome where
  | done (result : Except Exn Unit)
  | reused (result : Except Exn Nat)
  | evicted (found : Bool)

/-- Everything a client can see after an operation. -/
structure Observed where
  outcome : Outcome
  sequences : OrdMap Nat PagedSequence
  pool : KvBlockPool
  size : Nat
  hits : Nat
  misses : Nat
  reused : Nat
  evictions : Nat
  cacheOnlyBlocks : Nat

namespace Clients

variable {γ : Type}

def sequence (s : Clients γ) (id : Nat) : PagedSequence := (s.sequences.find? id).getD {}

def setSequence (s : Clients γ) (id : Nat) (sequence : PagedSequence) : Clients γ :=
  { s with sequences := s.sequences.insert id sequence }

def step (ops : CacheOps γ) (s : Clients γ) : ClientOp → Outcome × Clients γ
  | .reserve id last =>
    let (outcome, sequence, pool) := s.pool.reserve (s.sequence id) last
    (.done outcome, { s with pool }.setSequence id sequence)
  | .rollback id originalBlocks =>
    let (sequence, pool) := s.pool.rollback (s.sequence id) originalBlocks
    (.done (.ok ()), { s with pool }.setSequence id sequence)
  | .release id =>
    let (sequence, pool) := s.pool.release (s.sequence id)
    (.done (.ok ()), { s with pool }.setSequence id sequence)
  | .fill id used tokens =>
    (.done (.ok ()), s.setSequence id { s.sequence id with used, tokens })
  | .publish id =>
    let (outcome, cache, pool) := ops.publish s.cache s.pool (s.sequence id)
    (.done outcome, { s with cache, pool })
  | .reuse id prompt =>
    let (outcome, sequence, cache, pool) := ops.reuse s.cache s.pool (s.sequence id) prompt
    (.reused outcome, { s with cache, pool }.setSequence id sequence)
  | .evictOne =>
    let (found, cache, pool) := ops.evictOne s.cache s.pool
    (.evicted found, { s with cache, pool })
  | .clear =>
    let (cache, pool) := ops.clear s.cache s.pool
    (.done (.ok ()), { s with cache, pool })

def observe (ops : CacheOps γ) (outcome : Outcome) (s : Clients γ) : Observed where
  outcome
  sequences := s.sequences
  pool := s.pool
  size := ops.size s.cache
  hits := ops.hits s.cache
  misses := ops.misses s.cache
  reused := ops.reused s.cache
  evictions := ops.evictions s.cache
  cacheOnlyBlocks := ops.cacheOnlyBlocks s.cache s.pool

/-- What the clients observe along a run. -/
def run (ops : CacheOps γ) : Clients γ → List ClientOp → List Observed
  | _, [] => []
  | s, op :: rest =>
    let (outcome, s) := s.step ops op
    s.observe ops outcome :: run ops s rest

/-- How often the sequences hold a page. -/
def held (sequences : OrdMap Nat PagedSequence) (b : Nat) : Nat :=
  sequences.sum fun _ sequence => sequence.blocks.count b

theorem held_insert (sequences : OrdMap Nat PagedSequence) (id : Nat) (sequence : PagedSequence)
    (b : Nat) :
    held (sequences.insert id sequence) b + ((sequences.find? id).getD {}).blocks.count b =
      held sequences b + sequence.blocks.count b := by
  have h := OrdMap.sum_insert_add sequences id sequence fun _ s => s.blocks.count b
  rw [held, held]
  cases hfind : sequences.find? id with
  | none =>
    rw [hfind] at h
    exact h
  | some old =>
    rw [hfind] at h
    exact h

end Clients

/-! ## The simulation -/

/-- The two systems stand for one flat cache over the same pool and sequences. -/
structure Linked (trie : Clients ExactPrefixCache) (ref : Clients PartialPrefixReference) :
    Prop where
  pool : trie.pool = ref.pool
  sequences : trie.sequences = ref.sequences
  flat : ∃ flat, Represents trie.pool.config.blockTokens trie.cache flat ∧
    Timed ref.cache flat ∧
    trie.pool.Accounts fun b => Clients.held trie.sequences b + flat.pages.count b

namespace Linked

variable {trie : Clients ExactPrefixCache} {ref : Clients PartialPrefixReference}

/-- Linked clients observe the same outcome. -/
theorem observe (h : Linked trie ref) (outcome : Outcome) :
    trie.observe ExactPrefixCache.ops outcome = ref.observe PartialPrefixReference.ops outcome := by
  obtain ⟨hpool, hseq, flat, hrep, htime, hacc⟩ := h
  have hcache : trie.cache.cacheOnlyBlocks trie.pool = ref.cache.cacheOnlyBlocks ref.pool := by
    rw [hrep.cacheOnlyBlocks, ← hpool, htime.cacheOnlyBlocks hacc]
  have hsize : trie.cache.size = ref.cache.size := hrep.size.trans htime.size.symm
  obtain ⟨keys, P, hmir⟩ := hrep
  obtain ⟨L, hL⟩ := htime
  simp only [Clients.observe, ExactPrefixCache.ops, PartialPrefixReference.ops, hpool, hseq,
    hsize, hmir.hits, hL.hits, hmir.misses, hL.misses, hmir.reused, hL.reused,
    hmir.evictions, hL.evictions]
  rw [← hpool, hcache, hpool]

/-- Both systems put back a sequence. -/
theorem setSequence (h : Linked trie ref) {id : Nat} {sequence : PagedSequence}
    {trie' : Clients ExactPrefixCache} {ref' : Clients PartialPrefixReference} {flat : FlatCache}
    {held : Nat → Nat} (htrie : trie'.sequences = trie.sequences)
    (href : ref'.sequences = ref.sequences) (hpool : trie'.pool = ref'.pool)
    (hrep : Represents trie'.pool.config.blockTokens trie'.cache flat)
    (htime : Timed ref'.cache flat) (hacc : trie'.pool.Accounts held)
    (hheld : ∀ b, held b + (trie.sequence id).blocks.count b =
      Clients.held trie.sequences b + sequence.blocks.count b + flat.pages.count b) :
    Linked (trie'.setSequence id sequence) (ref'.setSequence id sequence) where
  pool := hpool
  sequences := by
    show trie'.sequences.insert id sequence = ref'.sequences.insert id sequence
    rw [htrie, href, h.sequences]
  flat := ⟨flat, hrep, htime, hacc.congr fun b => by
    have h1 := hheld b
    have h2 := Clients.held_insert trie.sequences id sequence b
    show held b = Clients.held (trie'.sequences.insert id sequence) b + flat.pages.count b
    rw [Clients.sequence] at h1
    rw [htrie]
    omega⟩

/-- An operation has the same outcome in both systems, and leaves them linked. -/
def StepsAlike (trie : Clients ExactPrefixCache) (ref : Clients PartialPrefixReference)
    (op : ClientOp) : Prop :=
  (trie.step ExactPrefixCache.ops op).1 = (ref.step PartialPrefixReference.ops op).1 ∧
    Linked (trie.step ExactPrefixCache.ops op).2 (ref.step PartialPrefixReference.ops op).2

theorem sequence_eq (h : Linked trie ref) (id : Nat) : ref.sequence id = trie.sequence id := by
  rw [Clients.sequence, Clients.sequence, h.sequences]

/-- The pages of one sequence are among those of all of them. -/
theorem count_le_held (trie : Clients ExactPrefixCache) (id b : Nat) :
    (trie.sequence id).blocks.count b ≤ Clients.held trie.sequences b := by
  rw [Clients.sequence]
  cases hfind : trie.sequences.find? id with
  | none => simp
  | some s => exact OrdMap.le_sum (fun _ s => s.blocks.count b) hfind

/-- A sequence gives up some of its pages. -/
theorem giveUp (h : Linked trie ref) {id : Nat} {sequence : PagedSequence} {gone : List Nat}
    (hsplit : ∀ b, (trie.sequence id).blocks.count b =
      sequence.blocks.count b + gone.count b) :
    Linked (({ trie with pool := trie.pool.unrefAll gone } :
        Clients ExactPrefixCache).setSequence id sequence)
      (({ ref with pool := trie.pool.unrefAll gone } :
        Clients PartialPrefixReference).setSequence id sequence) := by
  obtain ⟨flat, hrep, htime, hacc⟩ := h.flat
  have hacc' : (trie.pool.unrefAll gone).Accounts fun b =>
      Clients.held trie.sequences b + flat.pages.count b - gone.count b := by
    refine KvBlockPool.unrefAll_accounts hacc fun b => ?_
    have h1 := hsplit b
    have h2 := count_le_held trie id b
    omega
  refine h.setSequence rfl rfl rfl ?_ htime hacc' fun b => ?_
  · show Represents (trie.pool.unrefAll gone).config.blockTokens trie.cache flat
    rwa [KvBlockPool.unrefAll_config]
  · have h1 := hsplit b
    have h2 := count_le_held trie id b
    omega

theorem reserve (h : Linked trie ref) (id last : Nat) : StepsAlike trie ref (.reserve id last) := by
  obtain ⟨flat, hrep, htime, hacc⟩ := h.flat
  simp only [StepsAlike, Clients.step, h.sequence_eq, ← h.pool]
  rcases KvBlockPool.reserve_cases hacc (trie.sequence id) last with
    ⟨err, heq⟩ | ⟨fresh, pool', heq, hcfg, hacc'⟩
  · rw [heq]
    refine ⟨trivial, h.setSequence rfl rfl rfl hrep htime hacc fun b => ?_⟩
    dsimp only
    omega
  · rw [heq]
    refine ⟨trivial, h.setSequence rfl rfl rfl (hcfg ▸ hrep) htime hacc' fun b => ?_⟩
    dsimp only
    rw [List.count_append]
    omega

theorem rollback (h : Linked trie ref) (id n : Nat) : StepsAlike trie ref (.rollback id n) := by
  simp only [StepsAlike, Clients.step, h.sequence_eq, ← h.pool, KvBlockPool.rollback_eq]
  refine ⟨trivial, h.giveUp fun b => ?_⟩
  rw [List.count_reverse, ← List.count_append, List.take_append_drop]

theorem release (h : Linked trie ref) (id : Nat) : StepsAlike trie ref (.release id) := by
  simp only [StepsAlike, Clients.step, h.sequence_eq, ← h.pool, KvBlockPool.release_eq]
  refine ⟨trivial, h.giveUp fun b => ?_⟩
  rw [List.count_reverse, List.count_nil, Nat.zero_add]

/-- A publication, refused or not, keeps the account of the pages. -/
theorem publish_kept {cache cache' : FlatCache} {pool pool' : KvBlockPool} {out : Nat → Nat}
    {outcome : Except Exn Unit} {sequence : PagedSequence}
    (hacc : pool.Accounts fun b => out b + cache.pages.count b)
    (hheld : ∀ b ∈ sequence.blocks, 0 < out b)
    (hrun : cache.publish pool sequence = (outcome, cache', pool')) :
    pool'.config = pool.config ∧ pool'.Accounts fun b => out b + cache'.pages.count b := by
  by_cases hlen : sequence.tokens.length = sequence.used
  · obtain ⟨flat', pool₁, hpublish, hcfg, hacc', -⟩ := FlatCache.publish_accounts hacc hlen hheld
    rw [hrun] at hpublish
    simp only [Prod.mk.injEq] at hpublish
    obtain ⟨-, rfl, rfl⟩ := hpublish
    exact ⟨hcfg, hacc'⟩
  · rw [FlatCache.publish, if_pos hlen] at hrun
    simp only [Prod.mk.injEq] at hrun
    obtain ⟨-, rfl, rfl⟩ := hrun
    exact ⟨rfl, hacc⟩

/-- A publication of a known or an unknown sequence keeps the clients linked. -/
theorem publish (h : Linked trie ref) (id : Nat) : StepsAlike trie ref (.publish id) := by
  obtain ⟨flat, hrep, htime, hacc⟩ := h.flat
  have hpos : ∀ b ∈ (trie.sequence id).blocks, 0 < Clients.held trie.sequences b := fun b hb =>
    Nat.lt_of_lt_of_le (List.count_pos_iff.mpr hb) (count_le_held trie id b)
  obtain ⟨outcome, cache', flat₁, pool', h1, h2, hrep'⟩ := hrep.publish (trie.sequence id)
  obtain ⟨outcome', ref', flat₂, pool₂, h3, h4, htime'⟩ := htime.publish hacc hpos
  rw [h2] at h4
  simp only [Prod.mk.injEq] at h4
  obtain ⟨rfl, rfl, rfl⟩ := h4
  obtain ⟨hcfg, hacc'⟩ := publish_kept hacc hpos h2
  simp only [StepsAlike, Clients.step, h.sequence_eq, ← h.pool, ExactPrefixCache.ops,
    PartialPrefixReference.ops, h1, h3]
  exact ⟨trivial, rfl, h.sequences, flat₁, hcfg ▸ hrep', htime', hacc'⟩

/-- A reuse, refused or not, keeps the account of the pages with those of the sequence. -/
theorem reuse_kept {cache cache' : FlatCache} {pool pool' : KvBlockPool} {out : Nat → Nat}
    {outcome : Except Exn Nat} {sequence sequence' : PagedSequence} {prompt : List TokenId}
    (hacc : pool.Accounts fun b => out b + cache.pages.count b)
    (hrun : cache.reuse pool sequence prompt = (outcome, sequence', cache', pool')) :
    pool'.config = pool.config ∧ ∃ held, pool'.Accounts held ∧
      ∀ b, held b + sequence.blocks.count b =
        out b + sequence'.blocks.count b + cache'.pages.count b := by
  by_cases hbusy : sequence.used ≠ 0 ∨ sequence.blocks ≠ [] ∨ sequence.tokens ≠ []
  · rw [FlatCache.reuse, if_pos hbusy] at hrun
    simp only [Prod.mk.injEq] at hrun
    obtain ⟨-, rfl, rfl, rfl⟩ := hrun
    exact ⟨rfl, _, hacc, fun b => by omega⟩
  · simp only [not_or, not_not] at hbusy
    obtain ⟨count, found, flat', pool₁, hreuse, hcfg, -, -, -, hacc', -⟩ :=
      FlatCache.reuse_accounts hacc hbusy.1 hbusy.2.1 hbusy.2.2 prompt
    rw [hrun] at hreuse
    simp only [Prod.mk.injEq] at hreuse
    obtain ⟨-, rfl, rfl, rfl⟩ := hreuse
    refine ⟨hcfg, _, hacc', fun b => ?_⟩
    rw [hbusy.2.1]
    simp

/-- A reuse restores the same pages on both sides. -/
theorem reuse (h : Linked trie ref) (id : Nat) (prompt : List TokenId) :
    StepsAlike trie ref (.reuse id prompt) := by
  obtain ⟨flat, hrep, htime, hacc⟩ := h.flat
  obtain ⟨outcome, sequence', cache', flat₁, pool', h1, h2, hrep'⟩ :=
    hrep.reuse (trie.sequence id) prompt
  obtain ⟨outcome', sequence₂, ref', flat₂, pool₂, h3, h4, htime'⟩ :=
    htime.reuse trie.pool (trie.sequence id) prompt
  rw [h2] at h4
  simp only [Prod.mk.injEq] at h4
  obtain ⟨rfl, rfl, rfl, rfl⟩ := h4
  obtain ⟨hcfg, held, hacc', hheld⟩ := reuse_kept hacc h2
  simp only [StepsAlike, Clients.step, h.sequence_eq, ← h.pool, ExactPrefixCache.ops,
    PartialPrefixReference.ops, h1, h3]
  exact ⟨trivial, h.setSequence rfl rfl rfl (hcfg ▸ hrep') htime' hacc' hheld⟩

theorem evictOne (h : Linked trie ref) : StepsAlike trie ref .evictOne := by
  obtain ⟨flat, hrep, htime, hacc⟩ := h.flat
  obtain ⟨h1, h2, hrep'⟩ := hrep.evictOne trie.pool
  obtain ⟨h3, h4, htime'⟩ := htime.evictOne trie.pool
  simp only [StepsAlike, Clients.step, ← h.pool, ExactPrefixCache.ops, PartialPrefixReference.ops]
  refine ⟨by rw [h1, h3], h2.trans h4.symm, h.sequences, _, ?_, htime', ?_⟩
  · show Represents (trie.cache.evictOne trie.pool).2.2.config.blockTokens _ _
    rw [h2, FlatCache.evictOne_config]
    exact hrep'
  · show (trie.cache.evictOne trie.pool).2.2.Accounts _
    rw [h2]
    exact FlatCache.evictOne_accounts hacc

/-- Clearing frees the same blocks on both sides. -/
theorem clear (h : Linked trie ref) : StepsAlike trie ref .clear := by
  obtain ⟨flat, hrep, htime, hacc⟩ := h.flat
  obtain ⟨h2, hrep'⟩ := hrep.clear trie.pool
  obtain ⟨h4, htime'⟩ := htime.clear trie.pool
  simp only [StepsAlike, Clients.step, ← h.pool, ExactPrefixCache.ops, PartialPrefixReference.ops]
  refine ⟨trivial, h2.trans h4.symm, h.sequences, _, ?_, htime', ?_⟩
  · show Represents (trie.cache.clear trie.pool).2.config.blockTokens _ _
    rw [h2, FlatCache.clear_config]
    exact hrep'
  · show (trie.cache.clear trie.pool).2.Accounts _
    rw [h2]
    exact (FlatCache.clear_accounts hacc).congr fun b => by simp [FlatCache.clear, FlatCache.pages]

/-- One operation of the clients: same outcome, and the systems stay linked. -/
theorem step (h : Linked trie ref) (op : ClientOp) : StepsAlike trie ref op := by
  cases op with
  | reserve id last => exact h.reserve id last
  | rollback id n => exact h.rollback id n
  | release id => exact h.release id
  | fill id used tokens =>
    obtain ⟨flat, hrep, htime, hacc⟩ := h.flat
    simp only [StepsAlike, Clients.step, h.sequence_eq]
    refine ⟨trivial, h.setSequence rfl rfl h.pool hrep htime hacc fun b => ?_⟩
    dsimp only
    omega
  | publish id => exact h.publish id
  | reuse id prompt => exact h.reuse id prompt
  | evictOne => exact h.evictOne
  | clear => exact h.clear

/-- Linked systems are observed alike along any run. -/
theorem run (h : Linked trie ref) (ops : List ClientOp) :
    Clients.run ExactPrefixCache.ops trie ops = Clients.run PartialPrefixReference.ops ref ops := by
  induction ops generalizing trie ref with
  | nil => rfl
  | cons op ops ih =>
    obtain ⟨hout, hlink⟩ := h.step op
    simp only [Clients.run]
    rw [hout, hlink.observe, ih hlink]

/-- The systems over a new pool and empty caches. -/
theorem start {config : KvCacheConfig} {layers width : Nat} {pool : KvBlockPool}
    (h : KvBlockPool.create config layers width = .ok pool) :
    Linked { cache := {}, pool } { cache := {}, pool } where
  pool := rfl
  sequences := rfl
  flat := ⟨{}, Represents.empty _, Timed.empty, (KvBlockPool.create_accounts h).2.1.congr
    fun b => by simp [Clients.held, FlatCache.pages]⟩

end Linked

/-- The page trie is observably the reference cache: for every pool and every
run of operations, the outcomes, the sequences, the pool with its reference
counts and free-list order, and the statistics agree after each operation. -/
theorem trie_refines_reference {config : KvCacheConfig} {layers width : Nat} {pool : KvBlockPool}
    (h : KvBlockPool.create config layers width = .ok pool) (ops : List ClientOp) :
    Clients.run ExactPrefixCache.ops { cache := {}, pool } ops =
      Clients.run PartialPrefixReference.ops { cache := {}, pool } ops :=
  (Linked.start h).run ops

/-- A published page that was evicted is looked for in vain by both caches. -/
theorem trie_refines_reference_two_pages :
    ∃ pool, KvBlockPool.create ⟨2, 4, 2⟩ 1 1 = .ok pool ∧
      Clients.run ExactPrefixCache.ops { cache := {}, pool }
          [.reserve 0 3, .fill 0 3 [7, 8, 9], .publish 0, .evictOne, .reuse 1 [7, 8, 9, 1]] =
        Clients.run PartialPrefixReference.ops { cache := {}, pool }
          [.reserve 0 3, .fill 0 3 [7, 8, 9], .publish 0, .evictOne, .reuse 1 [7, 8, 9, 1]] :=
  ⟨_, rfl, trie_refines_reference
    (show KvBlockPool.create ⟨2, 4, 2⟩ 1 1 = .ok _ from rfl) _⟩

end TinyInfer.MiniPrefix
