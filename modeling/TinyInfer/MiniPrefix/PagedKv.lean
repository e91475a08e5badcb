import TinyInfer.MiniPrefix.Request
import Mathlib.Logic.Function.Basic
import Mathlib.Data.List.Nodup
import Mathlib.Data.List.Perm.Subperm

/-!
# The paged KV block pool (`paged_kv.cpp`)

A pool of `maxBlocks` physical pages, each with a reference count, and a
free-list used as a stack (the head of `free` is `free_.back()`). A
`PagedSequence` holds pages through its block table.

`KvBlockPool.Accounts pool held` is the reference-counting contract: `held b`
many leases on page `b` exist outside the pool, the counts agree with it, and
the free-list is duplicate-free and lists exactly the pages nobody holds. Every
pool operation has one lemma saying how it moves `held`; the holders
(sequences, cache nodes, an append transaction) are the business of the callers.
-/

namespace TinyInfer.MiniPrefix

/-- `KvCacheConfig`. The fields are `int` in the code; the constructor of the
pool rejects every negative value. -/
structure KvCacheConfig where
  blockTokens : Nat := 16
  maxBlocks : Nat := 128
  prefixCacheBlocks : Nat := 0
  deriving DecidableEq, Repr

/-- What every constructed pool knows about its configuration. -/
structure KvCacheConfig.Valid (c : KvCacheConfig) : Prop where
  blockTokens_pos : 0 < c.blockTokens
  maxBlocks_pos : 0 < c.maxBlocks
  cache_le : c.prefixCacheBlocks ≤ c.maxBlocks

structure PagedSequence where
  used : Nat := 0
  blocks : List Nat := []
  tokens : List TokenId := []
  deriving DecidableEq, Repr

/-- `KvBlockPool`. A pool over an invalid configuration cannot be built.
`underflow` is a ghost flag: some `unref` met a count of zero. -/
structure KvBlockPool where
  config : KvCacheConfig
  valid : config.Valid
  blockElements : Nat
  live : Nat := 0
  peak : Nat := 0
  free : List Nat
  references : Nat → Nat
  underflow : Bool := false

/-- `std::numeric_limits<std::size_t>::max()/sizeof(float)/2`. -/
def sizeLimit : Nat := (2 ^ 64 - 1) / 4 / 2

/-- The size product of the constructor, `none` where it reports overflow. -/
def checkedProduct : Nat → List Nat → Option Nat
  | size, [] => some size
  | size, factor :: rest =>
    if size > sizeLimit / factor then none else checkedProduct (size * factor) rest

/-- The number of pages that `tokens` slots need. -/
def pagesFor (blockTokens tokens : Nat) : Nat :=
  tokens / blockTokens + if tokens % blockTokens ≠ 0 then 1 else 0

/-- The number of pages is the one whose range holds the tokens. -/
theorem pagesFor_of_lt {blockTokens n k : Nat} (hlo : blockTokens * k < n)
    (hhi : n ≤ blockTokens * (k + 1)) : pagesFor blockTokens n = k + 1 := by
  obtain ⟨r, rfl⟩ := Nat.exists_eq_add_of_lt hlo
  rw [Nat.mul_add, Nat.mul_one] at hhi
  have hpos : 0 < blockTokens := by omega
  have hassoc : blockTokens * k + r + 1 = blockTokens * k + (r + 1) := by omega
  rw [pagesFor, hassoc, Nat.mul_add_div hpos, Nat.mul_add_mod]
  rcases Nat.lt_or_eq_of_le (show r + 1 ≤ blockTokens by omega) with hlt | heq
  · rw [Nat.div_eq_of_lt hlt, Nat.mod_eq_of_lt hlt, if_pos (by omega)]
  · rw [heq, Nat.div_self hpos, Nat.mod_self, if_neg (by simp)]

@[simp] theorem pagesFor_zero (blockTokens : Nat) : pagesFor blockTokens 0 = 0 := by
  simp [pagesFor]

theorem pagesFor_mul {blockTokens : Nat} (k : Nat) (hpos : 0 < blockTokens) :
    pagesFor blockTokens (blockTokens * k) = k := by
  rw [pagesFor, Nat.mul_div_cancel_left _ hpos, Nat.mul_mod_right]
  simp

/-- The page a slot falls on is among the pages needed. -/
theorem div_lt_pagesFor {blockTokens t n : Nat} (hpos : 0 < blockTokens) (ht : t < n) :
    t / blockTokens < pagesFor blockTokens n := by
  have hle : t / blockTokens ≤ n / blockTokens := Nat.div_le_div_right (by omega)
  rw [pagesFor]
  by_cases hmod : n % blockTokens = 0
  · rw [if_neg (by simpa using hmod), Nat.add_zero, Nat.div_lt_iff_lt_mul hpos,
      Nat.div_mul_cancel (Nat.dvd_of_mod_eq_zero hmod)]
    exact ht
  · rw [if_pos hmod]
    omega

/-- A number of pages says how many tokens there are, up to a page. -/
theorem lt_of_pagesFor {blockTokens n k : Nat} (hpos : 0 < blockTokens)
    (h : pagesFor blockTokens n = k + 1) : blockTokens * k < n ∧ n ≤ blockTokens * (k + 1) := by
  have hdm := Nat.div_add_mod n blockTokens
  have hml := Nat.mod_lt n hpos
  have hsucc : blockTokens * (k + 1) = blockTokens * k + blockTokens := Nat.mul_succ _ _
  rw [pagesFor] at h
  by_cases hmod : n % blockTokens = 0
  · rw [if_neg (by simpa using hmod), Nat.add_zero] at h
    rw [h, hmod] at hdm
    omega
  · rw [if_pos hmod] at h
    rw [Nat.succ.inj h] at hdm
    omega

/-- Rounding up. -/
theorem pagesFor_eq {blockTokens : Nat} (hpos : 0 < blockTokens) (n : Nat) :
    pagesFor blockTokens n = (n + blockTokens - 1) / blockTokens := by
  rcases Nat.eq_zero_or_pos n with rfl | hn
  · rw [Nat.zero_add, Nat.div_eq_of_lt (by omega)]
    simp [pagesFor]
  · have hdm := Nat.div_add_mod (n - 1) blockTokens
    have hml := Nat.mod_lt (n - 1) hpos
    have hshift : n + blockTokens - 1 = n - 1 + blockTokens := by omega
    rw [hshift, Nat.add_div_right _ hpos]
    refine pagesFor_of_lt (by omega) ?_
    rw [Nat.mul_succ]
    omega

/-- More tokens take no fewer pages. -/
theorem pagesFor_mono {blockTokens n m : Nat} (h : n ≤ m) :
    pagesFor blockTokens n ≤ pagesFor blockTokens m := by
  rcases Nat.eq_zero_or_pos blockTokens with rfl | hpos
  · simp only [pagesFor, Nat.div_zero, Nat.mod_zero]
    split <;> split <;> omega
  · rw [pagesFor_eq hpos, pagesFor_eq hpos]
    exact Nat.div_le_div_right (by omega)

namespace KvBlockPool

/-- What the constructor has checked. -/
theorem valid_of_checked {config : KvCacheConfig} {layers width : Nat}
    (h : ¬ (config.blockTokens < 1 ∨ config.maxBlocks < 1 ∨ layers < 1 ∨ width < 1 ∨
      config.prefixCacheBlocks > config.maxBlocks)) : config.Valid :=
  ⟨by omega, by omega, by omega⟩

/-- The constructor. -/
def create (config : KvCacheConfig) (layers width : Nat) : Except Exn KvBlockPool :=
  if h : config.blockTokens < 1 ∨ config.maxBlocks < 1 ∨ layers < 1 ∨ width < 1 ∨
      config.prefixCacheBlocks > config.maxBlocks then
    .error (.invalidArgument "invalid paged KV configuration")
  else
    match checkedProduct layers [config.blockTokens, width, config.maxBlocks] with
    | none => .error (.invalidArgument "paged KV size overflow")
    | some size => .ok {
        config
        valid := valid_of_checked h
        blockElements := size / config.maxBlocks
        free := List.range config.maxBlocks
        references := fun _ => 0 }

def blockBytes (pool : KvBlockPool) : Nat := pool.blockElements * 4 * 2

def reservedBytes (pool : KvBlockPool) : Nat := pool.blockBytes * pool.config.maxBlocks

def freeBlocks (pool : KvBlockPool) : Nat := pool.free.length

/-- Pop the top of the free-list and give it the count 1. -/
def takeFree (pool : KvBlockPool) (block : Nat) (rest : List Nat) : KvBlockPool :=
  { pool with free := rest, references := Function.update pool.references block 1,
              live := pool.live + 1 }

def raisePeak (pool : KvBlockPool) : KvBlockPool :=
  { pool with peak := max pool.peak pool.live }

def allocate (pool : KvBlockPool) : Except Exn Nat × KvBlockPool :=
  match pool.free with
  | [] => (.error (.kvCapacityError "paged KV block pool exhausted"), pool)
  | block :: rest => (.ok block, (pool.takeFree block rest).raisePeak)

/-- `++references_.at(block)`. -/
def retain (pool : KvBlockPool) (block : Nat) : Except Exn Unit × KvBlockPool :=
  if block < pool.config.maxBlocks then
    (.ok (), { pool with
      references := Function.update pool.references block (pool.references block + 1) })
  else (.error (.outOfRange "vector::_M_range_check"), pool)

/-- Several `retain` calls in a row, stopping at the first that throws. -/
def retainAll (pool : KvBlockPool) : List Nat → Except Exn Unit × KvBlockPool
  | [] => (.ok (), pool)
  | block :: rest =>
    match pool.retain block with
    | (.ok (), pool) => pool.retainAll rest
    | (.error e, pool) => (.error e, pool)

/-- `if(--references_[block]==0){free_.push_back(block);--live_;}`. -/
def unref (pool : KvBlockPool) (block : Nat) : KvBlockPool :=
  let pool := { pool with
    underflow := pool.underflow || pool.references block == 0
    references := Function.update pool.references block (pool.references block - 1) }
  if pool.references block = 0 then { pool with free := block :: pool.free, live := pool.live - 1 }
  else pool

def unrefAll (pool : KvBlockPool) (blocks : List Nat) : KvBlockPool := blocks.foldl unref pool

/-- The `while` loop of `reserve`: `missing` pages from the top of the
free-list go to the end of the block table. -/
def reserveLoop : Nat → List Nat → KvBlockPool → List Nat × KvBlockPool
  | 0, blocks, pool => (blocks, pool)
  | missing + 1, blocks, pool =>
    match pool.free with
    | [] => (blocks, pool)
    | block :: rest => reserveLoop missing (blocks ++ [block]) (pool.takeFree block rest)

def reserve (pool : KvBlockPool) (sequence : PagedSequence) (last : Nat) :
    Except Exn Unit × PagedSequence × KvBlockPool :=
  if last < sequence.used then
    (.error (.invalidArgument "paged KV cannot truncate through reserve"), sequence, pool)
  else
    let count := pagesFor pool.config.blockTokens last
    if count ≤ sequence.blocks.length then (.ok (), sequence, pool)
    else if count - sequence.blocks.length > pool.freeBlocks then
      (.error (.kvCapacityError "paged KV block pool exhausted"), sequence, pool)
    else
      let (blocks, pool) := reserveLoop (count - sequence.blocks.length) sequence.blocks pool
      (.ok (), { sequence with blocks }, pool.raisePeak)

/-- The `while` loop of `rollback`: give up `surplus` pages from the back. -/
def rollbackLoop : Nat → List Nat → KvBlockPool → List Nat × KvBlockPool
  | 0, blocks, pool => (blocks, pool)
  | surplus + 1, blocks, pool =>
    match blocks.getLast? with
    | none => (blocks, pool)
    | some block => rollbackLoop surplus blocks.dropLast (pool.unref block)

def rollback (pool : KvBlockPool) (sequence : PagedSequence) (originalBlocks : Nat) :
    PagedSequence × KvBlockPool :=
  let (blocks, pool) :=
    rollbackLoop (sequence.blocks.length - originalBlocks) sequence.blocks pool
  ({ sequence with blocks }, pool)

def release (pool : KvBlockPool) (sequence : PagedSequence) : PagedSequence × KvBlockPool :=
  let (sequence, pool) := pool.rollback sequence 0
  ({ sequence with used := 0, tokens := [] }, pool)

/-- The element offset of a token's row: `[physical block, layer, slot, KV]`. -/
def offset (pool : KvBlockPool) (sequence : PagedSequence) (layer token layers width : Nat) :
    Except Exn Nat :=
  match sequence.blocks[token / pool.config.blockTokens]? with
  | none => .error (.outOfRange "vector::_M_range_check")
  | some block => .ok (((block * layers + layer) * pool.config.blockTokens +
      token % pool.config.blockTokens) * width)

/-! ## The loops in closed form -/

/-- A rollback returns the last pages, newest first. -/
theorem rollbackLoop_eq (n : Nat) (blocks : List Nat) (pool : KvBlockPool)
    (hn : n ≤ blocks.length) :
    rollbackLoop n blocks pool =
      (blocks.take (blocks.length - n),
        pool.unrefAll (blocks.drop (blocks.length - n)).reverse) := by
  induction n generalizing blocks pool with
  | zero => simp [rollbackLoop, unrefAll]
  | succ n ih =>
    obtain ⟨rest, b, rfl⟩ := (List.eq_nil_or_concat blocks).resolve_left (by
      rintro rfl
      simp at hn)
    have hlen : n ≤ rest.length := by simpa using hn
    rw [List.concat_eq_append, rollbackLoop, List.getLast?_concat, List.dropLast_concat]
    show rollbackLoop n rest (pool.unref b) = _
    rw [ih rest _ hlen]
    have hk : (rest ++ [b]).length - (n + 1) = rest.length - n := by simp
    rw [hk, List.take_append_of_le_length (by omega), List.drop_append_of_le_length (by omega)]
    simp [unrefAll]

/-- `rollback` keeps the first pages and gives up the others from the back. -/
theorem rollback_eq (pool : KvBlockPool) (sequence : PagedSequence) (n : Nat) :
    pool.rollback sequence n =
      ({ sequence with blocks := sequence.blocks.take n },
        pool.unrefAll (sequence.blocks.drop n).reverse) := by
  rw [rollback, rollbackLoop_eq _ _ _ (Nat.sub_le _ _)]
  by_cases h : n ≤ sequence.blocks.length
  · rw [Nat.sub_sub_self h]
  · have h' : sequence.blocks.length ≤ n := by omega
    simp [List.take_of_length_le h', List.drop_eq_nil_of_le h', Nat.sub_eq_zero_of_le h',
      unrefAll]

/-- `release` empties the sequence and gives up all its pages. -/
theorem release_eq (pool : KvBlockPool) (sequence : PagedSequence) :
    pool.release sequence = ({}, pool.unrefAll sequence.blocks.reverse) := by
  rw [release, rollback_eq]
  simp

/-! ## What never changes -/

@[simp] theorem retain_config (pool : KvBlockPool) (b : Nat) :
    (pool.retain b).2.config = pool.config := by
  rw [retain]
  split <;> rfl

@[simp] theorem unref_config (pool : KvBlockPool) (b : Nat) :
    (pool.unref b).config = pool.config := by
  rw [unref]
  split <;> rfl

@[simp] theorem unrefAll_config (pool : KvBlockPool) (bs : List Nat) :
    (pool.unrefAll bs).config = pool.config := by
  induction bs generalizing pool with
  | nil => rfl
  | cons b bs ih => exact (ih (pool.unref b)).trans (pool.unref_config b)

/-! ## The peak -/

theorem unref_peak (pool : KvBlockPool) (b : Nat) :
    (pool.unref b).peak = pool.peak ∧ (pool.unref b).live ≤ pool.live := by
  rw [unref]
  split
  · exact ⟨rfl, Nat.sub_le _ _⟩
  · exact ⟨rfl, le_rfl⟩

/-- Returning references leaves the peak and adds no live page. -/
theorem unrefAll_peak (pool : KvBlockPool) (bs : List Nat) :
    (pool.unrefAll bs).peak = pool.peak ∧ (pool.unrefAll bs).live ≤ pool.live := by
  induction bs generalizing pool with
  | nil => exact ⟨rfl, le_rfl⟩
  | cons b bs ih =>
    obtain ⟨h1, h2⟩ := ih (pool.unref b)
    obtain ⟨h3, h4⟩ := pool.unref_peak b
    exact ⟨h1.trans h3, h2.trans h4⟩

theorem retain_peak (pool : KvBlockPool) (b : Nat) :
    (pool.retain b).2.peak = pool.peak ∧ (pool.retain b).2.live = pool.live := by
  rw [retain]
  split <;> exact ⟨rfl, rfl⟩

/-- Taking references leaves peak and live pages. -/
theorem retainAll_peak (pool : KvBlockPool) (bs : List Nat) :
    (pool.retainAll bs).2.peak = pool.peak ∧ (pool.retainAll bs).2.live = pool.live := by
  induction bs generalizing pool with
  | nil => exact ⟨rfl, rfl⟩
  | cons b bs ih =>
    have hb := pool.retain_peak b
    rw [retainAll]
    generalize pool.retain b = r at hb
    obtain ⟨_ | _, pool'⟩ := r
    · exact hb
    · obtain ⟨h1, h2⟩ := ih pool'
      exact ⟨h1.trans hb.1, h2.trans hb.2⟩

/-! ## Reference counting -/

theorem count_one (b x : Nat) : [b].count x = if x = b then 1 else 0 := by
  by_cases h : x = b
  · simp [h]
  · simp [h, Ne.symm h]

theorem count_cons_eq (b x : Nat) (bs : List Nat) :
    (b :: bs).count x = [b].count x + bs.count x := by
  rw [← List.count_append]
  rfl

/-- The pool agrees with the leases held outside it: `held b` many on page `b`. -/
structure Accounts (pool : KvBlockPool) (held : Nat → Nat) : Prop where
  refs : ∀ b, pool.references b = held b
  bounded : ∀ b, 0 < held b → b < pool.config.maxBlocks
  free_nodup : pool.free.Nodup
  mem_free : ∀ b, b ∈ pool.free ↔ b < pool.config.maxBlocks ∧ held b = 0
  live_add_free : pool.live + pool.free.length = pool.config.maxBlocks
  no_underflow : pool.underflow = false

theorem Accounts.congr {pool : KvBlockPool} {held held' : Nat → Nat} (h : pool.Accounts held)
    (heq : ∀ b, held b = held' b) : pool.Accounts held' := by
  have : held = held' := funext heq
  exact this ▸ h

/-- A constructed pool: nobody holds anything. -/
theorem create_accounts {config : KvCacheConfig} {layers width : Nat} {pool : KvBlockPool}
    (h : create config layers width = .ok pool) :
    pool.config = config ∧ pool.Accounts (fun _ => 0) ∧ pool.live = 0 := by
  rw [create] at h
  split at h
  · cases h
  · split at h
    · cases h
    · cases h
      refine ⟨rfl, ?_, rfl⟩
      exact { refs := fun _ => rfl
              bounded := fun b hb => absurd hb (lt_irrefl 0)
              free_nodup := List.nodup_range
              mem_free := fun b => by simp
              live_add_free := by simp
              no_underflow := rfl }

/-- A free page that is taken has one reference. -/
theorem takeFree_accounts {pool : KvBlockPool} {held : Nat → Nat} (h : pool.Accounts held)
    {b : Nat} {rest : List Nat} (hfree : pool.free = b :: rest) :
    (pool.takeFree b rest).Accounts (fun x => held x + [b].count x) := by
  have hb := (h.mem_free b).mp (by rw [hfree]; exact List.mem_cons_self)
  have hnd : b ∉ rest ∧ rest.Nodup := List.nodup_cons.mp (hfree ▸ h.free_nodup)
  refine { refs := fun x => ?_, bounded := fun x hx => ?_, free_nodup := hnd.2,
           mem_free := fun x => ?_, live_add_free := ?_, no_underflow := h.no_underflow }
  · show Function.update pool.references b 1 x = _
    rw [Function.update_apply, count_one]
    split
    · next heq => rw [heq, hb.2]
    · exact h.refs x
  · rw [count_one] at hx
    by_cases heq : x = b
    · exact heq ▸ hb.1
    · exact h.bounded x (by simpa [heq] using hx)
  · show x ∈ rest ↔ _
    have hx := h.mem_free x
    rw [hfree, List.mem_cons] at hx
    rw [count_one]
    by_cases heq : x = b
    · subst heq
      simp [hnd.1]
    · simpa [heq, takeFree] using hx
  · have := h.live_add_free
    rw [hfree] at this
    simp only [takeFree, List.length_cons] at this ⊢
    omega

theorem raisePeak_accounts {pool : KvBlockPool} {held : Nat → Nat} (h : pool.Accounts held) :
    pool.raisePeak.Accounts held := { h with }

/-- `allocate` on a pool with free pages: the page at the top of the free-list
gets its first lease. -/
theorem allocate_spec {pool : KvBlockPool} {held : Nat → Nat} (h : pool.Accounts held)
    (hfree : pool.free ≠ []) :
    ∃ b pool', pool.allocate = (.ok b, pool') ∧ held b = 0 ∧ b < pool.config.maxBlocks ∧
      pool'.config = pool.config ∧ pool'.live ≤ pool'.peak ∧
      pool'.Accounts (fun x => held x + [b].count x) := by
  obtain ⟨b, rest, hb⟩ := List.exists_cons_of_ne_nil hfree
  have hmem := (h.mem_free b).mp (by rw [hb]; exact List.mem_cons_self)
  refine ⟨b, (pool.takeFree b rest).raisePeak, ?_, hmem.2, hmem.1, rfl, le_max_right _ _, ?_⟩
  · rw [allocate, hb]
  · exact raisePeak_accounts (takeFree_accounts h hb)

/-- `retain` on a page somebody holds adds a lease. -/
theorem retain_spec {pool : KvBlockPool} {held : Nat → Nat} (h : pool.Accounts held) {b : Nat}
    (hb : 0 < held b) :
    ∃ pool', pool.retain b = (.ok (), pool') ∧ pool'.config = pool.config ∧
      pool'.free = pool.free ∧ pool'.Accounts (fun x => held x + [b].count x) := by
  refine ⟨{ pool with
    references := Function.update pool.references b (pool.references b + 1) },
    by rw [retain, if_pos (h.bounded b hb)], rfl, rfl, ?_⟩
  refine { refs := fun x => ?_, bounded := fun x hx => ?_, free_nodup := h.free_nodup,
           mem_free := fun x => ?_, live_add_free := h.live_add_free,
           no_underflow := h.no_underflow }
  · show Function.update pool.references b _ x = _
    rw [Function.update_apply, count_one, h.refs b]
    split
    · next heq => rw [heq]
    · exact h.refs x
  · rw [count_one] at hx
    by_cases heq : x = b
    · exact heq ▸ h.bounded b hb
    · exact h.bounded x (by simpa [heq] using hx)
  · show x ∈ pool.free ↔ _
    rw [h.mem_free x, count_one]
    by_cases heq : x = b
    · subst heq
      simp [hb.ne']
    · simp [heq]

/-- Held pages can all be retained once more. -/
theorem retainAll_spec {pool : KvBlockPool} {held : Nat → Nat} (h : pool.Accounts held)
    {bs : List Nat} (hbs : ∀ b ∈ bs, 0 < held b) :
    ∃ pool', pool.retainAll bs = (.ok (), pool') ∧ pool'.config = pool.config ∧
      pool'.free = pool.free ∧ pool'.Accounts (fun x => held x + bs.count x) := by
  induction bs generalizing pool held with
  | nil => exact ⟨pool, rfl, rfl, rfl, h.congr fun b => by simp⟩
  | cons b bs ih =>
    obtain ⟨pool₁, heq₁, hcfg₁, hfree₁, hacc₁⟩ := retain_spec h (hbs b List.mem_cons_self)
    obtain ⟨pool₂, heq₂, hcfg₂, hfree₂, hacc₂⟩ := ih hacc₁ fun x hx =>
      Nat.lt_of_lt_of_le (hbs x (List.mem_cons_of_mem b hx)) (Nat.le_add_right _ _)
    refine ⟨pool₂, ?_, hcfg₂.trans hcfg₁, hfree₂.trans hfree₁, hacc₂.congr fun x => ?_⟩
    · rw [retainAll, heq₁]
      exact heq₂
    · rw [count_cons_eq b x bs]
      omega

/-- `unref` gives one held lease back; the last one frees the page. -/
theorem unref_accounts {pool : KvBlockPool} {held held' : Nat → Nat} (h : pool.Accounts held)
    {b : Nat} (hheld : ∀ x, held x = held' x + [b].count x) :
    (pool.unref b).Accounts held' := by
  have hb : held b = held' b + 1 := by rw [hheld b, count_one, if_pos rfl]
  have hother : ∀ x, x ≠ b → held x = held' x := fun x hx => by
    rw [hheld x, count_one, if_neg hx, Nat.add_zero]
  have hrefs : ∀ x, Function.update pool.references b (pool.references b - 1) x = held' x := by
    intro x
    rw [Function.update_apply]
    split
    · next heq => rw [heq, h.refs b, hb, Nat.add_sub_cancel]
    · next hne => rw [h.refs x, hother x hne]
  have hbounded : ∀ x, 0 < held' x → x < pool.config.maxBlocks := fun x hx =>
    h.bounded x (by rw [hheld x]; omega)
  have hunder : (pool.underflow || pool.references b == 0) = false := by
    rw [h.no_underflow, h.refs b, hb]
    simp
  rw [unref]
  by_cases hlast : held' b = 0
  · rw [if_pos (by simpa only [hrefs b] using hlast)]
    have hmem : b ∉ pool.free := fun hm => by
      have := ((h.mem_free b).mp hm).2
      omega
    refine { refs := hrefs, bounded := hbounded, free_nodup := ?_, mem_free := fun x => ?_,
             live_add_free := ?_, no_underflow := hunder }
    · exact List.nodup_cons.mpr ⟨hmem, h.free_nodup⟩
    · rw [List.mem_cons, h.mem_free x]
      by_cases heq : x = b
      · subst heq
        simp [hlast, h.bounded x (by omega)]
      · rw [hother x heq]
        simp [heq]
    · have hlive := h.live_add_free
      have hlen : pool.free.length < pool.config.maxBlocks := by
        have hsub : (b :: pool.free).length ≤ (List.range pool.config.maxBlocks).length := by
          refine (List.subperm_of_subset
            (List.nodup_cons.mpr ⟨hmem, h.free_nodup⟩) fun x hx => ?_).length_le
          rcases List.mem_cons.mp hx with rfl | hx
          · exact List.mem_range.mpr (h.bounded x (by omega))
          · exact List.mem_range.mpr ((h.mem_free x).mp hx).1
        simpa [Nat.succ_le_iff] using hsub
      simp only [List.length_cons]
      omega
  · rw [if_neg (by simpa only [hrefs b] using hlast)]
    refine { refs := hrefs, bounded := hbounded, free_nodup := h.free_nodup,
             mem_free := fun x => ?_, live_add_free := h.live_add_free, no_underflow := hunder }
    show x ∈ pool.free ↔ _
    rw [h.mem_free x]
    by_cases heq : x = b
    · subst heq
      simp [hlast, hb]
    · rw [hother x heq]

/-- Returning references keeps the account of the rest. -/
theorem unrefAll_accounts {pool : KvBlockPool} {held held' : Nat → Nat} (h : pool.Accounts held)
    {bs : List Nat} (hheld : ∀ x, held x = held' x + bs.count x) :
    (pool.unrefAll bs).Accounts held' := by
  induction bs generalizing pool held with
  | nil => exact h.congr fun x => by simpa using hheld x
  | cons b bs ih =>
    refine ih (unref_accounts h fun x => ?_) fun x => rfl
    rw [hheld x, count_cons_eq b x bs]
    omega

/-- The loop takes the first free pages, in order. -/
theorem reserveLoop_spec (blocks : List Nat) {n : Nat} {pool : KvBlockPool} {held : Nat → Nat}
    (h : pool.Accounts held) (hn : n ≤ pool.free.length) :
    ∃ pool', reserveLoop n blocks pool = (blocks ++ pool.free.take n, pool') ∧
      pool'.config = pool.config ∧ pool'.peak = pool.peak ∧ pool'.free = pool.free.drop n ∧
      pool'.Accounts (fun x => held x + (pool.free.take n).count x) := by
  induction n generalizing blocks pool held with
  | zero => exact ⟨pool, by simp [reserveLoop], rfl, rfl, by simp, h.congr fun x => by simp⟩
  | succ n ih =>
    cases hfree : pool.free with
    | nil => simp [hfree] at hn
    | cons b rest =>
      have hacc := takeFree_accounts h hfree
      obtain ⟨pool', heq, hcfg, hpeak, hrest, hacc'⟩ :=
        ih (blocks ++ [b]) hacc (by simpa [takeFree, hfree] using hn)
      refine ⟨pool', ?_, hcfg, hpeak, ?_, hacc'.congr fun x => ?_⟩
      · rw [reserveLoop, hfree]
        simpa [takeFree] using heq
      · simpa [takeFree] using hrest
      · rw [List.take_succ_cons, count_cons_eq b x (rest.take n)]
        simp only [takeFree]
        omega

/-- `reserve` with enough free pages appends fresh pages, which nobody held. -/
theorem reserve_spec {pool : KvBlockPool} {sequence : PagedSequence} {held : Nat → Nat}
    (h : pool.Accounts held) {last : Nat} (hused : sequence.used ≤ last)
    (hroom : pagesFor pool.config.blockTokens last - sequence.blocks.length ≤ pool.free.length) :
    ∃ fresh pool', pool.reserve sequence last =
        (.ok (), { sequence with blocks := sequence.blocks ++ fresh }, pool') ∧
      pool'.config = pool.config ∧
      fresh.length = pagesFor pool.config.blockTokens last - sequence.blocks.length ∧
      fresh.Nodup ∧ (∀ b ∈ fresh, held b = 0) ∧ (pool.live ≤ pool.peak → pool'.live ≤ pool'.peak) ∧
      pool'.free = pool.free.drop fresh.length ∧
      pool'.Accounts (fun x => held x + fresh.count x) := by
  rw [reserve, if_neg (by omega)]
  by_cases hle : pagesFor pool.config.blockTokens last ≤ sequence.blocks.length
  · refine ⟨[], pool, ?_, rfl, ?_, List.nodup_nil, by simp, id, rfl, h.congr fun x => by simp⟩
    · simp only [if_pos hle, List.append_nil]
    · simp only [List.length_nil]
      omega
  · obtain ⟨pool', heq, hcfg, -, hfree, hacc⟩ :=
      reserveLoop_spec sequence.blocks h hroom
    refine ⟨_, pool'.raisePeak, ?_, hcfg, ?_, h.free_nodup.sublist (List.take_sublist _ _), ?_,
      fun _ => le_max_right _ _, ?_, raisePeak_accounts hacc⟩
    · simp only [if_neg hle, freeBlocks, gt_iff_lt, if_neg (Nat.not_lt.mpr hroom), heq]
    · rw [List.length_take]
      omega
    · exact fun b hb => ((h.mem_free b).mp (List.mem_of_mem_take hb)).2
    · show pool'.free = _
      rw [hfree, List.length_take, Nat.min_eq_left hroom]

/-- `reserve` without enough free pages throws and changes nothing. -/
theorem reserve_full {pool : KvBlockPool} {sequence : PagedSequence} {last : Nat}
    (hused : sequence.used ≤ last)
    (hroom : pool.free.length < pagesFor pool.config.blockTokens last - sequence.blocks.length) :
    pool.reserve sequence last =
      (.error (.kvCapacityError "paged KV block pool exhausted"), sequence, pool) := by
  rw [reserve, if_neg (by omega)]
  have hle : ¬ pagesFor pool.config.blockTokens last ≤ sequence.blocks.length := by omega
  simp only [freeBlocks, if_neg hle, gt_iff_lt, if_pos hroom]

/-- `reserve` either throws and changes nothing, or appends fresh pages. -/
theorem reserve_cases {pool : KvBlockPool} {held : Nat → Nat} (h : pool.Accounts held)
    (sequence : PagedSequence) (last : Nat) :
    (∃ err, pool.reserve sequence last = (.error err, sequence, pool)) ∨
      ∃ fresh pool', pool.reserve sequence last =
          (.ok (), { sequence with blocks := sequence.blocks ++ fresh }, pool') ∧
        pool'.config = pool.config ∧ pool'.Accounts (fun x => held x + fresh.count x) := by
  by_cases hused : last < sequence.used
  · exact Or.inl ⟨_, by rw [reserve, if_pos hused]⟩
  rcases Nat.lt_or_ge pool.free.length
      (pagesFor pool.config.blockTokens last - sequence.blocks.length) with hfull | hroom
  · exact Or.inl ⟨_, reserve_full (Nat.le_of_not_lt hused) hfull⟩
  · obtain ⟨fresh, pool', heq, hcfg, -, -, -, -, -, hacc⟩ :=
      reserve_spec h (Nat.le_of_not_lt hused) hroom
    exact Or.inr ⟨fresh, pool', heq, hcfg, hacc⟩

/-- When nobody holds a page, all pages are free. -/
theorem Accounts.all_free {pool : KvBlockPool} (h : pool.Accounts fun _ => 0) :
    pool.freeBlocks = pool.config.maxBlocks := by
  have hperm : pool.free.Perm (List.range pool.config.maxBlocks) := by
    refine (List.perm_ext_iff_of_nodup h.free_nodup List.nodup_range).mpr fun b => ?_
    rw [h.mem_free, List.mem_range]
    simp
  rw [freeBlocks, hperm.length_eq, List.length_range]

end KvBlockPool

end TinyInfer.MiniPrefix
