import TinyInfer.Core.Machine
import TinyInfer.MiniPrefix.CpuRunner

/-!
# The addresses of KV pages (`paged_kv.cpp`, `kv_manager.cpp`)

The layout of a page is written down three times: in the size product of the pool's
constructor, in `offset`, and in the region that a copy-on-write transaction copies.
All three describe the same elements (`kv_addressing`), and no `std::size_t` on the way
wraps around.

Main definitions: `KvBlockPool.sizeOffset` and its siblings, which are the formulas as
the machine computes them, `KvBlockPool.Addressed`, `TailCopyRegion.Moves`, `CopiesTail`.
-/

namespace TinyInfer.MiniPrefix

open KVManager

/-! ## The formulas of the machine -/

namespace KvBlockPool

/-- The elements of each of the two arrays: `reserved_bytes()/sizeof(float)/2`. -/
def arrayElements (pool : KvBlockPool) : Nat := pool.reservedBytes / 4 / 2

/-- `block_elements_*sizeof(float)*2` -/
def sizeBlockBytes (pool : KvBlockPool) : Option Nat := do
  let bytes ← Machine.size (pool.blockElements * 4)
  Machine.size (bytes * 2)

/-- `block_bytes()*config_.max_blocks` -/
def sizeReservedBytes (pool : KvBlockPool) : Option Nat := do
  let bytes ← pool.sizeBlockBytes
  Machine.size (bytes * pool.config.maxBlocks)

/-- The products of the loop of the constructor are values of `std::size_t`. -/
def ProductFits : Nat → List Nat → Prop
  | _, [] => True
  | size, factor :: rest =>
    size ≤ sizeLimit / factor → size * factor ≤ sizeMax ∧ ProductFits (size * factor) rest

/-- `((block*layers+layer)*block_tokens+slot)*width` -/
def sizeOffset (pool : KvBlockPool) (layers width block layer slot : Nat) : Option Nat := do
  let pages ← Machine.size (block * layers)
  let page ← Machine.size (pages + layer)
  let slots ← Machine.size (page * pool.config.blockTokens)
  let row ← Machine.size (slots + slot)
  Machine.size (row * width)

end KvBlockPool

/-- The region that `copy_shared_tail_region` passes to its callback. -/
def KVManager.sizeTailCopyRegion (kv : KVManager) (copy : TailCopy) : Option TailCopyRegion := do
  let pitch ← Machine.size (kv.config.blockTokens * kv.width)
  let rows := kv.layers
  let destinationPages ← Machine.size (copy.destination * rows)
  let destination ← Machine.size (destinationPages * pitch)
  let sourcePages ← Machine.size (copy.source * rows)
  let source ← Machine.size (sourcePages * pitch)
  let width ← Machine.size (copy.validTokens * kv.width)
  some { destination, source, pitch, width, rows }

/-- `start+row*region.pitch` -/
def KVManager.TailCopyRegion.sizeRow (region : TailCopyRegion) (start row : Nat) : Option Nat := do
  let skipped ← Machine.size (row * region.pitch)
  Machine.size (start + skipped)

/-- The copy of a region reads element `x` and writes it to `y`. -/
def KVManager.TailCopyRegion.Moves (region : TailCopyRegion) (x y : Nat) : Prop :=
  ∃ row < region.rows, ∃ i < region.width,
    x = region.source + row * region.pitch + i ∧ y = region.destination + row * region.pitch + i

/-! ## The pool -/

/-- The last element of a row is an element of its page. -/
theorem slotOffset_le {layers blockTokens width pages b l s : Nat} (hb : b < pages)
    (hl : l < layers) (hs : s < blockTokens) :
    slotOffset layers blockTokens width b l s + width ≤ pages * (layers * blockTokens * width) := by
  have hrow : (b * layers + l) * blockTokens + s + 1 ≤ pages * layers * blockTokens := by
    have hpage : b * layers + l + 1 ≤ pages * layers := by
      have := Nat.mul_le_mul_right layers (Nat.succ_le_of_lt hb)
      rw [Nat.succ_mul] at this
      omega
    have := Nat.mul_le_mul_right blockTokens hpage
    rw [Nat.succ_mul] at this
    omega
  calc slotOffset layers blockTokens width b l s + width
      = ((b * layers + l) * blockTokens + s + 1) * width := by rw [slotOffset, Nat.succ_mul]
    _ ≤ pages * layers * blockTokens * width := Nat.mul_le_mul_right width hrow
    _ = pages * (layers * blockTokens * width) := by
      rw [Nat.mul_assoc, Nat.mul_assoc, Nat.mul_assoc]

/-- Rows of different slots have no element in common. -/
theorem slotOffset_disjoint {layers blockTokens width b l s d b' l' s' d' : Nat} (hl : l < layers)
    (hl' : l' < layers) (hs : s < blockTokens) (hs' : s' < blockTokens) (hd : d < width)
    (hd' : d' < width)
    (hsame : slotOffset layers blockTokens width b l s + d =
      slotOffset layers blockTokens width b' l' s' + d') : b = b' ∧ l = l' ∧ s = s' := by
  obtain ⟨hrow, -⟩ := mul_add_inj hsame hd hd'
  obtain ⟨hpage, hslot⟩ := mul_add_inj hrow hs hs'
  obtain ⟨hblock, hlayer⟩ := mul_add_inj hpage hl hl'
  exact ⟨hblock, hlayer, hslot⟩

namespace KvBlockPool

theorem checkedProduct_some {size total : Nat} {factors : List Nat} (hpos : ∀ f ∈ factors, 0 < f)
    (hfits : size ≤ sizeLimit) (h : checkedProduct size factors = some total) :
    total = size * factors.prod ∧ total ≤ sizeLimit := by
  induction factors generalizing size with
  | nil =>
    cases h
    exact ⟨(Nat.mul_one _).symm, hfits⟩
  | cons factor rest ih =>
    obtain ⟨hhead, htail⟩ := List.forall_mem_cons.1 hpos
    rw [checkedProduct] at h
    split at h
    · cases h
    · rename_i hsmall
      obtain ⟨rfl, hbelow⟩ := ih htail ((Nat.le_div_iff_mul_le hhead).1 (Nat.not_lt.1 hsmall)) h
      exact ⟨by rw [List.prod_cons, Nat.mul_assoc], hbelow⟩

/-- The guard of the loop rules out that a product wraps around. -/
theorem productFits {factors : List Nat} (hpos : ∀ f ∈ factors, 0 < f) (size : Nat) :
    ProductFits size factors := by
  induction factors generalizing size with
  | nil => trivial
  | cons factor rest ih =>
    obtain ⟨hhead, htail⟩ := List.forall_mem_cons.1 hpos
    intro hsmall
    have hbelow : size * factor ≤ sizeLimit := (Nat.le_div_iff_mul_le hhead).1 hsmall
    have hlimit : sizeLimit ≤ sizeMax := by decide
    exact ⟨Nat.le_trans hbelow hlimit, ih htail _⟩

/-- What the constructor has checked. -/
structure Sized (pool : KvBlockPool) (layers width : Nat) : Prop where
  layers_pos : 0 < layers
  width_pos : 0 < width
  elements : pool.blockElements = layers * pool.config.blockTokens * width
  fits : pool.config.maxBlocks * pool.blockElements ≤ sizeLimit

/-- A pool that was created has its sizes computed without overflow. -/
theorem sized_of_create {config : KvCacheConfig} {layers width : Nat} {pool : KvBlockPool}
    (h : create config layers width = .ok pool) :
    pool.config = config ∧ pool.Sized layers width := by
  unfold create at h
  split at h
  · cases h
  · rename_i haccepted
    split at h
    · cases h
    · rename_i size hproduct
      cases h
      have hpos : ∀ f ∈ [config.blockTokens, width, config.maxBlocks], 0 < f := by
        intro f hmem
        simp only [List.mem_cons, List.not_mem_nil, or_false] at hmem
        omega
      have hsmall : layers ≤ sizeLimit := by
        rw [checkedProduct] at hproduct
        split at hproduct
        · cases hproduct
        · rename_i hsmall
          exact Nat.le_trans (Nat.not_lt.1 hsmall) (Nat.div_le_self _ _)
      obtain ⟨rfl, hbelow⟩ := checkedProduct_some hpos hsmall hproduct
      have hfactors : layers * [config.blockTokens, width, config.maxBlocks].prod =
          layers * config.blockTokens * width * config.maxBlocks := by
        simp only [List.prod_cons, List.prod_nil, Nat.mul_one, Nat.mul_assoc]
      have hblocks : 0 < config.maxBlocks := by omega
      refine ⟨rfl, by omega, by omega, ?_, ?_⟩
      · show layers * _ / config.maxBlocks = _
        rw [hfactors, Nat.mul_div_cancel _ hblocks]
      · show config.maxBlocks * (layers * _ / config.maxBlocks) ≤ sizeLimit
        rw [hfactors] at hbelow ⊢
        rwa [Nat.mul_div_cancel _ hblocks, Nat.mul_comm]

variable {pool : KvBlockPool} {layers width : Nat}

theorem Sized.arrayElements (h : pool.Sized layers width) :
    pool.arrayElements = pool.config.maxBlocks * (layers * pool.config.blockTokens * width) := by
  unfold KvBlockPool.arrayElements reservedBytes blockBytes
  rw [← h.elements, Nat.mul_assoc pool.blockElements, Nat.mul_right_comm, Nat.div_div_eq_div_mul,
    Nat.mul_div_cancel _ (by decide), Nat.mul_comm]

theorem Sized.arrayElements_le (h : pool.Sized layers width) : pool.arrayElements ≤ sizeLimit := by
  rw [h.arrayElements, ← h.elements]
  exact h.fits

theorem Sized.blockBytes (h : pool.Sized layers width) :
    pool.sizeBlockBytes = some pool.blockBytes := by
  have hone : pool.blockElements ≤ pool.config.maxBlocks * pool.blockElements :=
    Nat.le_mul_of_pos_left _ pool.valid.maxBlocks_pos
  have hbelow := Nat.le_trans hone h.fits
  unfold sizeLimit at hbelow
  rw [sizeBlockBytes, Machine.size_of_le (by unfold sizeMax; omega)]
  exact Machine.size_of_le (by unfold sizeMax; omega)

theorem Sized.reservedBytes (h : pool.Sized layers width) :
    pool.sizeReservedBytes = some pool.reservedBytes := by
  have hbelow : pool.blockBytes * pool.config.maxBlocks ≤ sizeLimit * 8 := by
    calc pool.blockBytes * pool.config.maxBlocks
        = pool.config.maxBlocks * pool.blockElements * 8 := by
          rw [KvBlockPool.blockBytes, Nat.mul_assoc pool.blockElements, Nat.mul_right_comm,
            Nat.mul_comm pool.blockElements]
      _ ≤ sizeLimit * 8 := Nat.mul_le_mul_right 8 h.fits
  have hlimit : sizeLimit * 8 ≤ sizeMax := by decide
  rw [sizeReservedBytes, h.blockBytes]
  exact Machine.size_of_le (Nat.le_trans hbelow hlimit)

/-- A row of a page is inside the arrays. -/
theorem Sized.inside (h : pool.Sized layers width) {b l s : Nat} (hb : b < pool.config.maxBlocks)
    (hl : l < layers) (hs : s < pool.config.blockTokens) :
    slotOffset layers pool.config.blockTokens width b l s + width ≤ pool.arrayElements := by
  rw [h.arrayElements]
  exact slotOffset_le hb hl hs

/-- The intermediate values of the offset of a row fit. -/
theorem Sized.steps (h : pool.Sized layers width) {b l s : Nat} (hb : b < pool.config.maxBlocks)
    (hl : l < layers) (hs : s < pool.config.blockTokens) :
    b * layers ≤ sizeMax ∧ b * layers + l ≤ sizeMax ∧
      (b * layers + l) * pool.config.blockTokens ≤ sizeMax ∧
      (b * layers + l) * pool.config.blockTokens + s ≤ sizeMax ∧
      slotOffset layers pool.config.blockTokens width b l s ≤ sizeMax := by
  have hlimit : sizeLimit ≤ sizeMax := by decide
  have hlast : slotOffset layers pool.config.blockTokens width b l s ≤ sizeMax := by
    have := h.inside hb hl hs
    have := h.arrayElements_le
    omega
  -- Each step of the formula is at least as large as the one before it.
  have hrow : (b * layers + l) * pool.config.blockTokens + s ≤ sizeMax :=
    Nat.le_trans (Nat.le_mul_of_pos_right _ h.width_pos) hlast
  have hslots : (b * layers + l) * pool.config.blockTokens ≤ sizeMax := by omega
  have hpage : b * layers + l ≤ sizeMax :=
    Nat.le_trans (Nat.le_mul_of_pos_right _ pool.valid.blockTokens_pos) hslots
  exact ⟨by omega, hpage, hslots, hrow, hlast⟩

/-- The machine computes the offset of a row. -/
theorem Sized.offset (h : pool.Sized layers width) {b l s : Nat} (hb : b < pool.config.maxBlocks)
    (hl : l < layers) (hs : s < pool.config.blockTokens) :
    pool.sizeOffset layers width b l s = some
      (slotOffset layers pool.config.blockTokens width b l s) := by
  obtain ⟨hpages, hpage, hslots, hrow, hlast⟩ := h.steps hb hl hs
  simp only [sizeOffset, Machine.size_of_le hpages, Machine.size_of_le hpage,
    Machine.size_of_le hslots, Machine.size_of_le hrow, Option.bind_eq_bind, Option.bind_some]
  exact Machine.size_of_le hlast

/-- The rows of the slots of a pool are disjoint ranges of its arrays, and the formulas
compute them without wrapping around. -/
structure Addressed (pool : KvBlockPool) (layers width : Nat) : Prop where
  product : ProductFits layers [pool.config.blockTokens, width, pool.config.maxBlocks]
  elements : pool.blockElements = layers * pool.config.blockTokens * width
  blockBytes : pool.sizeBlockBytes = some pool.blockBytes
  reservedBytes : pool.sizeReservedBytes = some pool.reservedBytes
  offset : ∀ (sequence : PagedSequence) (layer token block : Nat),
    sequence.blocks[token / pool.config.blockTokens]? = some block →
    block < pool.config.maxBlocks → layer < layers →
    pool.sizeOffset layers width block layer (token % pool.config.blockTokens) =
        some (slotOffset layers pool.config.blockTokens width block layer
          (token % pool.config.blockTokens)) ∧
      pool.offset sequence layer token layers width =
        .ok (slotOffset layers pool.config.blockTokens width block layer
          (token % pool.config.blockTokens))
  inside : ∀ b < pool.config.maxBlocks, ∀ l < layers, ∀ s < pool.config.blockTokens,
    slotOffset layers pool.config.blockTokens width b l s + width ≤ pool.arrayElements
  disjoint : ∀ b l s b' l' s' : Nat, l < layers → l' < layers → s < pool.config.blockTokens →
    s' < pool.config.blockTokens → (b, l, s) ≠ (b', l', s') → ∀ d < width, ∀ d' < width,
    slotOffset layers pool.config.blockTokens width b l s + d ≠
      slotOffset layers pool.config.blockTokens width b' l' s' + d'

/-- The ranges of a sized pool are disjoint and inside the arrays. -/
theorem Sized.addressed (h : pool.Sized layers width) : pool.Addressed layers width where
  product := by
    refine productFits (fun f hmem => ?_) layers
    have := pool.valid.blockTokens_pos
    have := pool.valid.maxBlocks_pos
    have := h.width_pos
    simp only [List.mem_cons, List.not_mem_nil, or_false] at hmem
    omega
  elements := h.elements
  blockBytes := h.blockBytes
  reservedBytes := h.reservedBytes
  offset := by
    intro sequence layer token block hfound hb hl
    refine ⟨h.offset hb hl (Nat.mod_lt _ pool.valid.blockTokens_pos), ?_⟩
    rw [KvBlockPool.offset, hfound]
    rfl
  inside := fun b hb l hl s hs => h.inside hb hl hs
  disjoint := by
    intro b l s b' l' s' hl hl' hs hs' hne d hd d' hd' hsame
    obtain ⟨rfl, rfl, rfl⟩ := slotOffset_disjoint hl hl' hs hs' hd hd' hsame
    exact hne rfl

end KvBlockPool

/-! ## The copy of a tail page -/

/-- What a transaction that replaces the tail page of a sequence copies: `used` slots in
every layer, from the source to the same slots of the destination. -/
structure CopiesTail (kv : KVManager) (copy : TailCopy) (used elements : Nat) : Prop where
  computed : kv.sizeTailCopyRegion copy = some (kv.tailCopyRegion copy)
  rows : ∀ row < (kv.tailCopyRegion copy).rows,
    (kv.tailCopyRegion copy).sizeRow (kv.tailCopyRegion copy).source row =
        some (slotOffset kv.layers kv.config.blockTokens kv.width copy.source row 0) ∧
      (kv.tailCopyRegion copy).sizeRow (kv.tailCopyRegion copy).destination row =
        some (slotOffset kv.layers kv.config.blockTokens kv.width copy.destination row 0)
  moves : ∀ x y, (kv.tailCopyRegion copy).Moves x y ↔
    ∃ l < kv.layers, ∃ s < used, ∃ d < kv.width,
      x = slotOffset kv.layers kv.config.blockTokens kv.width copy.source l s + d ∧
      y = slotOffset kv.layers kv.config.blockTokens kv.width copy.destination l s + d
  inside : ∀ x y, (kv.tailCopyRegion copy).Moves x y → x < elements ∧ y < elements
  disjoint : ∀ x y x' y', (kv.tailCopyRegion copy).Moves x y →
    (kv.tailCopyRegion copy).Moves x' y' → x ≠ y'

section Tail

variable {kv : KVManager} {copy : TailCopy}

/-- An element of a row of the region belongs to one of the copied slots. -/
theorem moves_iff (x y : Nat) : (kv.tailCopyRegion copy).Moves x y ↔
    ∃ l < kv.layers, ∃ s < copy.validTokens, ∃ d < kv.width,
      x = slotOffset kv.layers kv.config.blockTokens kv.width copy.source l s + d ∧
      y = slotOffset kv.layers kv.config.blockTokens kv.width copy.destination l s + d := by
  have hrow (page l i : Nat) : page * kv.layers * (kv.config.blockTokens * kv.width) +
      l * (kv.config.blockTokens * kv.width) + i =
        slotOffset kv.layers kv.config.blockTokens kv.width page l 0 + i := by rw [slotOffset_row]
  show (∃ l < kv.layers, ∃ i < copy.validTokens * kv.width, x = _ ∧ y = _) ↔ _
  simp only [tailCopyRegion, hrow]
  constructor
  · rintro ⟨l, hl, i, hi, rfl, rfl⟩
    have hw : 0 < kv.width := Nat.pos_of_ne_zero fun hzero => by simp [hzero] at hi
    refine ⟨l, hl, i / kv.width, Nat.div_lt_of_lt_mul (by rwa [Nat.mul_comm]), i % kv.width,
      Nat.mod_lt _ hw, ?_, ?_⟩
    · rw [slotOffset_add _ l (i / kv.width), Nat.add_assoc, Nat.mul_comm, Nat.div_add_mod]
    · rw [slotOffset_add _ l (i / kv.width), Nat.add_assoc, Nat.mul_comm, Nat.div_add_mod]
  · rintro ⟨l, hl, s, hs, d, hd, rfl, rfl⟩
    refine ⟨l, hl, s * kv.width + d, ?_, ?_, ?_⟩
    · have := Nat.mul_le_mul_right kv.width (Nat.succ_le_of_lt hs)
      rw [Nat.succ_mul] at this
      omega
    · rw [slotOffset_add _ l s, Nat.add_assoc]
    · rw [slotOffset_add _ l s, Nat.add_assoc]

/-- A tail copy of a sized pool stays inside the two pages. -/
theorem copiesTail_of_sized {pool : KvBlockPool} (hsized : pool.Sized kv.layers kv.width)
    (hconfig : kv.config = pool.config) (hsource : copy.source < pool.config.maxBlocks)
    (hdestination : copy.destination < pool.config.maxBlocks) (hne : copy.source ≠ copy.destination)
    (hvalid : copy.validTokens < pool.config.blockTokens) :
    CopiesTail kv copy copy.validTokens pool.arrayElements := by
  have htokens := pool.valid.blockTokens_pos
  have hlimit : sizeLimit ≤ sizeMax := by decide
  have hbelow := hsized.arrayElements_le
  -- The start of a row, and all that it is made of.
  have hstart {page row : Nat} (hp : page < pool.config.maxBlocks) (hr : row < kv.layers) :
      slotOffset kv.layers pool.config.blockTokens kv.width page row 0 ≤ sizeMax := by
    have := hsized.inside hp hr htokens
    omega
  have hfirst {page : Nat} (hp : page < pool.config.maxBlocks) :
      page * kv.layers * (pool.config.blockTokens * kv.width) ≤ sizeMax := by
    have := hstart hp hsized.layers_pos
    rwa [← slotOffset_row, Nat.zero_mul, Nat.add_zero] at this
  have hpitch : 0 < pool.config.blockTokens * kv.width := Nat.mul_pos htokens hsized.width_pos
  have hpages {page : Nat} (hp : page < pool.config.maxBlocks) : page * kv.layers ≤ sizeMax :=
    Nat.le_trans (Nat.le_mul_of_pos_right _ hpitch) (hfirst hp)
  have hone : pool.config.blockTokens * kv.width ≤ sizeMax := by
    have := hsized.inside pool.valid.maxBlocks_pos hsized.layers_pos (Nat.sub_one_lt_of_lt htokens)
    rw [slotOffset_add, slotOffset, Nat.zero_mul, Nat.zero_add, Nat.zero_mul, Nat.zero_add,
      Nat.zero_mul, Nat.zero_add, ← Nat.succ_mul, Nat.succ_eq_add_one,
      Nat.sub_add_cancel htokens] at this
    omega
  refine ⟨?_, fun row hr => ?_, moves_iff, fun x y hmoved => ?_, fun x y x' y' hmoved hmoved' => ?_⟩
  -- the region itself does not wrap
  · have hwidth : copy.validTokens * kv.width ≤ sizeMax :=
      Nat.le_trans (Nat.mul_le_mul_right _ (Nat.le_of_lt hvalid)) hone
    simp only [sizeTailCopyRegion, tailCopyRegion, hconfig, Machine.size_of_le hone,
      Machine.size_of_le (hpages hsource), Machine.size_of_le (hfirst hsource),
      Machine.size_of_le (hpages hdestination), Machine.size_of_le (hfirst hdestination),
      Machine.size_of_le hwidth, Option.bind_eq_bind, Option.bind_some]
  -- neither does the start of a row
  · have hrowStart {page : Nat} (hp : page < pool.config.maxBlocks) :
        (kv.tailCopyRegion copy).sizeRow
          (page * kv.layers * (kv.config.blockTokens * kv.width)) row =
          some (slotOffset kv.layers kv.config.blockTokens kv.width page row 0) := by
      have hwhole := hstart hp (show row < kv.layers from hr)
      rw [← slotOffset_row] at hwhole
      have hskipped : row * (pool.config.blockTokens * kv.width) ≤ sizeMax := by omega
      simp only [KVManager.TailCopyRegion.sizeRow, tailCopyRegion, hconfig,
        Machine.size_of_le hskipped, Option.bind_eq_bind, Option.bind_some, ← slotOffset_row]
      exact Machine.size_of_le hwhole
    exact ⟨hrowStart hsource, hrowStart hdestination⟩
  -- each move stays inside the arrays
  · obtain ⟨l, hl, s, hs, d, hd, rfl, rfl⟩ := (moves_iff x y).1 hmoved
    rw [hconfig]
    have := hsized.inside hsource hl (Nat.lt_trans hs hvalid)
    have := hsized.inside hdestination hl (Nat.lt_trans hs hvalid)
    omega
  -- no move reads what another one writes
  · obtain ⟨l, hl, s, hs, d, hd, rfl, -⟩ := (moves_iff x y).1 hmoved
    obtain ⟨l', hl', s', hs', d', hd', -, rfl⟩ := (moves_iff x' y').1 hmoved'
    intro hsame
    rw [hconfig] at hsame
    exact hne (slotOffset_disjoint hl hl' (Nat.lt_trans hs hvalid) (Nat.lt_trans hs' hvalid)
      hd hd' hsame).1

end Tail

/-! ## Every run -/

/-- No operation changes what the constructor fixed. -/
theorem Ledger.parameters_step {s : KvSystem} (h : Ledger s) (op : KvOp) :
    (s.step op).2.kv.parameters = s.kv.parameters := by
  obtain ⟨flat, pos, h⟩ := h
  cases op with
  | reserveRequest id maxTokens =>
    obtain ⟨reservations, heq⟩ := reserveRequest_frame s.kv id maxTokens
    simp only [KvSystem.step, heq]
    rfl
  | releaseReservation id => rfl
  | create id =>
    simp only [KvSystem.step, KVManager.create]
    split
    · rfl
    split
    · rfl
    · rfl
  | forkSequence source target =>
    rcases h.forkSequence source target with ⟨e, heq⟩ | ⟨original, pool, -, -, -, heq, -, hconfig⟩
    · simp only [KvSystem.step, heq]
    · simp only [KvSystem.step, heq]
      exact parameters_eq rfl rfl rfl rfl hconfig
  | reusePrefix id prompt =>
    obtain ⟨pool, prefixCache, costs, sequences, heq⟩ := reusePrefix_frame s.kv id prompt
    -- the pool's configuration is that of the manager before
    have hconfig : (s.kv.reusePrefix id prompt).2.config = s.kv.config := by
      rcases h.reusePrefix id prompt with ⟨e, kv', flat', heq, -, -, -, hconfig⟩ |
        ⟨count, found, cache, pool, costs, flat', -, -, -, heq, -, hconfig⟩
      · rw [heq]
        exact hconfig
      · rw [heq]
        exact hconfig
    simp only [KvSystem.step]
    exact parameters_eq (by rw [heq]) (by rw [heq]) (by rw [heq]) (by rw [heq]) hconfig
  | cachePrefix id =>
    rcases h.cachePrefix id with ⟨e, heq, -⟩ | ⟨cache, pool, costs, flat', -, heq, -, hconfig⟩
    · simp only [KvSystem.step, heq]
    · simp only [KvSystem.step, heq]
      exact parameters_eq rfl rfl rfl rfl hconfig
  | clearPrefixCache =>
    rcases h.clearPrefixCache with ⟨e, heq, -⟩ | ⟨cache, pool, flat', -, heq, -, -, hconfig⟩
    · simp only [KvSystem.step, heq]
    · simp only [KvSystem.step, heq]
      exact parameters_eq rfl rfl rfl rfl hconfig
  | prepareAppend id tokens =>
    rcases h.prepareAppend id tokens with ⟨e, heq, -⟩ | ⟨e, kv', flat', state, heq, -,
      hevicted, -⟩ |
      ⟨a, kv₁, kv', flat', state, fresh, heq, -, hevicted, -, -, -, hprepared⟩
    · simp only [KvSystem.step, heq]
    · simp only [KvSystem.step, heq]
      exact parameters_eq (by rw [hevicted.same]) (by rw [hevicted.same]) (by rw [hevicted.same])
        (by rw [hevicted.same]) hevicted.config
    · simp only [KvSystem.step, heq]
      exact parameters_eq (by rw [hprepared.shape, hevicted.same])
        (by rw [hprepared.shape, hevicted.same])
        (by rw [hprepared.shape, hevicted.same]) (by rw [hprepared.shape, hevicted.same])
        (hprepared.config.trans hevicted.config)
  | copySharedTail copier => rfl
  -- a commit unreferences at most the copied source page
  | commit =>
    simp only [KvSystem.step]
    cases hlive : s.append with
    | none => rfl
    | some a =>
      by_cases hrefused : a.copy.isSome ∧ a.copied = false
      · rw [commit_refused hrefused.1 hrefused.2]
      · rw [hlive] at h
        obtain ⟨state, hfound, -⟩ := h.transaction a rfl
        have hready : a.copy.isSome → a.copied = true := fun hsome =>
          Bool.not_eq_false _ ▸ fun hfalse => hrefused ⟨hsome, hfalse⟩
        rw [commit_ok hfound hready]
        exact parameters_eq rfl rfl rfl rfl (KvBlockPool.unrefAll_config _ _)
  -- a rollback unreferences the new pages
  | rollback =>
    simp only [KvSystem.step]
    cases hlive : s.append with
    | none => rfl
    | some a =>
      rw [hlive] at h
      obtain ⟨state, hfound, -⟩ := h.transaction a rfl
      rw [rollback_eq hfound]
      exact parameters_eq rfl rfl rfl rfl (KvBlockPool.unrefAll_config _ _)
  | resetSequence id =>
    rcases h.resetSequence id with ⟨e, heq⟩ | ⟨state, -, -, heq⟩
    · simp only [KvSystem.step, heq]
    · simp only [KvSystem.step, heq]
      exact parameters_eq rfl rfl rfl rfl (KvBlockPool.unrefAll_config _ _)
  | release id =>
    rcases h.release id with ⟨e, heq, -⟩ | ⟨state, -, -, heq, -⟩
    · simp only [KvSystem.step, heq]
    · simp only [KvSystem.step, heq]
      exact parameters_eq rfl rfl rfl rfl (KvBlockPool.unrefAll_config _ _)
  | clear =>
    rcases h.clear with ⟨e, heq⟩ | ⟨cache, pool, flat', -, heq, -, -, hconfig⟩
    · simp only [KvSystem.step, heq]
    · simp only [KvSystem.step, heq]
      exact parameters_eq rfl rfl rfl rfl hconfig

theorem Ledger.parameters_run {s : KvSystem} (h : Ledger s) (ops : List KvOp) :
    (s.run ops).kv.parameters = s.kv.parameters := by
  induction ops generalizing s with
  | nil => rfl
  | cons op ops ih => exact (ih (h.step op)).trans (h.parameters_step op)

/-- The pages of a transaction that replaces a tail page. -/
theorem KvInv.tailPages {α : Type} {spec : List TokenId → α} {payload : Nat → Nat → α}
    {kv : KVManager} {a : KVManager.Append} {flat : FlatCache} {pos : Nat → Nat}
    (h : KvInv spec payload kv (some a) flat pos) {copy : TailCopy}
    (hreplaces : a.copy = some copy) :
    ∃ state, kv.sequences.find? a.id = some state ∧ 0 < copy.validTokens ∧
      copy.validTokens = state.sequence.used % kv.config.blockTokens ∧
      state.sequence.blocks[a.originalBlocks - 1]? = some copy.destination ∧
      copy.source < kv.config.maxBlocks ∧ copy.destination < kv.config.maxBlocks ∧
      copy.source ≠ copy.destination := by
  obtain ⟨state, hfound, htx⟩ := h.transaction a rfl
  obtain ⟨hvalid, hinPage⟩ := htx.partial_tail copy hreplaces
  have hdestination := htx.destination copy hreplaces
  have hpages : a.originalBlocks = state.sequence.used / kv.config.blockTokens + 1 := by
    rw [htx.original, pagesFor, if_pos (by omega)]
  have honce := htx.exclusive (a.originalBlocks - 1) copy.destination (by omega) hdestination
  -- The source is held by the transaction, the destination by the sequence alone.
  have hheld : (sourcePages (some a)).count copy.source = 1 := by
    rw [sourcePages, hreplaces]
    simp
  have hlisted := sequenceLeases_pos hfound hdestination
  refine ⟨state, hfound, hinPage, hvalid, hdestination, h.accounts.bounded copy.source ?_,
    h.accounts.bounded copy.destination ?_, fun hsame => ?_⟩
  · simp only [outside, hheld]
    omega
  · simp only [honce]
    exact Nat.one_pos
  · rw [← hsame] at honce hlisted
    simp only [outside, hheld] at honce
    omega

/-- **KV page addressing.** In every accepted pool the rows of distinct slots are
disjoint ranges inside the two arrays, and every transaction that replaces a tail page
copies exactly the used slots of that page, in every layer. -/
theorem kv_addressing {config : KvCacheConfig} {layers width : Nat} {pool : KvBlockPool}
    (hcreated : KvBlockPool.create config layers width = .ok pool) :
    pool.config = config ∧ pool.Addressed layers width ∧
      ∀ context vocabulary kv ops a copy,
        KVManager.construct config layers width context vocabulary = .ok kv →
        (KvSystem.run { kv } ops).append = some a → a.copy = some copy →
        ∃ state, (KvSystem.run { kv } ops).kv.sequences.find? a.id = some state ∧
          state.sequence.blocks[a.originalBlocks - 1]? = some copy.destination ∧
          CopiesTail (KvSystem.run { kv } ops).kv copy
            (state.sequence.used % config.blockTokens) pool.arrayElements := by
  obtain ⟨rfl, hsized⟩ := KvBlockPool.sized_of_create hcreated
  refine ⟨rfl, hsized.addressed, fun context vocabulary kv ops a copy hmade hlive hreplaces => ?_⟩
  have hledger : Ledger { kv } := (KvInv.construct hmade _ _).ok
  obtain ⟨pool', hvalid, hcreated', rfl⟩ := construct_eq hmade
  rw [hcreated] at hcreated'
  cases hcreated'
  have hparameters := hledger.parameters_run ops
  simp only [KVManager.parameters, Prod.mk.injEq] at hparameters
  obtain ⟨hlayersEq, hwidthEq, -, -, hconfigEq⟩ := hparameters
  have hconfig : (KvSystem.run { kv := _ } ops).kv.config = pool.config := hconfigEq
  obtain ⟨flat, pos, hinv⟩ := hledger.run ops
  rw [hlive] at hinv
  obtain ⟨state, hfound, -, hused, hdestination, hsourceLt, hdestinationLt, hne⟩ :=
    hinv.tailPages hreplaces
  rw [hconfig] at hused hsourceLt hdestinationLt
  refine ⟨state, hfound, hdestination, ?_⟩
  rw [← hused]
  refine copiesTail_of_sized ?_ hconfig hsourceLt hdestinationLt hne ?_
  · rw [hlayersEq, hwidthEq]
    exact hsized
  · rw [hused]
    exact Nat.mod_lt _ pool.valid.blockTokens_pos

/-- A pool of four pages with two slots each. -/
def smallPool : KvBlockPool where
  config := { blockTokens := 2, maxBlocks := 4 }
  valid := ⟨by decide, by decide, by decide⟩
  blockElements := 12
  free := [0, 1, 2, 3]
  references := fun _ => 0

def smallManager : KVManager where
  layers := 2
  width := 3
  context := 8
  vocabulary := 4
  valid := by decide
  pool := smallPool

/-- A fork is about to write into the tail page that it shares. -/
def forkedTail : List KvOp :=
  [.create "a", .prepareAppend "a" [1], .commit, .create "b", .forkSequence "a" "b",
    .prepareAppend "b" [2]]

/-- An append to a fork with a partial tail page. -/
theorem kv_addressing_forkedTail : smallPool.Addressed 2 3 ∧
    ∃ state, (KvSystem.run { kv := smallManager } forkedTail).kv.sequences.find? "b" = some state ∧
      state.sequence.blocks[0]? = some 1 ∧
      CopiesTail (KvSystem.run { kv := smallManager } forkedTail).kv ⟨0, 1, 1⟩
        (state.sequence.used % 2) 48 := by
  have hmade :=
    kv_addressing (show KvBlockPool.create smallPool.config 2 3 = .ok smallPool from rfl)
  exact ⟨hmade.2.1, hmade.2.2 8 4 smallManager forkedTail _ _ rfl rfl rfl⟩

end TinyInfer.MiniPrefix
