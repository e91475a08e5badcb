import TinyInfer.MiniPrefix.LlamaForward

/-!
# The payload memory of the CPU runner

`slotOffset` is the offset `KVManager::offset` resolves a token's row to: pages of
layers of slots of rows. A run of slots of one layer of one page is one region of
memory, and regions of distinct slots never overlap (`mem_slots_iff`).

`cpuView` reads a slot of a page out of the arrays. Writing a row is a `store` at
its slot, and the copy of a tail region is a copy of slots.
-/

namespace TinyInfer.MiniPrefix

open Lib KVManager

/-- The offset of a slot in a layer of a page. -/
def slotOffset (layers blockTokens width b l s : Nat) : Nat :=
  ((b * layers + l) * blockTokens + s) * width

/-! ## Disjointness -/

/-- Quotient and remainder are unique. -/
theorem mul_add_inj {n a b i j : Nat} (h : a * n + i = b * n + j) (hi : i < n) (hj : j < n) :
    a = b ∧ i = j := by
  have hn : 0 < n := Nat.zero_lt_of_lt hi
  have hdiv : (a * n + i) / n = (b * n + j) / n := by rw [h]
  have hmod : (a * n + i) % n = (b * n + j) % n := by rw [h]
  rw [Nat.mul_comm a, Nat.mul_comm b] at hdiv hmod
  rw [Nat.mul_add_div hn, Nat.mul_add_div hn, Nat.div_eq_of_lt hi, Nat.div_eq_of_lt hj] at hdiv
  rw [Nat.mul_add_mod, Nat.mul_add_mod, Nat.mod_eq_of_lt hi, Nat.mod_eq_of_lt hj] at hmod
  exact ⟨by omega, hmod⟩

section Layout

variable {layers blockTokens width l s d l₀ : Nat} (b b₀ s₀ count : Nat)

/-- An element is in the region of some slots iff its slot is one of them. -/
theorem mem_slots_iff (hs : s < blockTokens) (hl : l < layers) (hd : d < width)
    (hl₀ : l₀ < layers) (hcount : s₀ + count ≤ blockTokens) :
    (slotOffset layers blockTokens width b₀ l₀ s₀ ≤
          slotOffset layers blockTokens width b l s + d ∧
        slotOffset layers blockTokens width b l s + d <
          slotOffset layers blockTokens width b₀ l₀ s₀ + count * width) ↔
      b = b₀ ∧ l = l₀ ∧ s₀ ≤ s ∧ s < s₀ + count := by
  have hw : 0 < width := Nat.zero_lt_of_lt hd
  unfold slotOffset
  constructor
  · rintro ⟨hlo, hhi⟩
    rw [← Nat.add_mul] at hhi
    have hlo' : (b₀ * layers + l₀) * blockTokens + s₀ ≤ (b * layers + l) * blockTokens + s := by
      by_contra hlt
      have := Nat.mul_le_mul_right width (Nat.lt_of_not_le hlt)
      rw [Nat.succ_mul] at this
      omega
    have hhi' : (b * layers + l) * blockTokens + s <
        (b₀ * layers + l₀) * blockTokens + s₀ + count :=
      Nat.lt_of_mul_lt_mul_right (Nat.lt_of_le_of_lt (Nat.le_add_right _ d) hhi)
    obtain ⟨j, hj⟩ := Nat.exists_eq_add_of_le hlo'
    have hslot : (b * layers + l) * blockTokens + s =
        (b₀ * layers + l₀) * blockTokens + (s₀ + j) := by omega
    obtain ⟨hpage, rfl⟩ := mul_add_inj hslot hs (by omega)
    obtain ⟨rfl, rfl⟩ := mul_add_inj hpage hl hl₀
    exact ⟨rfl, rfl, Nat.le_add_right _ _, by omega⟩
  · rintro ⟨rfl, rfl, hlo, hhi⟩
    have h1 := Nat.mul_le_mul_right width (Nat.add_le_add_left hlo ((b * layers + l) * blockTokens))
    have h2 := Nat.mul_le_mul_right width
      (Nat.add_le_add_left (Nat.succ_le_of_lt hhi) ((b * layers + l) * blockTokens))
    rw [Nat.add_succ, Nat.succ_mul, ← Nat.add_assoc, Nat.add_mul _ count] at h2
    constructor <;> omega

/-- Slots of one layer follow each other. -/
theorem slotOffset_add (b l s : Nat) : slotOffset layers blockTokens width b l s =
    slotOffset layers blockTokens width b l 0 + s * width := by
  unfold slotOffset
  rw [Nat.add_zero, Nat.add_mul]

end Layout

/-! ## Reading slots -/

section View

variable {F : Type} [Scalar F] (c : LlamaConfig F) (blockTokens : Nat)

/-- A key and a value for every layer and column: what one slot contains. -/
abbrev CpuSlot : Type := Fin c.layers → Fin c.kvWidth → F × F

/-- The offset of a slot of the runner. -/
def LlamaConfig.slotOffset (b l s : Nat) : Nat :=
  MiniPrefix.slotOffset c.layers blockTokens c.kvWidth b l s

/-- The contents of a slot of a page. -/
def cpuView (memory : CpuMemory F) (b s : Nat) : CpuSlot c := fun l d =>
  if s < blockTokens then
    (memory.keys (c.slotOffset blockTokens b l s + d),
      memory.values (c.slotOffset blockTokens b l s + d))
  else (Scalar.ofNat 0, Scalar.ofNat 0)

/-- Both rows of a token go to the slot at an offset. -/
def writeRow (offset : Nat) (k v : Row F) (memory : CpuMemory F) : CpuMemory F :=
  { keys := copyRow memory.keys offset c.kvWidth k
    values := copyRow memory.values offset c.kvWidth v }

variable {c blockTokens} {memory : CpuMemory F}

theorem cpuView_of_lt {b s : Nat} (hs : s < blockTokens) (l : Fin c.layers) (d : Fin c.kvWidth) :
    cpuView c blockTokens memory b s l d =
      (memory.keys (c.slotOffset blockTokens b l s + d),
        memory.values (c.slotOffset blockTokens b l s + d)) :=
  if_pos hs

/-- What a written row changes. -/
theorem cpuView_writeRow {b₀ s₀ : Nat} (l₀ : Fin c.layers) (hs₀ : s₀ < blockTokens) (k v : Row F)
    (b s : Nat) (l : Fin c.layers) (d : Fin c.kvWidth) :
    cpuView c blockTokens (writeRow c (c.slotOffset blockTokens b₀ l₀ s₀) k v memory) b s l d =
      if b = b₀ ∧ s = s₀ ∧ l = l₀ then (k d, v d) else cpuView c blockTokens memory b s l d := by
  unfold cpuView
  by_cases hs : s < blockTokens
  swap
  · rw [if_neg hs, if_neg hs, if_neg]
    rintro ⟨-, rfl, -⟩
    exact hs hs₀
  rw [if_pos hs, if_pos hs]
  have hiff := mem_slots_iff b b₀ s₀ 1 hs l.isLt d.isLt l₀.isLt hs₀
  rw [Nat.one_mul] at hiff
  simp only [writeRow, copyRow]
  by_cases hslot : b = b₀ ∧ s = s₀ ∧ l = l₀
  · obtain ⟨rfl, rfl, rfl⟩ := hslot
    have hin := hiff.mpr ⟨rfl, rfl, le_rfl, Nat.lt_succ_self _⟩
    rw [LlamaConfig.slotOffset, if_pos hin, if_pos hin, if_pos ⟨rfl, rfl, rfl⟩,
      Nat.add_sub_cancel_left]
  · have hout : ¬ _ := fun hin => hslot (by
      obtain ⟨hb, hl, hlo, hhi⟩ := hiff.mp hin
      exact ⟨hb, by omega, Fin.ext hl⟩)
    rw [LlamaConfig.slotOffset, LlamaConfig.slotOffset, if_neg hout, if_neg hout, if_neg hslot]

/-- Writing a row is a store at its slot. -/
theorem cpuView_writeRow_eq_store {b₀ s₀ : Nat} (l₀ : Fin c.layers) (hs₀ : s₀ < blockTokens)
    (k v : Row F) :
    cpuView c blockTokens (writeRow c (c.slotOffset blockTokens b₀ l₀ s₀) k v memory) =
      store (cpuView c blockTokens memory) b₀ s₀
        (cpuView c blockTokens (writeRow c
          (c.slotOffset blockTokens b₀ l₀ s₀) k v memory) b₀ s₀) := by
  funext b s
  rw [store]
  split
  · next hslot =>
    obtain ⟨rfl, rfl⟩ := hslot
    rfl
  · next hslot =>
    funext l d
    rw [cpuView_writeRow l₀ hs₀, if_neg]
    rintro ⟨rfl, rfl, -⟩
    exact hslot ⟨rfl, rfl⟩

/-! ## Copying a tail page -/

theorem slotOffset_row (layers width b l : Nat) :
    b * layers * (blockTokens * width) + l * (blockTokens * width) =
      slotOffset layers blockTokens width b l 0 := by
  unfold slotOffset
  rw [Nat.add_zero, ← Nat.add_mul, ← Nat.mul_assoc]

omit [Scalar F] in
/-- The rows of the region copied so far, on one array. -/
theorem copyRows_apply {kv : KVManager} {copy : TailCopy} (hlayers : kv.layers = c.layers)
    (hwidth : kv.width = c.kvWidth) (htokens : kv.config.blockTokens = blockTokens)
    (hvalid : copy.validTokens ≤ blockTokens) (array : Nat → F) {n : Nat} (hn : n ≤ c.layers)
    {b s l d : Nat} (hs : s < blockTokens) (hl : l < c.layers) (hd : d < c.kvWidth) :
    (List.range n).foldl (fun array row =>
        copyRow array ((kv.tailCopyRegion copy).destination + row * (kv.tailCopyRegion copy).pitch)
          (kv.tailCopyRegion copy).width fun i =>
            array ((kv.tailCopyRegion copy).source + row * (kv.tailCopyRegion copy).pitch + i))
        array (c.slotOffset blockTokens b l s + d) =
      if b = copy.destination ∧ l < n ∧ s < copy.validTokens then
        array (c.slotOffset blockTokens copy.source l s + d)
      else array (c.slotOffset blockTokens b l s + d) := by
  induction n generalizing b s l d with
  | zero => rw [List.range_zero, List.foldl_nil, if_neg fun h => Nat.not_lt_zero l h.2.1]
  | succ n ih =>
    rw [List.range_succ, List.foldl_append, List.foldl_cons, List.foldl_nil]
    generalize hcopied : List.foldl _ array (List.range n) = copied at ih ⊢
    simp only [tailCopyRegion, hlayers, hwidth, htokens, slotOffset_row, copyRow,
      LlamaConfig.slotOffset]
    have hiff := mem_slots_iff b copy.destination 0 copy.validTokens hs hl hd hn (by omega)
    rw [Nat.zero_add] at hiff
    by_cases hin : b = copy.destination ∧ l = n ∧ s < copy.validTokens
    · -- the row copied last; its source has not been overwritten
      obtain ⟨rfl, rfl, hslot⟩ := hin
      rw [if_pos (hiff.mpr ⟨rfl, rfl, Nat.zero_le s, hslot⟩),
        if_pos ⟨rfl, Nat.lt_succ_self l, hslot⟩]
      have hread := ih (b := copy.source) (Nat.le_of_succ_le hn) hs hl hd
      rw [if_neg fun h => Nat.lt_irrefl l h.2.1] at hread
      refine Eq.trans ?_ hread
      rw [LlamaConfig.slotOffset, slotOffset_add copy.destination l s,
        slotOffset_add copy.source l s]
      congr 1
      omega
    · rw [if_neg fun h => hin ⟨(hiff.mp h).1, (hiff.mp h).2.1, (hiff.mp h).2.2.2⟩]
      refine (ih (Nat.le_of_succ_le hn) hs hl hd).trans (if_congr ?_ rfl rfl)
      constructor
      · rintro ⟨hb, hln, hslot⟩
        exact ⟨hb, Nat.lt_succ_of_lt hln, hslot⟩
      · rintro ⟨hb, hln, hslot⟩
        exact ⟨hb, Nat.lt_of_le_of_ne (Nat.le_of_lt_succ hln) fun heq => hin
          ⟨hb, heq, hslot⟩, hslot⟩

/-- The copy of a tail region moves the valid slots of the page. -/
theorem cpuView_copyRegion (memory : CpuMemory F) {kv : KVManager} {copy : TailCopy}
    (hlayers : kv.layers = c.layers)
    (hwidth : kv.width = c.kvWidth) (htokens : kv.config.blockTokens = blockTokens)
    (hvalid : copy.validTokens ≤ blockTokens) (b s : Nat) :
    cpuView c blockTokens
        { keys := copyRegion (kv.tailCopyRegion copy) memory.keys
          values := copyRegion (kv.tailCopyRegion copy) memory.values } b s =
      if b = copy.destination ∧ s < copy.validTokens then
        cpuView c blockTokens memory copy.source s
      else cpuView c blockTokens memory b s := by
  funext l d
  have hrows : (kv.tailCopyRegion copy).rows = c.layers := hlayers
  by_cases hs : s < blockTokens
  · have hcopy := fun array : Nat → F => copyRows_apply hlayers hwidth htokens hvalid array
      (le_refl c.layers) (b := b) hs l.isLt d.isLt
    rw [cpuView_of_lt hs]
    simp only [copyRegion, hrows, hcopy, l.isLt, true_and]
    split
    · rw [cpuView_of_lt hs]
    · rw [cpuView_of_lt hs]
  · rw [if_neg fun h => hs (Nat.lt_of_lt_of_le h.2 hvalid)]
    unfold cpuView
    rw [if_neg hs, if_neg hs]

end View

end TinyInfer.MiniPrefix
