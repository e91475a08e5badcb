import TinyInfer.Lib.Align
import TinyInfer.Lib.Throwing

/-!
# The arena allocator (`core/memory/arena_allocator.cpp`)

An arena gives out one buffer from the front to the back, and takes it back as a whole:
`deallocate` only counts the pointers into the buffer, and `reset` asks the count to be
zero. Addresses and sizes are machine words.

`arena_disjoint` says what this gives its clients over any sequence of calls in which they
return a block at most once; what else they return may be null or point outside the
buffer. The memory behind the arena is a parameter: where it is not null it is aligned as
asked and ends below the last address.

Main definitions:
* `ArenaAllocator.make`, `allocate`, `deallocate`, `reset`: the allocator.
* `Clients`: an arena and the blocks that its clients have got since the last reset.
* `ArenaInv`: what holds between two calls.
-/

namespace TinyInfer

open Lib (Throwing)
open Lib.Throwing (get modify throwIf wp)
open Lib.Align (isPowerOfTwo roundUp)

/-- `std::size_t` and `std::uintptr_t` -/
abbrev SizeT := BitVec 64

/-- `std::numeric_limits<std::size_t>::max()` -/
def SizeT.max : SizeT := BitVec.allOnes 64

/-- The exceptions of an allocator. -/
inductive AllocatorExn where
  | invalidArgument (what : String)
  | logicError (what : String)
  | badAlloc
  deriving DecidableEq, Repr

structure ArenaAllocator where
  capacity : SizeT
  alignment : SizeT
  offset : SizeT := 0
  peakUsed : SizeT := 0
  allocationCount : SizeT := 0
  activeAllocations : SizeT := 0
  /-- The address of the buffer. -/
  buffer : SizeT := 0
  deriving DecidableEq, Repr

/-- `Allocator::allocate` of the backing allocator: an address. -/
abbrev BackingAllocator := SizeT → SizeT → Except AllocatorExn SizeT

namespace ArenaAllocator

/-- The constructor. -/
def make (capacity : SizeT) (backing : Option BackingAllocator) (alignment : SizeT) :
    Except AllocatorExn ArenaAllocator :=
  match backing with
  | none => .error (.invalidArgument "arena backing allocator must not be null")
  | some backing =>
    if isPowerOfTwo alignment = false then
      .error (.invalidArgument "arena alignment must be a non-zero power of two")
    else if 0 < capacity then do
      let buffer ← backing capacity alignment
      if buffer = 0 then .error .badAlloc else .ok { capacity, alignment, buffer }
    else .ok { capacity, alignment }

def used (a : ArenaAllocator) : SizeT := a.offset

def remaining (a : ArenaAllocator) : SizeT := a.capacity - a.offset

/-- The local `aligned_offset` of `allocate`. -/
def alignedOffset (a : ArenaAllocator) (alignment : SizeT) : SizeT := roundUp a.offset alignment

/-- The result is an address, zero for `nullptr`. -/
def allocate (bytes alignment : SizeT) : Throwing AllocatorExn ArenaAllocator SizeT :=
  if bytes = 0 then pure 0
  else do
    throwIf (isPowerOfTwo alignment = false)
      (.invalidArgument "allocation alignment must be a non-zero power of two")
    let a ← get
    throwIf (a.alignment < alignment)
      (.invalidArgument "requested alignment exceeds arena alignment")
    throwIf (SizeT.max - (alignment - 1) < a.offset) .badAlloc
    let aligned := a.alignedOffset alignment
    throwIf (a.capacity < aligned ∨ a.capacity - aligned < bytes) .badAlloc
    modify fun a => { a with
      offset := aligned + bytes
      peakUsed := if a.peakUsed < aligned + bytes then aligned + bytes else a.peakUsed
      allocationCount := a.allocationCount + 1
      activeAllocations := a.activeAllocations + 1 }
    pure (a.buffer + aligned)

def deallocate (pointer : SizeT) (a : ArenaAllocator) : ArenaAllocator :=
  if pointer = 0 ∨ a.buffer = 0 ∨ a.activeAllocations = 0 then a
  else if a.buffer ≤ pointer ∧ pointer < a.buffer + a.capacity then
    { a with activeAllocations := a.activeAllocations - 1 }
  else a

def reset : Throwing AllocatorExn ArenaAllocator Unit := do
  let a ← get
  throwIf (a.activeAllocations ≠ 0)
    (.logicError "cannot reset arena while allocations are still active")
  modify fun a => { a with offset := 0 }

/-! ## What one call does -/

variable {a : ArenaAllocator} {bytes alignment : SizeT}

/-- The request passes all checks of `allocate`. -/
structure Grants (a : ArenaAllocator) (bytes alignment : SizeT) : Prop where
  nonempty : bytes ≠ 0
  power : isPowerOfTwo alignment = true
  aligned : alignment ≤ a.alignment
  guard : a.offset ≤ SizeT.max - (alignment - 1)
  inside : a.alignedOffset alignment ≤ a.capacity
  room : bytes ≤ a.capacity - a.alignedOffset alignment

/-- The arena after a request that it grants. -/
def granted (a : ArenaAllocator) (bytes alignment : SizeT) : ArenaAllocator :=
  { a with
    offset := a.alignedOffset alignment + bytes
    peakUsed := if a.peakUsed < a.alignedOffset alignment +
      bytes then a.alignedOffset alignment + bytes
      else a.peakUsed
    allocationCount := a.allocationCount + 1
    activeAllocations := a.activeAllocations + 1 }

/-- `allocate` returns null for no bytes, grants the aligned block, or throws and changes
nothing. -/
theorem allocate_wp (a : ArenaAllocator) (bytes alignment : SizeT) :
    wp (allocate bytes alignment)
      (fun pointer a' => (bytes = 0 ∧ pointer = 0 ∧ a' = a) ∨
        Grants a bytes alignment ∧ pointer = a.buffer + a.alignedOffset alignment ∧
          a' = a.granted bytes alignment)
      (fun _ a' => ¬ Grants a bytes alignment ∧ a' = a) a := by
  unfold allocate
  rw [Lib.Throwing.wp_ite]
  refine ⟨fun hempty => .inl ⟨hempty, rfl, rfl⟩, fun hnonempty => ?_⟩
  refine Lib.Throwing.wp_bind.2
    (Lib.Throwing.wp_throwIf.2 ⟨fun hodd => ⟨fun h => ?_, rfl⟩, fun hpower => ?_⟩)
  · rw [h.power] at hodd
    cases hodd
  refine Lib.Throwing.wp_bind.2
    (Lib.Throwing.wp_get.2 (Lib.Throwing.wp_bind.2 (Lib.Throwing.wp_throwIf.2
    ⟨fun hlarge => ⟨fun h => absurd hlarge (BitVec.not_lt.2 h.aligned), rfl⟩, fun haligned => ?_⟩)))
  refine Lib.Throwing.wp_bind.2 (Lib.Throwing.wp_throwIf.2
    ⟨fun hhigh => ⟨fun h => absurd hhigh (BitVec.not_lt.2 h.guard), rfl⟩, fun hguard => ?_⟩)
  refine Lib.Throwing.wp_bind.2
    (Lib.Throwing.wp_throwIf.2 ⟨fun hfull => ⟨fun h => ?_, rfl⟩, fun hfits => ?_⟩)
  · rcases hfull with hfull | hfull
    · exact absurd hfull (BitVec.not_lt.2 h.inside)
    · exact absurd hfull (BitVec.not_lt.2 h.room)
  · obtain ⟨hinside, hroom⟩ := not_or.1 hfits
    refine Lib.Throwing.wp_bind.2
      (.inr ⟨⟨hnonempty, ?_, BitVec.not_lt.1 haligned, BitVec.not_lt.1 hguard,
        BitVec.not_lt.1 hinside, BitVec.not_lt.1 hroom⟩, ?_, ?_⟩)
    · exact Bool.of_not_eq_false hpower
    · rfl
    · rfl

/-- Where the request is grantable, `allocate` returns the aligned block. -/
theorem allocate_of_grants (h : Grants a bytes alignment) :
    allocate bytes alignment a =
      (.ok (a.buffer + a.alignedOffset alignment), a.granted bytes alignment) := by
  have hspec := allocate_wp a bytes alignment
  rcases hrun : allocate bytes alignment a with ⟨e | pointer, a'⟩
  · exact absurd h (hspec.error hrun).1
  · rcases hspec.ok hrun with ⟨hempty, -⟩ | ⟨-, rfl, rfl⟩
    · exact absurd hempty h.nonempty
    · rfl

/-- `reset` returns only without outstanding blocks, and throws otherwise. -/
theorem reset_wp (a : ArenaAllocator) :
    wp reset (fun _ a' => a.activeAllocations = 0 ∧ a' = { a with offset := 0 })
      (fun _ a' => a.activeAllocations ≠ 0 ∧ a' = a) a := by
  simp only [reset, Lib.Throwing.wp_bind, Lib.Throwing.wp_throwIf, Lib.Throwing.wp_get,
    Lib.Throwing.wp_modify, not_not]
  exact ⟨fun hactive => ⟨hactive, trivial⟩, fun hidle => ⟨hidle, trivial⟩⟩

end ArenaAllocator

/-! ## Clients -/

/-- What `allocate` has returned, and for what request. -/
structure ArenaBlock where
  address : SizeT
  bytes : SizeT
  alignment : SizeT
  deallocated : Bool := false
  deriving DecidableEq, Repr

/-- The arena, and the blocks since the last reset that succeeded, latest first. -/
structure Clients where
  arena : ArenaAllocator
  blocks : List ArenaBlock := []
  deriving DecidableEq, Repr

inductive ArenaCall where
  | allocate (bytes alignment : SizeT)
  | deallocate (pointer : SizeT)
  | reset
  deriving DecidableEq, Repr

namespace Clients

/-- Mark the block that a client returns. -/
def markReturned (blocks : List ArenaBlock) (pointer : SizeT) : List ArenaBlock :=
  blocks.map fun b => if b.address = pointer then { b with deallocated := true } else b

def step (w : Clients) : ArenaCall → Clients
  | .allocate bytes alignment =>
    match ArenaAllocator.allocate bytes alignment w.arena with
    | (.ok pointer, arena) =>
      { arena, blocks := if pointer = 0 then w.blocks else
        { address := pointer, bytes, alignment } :: w.blocks }
    | (.error _, arena) => { w with arena }
  | .deallocate pointer =>
    { arena := w.arena.deallocate pointer, blocks := markReturned w.blocks pointer }
  | .reset =>
    match ArenaAllocator.reset w.arena with
    | (.ok _, arena) => { arena }
    | (.error _, arena) => { w with arena }

/-- A pointer that is not null and does not point into the buffer is foreign. -/
def Foreign (a : ArenaAllocator) (pointer : SizeT) : Prop :=
  pointer.toNat < a.buffer.toNat ∨ a.buffer.toNat + a.capacity.toNat ≤ pointer.toNat

/-- A client may return a block of its own that it has not returned yet. -/
def Permits (w : Clients) : ArenaCall → Prop
  | .deallocate pointer => pointer = 0 ∨ Foreign w.arena pointer ∨
      ∃ b ∈ w.blocks, b.address = pointer ∧ b.deallocated = false
  | _ => True

/-- What any sequence of permitted calls may lead to. -/
inductive Run (arena : ArenaAllocator) : Clients → Prop
  | start : Run arena { arena }
  | step {w : Clients} (run : Run arena w) (call : ArenaCall) (permitted : Permits w call) :
      Run arena (w.step call)

end Clients

/-! ## Arithmetic -/

/-- What the constructor has checked, and what the backing allocator promises. -/
structure Backed (a : ArenaAllocator) : Prop where
  power : isPowerOfTwo a.alignment = true
  memory : a.capacity ≠ 0 → a.buffer ≠ 0 ∧ a.alignment.toNat ∣ a.buffer.toNat ∧
    a.buffer.toNat + a.capacity.toNat < 2 ^ 64

/-- The words that `allocate` computes are the numbers they stand for. -/
structure Exact (a : ArenaAllocator) (bytes alignment : SizeT) : Prop where
  guard : (SizeT.max - (alignment - 1)).toNat = SizeT.max.toNat - (alignment.toNat - 1)
  sum : (a.offset + alignment).toNat = a.offset.toNat + alignment.toNat
  raised : (a.offset + alignment - 1).toNat = a.offset.toNat + alignment.toNat - 1
  aligned : (a.alignedOffset alignment).toNat =
    (a.offset.toNat + alignment.toNat - 1) / alignment.toNat * alignment.toNat
  room : a.alignedOffset alignment ≤ a.capacity →
    (a.capacity - a.alignedOffset alignment).toNat = a.capacity.toNat -
      (a.alignedOffset alignment).toNat
  next : a.Grants bytes alignment →
    (a.alignedOffset alignment + bytes).toNat = (a.alignedOffset alignment).toNat + bytes.toNat
  pointer : a.Grants bytes alignment →
    (a.buffer + a.alignedOffset alignment).toNat = a.buffer.toNat +
      (a.alignedOffset alignment).toNat

theorem toNat_ne_zero {x : SizeT} (hnonzero : x ≠ 0) : 0 < x.toNat :=
  Nat.pos_of_ne_zero fun hzero => hnonzero (BitVec.eq_of_toNat_eq hzero)

theorem toNat_sub {x y : SizeT} (hle : y ≤ x) : (x - y).toNat = x.toNat - y.toNat :=
  BitVec.toNat_sub_of_le hle

theorem toNat_add {x y : SizeT} (hfits : x.toNat + y.toNat < 2 ^ 64) :
    (x + y).toNat = x.toNat + y.toNat := by
  rw [BitVec.toNat_add, Nat.mod_eq_of_lt hfits]

variable {a : ArenaAllocator} {bytes alignment : SizeT}

/-- Aligning an offset inside the buffer cannot wrap. -/
theorem Backed.fits (h : Backed a) (hoffset_le : a.offset ≤ a.capacity)
    (hle : alignment ≤ a.alignment) :
    a.offset.toNat + alignment.toNat < 2 ^ 64 := by
  have hbound := BitVec.le_def.1 hoffset_le
  have hsmall := BitVec.le_def.1 hle
  have hword := alignment.isLt
  by_cases hempty : a.capacity = 0
  · rw [hempty] at hbound
    have : (0 : SizeT).toNat = 0 := rfl
    omega
  · obtain ⟨hnonnull, hdivides, hends⟩ := h.memory hempty
    have := Nat.le_of_dvd (toNat_ne_zero hnonnull) hdivides
    omega

/-- In real memory the words of an allocation are exact. -/
theorem exact_of_backed (h : Backed a) (hoffset_le : a.offset ≤ a.capacity) (bytes : SizeT)
    (hpower : isPowerOfTwo alignment = true) (hle : alignment ≤ a.alignment) :
    Exact a bytes alignment := by
  have hfits := h.fits hoffset_le hle
  have hnonzero : alignment ≠ 0 := fun hzero => by
    rw [hzero] at hpower
    cases hpower
  have hunit := Lib.Align.toNat_sub_one hnonzero
  obtain ⟨hraised, haligned⟩ := Lib.Align.toNat_roundUp hpower hfits
  have hroom : a.alignedOffset alignment ≤ a.capacity →
      (a.capacity - a.alignedOffset alignment).toNat =
        a.capacity.toNat - (a.alignedOffset alignment).toNat := fun hle => toNat_sub hle
  refine ⟨?_, toNat_add hfits, hraised, haligned, hroom, fun hgranted => ?_, fun hgranted => ?_⟩
  · have hlargest : alignment - 1 ≤ SizeT.max :=
      BitVec.le_def.2 (Nat.le_of_lt_succ (alignment - 1).isLt)
    rw [toNat_sub hlargest, hunit]
  · have hbound := BitVec.le_def.1 hgranted.room
    rw [hroom hgranted.inside] at hbound
    have := BitVec.le_def.1 hgranted.inside
    have := a.capacity.isLt
    exact toNat_add (by omega)
  · have hbound := BitVec.le_def.1 hgranted.inside
    have hfilled := BitVec.le_def.1 hgranted.room
    rw [hroom hgranted.inside] at hfilled
    have hpositive := toNat_ne_zero hgranted.nonempty
    obtain ⟨-, -, hends⟩ := h.memory fun hempty => by
      rw [hempty] at hbound hfilled
      have : (0 : SizeT).toNat = 0 := rfl
      omega
    exact toNat_add (by omega)

/-! ## The invariant -/

namespace Clients

/-- The block is not empty, aligned as requested, and in the part of the buffer that is given
out. -/
structure Lies (a : ArenaAllocator) (b : ArenaBlock) : Prop where
  nonempty : 0 < b.bytes.toNat
  aligned : b.alignment.toNat ∣ b.address.toNat
  begins : a.buffer.toNat ≤ b.address.toNat
  ends : b.address.toNat + b.bytes.toNat ≤ a.buffer.toNat + a.offset.toNat

/-- What holds between two calls. -/
structure ArenaInv (w : Clients) : Prop where
  backed : Backed w.arena
  offset_le : w.arena.offset ≤ w.arena.capacity
  lies : ∀ b ∈ w.blocks, Lies w.arena b
  disjoint : w.blocks.Pairwise fun b b' => b'.address.toNat + b'.bytes.toNat ≤ b.address.toNat
  active : w.arena.activeAllocations.toNat = w.blocks.countP fun b => !b.deallocated
  /-- Each block takes at least a byte, so that the count does not wrap. -/
  length_le : w.blocks.length ≤ w.arena.offset.toNat

variable {w : Clients}

/-- An arena with blocks has an aligned buffer that ends below `2 ^ 64`. -/
theorem ArenaInv.memory (h : ArenaInv w) {b : ArenaBlock} (hmem : b ∈ w.blocks) :
    w.arena.buffer ≠ 0 ∧ w.arena.alignment.toNat ∣ w.arena.buffer.toNat ∧
      w.arena.buffer.toNat + w.arena.capacity.toNat < 2 ^ 64 := by
  refine h.backed.memory fun hempty => ?_
  obtain ⟨hnonempty, -, hbegins, hends⟩ := h.lies b hmem
  have hbound := BitVec.le_def.1 h.offset_le
  rw [hempty] at hbound
  have : (0 : SizeT).toNat = 0 := rfl
  omega

theorem markReturned_of_not_mem {blocks : List ArenaBlock} {pointer : SizeT}
    (hother : ∀ b ∈ blocks, b.address ≠ pointer) : markReturned blocks pointer = blocks :=
  (List.map_congr_left fun b hmem => if_neg (hother b hmem)).trans (List.map_id blocks)

/-- Returning a block counts it once. -/
theorem countP_markReturned {blocks : List ArenaBlock} {b : ArenaBlock}
    (hdistinct : blocks.Pairwise fun b b' => b.address ≠ b'.address) (hmem : b ∈ blocks)
    (hlive : b.deallocated = false) :
    (markReturned blocks b.address).countP (fun b => !b.deallocated) + 1 =
      blocks.countP fun b => !b.deallocated := by
  induction blocks with
  | nil => cases hmem
  | cons c blocks ih =>
    obtain ⟨hfirst, hrest⟩ := List.pairwise_cons.1 hdistinct
    unfold markReturned at ih ⊢
    rw [List.map_cons, List.countP_cons, List.countP_cons]
    by_cases hsame : c.address = b.address
    · have hc_eq : b = c := by
        rcases List.mem_cons.1 hmem with rfl | hlater
        · rfl
        · exact absurd hsame (hfirst b hlater)
      subst hc_eq
      have hothers :
        blocks.map (fun c => if c.address = b.address then { c with deallocated := true } else c) =
          blocks := markReturned_of_not_mem fun c hlater heq => hfirst c hlater heq.symm
      rw [hothers, if_pos hsame]
      simp [hlive]
    · have hlater : b ∈ blocks := by
        rcases List.mem_cons.1 hmem with rfl | hlater
        · exact absurd rfl hsame
        · exact hlater
      have hcounted := ih hrest hlater
      rw [if_neg hsame]
      omega

theorem ArenaInv.distinct (h : ArenaInv w) :
    w.blocks.Pairwise fun b b' => b.address ≠ b'.address := by
  refine h.disjoint.imp_of_mem fun hmem hmem' hapart hsame => ?_
  have := (h.lies _ hmem').nonempty
  rw [hsame] at hapart
  omega

/-- An allocation keeps the invariant, whether it grants, returns null or throws. -/
theorem ArenaInv.allocate (h : ArenaInv w) (bytes alignment : SizeT) :
    ArenaInv (w.step (.allocate bytes alignment)) := by
  have hspec := ArenaAllocator.allocate_wp w.arena bytes alignment
  rcases hrun : ArenaAllocator.allocate bytes alignment w.arena with ⟨e | pointer, arena⟩
  · obtain ⟨-, rfl⟩ := hspec.error hrun
    -- a throwing call leaves the arena as it was
    simp only [step, hrun]
    exact h
  · rcases hspec.ok hrun with ⟨-, rfl, rfl⟩ | ⟨hgranted, rfl, rfl⟩
    -- a request of no bytes takes nothing
    · simp only [step, hrun]
      exact h
    -- the block that is granted, over the natural numbers
    · obtain ⟨-, -, -, haligned, hroom, hnext, hpointer⟩ :=
        exact_of_backed h.backed h.offset_le bytes hgranted.power hgranted.aligned
      have hinside := BitVec.le_def.1 hgranted.inside
      have hfilled := BitVec.le_def.1 hgranted.room
      rw [hroom hgranted.inside] at hfilled
      have hpositive := toNat_ne_zero hgranted.nonempty
      have hwide := w.arena.capacity.isLt
      have hpower := Lib.Align.isPowerOfTwo_iff.1 hgranted.power
      have hpast : w.arena.offset.toNat ≤ (w.arena.alignedOffset alignment).toNat := by
        rw [haligned]
        exact Lib.Align.le_roundUp (Nat.pos_of_isPowerOfTwo hpower)
      -- the memory behind the arena is not null and keeps its alignment
      obtain ⟨hnonnull, hdivides, hends⟩ := h.backed.memory fun hempty => by
        rw [hempty] at hinside hfilled
        have : (0 : SizeT).toNat = 0 := rfl
        omega
      have haddress := hpointer hgranted
      have haddress_ne : w.arena.buffer + w.arena.alignedOffset alignment ≠ 0 := fun hzero => by
        rw [hzero] at haddress
        have := toNat_ne_zero hnonnull
        have : (0 : SizeT).toNat = 0 := rfl
        omega
      have hcounted : (w.arena.activeAllocations + 1).toNat =
        w.arena.activeAllocations.toNat + 1 := by
        have := h.active ▸ List.countP_le_length (p := fun b : ArenaBlock => !b.deallocated)
          (l := w.blocks)
        have := h.length_le
        exact toNat_add (by show _ + 1 < _; omega)
      simp only [step, hrun, if_neg haddress_ne]
      refine ⟨⟨h.backed.power, h.backed.memory⟩, ?_, ?_, ?_, ?_, ?_⟩
      -- the fill level stays within the capacity
      · refine BitVec.le_def.2 ?_
        show (w.arena.alignedOffset alignment + bytes).toNat ≤ w.arena.capacity.toNat
        rw [hnext hgranted]
        omega
      -- the new block lies inside and is aligned; the old ones lie before it
      · intro b hmem
        rcases List.mem_cons.1 hmem with rfl | hold
        · refine ⟨hpositive, ?_, ?_, ?_⟩
          · show alignment.toNat ∣ (_ + _ : SizeT).toNat
            rw [haddress, haligned]
            have hsteps := Lib.Align.dvd_of_le hpower (Lib.Align.isPowerOfTwo_iff.1 h.backed.power)
              (BitVec.le_def.1 hgranted.aligned)
            exact Nat.dvd_add (hsteps.trans hdivides) (Nat.dvd_mul_left _ _)
          · show _ ≤ (_ + _ : SizeT).toNat
            rw [haddress]
            exact Nat.le_add_right _ _
          · show (_ + _ : SizeT).toNat + bytes.toNat ≤ w.arena.buffer.toNat + (_ + _ : SizeT).toNat
            rw [haddress, hnext hgranted]
            omega
        · obtain ⟨hnonempty, hdivides, hbegins, hbefore⟩ := h.lies b hold
          refine ⟨hnonempty, hdivides, hbegins, Nat.le_trans hbefore ?_⟩
          show _ ≤ w.arena.buffer.toNat + (_ + _ : SizeT).toNat
          rw [hnext hgranted]
          omega
      -- the new block starts where the last one ended
      · refine List.pairwise_cons.2 ⟨fun b hold => ?_, h.disjoint⟩
        obtain ⟨-, -, -, hbefore⟩ := h.lies b hold
        show _ ≤ (_ + _ : SizeT).toNat
        rw [haddress]
        omega
      -- one more active block
      · show (w.arena.activeAllocations + 1).toNat = _
        rw [hcounted, h.active, List.countP_cons]
        rfl
      · show w.blocks.length + 1 ≤ (_ + _ : SizeT).toNat
        rw [hnext hgranted]
        have := h.length_le
        omega

/-- A pointer that is not counted. -/
theorem deallocate_of_foreign (h : Backed a) {pointer : SizeT}
    (hforeign : pointer = 0 ∨ Foreign a pointer) :
    a.deallocate pointer = a := by
  unfold ArenaAllocator.deallocate
  split
  · rfl
  · rename_i hcounted
    refine if_neg ?_
    rintro ⟨hbegins, hends⟩
    rcases hforeign with hnull | hbefore | hafter
    · exact hcounted (.inl hnull)
    · exact absurd (BitVec.le_def.1 hbegins) (Nat.not_le.2 hbefore)
    · have hends := BitVec.lt_def.1 hends
      by_cases hempty : a.capacity = 0
      · rw [hempty, add_zero] at hends
        have := BitVec.le_def.1 hbegins
        omega
      · rw [toNat_add (h.memory hempty).2.2] at hends
        omega

/-- A pointer to a block is counted. -/
theorem deallocate_of_lies (hoffset_le : a.offset ≤ a.capacity) {b : ArenaBlock}
    (hmemory : a.buffer ≠ 0 ∧ a.alignment.toNat ∣ a.buffer.toNat ∧
      a.buffer.toNat + a.capacity.toNat < 2 ^ 64)
    (hlies : Lies a b) (hactive : a.activeAllocations ≠ 0) :
    a.deallocate b.address = { a with activeAllocations := a.activeAllocations - 1 } := by
  obtain ⟨hnonempty, -, hbegins, hends⟩ := hlies
  have := toNat_ne_zero hmemory.1
  have hnonnull : b.address ≠ 0 := fun hzero => by
    rw [hzero] at hbegins
    have : (0 : SizeT).toNat = 0 := rfl
    omega
  have hinside : b.address < a.buffer + a.capacity := by
    have := BitVec.le_def.1 hoffset_le
    rw [BitVec.lt_def, toNat_add hmemory.2.2]
    omega
  unfold ArenaAllocator.deallocate
  rw [if_neg (not_or.2 ⟨hnonnull, not_or.2 ⟨hmemory.1, hactive⟩⟩),
    if_pos ⟨BitVec.le_def.2 hbegins, hinside⟩]

/-- Returning a block that was handed out keeps the invariant. -/
theorem ArenaInv.deallocate (h : ArenaInv w) {pointer : SizeT}
    (hpermitted : Permits w (.deallocate pointer)) :
    ArenaInv (w.step (.deallocate pointer)) := by
  unfold step
  have hforeign (houtside : pointer = 0 ∨ Foreign w.arena pointer) :
      ArenaInv ⟨w.arena.deallocate pointer, markReturned w.blocks pointer⟩ := by
    rw [deallocate_of_foreign h.backed houtside, markReturned_of_not_mem fun b hmem heq => ?_]
    · exact h
    · obtain ⟨hnonempty, -, hbegins, hends⟩ := h.lies b hmem
      have := toNat_ne_zero (h.memory hmem).1
      have := BitVec.le_def.1 h.offset_le
      rw [heq] at hbegins hends
      rcases houtside with rfl | hbefore | hafter
      · have : (0 : SizeT).toNat = 0 := rfl
        omega
      · omega
      · omega
  rcases hpermitted with hnull | houtside | ⟨b, hmem, rfl, hlive⟩
  · exact hforeign (.inl hnull)
  · exact hforeign (.inr houtside)
  · have hcounted := countP_markReturned h.distinct hmem hlive
    have hactive : w.arena.activeAllocations ≠ 0 := fun hidle => by
      have hcount := h.active
      rw [hidle, ← hcounted] at hcount
      have : (0 : SizeT).toNat = 0 := rfl
      omega
    dsimp only
    rw [deallocate_of_lies h.offset_le (h.memory hmem) (h.lies b hmem) hactive]
    refine ⟨⟨h.backed.power, h.backed.memory⟩, h.offset_le, fun c hreturned => ?_, ?_, ?_, ?_⟩
    · obtain ⟨c, hold, rfl⟩ := List.mem_map.1 hreturned
      obtain ⟨hnonempty, haligned, hbegins, hends⟩ := h.lies c hold
      split
      · exact ⟨hnonempty, haligned, hbegins, hends⟩
      · exact ⟨hnonempty, haligned, hbegins, hends⟩
    · refine List.pairwise_map.2 (h.disjoint.imp fun {c d} hapart => ?_)
      split
      · split
        · exact hapart
        · exact hapart
      · split
        · exact hapart
        · exact hapart
    · show (w.arena.activeAllocations - 1).toNat = _
      rw [Lib.Align.toNat_sub_one hactive, h.active, ← hcounted]
      exact Nat.add_sub_cancel _ 1
    · show (w.blocks.map _).length ≤ _
      rw [List.length_map]
      exact h.length_le

/-- A reset keeps the invariant: it drops all blocks or throws. -/
theorem ArenaInv.reset (h : ArenaInv w) : ArenaInv (w.step .reset) := by
  have hspec := ArenaAllocator.reset_wp w.arena
  rcases hrun : ArenaAllocator.reset w.arena with ⟨e | _, arena⟩
  · obtain ⟨-, rfl⟩ := hspec.error hrun
    simp only [step, hrun]
    exact h
  · obtain ⟨hidle, rfl⟩ := hspec.ok hrun
    simp only [step, hrun]
    refine ⟨⟨h.backed.power, h.backed.memory⟩, ?_, fun b hmem => (by cases hmem), .nil, ?_,
      Nat.zero_le _⟩
    · exact BitVec.le_def.2 (Nat.zero_le _)
    · show w.arena.activeAllocations.toNat = 0
      rw [hidle]
      rfl

theorem ArenaInv.step (h : ArenaInv w) {call : ArenaCall} (hpermitted : Permits w call) :
    ArenaInv (w.step call) := by
  cases call with
  | allocate bytes alignment => exact h.allocate bytes alignment
  | deallocate pointer => exact h.deallocate hpermitted
  | reset => exact h.reset

/-- What the memory behind an arena is: aligned, and below the last address. -/
def Honest (backing : BackingAllocator) : Prop :=
  ∀ bytes alignment pointer, backing bytes alignment = .ok pointer → pointer ≠ 0 →
    alignment.toNat ∣ pointer.toNat ∧ pointer.toNat + bytes.toNat < 2 ^ 64

/-- A new arena over honest memory satisfies the invariant. -/
theorem ArenaInv.start {capacity alignment : SizeT} {backing : BackingAllocator}
    {arena : ArenaAllocator} (hhonest : Honest backing)
    (hmade : ArenaAllocator.make capacity (some backing) alignment = .ok arena) :
    ArenaInv { arena } := by
  have hinv {buffer : SizeT} (hpower : isPowerOfTwo alignment = true)
      (hmemory : capacity ≠ 0 → buffer ≠ 0 ∧ alignment.toNat ∣ buffer.toNat ∧
        buffer.toNat + capacity.toNat < 2 ^ 64) :
      ArenaInv { arena := { capacity, alignment, buffer } } :=
    ⟨⟨hpower, hmemory⟩, BitVec.le_def.2 (Nat.zero_le _), fun b hmem => (by cases hmem), .nil, rfl,
      Nat.zero_le _⟩
  unfold ArenaAllocator.make at hmade
  dsimp only at hmade
  split at hmade
  · cases hmade
  · rename_i hpower
    have hpower := Bool.of_not_eq_false hpower
    split at hmade
    · rcases hgiven : backing capacity alignment with e | buffer
      · rw [hgiven] at hmade
        cases hmade
      · rw [hgiven] at hmade
        change (if buffer = 0 then _ else _) = _ at hmade
        split at hmade
        · cases hmade
        · rename_i hnonnull
          cases hmade
          exact hinv hpower fun _ => ⟨hnonnull, hhonest _ _ _ hgiven hnonnull⟩
    · rename_i hempty
      cases hmade
      exact hinv hpower fun hnonempty => 
        absurd (show 0 < capacity from BitVec.lt_def.2 (toNat_ne_zero hnonempty)) hempty

theorem arenaInv_of_run {arena : ArenaAllocator} (hstart : ArenaInv { arena })
    (hrun : Run arena w) : ArenaInv w := by
  induction hrun with
  | start => exact hstart
  | step hrun call hpermitted ih => exact ih.step hpermitted

/-! ## The arena keeps its blocks apart -/

/-- The buffer stays where it is. -/
theorem step_fixed (w : Clients) (call : ArenaCall) :
    (w.step call).arena.capacity = w.arena.capacity ∧
    (w.step call).arena.alignment = w.arena.alignment ∧
      (w.step call).arena.buffer = w.arena.buffer := by
  cases call with
  | allocate bytes alignment =>
    have hspec := ArenaAllocator.allocate_wp w.arena bytes alignment
    rcases hrun : ArenaAllocator.allocate bytes alignment w.arena with ⟨e | pointer, arena⟩
    · obtain ⟨-, rfl⟩ := hspec.error hrun
      simp only [step, hrun, and_self]
    · rcases hspec.ok hrun with ⟨-, rfl, rfl⟩ | ⟨hgranted, rfl, rfl⟩
      · simp only [step, hrun, and_self]
      · simp only [step, hrun]
        exact ⟨rfl, rfl, rfl⟩
  | deallocate pointer =>
    unfold step ArenaAllocator.deallocate
    dsimp only
    split
    · exact ⟨rfl, rfl, rfl⟩
    · split
      · exact ⟨rfl, rfl, rfl⟩
      · exact ⟨rfl, rfl, rfl⟩
  | reset =>
    have hspec := ArenaAllocator.reset_wp w.arena
    rcases hrun : ArenaAllocator.reset w.arena with ⟨e | _, arena⟩
    · obtain ⟨-, rfl⟩ := hspec.error hrun
      simp only [step, hrun, and_self]
    · obtain ⟨-, rfl⟩ := hspec.ok hrun
      simp only [step, hrun, and_self]

/-- Capacity, alignment and buffer never change. -/
theorem run_fixed {arena : ArenaAllocator} (hrun : Run arena w) :
    w.arena.capacity = arena.capacity ∧ w.arena.alignment = arena.alignment ∧
      w.arena.buffer = arena.buffer := by
  induction hrun with
  | start => exact ⟨rfl, rfl, rfl⟩
  | step hrun call hpermitted ih =>
    obtain ⟨hcapacity, halignment, hbuffer⟩ := step_fixed _ call
    exact ⟨hcapacity.trans ih.1, halignment.trans ih.2.1, hbuffer.trans ih.2.2⟩

/-- The counter is not zero exactly while a block is outstanding. -/
theorem active_iff (h : ArenaInv w) :
    w.arena.activeAllocations ≠ 0 ↔ ∃ b ∈ w.blocks, b.deallocated = false := by
  constructor
  · intro hactive
    obtain ⟨b, hmem, hlive⟩ := List.countP_pos_iff.1 (h.active ▸ toNat_ne_zero hactive)
    exact ⟨b, hmem, by simpa using hlive⟩
  · rintro ⟨b, hmem, hlive⟩ hidle
    have hcounted := h.active
    rw [hidle] at hcounted
    exact Nat.ne_of_gt (List.countP_pos_iff.2 ⟨b, hmem, by simpa using hlive⟩) hcounted.symm

/-- An arena from which nothing is given out grants a request for all of it. -/
theorem grants_capacity (h : Backed a) (hfresh : a.offset = 0) (hnonempty : a.capacity ≠ 0)
    (hpower : isPowerOfTwo alignment = true) (hle : alignment ≤ a.alignment) :
    a.Grants a.capacity alignment ∧ a.buffer + a.alignedOffset alignment = a.buffer := by
  have hoffset_le : a.offset ≤ a.capacity := by
    rw [hfresh]
    exact BitVec.le_def.2 (Nat.zero_le _)
  obtain ⟨hguard, -, -, haligned, -⟩ := exact_of_backed h hoffset_le a.capacity hpower hle
  have hfirst : a.alignedOffset alignment = 0 := by
    refine BitVec.eq_of_toNat_eq ?_
    have hpositive := Nat.pos_of_isPowerOfTwo (Lib.Align.isPowerOfTwo_iff.1 hpower)
    rw [haligned, hfresh]
    show (0 + alignment.toNat - 1) / alignment.toNat * alignment.toNat = 0
    rw [Nat.div_eq_of_lt (by omega), Nat.zero_mul]
  refine ⟨⟨hnonempty, hpower, hle, ?_, ?_, ?_⟩, by rw [hfirst, add_zero]⟩
  · rw [hfresh]
    exact BitVec.le_def.2 (Nat.zero_le _)
  · rw [hfirst]
    exact BitVec.le_def.2 (Nat.zero_le _)
  · rw [hfirst, sub_zero]
    exact BitVec.le_def.2 (Nat.le_refl _)

/-- No byte belongs to both blocks. -/
def Apart (b b' : ArenaBlock) : Prop :=
  b.address.toNat + b.bytes.toNat ≤ b'.address.toNat ∨
  b'.address.toNat + b'.bytes.toNat ≤ b.address.toNat

/-- After any sequence of permitted calls the blocks since the last reset are disjoint,
aligned as requested and inside the arena; `reset` throws exactly when one of them was not
returned, and gives the whole arena back otherwise; a request that throws changes nothing;
and no address or offset wraps. -/
theorem arena_disjoint {capacity alignment : SizeT} {backing : BackingAllocator}
    {arena : ArenaAllocator} (hhonest : Honest backing)
    (hmade : ArenaAllocator.make capacity (some backing) alignment = .ok arena) {w : Clients}
    (hrun : Run arena w) :
    w.blocks.Pairwise Apart ∧
    (∀ b ∈ w.blocks, b.alignment.toNat ∣ b.address.toNat ∧ arena.buffer.toNat ≤ b.address.toNat ∧
      b.address.toNat + b.bytes.toNat ≤ arena.buffer.toNat + arena.capacity.toNat) ∧
    ((∃ e, (ArenaAllocator.reset w.arena).1 = .error e) ↔ ∃ b ∈ w.blocks, b.deallocated = false) ∧
    ((∀ b ∈ w.blocks, b.deallocated = true) →
      (w.step .reset).arena.used = 0 ∧ (w.step .reset).arena.remaining = arena.capacity ∧
      ∀ request, arena.capacity ≠ 0 → isPowerOfTwo request = true → request ≤ arena.alignment →
        (ArenaAllocator.allocate arena.capacity request (w.step .reset).arena).1 =
          .ok arena.buffer) ∧
    (∀ bytes request e a, ArenaAllocator.allocate bytes request w.arena = (.error e, a) →
      a = w.arena) ∧
    (∀ bytes request, isPowerOfTwo request = true → request ≤ arena.alignment →
      Exact w.arena bytes request) ∧
    (w.arena.buffer + w.arena.capacity).toNat = w.arena.buffer.toNat + w.arena.capacity.toNat := by
  have hinv := arenaInv_of_run (ArenaInv.start hhonest hmade) hrun
  obtain ⟨hcapacity_eq, halignment_eq, hbuffer_eq⟩ := run_fixed hrun
  have hspec := ArenaAllocator.reset_wp w.arena
  refine ⟨hinv.disjoint.imp .inr, fun b hmem => ?_, ⟨fun hfailed => ?_, fun hlive => ?_⟩,
    fun hreturned => ?_, ?_, ?_, ?_⟩
  -- every block is aligned and inside
  · obtain ⟨-, haligned, hbegins, hends⟩ := hinv.lies b hmem
    have := BitVec.le_def.1 hinv.offset_le
    rw [← hcapacity_eq, ← hbuffer_eq]
    exact ⟨haligned, hbegins, by omega⟩
  -- a reset throws if and only if a block is still in use
  · rcases hthrows : ArenaAllocator.reset w.arena with ⟨e | _, a⟩
    · exact (active_iff hinv).1 (hspec.error hthrows).1
    · obtain ⟨e, hfailed⟩ := hfailed
      rw [hthrows] at hfailed
      cases hfailed
  · rcases hthrows : ArenaAllocator.reset w.arena with ⟨e | _, a⟩
    · exact ⟨e, rfl⟩
    · exact absurd (hspec.ok hthrows).1 ((active_iff hinv).2 hlive)
  -- after all blocks were given back the whole capacity is free again
  · rcases hrun' : ArenaAllocator.reset w.arena with ⟨e | _, a⟩
    · obtain ⟨b, hmem, hlive⟩ := (active_iff hinv).1 (hspec.error hrun').1
      rw [hreturned b hmem] at hlive
      cases hlive
    · obtain ⟨-, rfl⟩ := hspec.ok hrun'
      simp only [step, hrun']
      refine ⟨rfl, (sub_zero _).trans hcapacity_eq, fun request hnonempty hpower hle => ?_⟩
      rw [← hcapacity_eq] at hnonempty ⊢
      rw [← halignment_eq] at hle
      have hbacked : Backed { w.arena with offset := 0 } := ⟨hinv.backed.power, hinv.backed.memory⟩
      obtain ⟨hgrants, hsame⟩ := grants_capacity hbacked rfl hnonempty hpower hle
      rw [← hbuffer_eq]
      exact (congrArg Prod.fst (ArenaAllocator.allocate_of_grants hgrants)).trans
        (congrArg Except.ok hsame)
  · intro bytes request e a hfailed
    exact ((ArenaAllocator.allocate_wp w.arena bytes request).error hfailed).2
  · intro bytes request hpower hle
    exact exact_of_backed hinv.backed hinv.offset_le bytes hpower (halignment_eq ▸ hle)
  -- the end of the arena does not wrap
  · by_cases hempty : w.arena.capacity = 0
    · rw [hempty, add_zero]
      rfl
    · exact toNat_add (hinv.backed.memory hempty).2.2

/-- A page at the address 4096, for requests that it can serve. -/
def onePage : BackingAllocator := fun bytes alignment =>
  if bytes.toNat ≤ 4096 ∧ alignment.toNat ∣ 4096 then .ok 4096 else .error .badAlloc

theorem honest_onePage : Honest onePage := by
  intro bytes alignment pointer hgiven _
  unfold onePage at hgiven
  split at hgiven
  · rename_i hfits
    cases hgiven
    exact ⟨hfits.2, by show 4096 + bytes.toNat < _; omega⟩
  · cases hgiven

/-- Two blocks of an arena of 64 bytes, the second one returned. -/
theorem arena_disjoint_two :
    let arena : ArenaAllocator := { capacity := 64, alignment := 16, buffer := 4096 }
    let w := ((Clients.step { arena } (.allocate 3 1)).step (.allocate 8 8)).step (.deallocate 4104)
    w.blocks = [⟨4104, 8, 8, true⟩, ⟨4096, 3, 1, false⟩] ∧ w.blocks.Pairwise Apart :=
  ⟨by decide,
    (arena_disjoint honest_onePage (show ArenaAllocator.make 64 (some onePage) 16 = .ok _ from rfl)
    (((Run.start.step (.allocate 3 1) trivial).step (.allocate 8 8) trivial).step (.deallocate 4104)
      (.inr (.inr ⟨⟨4104, 8, 8, false⟩, by decide, rfl, rfl⟩)))).1⟩

end Clients

end TinyInfer
