import TinyInfer.MiniPrefix.RunnerFootprint

/-!
# Accepted configurations and appends

`Accepted` are the bounds that `validate` checks, `AppendOpen` what an accepted append leaves
to the body of `append`, and `Room` the sizes of the buffers that the body addresses.
-/

namespace TinyInfer.MiniPrefix

open Lib Lib.Footprint KVManager

/-! ## Configurations -/

namespace Llama.ModelConfig

/-- What `validate` has checked of the sizes. -/
structure Accepted {F : Type} (c : ModelConfig F) : Prop where
  layers : 1 ≤ c.layers ∧ c.layers ≤ 128
  hidden : 2 ≤ c.hidden ∧ c.hidden ≤ 8192
  intermediate : 1 ≤ c.intermediate ∧ c.intermediate ≤ 65536
  heads_pos : 0 < c.heads
  kvHeads_pos : 0 < c.kvHeads
  hidden_mod : c.hidden % c.heads = 0
  heads_mod : c.heads % c.kvHeads = 0
  even : c.hidden / c.heads % 2 = 0
  dimension_le : c.hidden / c.heads ≤ 256
  vocabulary : 2 ≤ c.vocabulary ∧ c.vocabulary ≤ 262144
  context : 1 ≤ c.context ∧ c.context ≤ 131072

variable {F : Type} {c : ModelConfig F}

/-- A configuration that validates is accepted. -/
theorem accepted_of_validate [Scalar F] [LE F] [DecidableLE F] (h : c.validate = .ok ()) :
    c.Accepted := by
  unfold validate at h
  split at h
  · cases h
  · rename_i hvalid
    simp only [not_or] at hvalid
    obtain ⟨h₁, h₂, h₃, h₄, h₅, h₆, h₇, h₈, h₉, h₁₀, h₁₁, h₁₂, h₁₃, h₁₄, h₁₅, h₁₆, -⟩ := hvalid
    constructor <;> omega

/-- The sizes, as the runners use them. -/
def llama (c : ModelConfig F) (haccepted : c.Accepted) : LlamaConfig F where
  layers := c.layers
  hidden := c.hidden
  heads := c.heads
  kvHeads := c.kvHeads
  vocabulary := c.vocabulary
  context := c.context
  rmsEpsilon := c.rmsEpsilon
  ropeTheta := c.ropeTheta
  heads_pos := haccepted.heads_pos
  kvHeads_pos := haccepted.kvHeads_pos
  hidden_mod := haccepted.hidden_mod
  heads_mod := haccepted.heads_mod

/-- `head_dimension()` -/
abbrev dim (c : ModelConfig F) : Nat := c.hidden / c.heads

/-- `kv_width()` -/
abbrev width (c : ModelConfig F) : Nat := c.kvHeads * c.dim

namespace Accepted

variable (h : c.Accepted)
include h

/-- The heads divide the hidden units. -/
theorem heads_mul_dim : c.heads * c.dim = c.hidden :=
  Nat.mul_div_cancel' (Nat.dvd_of_mod_eq_zero h.hidden_mod)

theorem dim_pos : 0 < c.dim := by
  refine Nat.pos_of_ne_zero fun hzero => ?_
  have := h.heads_mul_dim
  rw [hzero, Nat.mul_zero] at this
  have := h.hidden
  omega

theorem two_mul_half : 2 * (c.dim / 2) = c.dim := by
  have heven : c.dim % 2 = 0 := h.even
  omega

theorem kvHeads_le : c.kvHeads ≤ c.heads :=
  Nat.le_of_dvd h.heads_pos (Nat.dvd_of_mod_eq_zero h.heads_mod)

/-- The key width is at most the hidden width. -/
theorem width_le : c.width ≤ c.hidden := by
  rw [← h.heads_mul_dim]
  exact Nat.mul_le_mul_right _ h.kvHeads_le

theorem width_pos : 0 < c.width := Nat.mul_pos h.kvHeads_pos h.dim_pos

/-- The heads that share keys and values. -/
theorem group_pos : 0 < c.heads / c.kvHeads := Nat.div_pos h.kvHeads_le h.kvHeads_pos

/-- Every head has its key head. -/
theorem kvHead_lt {head : Nat} (hinside : head < c.heads) :
    head / (c.heads / c.kvHeads) < c.kvHeads := by
  rw [Nat.div_lt_iff_lt_mul h.group_pos, Nat.mul_div_cancel' (Nat.dvd_of_mod_eq_zero h.heads_mod)]
  exact hinside

theorem headDimension_eq : c.headDimension = some c.dim := Machine.div_of_pos h.heads_pos

/-- The key width is computed without overflow. -/
theorem kvWidth_eq : c.kvWidth = some c.width := by
  have hfits : c.kvHeads * c.dim ≤ 8192 := Nat.le_trans h.width_le h.hidden.2
  unfold kvWidth
  rw [h.headDimension_eq]
  exact Machine.int_of_le (Nat.le_trans hfits (by decide))

end Accepted

end Llama.ModelConfig

/-! ## Accepted appends -/

/-- What an accepted append leaves to the body of `append`; the arrays are those of `pool`. -/
structure AppendOpen {F : Type} (c : Llama.ModelConfig F) (pool : KvBlockPool) (kv : KVManager)
    (a : KVManager.Append) (sequence : PagedSequence) : Prop where
  found : ((kv.sequences.find? a.id).getD {}).sequence = sequence
  layers : kv.layers = c.layers
  width : kv.width = c.width
  config : kv.config = pool.config
  sized : pool.Sized c.layers c.width
  tokens_pos : 0 < a.tokens.length
  fits : sequence.used + a.tokens.length ≤ c.context
  valid : ∀ token ∈ a.tokens, 0 ≤ token ∧ token < c.vocabulary
  pages : sequence.blocks.length =
    pagesFor pool.config.blockTokens (sequence.used + a.tokens.length)
  bounded : ∀ b ∈ sequence.blocks, b < pool.config.maxBlocks
  original : a.originalBlocks ≤ sequence.blocks.length
  tail : ∀ copy, a.copy = some copy →
    0 < copy.validTokens ∧ CopiesTail kv copy copy.validTokens pool.arrayElements

/-- A prepared append, as the index computations see it. -/
theorem appendOpen {F : Type} {c : Llama.ModelConfig F} {context : Nat} {pool : KvBlockPool}
    {α : Type} {spec : List TokenId → α} {payload : Nat → Nat → α} {kv kv' : KVManager}
    {flat : FlatCache} {pos : Nat → Nat} (h : KvInv spec payload kv none flat pos)
    (hparameters : kv.parameters = (c.layers, c.width, context, c.vocabulary, pool.config))
    (hsized : pool.Sized c.layers c.width) (hlimit : context ≤ c.context) {id : RequestId}
    {tokens : List TokenId} {a : KVManager.Append}
    (hrun : kv.prepareAppend id tokens = (.ok a, kv')) :
    a.tokens = tokens ∧ ∃ sequence, AppendOpen c pool kv' a sequence := by
  rcases h.prepareAppend id tokens with ⟨e, heq, -⟩ | ⟨e, other, flat', old, heq, -⟩ |
    ⟨a', kv₁, other, flat', old, fresh, heq, hchecked, hevicted, hinv, rfl, rfl, hprepared⟩
  · rw [hrun] at heq
    cases heq
  · rw [hrun] at heq
    cases heq
  rw [hrun] at heq
  cases heq
  refine ⟨rfl, ?_⟩
  have hlive := hprepared.inv hinv (hevicted.checked hchecked)
  -- Nothing that the constructor fixed has changed.
  have hsame : kv'.parameters = kv.parameters :=
    parameters_eq (by rw [hprepared.shape, hevicted.same]) (by rw [hprepared.shape, hevicted.same])
      (by rw [hprepared.shape, hevicted.same]) (by rw [hprepared.shape, hevicted.same])
      (hprepared.config.trans hevicted.config)
  have hafter := hsame.trans hparameters
  unfold KVManager.parameters at hafter hparameters
  simp only [Prod.mk.injEq] at hafter hparameters
  obtain ⟨hlayers, hwidth, hcontextEq, -, hconfig⟩ := hafter
  obtain ⟨state, hfound, htx⟩ := hlive.transaction a rfl
  -- every page of the sequence is leased, so it is in the pool
  have hbounded : ∀ b ∈ state.sequence.blocks, b < pool.config.maxBlocks := by
    intro b hmem
    obtain ⟨j, hhere⟩ := List.getElem?_of_mem hmem
    have hleased := sequenceLeases_pos hfound hhere
    have := hlive.accounts.bounded b (by unfold outside; omega)
    rwa [← hconfig]
  refine ⟨state.sequence, {
    found := by rw [hfound, Option.getD_some]
    layers := hlayers, width := hwidth, config := hconfig, sized := hsized, bounded := hbounded
    tokens_pos := List.length_pos_iff.2 htx.tokens_ne
    fits := Nat.le_trans htx.fits (hcontextEq ▸ hlimit)
    valid := fun token hmem => ?_
    pages := by rw [htx.grown, hconfig]
    original := ?_
    tail := fun copy hreplaces => ?_ }⟩
  -- the tokens passed the check of `prepare_append`
  · have hvalid := hchecked.valid
    rw [KVManager.validTokens, List.all_eq_true, hparameters.2.2.2.1] at hvalid
    exact of_decide_eq_true (hvalid token hmem)
  · rw [htx.original, htx.grown]
    exact pagesFor_mono (Nat.le_add_right _ _)
  -- the tail that is copied is partial
  · obtain ⟨state', -, hpositive, hused, -, hsource, hdestination, hne⟩ := hlive.tailPages hreplaces
    rw [hconfig] at hused hsource hdestination
    refine ⟨hpositive, copiesTail_of_sized (by rwa [hlayers, hwidth]) hconfig hsource
      hdestination hne ?_⟩
    rw [hused]
    exact Nat.mod_lt _ pool.valid.blockTokens_pos

/-- The buffers are as large as the shapes of an append of `n` tokens say. -/
structure Room {F : Type} (c : Llama.ModelConfig F) (n arrays : Nat) (E : Buffer → Nat) : Prop where
  x : n * c.hidden ≤ E .x
  norm : n * c.hidden ≤ E .norm
  q : n * c.hidden ≤ E .q
  k : n * c.width ≤ E .k
  v : n * c.width ≤ E .v
  attention : n * c.hidden ≤ E .attention
  projection : n * c.hidden ≤ E .projection
  gate : n * c.intermediate ≤ E .gate
  up : n * c.intermediate ≤ E .up
  logits : c.vocabulary ≤ E .logits
  tokens : n ≤ E .tokens
  keys : arrays ≤ E .keys
  values : arrays ≤ E .values
  embedTokens : c.vocabulary * c.hidden ≤ E .embedTokens
  inputLayernorm : ∀ l, c.hidden ≤ E (.inputLayernorm l)
  postAttentionLayernorm : ∀ l, c.hidden ≤ E (.postAttentionLayernorm l)
  finalNorm : c.hidden ≤ E .finalNorm
  matrix : ∀ m, (c.matrixShape m).1 * (c.matrixShape m).2 ≤ E (.matrix m)

/-- The device also has the memory that a block shares, and a table of `entries`. -/
structure DeviceRoom {F : Type} (c : Llama.ModelConfig F) (n arrays entries : Nat)
    (E : Buffer → Nat) :
    Prop extends Room c n arrays E where
  shared : 256 ≤ E .shared
  table : entries ≤ E .table

section Body

variable {F : Type} {c : Llama.ModelConfig F} {pool : KvBlockPool} {kv : KVManager}
  {a : KVManager.Append} {sequence : PagedSequence} {E : Buffer → Nat} {n arrays : Nat}

/-- An element of a row is inside the matrix. -/
theorem rowElement_lt {row rows width d : Nat} (hr : row < rows) (hd : d < width) :
    row * width + d < rows * width := by
  have := Nat.mul_le_mul_right width (Nat.succ_le_of_lt hr)
  rw [Nat.succ_mul] at this
  omega

/-- The element of a head in a row of heads. -/
theorem headElement_some {heads dim rows row head d : Nat} (hr : row < rows) (hh : head < heads)
    (hd : d < dim) (hsmall : rows * heads * dim ≤ 2 ^ 30) :
    headElement heads dim row head d = some ((row * heads + head) * dim + d) ∧
      (row * heads + head) * dim + d < rows * heads * dim := by
  have headrow := rowElement_lt hr hh
  have helement := rowElement_lt headrow hd
  -- a factor that is not zero
  have hrows_le : rows * heads ≤ rows * heads * dim := Nat.le_mul_of_pos_right _ (by omega)
  have hfits : row * heads ≤ Machine.int32Max ∧ row * heads + head ≤ Machine.int32Max ∧
      (row * heads + head) * dim ≤ Machine.int32Max ∧
      (row * heads + head) * dim + d ≤ Machine.int32Max := by
    unfold Machine.int32Max
    omega
  obtain ⟨hproduct, hsum, hfirst, hlast⟩ := hfits
  refine ⟨?_, helement⟩
  simp only [headElement, Machine.int_of_le hproduct, Machine.int_of_le hsum,
    Machine.int_of_le hfirst, Machine.int_of_le hlast, Option.bind_eq_bind, Option.bind_some]

/-- A valid token is the number of a row of the embeddings. -/
theorem token_lt {token : Int} {vocabulary : Nat} (hlimit : vocabulary ≤ 262144)
    (hnonneg : 0 ≤ token) (hbelow : token < vocabulary) :
    token.toNat < vocabulary ∧ token ≤ Machine.int32Max := by
  unfold Machine.int32Max
  omega

/-- The products of the number of tokens with the width of a row. -/
theorem AppendOpen.products (h : AppendOpen c pool kv a sequence) (haccepted : c.Accepted) :
    a.tokens.length ≤ 131072 ∧ a.tokens.length * c.hidden ≤ 2 ^ 30 ∧
      a.tokens.length * c.width ≤ a.tokens.length * c.hidden := by
  have hfits := h.fits
  have hcontext := haccepted.context
  have hn : a.tokens.length ≤ 131072 := by omega
  exact ⟨hn, Nat.le_trans (Nat.mul_le_mul hn haccepted.hidden.2) (by decide),
    Nat.mul_le_mul_left _ haccepted.width_le⟩

/-- The tail copy stays inside the arrays. -/
theorem AppendOpen.tail_fits (h : AppendOpen c pool kv a sequence)
    (hroom : Room c n pool.arrayElements E) : Fits E (tailTrace kv a) := by
  unfold tailTrace
  cases hreplaces : a.copy with
  | none => exact fits_nil
  | some copy =>
    obtain ⟨hpositive, hcopies⟩ := h.tail copy hreplaces
    simp only [hcopies.computed, Option.bind_eq_bind, Option.bind_some]
    refine fits_forEach.2 fun row hr => ?_
    obtain ⟨hsource, hdestination⟩ := hcopies.rows row hr
    simp only [hsource, hdestination, Option.bind_some]
    have hwidth : (kv.tailCopyRegion copy).width = copy.validTokens * kv.width := rfl
    have hpos : 0 < copy.validTokens * kv.width :=
      Nat.mul_pos hpositive (by rw [h.width]; exact h.sized.width_pos)
    -- the last element of the row
    have hlast :=
      hcopies.inside _ _ ⟨row, hr, (kv.tailCopyRegion copy).width - 1, by omega, rfl, rfl⟩
    have hstart (page : Nat) : page * kv.layers * (kv.config.blockTokens * kv.width) +
        row * (kv.config.blockTokens * kv.width) =
          slotOffset kv.layers kv.config.blockTokens kv.width page row 0 := slotOffset_row ..
    have hkeys := hroom.keys
    have hvalues := hroom.values
    simp only [tailCopyRegion, hstart] at hlast
    simp only [fits_cons, fits_nil, and_true, hwidth]
    omega

end Body

end TinyInfer.MiniPrefix
