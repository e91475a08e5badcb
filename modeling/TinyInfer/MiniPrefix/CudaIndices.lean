import TinyInfer.MiniPrefix.CudaRunner
import TinyInfer.MiniPrefix.RunnerRoom

/-!
# The indices of the CUDA kernels of an append

Every launch has its lemma: it fits the buffers of an append, for every configuration that
`validate` accepts. Only for `swiglu` this depends on the number of tokens (`swiglu_fits_iff`).
-/

namespace TinyInfer.MiniPrefix.Cuda

open Lib Lib.Footprint KVManager

variable {E : Buffer → Nat}

/-! ## Threads and lanes -/

/-- The threads of a launch: their indices are values of `int`. -/
theorem fits_launch {count : Nat} {kernel : Nat → Trace} (hsmall : count + 255 ≤ Machine.int32Max)
    (hthreads : ∀ i, Fits E (kernel i)) : Fits E (launch count kernel) := by
  simp only [launch, Machine.int_of_le hsmall, Option.bind_eq_bind, Option.bind_some]
  refine fits_forEach.2 fun block hb => fits_forEach.2 fun thread ht => ?_
  have hindex : block * 256 + thread ≤ Machine.int32Max := by omega
  rw [Machine.int_of_le hindex]
  exact hthreads _

theorem fits_launch_iff {count : Nat} {kernel : Nat → Trace} (hthreads : ∀ i, Fits E (kernel i)) :
    Fits E (launch count kernel) ↔ count + 255 ≤ Machine.int32Max := by
  refine ⟨fun hfits => ?_, fun hsmall => fits_launch hsmall hthreads⟩
  by_contra hlarge
  rw [launch, Machine.int, if_neg hlarge] at hfits
  exact not_fits_none hfits

theorem fits_strided {lane width : Nat} {body : Nat → Trace} (hl : lane < 256) (hw : width ≤ 8192)
    (hrounds : ∀ d < width, Fits E (body d)) : Fits E (strided lane width body) := by
  refine fits_forEach.2 fun j hj => ?_
  have hvalue : lane + j * 256 ≤ Machine.int32Max := by
    unfold Machine.int32Max
    omega
  simp only [Machine.int_of_le hvalue, Option.bind_eq_bind, Option.bind_some]
  split
  · exact hrounds _ ‹_›
  · exact fits_nil

theorem fits_reduce {lane : Nat} (hshared : 256 ≤ E .shared) : Fits E (reduce lane) := by
  refine fits_each.2 fun step hmem => ?_
  split
  · have : step ≤ 128 := by
      simp only [List.mem_cons, List.not_mem_nil, or_false] at hmem
      omega
    simp only [fits_one_cons, fits_nil, and_true]
    omega
  · exact fits_nil

/-! ## Kernels -/

/-- A thread of the normalization kernel stays inside its buffers. -/
theorem rmsKernel_fits {first rows width row lane : Nat} {weight : Buffer} (hr : row < rows)
    (hl : lane < 256) (hw : width ≤ 8192) (hsmall : rows * width ≤ 2 ^ 30)
    (hshared : 256 ≤ E .shared) (hx : first + rows * width ≤ E .x) (hnorm : rows * width ≤ E .norm)
    (hweights : width ≤ E weight) : Fits E (rmsKernel first weight width row lane) := by
  have helement {d : Nat} (hd : d < width) : row * width ≤ Machine.int32Max ∧
      row * width + d ≤ Machine.int32Max ∧ row * width + d < rows * width := by
    have := rowElement_lt hr hd
    unfold Machine.int32Max
    omega
  have hlanes : lane < E .shared := by omega
  simp only [rmsKernel, fits_inOrder, List.forall_mem_cons, List.not_mem_nil, false_implies,
    implies_true, and_true, fits_one_cons, fits_nil]
  refine ⟨fits_strided hl hw fun d hd => ?_, hlanes, fits_reduce hshared, by omega,
    fits_strided hl hw fun d hd => ?_⟩
  · obtain ⟨hproduct, hsum, hinside⟩ := helement hd
    simp only [Machine.int_of_le hproduct, Machine.int_of_le hsum, Option.bind_eq_bind,
      Option.bind_some, fits_one_cons, fits_nil, and_true]
    omega
  · obtain ⟨hproduct, hsum, hinside⟩ := helement hd
    simp only [Machine.int_of_le hproduct, Machine.int_of_le hsum, Option.bind_eq_bind,
      Option.bind_some, fits_one_cons, fits_nil, and_true]
    omega

/-- A thread of the embedding kernel stays inside its buffers. -/
theorem embeddingKernel_fits {tokens : List TokenId} {width vocabulary i : Nat} (hw : 0 < width)
    (hsmall : tokens.length * width ≤ 2 ^ 30) (htable : vocabulary * width ≤ 2 ^ 31)
    (hvocabulary_le : vocabulary ≤ 262144)
    (hvalid : ∀ token ∈ tokens, 0 ≤ token ∧ token < vocabulary) (hx : tokens.length * width ≤ E .x)
    (huploaded : tokens.length ≤ E .tokens) (hembeddings : vocabulary * width ≤ E .embedTokens) :
    Fits E (embeddingKernel tokens tokens.length width i) := by
  have htotal : tokens.length * width ≤ Machine.int32Max := by
    unfold Machine.int32Max
    omega
  simp only [embeddingKernel, Machine.int_of_le htotal, Option.bind_eq_bind, Option.bind_some]
  split
  · rename_i hinside
    have hrow : i / width < tokens.length := Nat.div_lt_of_lt_mul (by rwa [Nat.mul_comm])
    obtain ⟨token, hfound⟩ : ∃ token, tokens[i / width]? = some token :=
      ⟨_, List.getElem?_eq_getElem hrow⟩
    obtain ⟨hnonneg, hbelow⟩ := hvalid token (List.mem_of_getElem? hfound)
    obtain ⟨hindex, hfits⟩ := token_lt hvocabulary_le hnonneg hbelow
    have helement := rowElement_lt hindex (Nat.mod_lt i hw)
    have hlimit : 2 ^ 31 ≤ sizeMax := by decide
    have hfirst : token.toNat * width ≤ sizeMax := by omega
    have hsum : token.toNat * width + i % width ≤ sizeMax := by omega
    simp only [Machine.div_of_pos hw, Machine.mod_of_pos hw, hfound,
      Machine.cast_of_le hnonneg hfits, Machine.size_of_le hfirst, Machine.size_of_le hsum,
      Option.bind_some, fits_one_cons, fits_nil, and_true]
    omega
  · exact fits_nil

/-- A thread of the rotation kernel stays inside its buffers. -/
theorem ropeKernel_fits {buffer : Buffer} {count heads dim start i : Nat} (hh : 0 < heads)
    (hhalf : 0 < dim / 2) (heven : 2 * (dim / 2) = dim)
    (hsmall : count * heads * dim ≤ 2 ^ 30) (hpositions : start + count ≤ Machine.int32Max)
    (hinside : count * heads * dim ≤ E buffer) :
    Fits E (ropeKernel buffer count heads dim start i) := by
  have hwhole : 2 * (count * heads * (dim / 2)) = count * heads * dim := by
    rw [Nat.mul_left_comm, heven]
  have hrows : count * heads ≤ Machine.int32Max := by
    have : count * heads ≤ count * heads * (dim / 2) := Nat.le_mul_of_pos_right _ hhalf
    unfold Machine.int32Max
    omega
  have htotal : count * heads * (dim / 2) ≤ Machine.int32Max := by
    unfold Machine.int32Max
    omega
  simp only [ropeKernel, Machine.int_of_le hrows, Machine.int_of_le htotal, Option.bind_eq_bind,
    Option.bind_some]
  split
  · exact fits_nil
  · rename_i hbeyond
    have headrow : i / (dim / 2) < count * heads :=
      Nat.div_lt_of_lt_mul (by rw [Nat.mul_comm]; omega)
    have hrow : i / (dim / 2) / heads < count := Nat.div_lt_of_lt_mul (by rwa [Nat.mul_comm])
    have hd := Nat.mod_lt i hhalf
    have hsecond := rowElement_lt headrow (show i % (dim / 2) + dim / 2 < dim by omega)
    have hposition : start + i / (dim / 2) / heads ≤ Machine.int32Max := by omega
    have hbounds : 2 * (i % (dim / 2)) ≤ Machine.int32Max ∧
        i / (dim / 2) * dim ≤ Machine.int32Max ∧
        i / (dim / 2) * dim + i % (dim / 2) ≤ Machine.int32Max ∧
        i / (dim / 2) * dim + i % (dim / 2) + dim / 2 ≤ Machine.int32Max := by
      unfold Machine.int32Max
      omega
    obtain ⟨htwice, hproduct, ha, hb⟩ := hbounds
    simp only [Machine.div_of_pos hhalf, Machine.mod_of_pos hhalf, Machine.div_of_pos hh,
      Machine.int_of_le hposition, Machine.int_of_le htwice, Machine.int_of_le hproduct,
      Machine.int_of_le ha, Machine.int_of_le hb, Option.bind_some, fits_one_cons,
      fits_nil, and_true]
    omega

/-! ## Pages -/

section Pages

variable {F : Type} {c : Llama.ModelConfig F} {pool : KvBlockPool} {kv : KVManager}
  {a : KVManager.Append} {sequence : PagedSequence} {table : List Nat} {l : Nat}

/-- The row of a token in the arrays, found through the table on the device. -/
theorem slotRow_some (h : AppendOpen c pool kv a sequence) (hagrees : Agrees table sequence.blocks)
    (hl : l < c.layers) {t : Nat} (ht : t < sequence.used + a.tokens.length) :
    ∃ block < pool.config.maxBlocks, t / pool.config.blockTokens < table.length ∧
      slotRow table l c.layers pool.config.blockTokens t =
        some ((block * c.layers + l) * pool.config.blockTokens + t % pool.config.blockTokens) := by
  have htokens := pool.valid.blockTokens_pos
  have hpage : t / pool.config.blockTokens < sequence.blocks.length := by
    rw [h.pages]
    exact div_lt_pagesFor htokens ht
  have hhost := List.getElem?_eq_getElem hpage
  have hdevice := hagrees _ _ hhost
  have hblock := h.bounded _ (List.getElem_mem hpage)
  obtain ⟨hpages, hfirst, hslots, hrow, -⟩ := h.sized.steps hblock hl (Nat.mod_lt t htokens)
  refine ⟨_, hblock, (List.getElem?_eq_some_iff.1 hdevice).1, ?_⟩
  simp only [slotRow, Machine.div_of_pos htokens, Machine.mod_of_pos htokens, hdevice,
    Machine.size_of_le hpages, Machine.size_of_le hfirst, Machine.size_of_le hslots,
    Option.bind_eq_bind, Option.bind_some]
  exact Machine.size_of_le hrow

/-- A thread of the store kernel writes inside the new positions' pages. -/
theorem appendKernel_fits (h : AppendOpen c pool kv a sequence) (haccepted : c.Accepted)
    (hagrees : Agrees table sequence.blocks) (hl : l < c.layers)
    (hsmall : a.tokens.length * c.width ≤ 2 ^ 30)
    (hroom : Room c a.tokens.length pool.arrayElements E)
    (hentries : table.length ≤ E .table) (i : Nat) :
    Fits E (appendKernel table a.tokens.length c.width sequence.used l c.layers
      pool.config.blockTokens i) := by
  have htotal : a.tokens.length * c.width ≤ Machine.int32Max := by
    unfold Machine.int32Max
    omega
  simp only [appendKernel, Machine.int_of_le htotal, Option.bind_eq_bind, Option.bind_some]
  split
  · rename_i hinside
    have hrow : i / c.width < a.tokens.length := Nat.div_lt_of_lt_mul (by rwa [Nat.mul_comm])
    have hcolumn := Nat.mod_lt i haccepted.width_pos
    have hcontext := haccepted.context
    have hfits := h.fits
    have htoken : sequence.used + i / c.width ≤ Machine.int32Max := by
      unfold Machine.int32Max
      omega
    obtain ⟨block, hb, hentry, hfound⟩ :=
      slotRow_some h hagrees hl (t := sequence.used + i / c.width) (by omega)
    have hslot := Nat.mod_lt (sequence.used + i / c.width) pool.valid.blockTokens_pos
    obtain ⟨-, -, -, -, hfirst⟩ := h.sized.steps hb hl hslot
    have hlast := h.sized.inside hb hl hslot
    have hlimit : sizeLimit ≤ sizeMax := by decide
    have harrays := h.sized.arrayElements_le
    have hkeys := hroom.keys
    have hvalues := hroom.values
    have hk := hroom.k
    have hv := hroom.v
    unfold slotOffset at hfirst hlast
    simp only [Machine.div_of_pos haccepted.width_pos, Machine.mod_of_pos haccepted.width_pos,
      Machine.int_of_le htoken, hfound, Machine.size_of_le hfirst, Option.bind_some]
    rw [Machine.size_of_le (by omega)]
    simp only [Option.bind_some, fits_one_cons, fits_nil, and_true]
    omega
  · exact fits_nil

/-- A thread of the attention kernel reads inside the sequence's pages. -/
theorem attentionKernel_fits (h : AppendOpen c pool kv a sequence) (haccepted : c.Accepted)
    (hagrees : Agrees table sequence.blocks) (hl : l < c.layers)
    (hsmall : a.tokens.length * c.hidden ≤ 2 ^ 30)
    (hroom : Room c a.tokens.length pool.arrayElements E) (hentries : table.length ≤ E .table)
    (hshared : 256 ≤ E .shared) {row head lane : Nat} (hr : row < a.tokens.length)
    (hh : head < c.heads) (hlane : lane < 256) :
    Fits E (attentionKernel table c.heads c.kvHeads c.dim sequence.used l c.layers
      pool.config.blockTokens row head lane) := by
  have hcontext := haccepted.context
  have hfits := h.fits
  -- the queries and the output of the row and the head
  have hposition : sequence.used + row ≤ Machine.int32Max ∧
      sequence.used + row + 1 ≤ Machine.int32Max := by
    unfold Machine.int32Max
    omega
  have hwhole : a.tokens.length * c.heads * c.dim = a.tokens.length * c.hidden := by
    rw [Nat.mul_assoc, haccepted.heads_mul_dim]
  have hown {buffer : Buffer} (hinside : a.tokens.length * c.hidden ≤ E buffer) :
      Fits E (if lane < c.dim then do
        some [.one buffer (← headElement c.heads c.dim row head lane)] else some []) := by
    split
    · rename_i hd
      obtain ⟨hcomputed, helement⟩ := headElement_some hr hh hd (by rwa [hwhole])
      simp only [hcomputed, Option.bind_eq_bind, Option.bind_some, fits_one_cons,
        fits_nil, and_true]
      omega
    · exact fits_nil
  simp only [attentionKernel, Machine.div_of_pos haccepted.kvHeads_pos,
    Machine.div_of_pos haccepted.group_pos, Machine.int_of_le hposition.1,
    Machine.int_of_le hposition.2, Option.bind_eq_bind, Option.bind_some, fits_inOrder,
    List.forall_mem_cons, List.not_mem_nil, false_implies, implies_true, and_true]
  refine ⟨hown hroom.q, fits_forEach.2 fun t ht => ?_, hown hroom.attention⟩
  -- the keys and values of each earlier position
  obtain ⟨block, hb, hentry, hfound⟩ := slotRow_some h hagrees hl (t := t) (by omega)
  have hslot := Nat.mod_lt t pool.valid.blockTokens_pos
  have hlast := h.sized.inside hb hl hslot
  -- no product of the page layout wraps
  have hlimit : sizeLimit ≤ sizeMax := by decide
  have harrays := h.sized.arrayElements_le
  have hshares := haccepted.kvHead_lt hh
  generalize head / (c.heads / c.kvHeads) = kh at hshares
  unfold slotOffset at hlast
  generalize (block * c.layers + l) * pool.config.blockTokens + t % pool.config.blockTokens = x
    at hfound hlast
  -- the group of the head inside of the row
  have hgroup := rowElement_lt (Nat.lt_add_one x) hshares
  have hpage : (x + 1) * c.kvHeads * c.dim = x * c.width + c.width := by
    rw [Nat.mul_assoc, Nat.succ_mul]
  have hfirst := rowElement_lt hgroup haccepted.dim_pos
  have hkvHead_le : x * c.kvHeads + kh ≤ (x * c.kvHeads + kh) * c.dim :=
    Nat.le_mul_of_pos_right _ haccepted.dim_pos
  -- the row of one position in the cached arrays
  have hcached {buffer : Buffer} (hinside : pool.arrayElements ≤ E buffer) :
      Fits E (if lane < c.dim then do
        some [.one buffer (← Machine.size ((x * c.kvHeads + kh) * c.dim + lane))] else
          some []) := by
    split
    · rename_i hd
      have helement := rowElement_lt hgroup hd
      rw [Machine.size_of_le (by omega)]
      simp only [Option.bind_eq_bind, Option.bind_some, fits_one_cons, fits_nil, and_true]
      omega
    · exact fits_nil
  rw [hfound]
  simp only [Option.bind_some]
  rw [Machine.size_of_le (show x * c.kvHeads ≤ sizeMax by omega)]
  simp only [Option.bind_some]
  rw [Machine.size_of_le (show x * c.kvHeads + kh ≤ sizeMax by omega)]
  simp only [Option.bind_some]
  rw [Machine.size_of_le (by omega)]
  simp only [Option.bind_some, fits_inOrder, List.forall_mem_cons, List.not_mem_nil, false_implies,
    implies_true, and_true, fits_one_cons, fits_nil]
  refine ⟨by omega, hcached hroom.keys, by omega, fits_reduce hshared, by omega,
    hcached hroom.values⟩

end Pages

/-! ## Launches -/

section Launches

variable {F : Type} {c : Llama.ModelConfig F} {pool : KvBlockPool} {kv : KVManager}
  {a : KVManager.Append} {sequence : PagedSequence} {table : List Nat} {l : Nat}

theorem rms_fits (haccepted : c.Accepted) {first rows : Nat} {weight : Buffer}
    (hrows : rows ≤ 131072) (hshared : 256 ≤ E .shared) (hx : first + rows * c.hidden ≤ E .x)
    (hnorm : rows * c.hidden ≤ E .norm) (hweights : c.hidden ≤ E weight) :
    Fits E (rms c first weight rows) :=
  fits_forEach.2 fun _ hr => fits_forEach.2 fun _ hl =>
    rmsKernel_fits hr hl haccepted.hidden.2
      (Nat.le_trans (Nat.mul_le_mul hrows haccepted.hidden.2) (by decide)) hshared hx hnorm hweights

theorem linear_fits {input out : Buffer} {m : LlamaMatrix} {rows : Nat}
    (hreads : rows * (c.matrixShape m).1 ≤ E input)
    (hweights : (c.matrixShape m).1 * (c.matrixShape m).2 ≤ E (.matrix m))
    (hwrites : rows * (c.matrixShape m).2 ≤ E out) :
    Fits E (linear input m out rows (c.matrixShape m).1 (c.matrixShape m).2) := by
  simp only [linear, fits_cons, fits_nil, and_true, Nat.zero_add]
  exact ⟨hreads, hweights, hwrites⟩

/-- The embedding launch fits. -/
theorem embedding_fits (h : AppendOpen c pool kv a sequence) (haccepted : c.Accepted)
    (hroom : Room c a.tokens.length pool.arrayElements E) :
    Fits E (embedding c a.tokens a.tokens.length) := by
  obtain ⟨-, hsmall, -⟩ := h.products haccepted
  have hproduct : a.tokens.length * c.hidden ≤ Machine.int32Max ∧
      a.tokens.length * c.hidden + 255 ≤ Machine.int32Max := by
    unfold Machine.int32Max
    omega
  have hidden := haccepted.hidden
  simp only [embedding, Machine.int_of_le hproduct.1, Option.bind_eq_bind, Option.bind_some]
  exact fits_launch hproduct.2 fun i => embeddingKernel_fits (by omega) hsmall
    (Nat.le_trans (Nat.mul_le_mul haccepted.vocabulary.2 hidden.2) (by decide))
      haccepted.vocabulary.2 h.valid hroom.x hroom.tokens
    hroom.embedTokens

/-- The residual addition's launch fits. -/
theorem add_fits (h : AppendOpen c pool kv a sequence) (haccepted : c.Accepted)
    (hroom : Room c a.tokens.length pool.arrayElements E) : Fits E (add c a.tokens.length) := by
  obtain ⟨-, hsmall, -⟩ := h.products haccepted
  have hproduct : a.tokens.length * c.hidden ≤ Machine.int32Max ∧
      a.tokens.length * c.hidden + 255 ≤ Machine.int32Max := by
    unfold Machine.int32Max
    omega
  have hx := hroom.x
  have hprojection := hroom.projection
  simp only [add, Machine.int_of_le hproduct.1, Option.bind_eq_bind, Option.bind_some]
  refine fits_launch hproduct.2 fun i => ?_
  unfold addKernel
  split
  · simp only [fits_one_cons, fits_nil, and_true]
    omega
  · exact fits_nil

/-- The activation is launched on as many threads as the gate has elements. -/
theorem swiglu_fits_iff {n : Nat} (hgate : n * c.intermediate ≤ E .gate)
    (hup : n * c.intermediate ≤ E .up) :
    Fits E (swiglu c n) ↔ n * c.intermediate + 255 ≤ Machine.int32Max := by
  by_cases hproduct : n * c.intermediate ≤ Machine.int32Max
  · simp only [swiglu, Machine.int_of_le hproduct, Option.bind_eq_bind, Option.bind_some]
    refine fits_launch_iff fun i => ?_
    unfold swigluKernel
    split
    · simp only [fits_one_cons, fits_nil, and_true]
      omega
    · exact fits_nil
  · refine ⟨fun hfits => ?_, fun hsmall =>
      absurd (Nat.le_trans (Nat.le_add_right _ _) hsmall) hproduct⟩
    rw [swiglu, Machine.int, if_neg hproduct] at hfits
    exact absurd hfits not_fits_none

/-- The rotation launch fits. -/
theorem rope_fits (h : AppendOpen c pool kv a sequence) (haccepted : c.Accepted)
    (hroom : Room c a.tokens.length pool.arrayElements E) :
    Fits E (rope c a.tokens.length sequence.used) := by
  obtain ⟨-, hsmall, hnarrow⟩ := h.products haccepted
  have hfits := h.fits
  have hcontext := haccepted.context
  have hhalf := haccepted.two_mul_half
  have hdim := haccepted.dim_pos
  have hwhole : a.tokens.length * c.heads * c.dim = a.tokens.length * c.hidden := by
    rw [Nat.mul_assoc, haccepted.heads_mul_dim]
  have hkvWhole : a.tokens.length * c.kvHeads * c.dim = a.tokens.length * c.width :=
    Nat.mul_assoc ..
  have hheads : a.tokens.length * c.heads ≤ a.tokens.length * c.heads * c.dim :=
    Nat.le_mul_of_pos_right _ hdim
  have hbounds : a.tokens.length * c.heads ≤ Machine.int32Max ∧
      a.tokens.length * c.heads * c.dim ≤ Machine.int32Max ∧
      a.tokens.length * c.width ≤ Machine.int32Max ∧
      a.tokens.length * c.heads * c.dim / 2 + 255 ≤ Machine.int32Max ∧
      a.tokens.length * c.width / 2 + 255 ≤ Machine.int32Max ∧
      sequence.used + a.tokens.length ≤ Machine.int32Max := by
    unfold Machine.int32Max
    omega
  obtain ⟨hrows, helements, hkvElements, hthreads, hkvThreads, hpositions⟩ := hbounds
  simp only [rope, haccepted.headDimension_eq, haccepted.kvWidth_eq, Machine.int_of_le hrows,
    Machine.int_of_le helements, Machine.int_of_le hkvElements, Option.bind_eq_bind,
    Option.bind_some, fits_inOrder, List.forall_mem_cons, List.not_mem_nil, false_implies,
    implies_true, and_true]
  have hq := hroom.q
  have hk := hroom.k
  refine ⟨fits_launch hthreads fun i => ?_, fits_launch hkvThreads fun i => ?_⟩
  · exact ropeKernel_fits haccepted.heads_pos (by omega) hhalf (by omega) hpositions (by omega)
  · exact ropeKernel_fits haccepted.kvHeads_pos (by omega) hhalf (by omega) hpositions (by omega)

/-- The store launch fits. -/
theorem store_fits (h : AppendOpen c pool kv a sequence) (haccepted : c.Accepted)
    (hagrees : Agrees table sequence.blocks) (hl : l < c.layers)
    (hroom : DeviceRoom c a.tokens.length pool.arrayElements table.length E) :
    Fits E (store c table pool.config.blockTokens a.tokens.length sequence.used l) := by
  obtain ⟨-, hsmall, hnarrow⟩ := h.products haccepted
  have hproduct : a.tokens.length * c.width ≤ Machine.int32Max ∧
      a.tokens.length * c.width + 255 ≤ Machine.int32Max := by
    unfold Machine.int32Max
    omega
  simp only [store, haccepted.kvWidth_eq, Machine.int_of_le hproduct.1, Option.bind_eq_bind,
    Option.bind_some]
  exact fits_launch hproduct.2 fun i => appendKernel_fits h haccepted hagrees hl
    (Nat.le_trans hnarrow hsmall) hroom.toRoom hroom.table i

/-- The attention launch fits. -/
theorem attention_fits (h : AppendOpen c pool kv a sequence) (haccepted : c.Accepted)
    (hagrees : Agrees table sequence.blocks) (hl : l < c.layers)
    (hroom : DeviceRoom c a.tokens.length pool.arrayElements table.length E) :
    Fits E (attention c table pool.config.blockTokens a.tokens.length sequence.used l) := by
  simp only [attention, haccepted.headDimension_eq, Option.bind_eq_bind, Option.bind_some]
  exact fits_forEach.2 fun row hr => fits_forEach.2 fun head hh => fits_forEach.2 fun lane hlane =>
    attentionKernel_fits h haccepted hagrees hl (h.products haccepted).2.1 hroom.toRoom hroom.table
      hroom.shared hr hh hlane

theorem kvLinear_fits (haccepted : c.Accepted) {n arrays : Nat} (hroom : Room c n arrays E) :
    Fits E (kvLinear c n l) := by
  simp only [kvLinear, haccepted.kvWidth_eq, Option.bind_eq_bind, Option.bind_some, fits_inOrder,
    List.forall_mem_cons, List.not_mem_nil, false_implies, implies_true, and_true]
  constructor
  · exact linear_fits (m := .kProj l) hroom.norm (hroom.matrix _) hroom.k
  · exact linear_fits (m := .vProj l) hroom.norm (hroom.matrix _) hroom.v

/-- A layer fits exactly if the activation of its feed-forward network does. -/
theorem layer_fits_iff (h : AppendOpen c pool kv a sequence) (haccepted : c.Accepted)
    (hagrees : Agrees table sequence.blocks) (hl : l < c.layers)
    (hroom : DeviceRoom c a.tokens.length pool.arrayElements table.length E) :
    Fits E (layer c table pool.config.blockTokens a.tokens.length sequence.used l) ↔
      a.tokens.length * c.intermediate + 255 ≤ Machine.int32Max := by
  obtain ⟨hn, -, -⟩ := h.products haccepted
  have hnorm {weight : Buffer} (hweights : c.hidden ≤ E weight) :
      Fits E (rms c 0 weight a.tokens.length) :=
    rms_fits haccepted hn hroom.shared (by rw [Nat.zero_add]; exact hroom.x) hroom.norm hweights
  rw [← swiglu_fits_iff hroom.gate hroom.up]
  simp only [layer, fits_inOrder, List.forall_mem_cons, List.not_mem_nil, false_implies,
    implies_true, and_true]
  constructor
  · rintro ⟨-, -, -, -, -, -, -, -, -, -, -, hfits, -⟩
    exact hfits
  · intro hfits
    refine ⟨hnorm (hroom.inputLayernorm l), ?_, kvLinear_fits haccepted hroom.toRoom,
      rope_fits h haccepted hroom.toRoom, store_fits h haccepted hagrees hl hroom,
      attention_fits h haccepted hagrees hl hroom, ?_, add_fits h haccepted hroom.toRoom,
      hnorm (hroom.postAttentionLayernorm l), ?_, ?_, hfits, ?_, add_fits h haccepted hroom.toRoom⟩
    · exact linear_fits (m := .qProj l) hroom.norm (hroom.matrix _) hroom.q
    · exact linear_fits (m := .oProj l) hroom.attention (hroom.matrix _) hroom.projection
    · exact linear_fits (m := .gateProj l) hroom.norm (hroom.matrix _) hroom.gate
    · exact linear_fits (m := .upProj l) hroom.norm (hroom.matrix _) hroom.up
    · exact linear_fits (m := .downProj l) hroom.gate (hroom.matrix _) hroom.projection

/-- The head of the forward pass fits, the logits included. -/
theorem head_fits (h : AppendOpen c pool kv a sequence) (haccepted : c.Accepted) {entries : Nat}
    (hroom : DeviceRoom c a.tokens.length pool.arrayElements entries E) :
    Fits E (head c a.tokens.length) := by
  obtain ⟨-, hsmall, -⟩ := h.products haccepted
  have hn := h.tokens_pos
  have hlast : (a.tokens.length - 1) * c.hidden + 1 * c.hidden = a.tokens.length * c.hidden := by
    rw [← Nat.add_mul, Nat.sub_add_cancel hn]
  have hlimit : 2 ^ 30 ≤ sizeMax := by decide
  have hx := hroom.x
  have hnorm := hroom.norm
  have hlogits := hroom.logits
  unfold head
  rw [Machine.size_of_le (by omega)]
  simp only [Option.bind_eq_bind, Option.bind_some, fits_inOrder, List.forall_mem_cons,
    List.not_mem_nil, false_implies, implies_true, and_true, fits_cons, fits_nil]
  refine ⟨rms_fits haccepted (by decide) hroom.shared (by omega) (by omega)
    hroom.finalNorm, ?_, by omega⟩
  exact linear_fits (m := .lmHead) (by show 1 * c.hidden ≤ _; omega) (hroom.matrix _)
    (by show 1 * c.vocabulary ≤ _; omega)

end Launches

theorem uploadTrace_fits {blocks : List Nat} {first : Nat} (hstart : first ≤ blocks.length)
    (hroom : blocks.length ≤ E .table) : Fits E (uploadTrace blocks first) := by
  unfold uploadTrace
  split
  · rw [fits_cons]
    exact ⟨by omega, fits_nil⟩
  · exact fits_nil

/-- An append fits exactly if the activation of the feed-forward network does. -/
theorem append_fits_iff {F : Type} {c : Llama.ModelConfig F} {pool : KvBlockPool} {kv : KVManager}
    {a : KVManager.Append} {sequence : PagedSequence} {table : List Nat}
    (h : AppendOpen c pool kv a sequence) (haccepted : c.Accepted)
    (hagrees : Agrees table sequence.blocks) (hentries : sequence.blocks.length ≤ table.length)
    (hroom : DeviceRoom c a.tokens.length pool.arrayElements table.length E) (dirty : Bool) :
    Fits E (append c kv a dirty table) ↔
      a.tokens.length * c.intermediate + 255 ≤ Machine.int32Max := by
  obtain ⟨hn, -, -⟩ := h.products haccepted
  have htokens : a.tokens.length ≤ Machine.int32Max := Nat.le_trans hn (by decide)
  have hupload : Fits E (uploadTrace sequence.blocks (if dirty then 0
      else if a.copy.isSome then a.originalBlocks - 1 else a.originalBlocks)) := by
    have horiginal := h.original
    refine uploadTrace_fits ?_ (Nat.le_trans hentries hroom.table)
    split_ifs <;> omega
  have huploaded := hroom.tokens
  simp only [append, h.found, h.config, Machine.int_of_le htokens, Option.bind_eq_bind,
    Option.bind_some, fits_inOrder, List.forall_mem_cons, List.not_mem_nil, false_implies,
    implies_true, and_true, fits_cons, fits_nil, Nat.zero_add]
  constructor
  · rintro ⟨-, -, -, -, hlayers, -⟩
    have hfirst := fits_forEach.1 hlayers 0 haccepted.layers.1
    exact (layer_fits_iff h haccepted hagrees haccepted.layers.1 hroom).1 hfirst
  · intro hsmall
    refine ⟨h.tail_fits hroom.toRoom, hupload, huploaded, embedding_fits h haccepted hroom.toRoom,
      fits_forEach.2 fun l hl => ?_, head_fits h haccepted hroom⟩
    exact (layer_fits_iff h haccepted hagrees hl hroom).2 hsmall

end TinyInfer.MiniPrefix.Cuda
