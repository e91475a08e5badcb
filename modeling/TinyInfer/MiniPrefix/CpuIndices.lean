import TinyInfer.MiniPrefix.RunnerRoom

/-!
# The indices of an append on the CPU

Every loop of `CpuRunner::append` fits its tensors and vectors (`append_fits`), for every
configuration that `validate` accepts and any number of new tokens.
-/

namespace TinyInfer.MiniPrefix.Cpu

open Lib Lib.Footprint KVManager

variable {E : Buffer → Nat}

/-- The host also has a normalized last row, and vectors for the offsets and the scores. -/
structure HostRoom {F : Type} (c : Llama.ModelConfig F) (n used arrays : Nat) (E : Buffer → Nat) :
    Prop extends Room c n arrays E where
  last : c.hidden ≤ E .last
  offsets : used + n ≤ E .offsets
  scores : ∀ length, length ≤ E (.scores length)

theorem rms_fits {first rows width : Nat} {weight out : Buffer} (hsmall : rows * width ≤ 2 ^ 30)
    (hx : first + rows * width ≤ E .x) (hweights : width ≤ E weight)
    (hwrites : rows * width ≤ E out) :
    Fits E (rms first weight out width rows) := by
  refine fits_forEach.2 fun r hr => fits_forEach.2 fun d hd => ?_
  have helement := rowElement_lt hr hd
  have hlimit : 2 ^ 30 ≤ int64Max := by decide
  have hproduct : r * width ≤ int64Max := by omega
  have hsum : r * width + d ≤ int64Max := by omega
  simp only [Machine.int64_of_le hproduct, Machine.int64_of_le hsum, Option.bind_eq_bind,
    Option.bind_some, fits_one_cons, fits_nil, and_true]
  omega

/-- The rotation loops stay inside their buffers. -/
theorem rope_fits {buffer : Buffer} {rows heads dim start : Nat}
    (heven : 2 * (dim / 2) = dim) (hsmall : rows * heads * dim ≤ 2 ^ 30)
    (hpositions : start + rows ≤ Machine.int32Max) (hinside : rows * heads * dim ≤ E buffer) :
    Fits E (rope buffer rows heads dim start) := by
  refine fits_forEach.2 fun row hr => fits_forEach.2 fun h hh => fits_forEach.2 fun d hd => ?_
  obtain ⟨hcomputed, hfirst⟩ := headElement_some hr hh (show d < dim by omega) hsmall
  obtain ⟨-, hsecond⟩ := headElement_some hr hh (show d + dim / 2 < dim by omega) hsmall
  have hbounds : start + row ≤ Machine.int32Max ∧ 2 * d ≤ Machine.int32Max ∧
      (row * heads + h) * dim + d + dim / 2 ≤ Machine.int32Max := by
    unfold Machine.int32Max at *
    omega
  obtain ⟨hposition, htwice, hlast⟩ := hbounds
  simp only [hcomputed, Machine.int_of_le hposition, Machine.int_of_le htwice,
    Machine.int_of_le hlast, Option.bind_eq_bind, Option.bind_some, fits_one_cons,
    fits_nil, and_true]
  omega

section Append

variable {F : Type} {c : Llama.ModelConfig F} {pool : KvBlockPool} {kv : KVManager}
  {a : KVManager.Append} {sequence : PagedSequence} {l : Nat}

/-- The offset of a token in the arrays. -/
theorem offset_some (h : AppendOpen c pool kv a sequence) (hl : l < c.layers) {t : Nat}
    (ht : t < sequence.used + a.tokens.length) :
    ∃ first, offset kv sequence.blocks l t = some first ∧ first + c.width ≤ pool.arrayElements := by
  have htokens := pool.valid.blockTokens_pos
  have hpage : t / pool.config.blockTokens < sequence.blocks.length := by
    rw [h.pages]
    exact div_lt_pagesFor htokens ht
  have hblock := h.bounded _ (List.getElem_mem hpage)
  have hslot := Nat.mod_lt t htokens
  refine ⟨_, ?_, h.sized.inside hblock hl hslot⟩
  have hconfig : kv.pool.config = pool.config := h.config
  have hcomputed := h.sized.offset hblock hl hslot
  unfold KvBlockPool.sizeOffset at hcomputed
  simp only [offset, KVManager.config, hconfig, Machine.div_of_pos htokens,
    Machine.mod_of_pos htokens, List.getElem?_eq_getElem hpage, h.layers, h.width,
    KvBlockPool.sizeOffset, Option.bind_eq_bind, Option.bind_some]
  exact hcomputed

/-- The embedding copies stay inside the table and the state buffer. -/
theorem embedding_fits (h : AppendOpen c pool kv a sequence) (haccepted : c.Accepted)
    (hroom : Room c a.tokens.length pool.arrayElements E) :
    Fits E (embedding c a.tokens a.tokens.length) := by
  obtain ⟨-, hsmall, -⟩ := h.products haccepted
  refine fits_forEach.2 fun row hr => ?_
  obtain ⟨token, hfound⟩ : ∃ token, a.tokens[row]? = some token := ⟨_, List.getElem?_eq_getElem hr⟩
  obtain ⟨hnonneg, hbelow⟩ := h.valid token (List.mem_of_getElem? hfound)
  obtain ⟨hindex, hfits⟩ := token_lt haccepted.vocabulary.2 hnonneg hbelow
  have hidden := haccepted.hidden
  have hsource := rowElement_lt hindex (show c.hidden - 1 < c.hidden by omega)
  have hdestination := rowElement_lt hr (show c.hidden - 1 < c.hidden by omega)
  have htable : c.vocabulary * c.hidden ≤ sizeMax :=
    Nat.le_trans (Nat.mul_le_mul haccepted.vocabulary.2 hidden.2) (by decide)
  have hfirst : row * c.hidden ≤ Machine.int32Max := by
    unfold Machine.int32Max
    omega
  have hembeddings := hroom.embedTokens
  have hx := hroom.x
  simp only [hfound, Machine.cast_of_le hnonneg hfits, Option.bind_eq_bind, Option.bind_some]
  rw [Machine.size_of_le (by omega)]
  simp only [Machine.int_of_le hfirst, Option.bind_some, fits_cons, fits_nil, and_true]
  omega

theorem offsets_fits (h : AppendOpen c pool kv a sequence) (haccepted : c.Accepted)
    (hl : l < c.layers) (hroom : sequence.used + a.tokens.length ≤ E .offsets) :
    Fits E (offsets kv sequence.blocks a.tokens.length sequence.used l) := by
  have hcontext := haccepted.context
  have hfits := h.fits
  have htotal : sequence.used + a.tokens.length ≤ Machine.int32Max := by
    unfold Machine.int32Max
    omega
  simp only [offsets, Machine.int_of_le htotal, Option.bind_eq_bind, Option.bind_some]
  refine fits_forEach.2 fun t ht => ?_
  obtain ⟨first, hfound, -⟩ := offset_some h hl ht
  simp only [hfound, Option.bind_some, fits_one_cons, fits_nil, and_true]
  omega

/-- The stores of one layer stay inside the page's rows. -/
theorem store_fits (h : AppendOpen c pool kv a sequence) (haccepted : c.Accepted)
    (hl : l < c.layers) (hroom : HostRoom c a.tokens.length sequence.used pool.arrayElements E) :
    Fits E (store c kv sequence.blocks a.tokens.length sequence.used l) := by
  obtain ⟨-, hsmall, hnarrow⟩ := h.products haccepted
  have hcontext := haccepted.context
  have hfits := h.fits
  have hkeys := hroom.keys
  have hvalues := hroom.values
  have hk := hroom.k
  have hv := hroom.v
  have hoffsets := hroom.offsets
  have hwidth := haccepted.width_pos
  simp only [store, haccepted.kvWidth_eq, Option.bind_eq_bind, Option.bind_some]
  refine fits_forEach.2 fun row hr => ?_
  have hsource := rowElement_lt hr (show c.width - 1 < c.width by omega)
  have hbounds : sequence.used + row ≤ Machine.int32Max ∧ row * c.width ≤ Machine.int32Max := by
    unfold Machine.int32Max
    omega
  obtain ⟨first, hfound, hinside⟩ := offset_some h hl (t := sequence.used + row) (by omega)
  simp only [Machine.int_of_le hbounds.1, hfound, Machine.int_of_le hbounds.2, Option.bind_some,
    fits_one_cons, fits_cons, fits_nil, and_true]
  omega

/-- The attention of one head. -/
theorem attentionHead_fits (h : AppendOpen c pool kv a sequence) (haccepted : c.Accepted)
    (hl : l < c.layers) (hroom : HostRoom c a.tokens.length sequence.used pool.arrayElements E)
    {row head : Nat} (hr : row < a.tokens.length) (hh : head < c.heads) :
    Fits E (attentionHead c kv sequence.blocks sequence.used l c.dim row head) := by
  obtain ⟨-, hsmall, -⟩ := h.products haccepted
  have hcontext := haccepted.context
  have hfits := h.fits
  have hidden := haccepted.hidden
  have hwhole : a.tokens.length * c.heads * c.dim = a.tokens.length * c.hidden := by
    rw [Nat.mul_assoc, haccepted.heads_mul_dim]
  have hshares := haccepted.kvHead_lt hh
  have hwidth : c.kvHeads * c.dim ≤ c.hidden := haccepted.width_le
  have hposition : sequence.used + row ≤ Machine.int32Max ∧
      sequence.used + row + 1 ≤ Machine.int32Max := by
    unfold Machine.int32Max
    omega
  simp only [attentionHead, Machine.int_of_le hposition.1, Machine.int_of_le hposition.2,
    Machine.div_of_pos haccepted.kvHeads_pos, Machine.div_of_pos haccepted.group_pos,
    Option.bind_eq_bind, Option.bind_some]
  -- the group of key and value heads
  generalize head / (c.heads / c.kvHeads) = kh at hshares
  have hgroup {d : Nat} (hd : d < c.dim) : kh * c.dim + d < c.kvHeads * c.dim :=
    rowElement_lt hshares hd
  have hfirst := hgroup haccepted.dim_pos
  have hproduct : kh * c.dim ≤ Machine.int32Max := by
    unfold Machine.int32Max
    omega
  have hlimit : sizeLimit ≤ sizeMax := by decide
  have harrays := h.sized.arrayElements_le
  have hkeys := hroom.keys
  have hvalues := hroom.values
  have hoffsets := hroom.offsets
  have hscores := hroom.scores (sequence.used + row + 1)
  have hq := hroom.q
  have hattention := hroom.attention
  simp only [Machine.int_of_le hproduct, Option.bind_some, fits_inOrder, List.forall_mem_cons,
    List.not_mem_nil, false_implies, implies_true, and_true]
  refine ⟨fits_forEach.2 fun t ht => ?_, fits_forEach.2 fun d hd => ?_⟩
  -- the scores read the queries and the cached keys
  · obtain ⟨start, hfound, hinside⟩ := offset_some h hl (t := t) (by omega)
    have hinside : start + c.kvHeads * c.dim ≤ pool.arrayElements := hinside
    simp only [hfound, Option.bind_some]
    rw [Machine.size_of_le (by omega)]
    simp only [Option.bind_some, fits_inOrder, List.forall_mem_cons, List.not_mem_nil,
      false_implies, implies_true, and_true, fits_one_cons, fits_nil]
    refine ⟨⟨by omega, by omega⟩, fits_forEach.2 fun d hd => ?_⟩
    have helement := hgroup hd
    obtain ⟨hcomputed, hquery⟩ := headElement_some hr hh hd (by rwa [hwhole])
    simp only [hcomputed, Option.bind_some]
    rw [Machine.size_of_le (by omega)]
    simp only [Option.bind_some, fits_one_cons, fits_nil, and_true]
    omega
  -- the sums read the scores and the cached values
  · have helement := hgroup hd
    obtain ⟨hcomputed, hquery⟩ := headElement_some hr hh hd (by rwa [hwhole])
    simp only [hcomputed, Option.bind_some, fits_inOrder, List.forall_mem_cons, List.not_mem_nil,
      false_implies, implies_true, and_true, fits_one_cons, fits_nil]
    refine ⟨fits_forEach.2 fun t ht => ?_, by omega⟩
    obtain ⟨start, hfound, hinside⟩ := offset_some h hl (t := t) (by omega)
    have hinside : start + c.kvHeads * c.dim ≤ pool.arrayElements := hinside
    simp only [hfound, Option.bind_some]
    rw [Machine.size_of_le (by omega)]
    simp only [Option.bind_some]
    rw [Machine.size_of_le (by omega)]
    simp only [Option.bind_some, fits_one_cons, fits_nil, and_true]
    omega

/-- One layer stays inside its buffers. -/
theorem layer_fits (h : AppendOpen c pool kv a sequence) (haccepted : c.Accepted)
    (hl : l < c.layers) (hroom : HostRoom c a.tokens.length sequence.used pool.arrayElements E) :
    Fits E (layer c kv sequence.blocks a.tokens.length sequence.used l) := by
  obtain ⟨-, hsmall, hnarrow⟩ := h.products haccepted
  have hcontext := haccepted.context
  have hfits := h.fits
  have hhalf := haccepted.two_mul_half
  have hwhole : a.tokens.length * c.heads * c.dim = a.tokens.length * c.hidden := by
    rw [Nat.mul_assoc, haccepted.heads_mul_dim]
  have hkvWhole : a.tokens.length * c.kvHeads * c.dim = a.tokens.length * c.width :=
    Nat.mul_assoc ..
  have hpositions : sequence.used + a.tokens.length ≤ Machine.int32Max := by
    unfold Machine.int32Max
    omega
  have hnorm {weight : Buffer} (hweights : c.hidden ≤ E weight) :
      Fits E (rms 0 weight .norm c.hidden a.tokens.length) :=
    rms_fits hsmall (by rw [Nat.zero_add]; exact hroom.x) hweights hroom.norm
  have hq := hroom.q
  have hk := hroom.k
  have hgate := hroom.gate
  have hup := hroom.up
  simp only [layer, ropes, attention, swiglu, haccepted.headDimension_eq, Option.bind_eq_bind,
    Option.bind_some, fits_inOrder, List.forall_mem_cons, List.not_mem_nil, false_implies,
    implies_true, and_true]
  refine ⟨offsets_fits h haccepted hl hroom.offsets, hnorm (hroom.inputLayernorm l),
    ⟨?_, ?_⟩, store_fits h haccepted hl hroom, ?_, hnorm (hroom.postAttentionLayernorm l), ?_⟩
  · exact rope_fits hhalf (by omega) hpositions (by omega)
  · exact rope_fits hhalf (by omega) hpositions (by omega)
  · exact fits_forEach.2 fun row hr => fits_forEach.2 fun head hh =>
      attentionHead_fits h haccepted hl hroom hr hh
  · refine fits_forEach.2 fun i hi => ?_
    simp only [fits_one_cons, fits_nil, and_true]
    omega

/-- A whole CPU append stays inside its buffers. -/
theorem append_fits (h : AppendOpen c pool kv a sequence) (haccepted : c.Accepted)
    (hroom : HostRoom c a.tokens.length sequence.used pool.arrayElements E) :
    Fits E (append c kv a) := by
  obtain ⟨hn, hsmall, -⟩ := h.products haccepted
  have hpositive := h.tokens_pos
  have htokens : a.tokens.length ≤ Machine.int32Max := Nat.le_trans hn (by decide)
  have hlast : (a.tokens.length - 1) * c.hidden + 1 * c.hidden = a.tokens.length * c.hidden := by
    rw [← Nat.add_mul, Nat.sub_add_cancel hpositive]
  have hidden := haccepted.hidden
  have hx := hroom.x
  have hrow := hroom.last
  have hlogits := hroom.logits
  simp only [append, h.found, Machine.int_of_le htokens, Option.bind_eq_bind, Option.bind_some,
    fits_inOrder, List.forall_mem_cons, List.not_mem_nil, false_implies, implies_true, and_true,
    fits_cons, fits_nil]
  refine ⟨h.tail_fits hroom.toRoom, embedding_fits h haccepted hroom.toRoom,
    fits_forEach.2 fun l hl => layer_fits h haccepted hl hroom, ?_, by omega⟩
  exact rms_fits (by omega) (by omega) hroom.finalNorm (by omega)

end Append

end TinyInfer.MiniPrefix.Cpu
