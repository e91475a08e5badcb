import TinyInfer.MiniPrefix.CpuMemory

/-!
# The CPU forward pass is the causal forward

Between prepare and commit the runner reads the keys and values of earlier
positions from the pages of the sequence. `cpuBackend_sound`: what it writes there
and what it returns depend on the token history alone.

- `Filled` is the loop invariant over the new rows: the rows of the layers before
  `l`, and the first ones of layer `l`, are in their slots;
- `layer_spec` is one layer: its attention reads committed slots and filled ones;
- `layersLoop_spec` is the induction over the layers.
-/

namespace TinyInfer.MiniPrefix

open Lib KVManager

variable {F : Type} [Scalar F]

/-! ## Rows -/

theorem mapIdx_map_range {α β : Type} (n : Nat) (f : Nat → α) (g : Nat → α → β) :
    ((List.range n).map f).mapIdx g = (List.range n).map fun row => g row (f row) := by
  refine List.ext_getElem (by simp) fun i h₁ h₂ => ?_
  simp

theorem zipWith_map_range {α β γ : Type} (n : Nat) (f : Nat → α) (g : Nat → β) (h : α → β → γ) :
    List.zipWith h ((List.range n).map f) ((List.range n).map g) =
      (List.range n).map fun row => h (f row) (g row) := by
  refine List.ext_getElem (by simp) fun i h₁ h₂ => ?_
  simp

theorem mapM_eq_ok {α β ε : Type} {f : α → Except ε β} {g : α → β} {xs : List α}
    (h : ∀ x ∈ xs, f x = .ok (g x)) : xs.mapM f = .ok (xs.map g) := by
  induction xs with
  | nil => rfl
  | cons x xs ih =>
    rw [List.mapM_cons, h x List.mem_cons_self,
      ih fun y hy => h y (List.mem_cons_of_mem x hy)]
    rfl

omit [Scalar F] in
/-- The columns of the key and value rows that a head reads. -/
theorem LlamaConfig.column_lt (c : LlamaConfig F) {e d : Nat} (he : e < c.hidden)
    (hd : d < c.headDimension) :
    e / c.headDimension / (c.heads / c.kvHeads) * c.headDimension + d < c.kvWidth := by
  have hdim : c.heads * c.headDimension = c.hidden :=
    Nat.mul_div_cancel' (Nat.dvd_of_mod_eq_zero c.hidden_mod)
  have hgroup : c.kvHeads * (c.heads / c.kvHeads) = c.heads :=
    Nat.mul_div_cancel' (Nat.dvd_of_mod_eq_zero c.heads_mod)
  have hhead : e / c.headDimension < c.kvHeads * (c.heads / c.kvHeads) := by
    rw [hgroup, Nat.div_lt_iff_lt_mul (Nat.zero_lt_of_lt hd), hdim]
    exact he
  have hkv : e / c.headDimension / (c.heads / c.kvHeads) < c.kvHeads :=
    Nat.div_lt_of_lt_mul (by rw [Nat.mul_comm]; exact hhead)
  calc e / c.headDimension / (c.heads / c.kvHeads) * c.headDimension + d
      < e / c.headDimension / (c.heads / c.kvHeads) * c.headDimension + c.headDimension :=
        Nat.add_lt_add_left hd _
    _ = (e / c.headDimension / (c.heads / c.kvHeads) + 1) * c.headDimension :=
        (Nat.succ_mul _ _).symm
    _ ≤ c.kvWidth := Nat.mul_le_mul_right _ hkv

/-- Attention reads nothing but the columns of the earlier positions. -/
theorem attention_congr (c : LlamaConfig F) {length : Nat} {key key' value value' : Nat → Row F}
    (hkey : ∀ t < length, ∀ i < c.kvWidth, key t i = key' t i)
    (hvalue : ∀ t < length, ∀ i < c.kvWidth, value t i = value' t i) (q : Row F) :
    attention c length key value q = attention c length key' value' q := by
  funext e
  unfold attention
  by_cases he : e < c.hidden
  swap
  · rw [if_neg he, if_neg he]
  rw [if_pos he, if_pos he]
  have hdim : 0 < c.headDimension := by
    have := Nat.mul_div_cancel' (Nat.dvd_of_mod_eq_zero c.hidden_mod)
    refine Nat.pos_of_ne_zero fun hzero => ?_
    rw [LlamaConfig.headDimension] at hzero
    rw [hzero, Nat.mul_zero] at this
    omega
  have hscores : ∀ t ∈ List.range length,
      (List.range c.headDimension).foldl (fun score d => score +
          q (e / c.headDimension * c.headDimension + d) *
            key t (e / c.headDimension / (c.heads / c.kvHeads) * c.headDimension + d))
          (Scalar.ofNat 0) / Scalar.sqrt (Scalar.ofNat c.headDimension) =
        (List.range c.headDimension).foldl (fun score d => score +
          q (e / c.headDimension * c.headDimension + d) *
            key' t (e / c.headDimension / (c.heads / c.kvHeads) * c.headDimension + d))
          (Scalar.ofNat 0) / Scalar.sqrt (Scalar.ofNat c.headDimension) := by
    intro t ht
    congr 1
    refine List.foldl_ext _ _ _ fun score d hd => ?_
    rw [hkey t (List.mem_range.mp ht) _ (c.column_lt he (List.mem_range.mp hd))]
  simp only [List.map_congr_left hscores]
  refine List.foldl_ext _ _ _ fun total score hscore => ?_
  have ht : score.2 < length := by
    have := List.snd_lt_of_mem_zipIdx hscore
    simpa using this
  rw [hvalue score.2 ht _ (c.column_lt he (Nat.mod_lt e hdim))]

/-- One layer of the causal forward, in terms of its key and value rows. -/
theorem causalHidden_succ (w : LlamaWeights F) (l : Nat) (tokens : List TokenId) :
    causalHidden w (l + 1) tokens =
      finishLayer w l
        (attention w.config tokens.length (fun t => causalKey w l (tokens.take (t + 1)))
          (fun t => causalValue w l (tokens.take (t + 1)))
          (rope w.config.heads w.config.headDimension (tokens.length - 1) w.config.ropeTheta
            (w.dot (.qProj l) (rms w.config.hidden w.config.rmsEpsilon (w.inputLayernorm l)
              (causalHidden w l tokens)))))
        (causalHidden w l tokens) := by
  rw [causalHidden]
  congr 1
  refine attention_congr _ (fun t ht i hi => ?_) (fun t ht i hi => rfl) _
  have hlength : (tokens.take (t + 1)).length - 1 = t := by
    rw [List.length_take, Nat.min_eq_left ht]
    rfl
  rw [causalKey, hlength]

/-! ## The new rows -/

/-- The slot of a page that was computed from a history. -/
def cpuSpec (w : LlamaWeights F) (tokens : List TokenId) : CpuSlot w.config := fun l d =>
  (causalKey w l tokens d, causalValue w l tokens d)

/-- The offset of a token in a layer. -/
def tokenOffset (c : LlamaConfig F) (kv : KVManager) (sequence : PagedSequence) (l t : Nat) : Nat :=
  c.slotOffset kv.config.blockTokens (sequence.blocks.getD (t / kv.config.blockTokens) 0) l
    (t % kv.config.blockTokens)

/-- The hidden states of the new rows after some layers. -/
def hiddenRows (w : LlamaWeights F) (tokens : List TokenId) (used n l : Nat) : List (Row F) :=
  (List.range n).map fun row => causalHidden w l (tokens.take (used + row + 1))

section Loops

variable {w : LlamaWeights F} {memory : CpuMemory F} {kv : KVManager} {a : KVManager.Append}
  {state : State} {flat : FlatCache} {pos : Nat → Nat}

/-- The new rows of the layers before `l` are written, and `r` rows of layer `l`. -/
def Filled (w : LlamaWeights F) (memory : CpuMemory F) (kv : KVManager) (a : KVManager.Append)
    (state : State) (l r : Nat) : Prop :=
  ∀ t, state.sequence.used ≤ t → t < state.sequence.used + a.tokens.length → ∀ b,
    state.sequence.blocks[t / kv.config.blockTokens]? = some b →
    ∀ l' : Fin w.config.layers, (l'.val < l ∨ l'.val = l ∧ t < state.sequence.used + r) → ∀ d,
      cpuView w.config kv.config.blockTokens memory b (t % kv.config.blockTokens) l' d =
        cpuSpec w ((state.sequence.tokens ++ a.tokens).take (t + 1)) l' d

theorem Filled.next {l : Nat} (h : Filled w memory kv a state l a.tokens.length) :
    Filled w memory kv a state (l + 1) 0 := by
  intro t hlo hhi b hb l' hl' d
  refine h t hlo hhi b hb l' ?_ d
  rcases hl' with hlt | ⟨-, hfalse⟩
  · rcases Nat.lt_succ_iff_lt_or_eq.mp hlt with hlt | heq
    · exact Or.inl hlt
    · exact Or.inr ⟨heq, hhi⟩
  · omega

/-- The pages of the transaction cover its tokens. -/
theorem KvInv.page_of_token {α : Type} {spec : List TokenId → α} {payload : Nat → Nat → α}
    (h : KvInv spec payload kv (some a) flat pos) (hs : kv.sequences.find? a.id = some state)
    {t : Nat} (ht : t < state.sequence.used + a.tokens.length) :
    state.sequence.blocks[t / kv.config.blockTokens]? =
      some (state.sequence.blocks.getD (t / kv.config.blockTokens) 0) := by
  obtain ⟨state', hs', htx⟩ := h.transaction a rfl
  obtain rfl := Option.some.inj (hs'.symm.trans hs)
  have hlt : t / kv.config.blockTokens < state'.sequence.blocks.length := by
    rw [htx.grown]
    exact div_lt_pagesFor kv.pool.valid.blockTokens_pos ht
  rw [List.getD_eq_getElem?_getD, List.getElem?_eq_getElem hlt, Option.getD_some]

omit [Scalar F] in
/-- Resolving the offsets does not throw. -/
theorem KvInv.offsets {α : Type} {spec : List TokenId → α} {payload : Nat → Nat → α}
    (h : KvInv spec payload kv (some a) flat pos) (hs : kv.sequences.find? a.id = some state)
    {c : LlamaConfig F} (hlayers : kv.layers = c.layers) (hwidth : kv.width = c.kvWidth) (l : Nat) :
    (List.range (state.sequence.used + a.tokens.length)).mapM (kv.offset state.sequence l) =
      .ok ((List.range (state.sequence.used + a.tokens.length)).map
        (tokenOffset c kv state.sequence l)) := by
  refine mapM_eq_ok fun t ht => ?_
  have hpage := h.page_of_token hs (List.mem_range.mp ht)
  rw [KVManager.config] at hpage
  rw [KVManager.offset, KvBlockPool.offset, hpage, hlayers, hwidth]
  rfl

/-- One row goes to its slot. -/
theorem Filled.writeRow {l r : Nat}
    (h : KvInv (cpuSpec w) (cpuView w.config kv.config.blockTokens memory)
      kv (some a) flat pos) (hs : kv.sequences.find? a.id = some state) (hl : l < w.config.layers)
    (hr : r < a.tokens.length) (hfilled : Filled w memory kv a state l r) {memory' : CpuMemory F}
    (hmemory : memory' = TinyInfer.MiniPrefix.writeRow w.config
      (tokenOffset w.config kv state.sequence l (state.sequence.used + r))
      (causalKey w l ((state.sequence.tokens ++ a.tokens).take (state.sequence.used + r + 1)))
      (causalValue w l ((state.sequence.tokens ++ a.tokens).take (state.sequence.used + r + 1)))
      memory) :
    KvInv (cpuSpec w) (cpuView w.config kv.config.blockTokens memory') kv (some a) flat pos ∧
      Filled w memory' kv a state l (r + 1) := by
  have ht : state.sequence.used + r < state.sequence.used + a.tokens.length := by omega
  have hpage := h.page_of_token hs ht
  have hslot : (state.sequence.used + r) % kv.config.blockTokens < kv.config.blockTokens :=
    Nat.mod_lt _ kv.pool.valid.blockTokens_pos
  subst hmemory
  constructor
  · rw [tokenOffset, cpuView_writeRow_eq_store ⟨l, hl⟩ hslot]
    exact h.write hs (Nat.le_add_right _ _) hpage _
  · intro t hlo hhi b hb l' hl' d
    rw [tokenOffset, cpuView_writeRow ⟨l, hl⟩ hslot]
    split
    · next hsame =>
      -- a slot of the sequence belongs to one token
      obtain ⟨rfl, hmod, rfl⟩ := hsame
      have hseq := h.sequence a.id state hs
      have hdiv := (hseq.position _ _ hb).symm.trans (hseq.position _ _ hpage)
      have htoken : t = state.sequence.used + r := by
        rw [← Nat.div_add_mod t kv.config.blockTokens, hdiv, hmod, Nat.div_add_mod]
      rw [htoken]
      rfl
    · next hother =>
      refine hfilled t hlo hhi b hb l' (hl'.imp_right fun ⟨heq, hlt⟩ => ⟨heq, ?_⟩) d
      refine Nat.lt_of_le_of_ne (Nat.le_of_lt_succ hlt) fun htoken => hother ?_
      subst htoken
      exact ⟨Option.some.inj (hb.symm.trans hpage), rfl, Fin.ext heq⟩

/-- The loop over the new rows of a layer; the induction is on the rows left. -/
theorem writeRows_spec {l : Nat} (hs : kv.sequences.find? a.id = some state)
    (hl : l < w.config.layers) (m : Nat) {r : Nat} (hr : r + m = a.tokens.length)
    {memory : CpuMemory F}
    (h : KvInv (cpuSpec w) (cpuView w.config kv.config.blockTokens memory) kv (some a) flat pos)
    (hfilled : Filled w memory kv a state l r) {memory' : CpuMemory F}
    (hmemory : memory' = writeRows w.config.kvWidth
      ((List.range' r m).map fun row =>
        tokenOffset w.config kv state.sequence l (state.sequence.used + row))
      ((List.range' r m).map fun row =>
        causalKey w l ((state.sequence.tokens ++ a.tokens).take (state.sequence.used + row + 1)))
      ((List.range' r m).map fun row =>
        causalValue w l ((state.sequence.tokens ++ a.tokens).take (state.sequence.used + row + 1)))
      memory) :
    KvInv (cpuSpec w) (cpuView w.config kv.config.blockTokens memory') kv (some a) flat pos ∧
      Filled w memory' kv a state l a.tokens.length := by
  induction m generalizing r memory with
  | zero =>
    obtain rfl : r = a.tokens.length := hr
    subst hmemory
    exact ⟨h, hfilled⟩
  | succ m ih =>
    obtain ⟨hinv, hnext⟩ := hfilled.writeRow h hs hl (by omega) rfl
    exact ih (by omega) hinv hnext hmemory

/-! ## Layers -/

/-- Once the rows of a layer are written, every position is read as the causal
forward has it. -/
theorem Filled.read {l t : Nat} (hfilled : Filled w memory kv a state l a.tokens.length)
    (h : KvInv (cpuSpec w) (cpuView w.config kv.config.blockTokens memory) kv (some a) flat pos)
    (hs : kv.sequences.find? a.id = some state) (hcopy : a.copy.isSome → a.copied = true)
    (hl : l < w.config.layers) (ht : t < state.sequence.used + a.tokens.length) {i : Nat}
    (hi : i < w.config.kvWidth) :
    memory.keys (tokenOffset w.config kv state.sequence l t + i) =
        causalKey w l ((state.sequence.tokens ++ a.tokens).take (t + 1)) i ∧
      memory.values (tokenOffset w.config kv state.sequence l t + i) =
        causalValue w l ((state.sequence.tokens ++ a.tokens).take (t + 1)) i := by
  have hpage := h.page_of_token hs ht
  have hslot : t % kv.config.blockTokens < kv.config.blockTokens :=
    Nat.mod_lt _ kv.pool.valid.blockTokens_pos
  have hread : cpuView w.config kv.config.blockTokens memory
      (state.sequence.blocks.getD (t / kv.config.blockTokens) 0) (t % kv.config.blockTokens)
      ⟨l, hl⟩ ⟨i, hi⟩ =
        cpuSpec w ((state.sequence.tokens ++ a.tokens).take (t + 1)) ⟨l, hl⟩ ⟨i, hi⟩ := by
    rcases Nat.lt_or_ge t state.sequence.used with hhold | hnew
    · have hlength := (h.sequence a.id state hs).length
      rw [h.committed_stored hs hcopy hhold hpage, List.take_append_of_le_length (by omega)]
    · exact hfilled t hnew ht _ hpage ⟨l, hl⟩ (Or.inr ⟨rfl, ht⟩) ⟨i, hi⟩
  rw [cpuView_of_lt hslot] at hread
  exact Prod.mk.inj hread

theorem layer_spec {l : Nat}
    (h : KvInv (cpuSpec w) (cpuView w.config kv.config.blockTokens memory) kv (some a) flat pos)
    (hs : kv.sequences.find? a.id = some state) (hcopy : a.copy.isSome → a.copied = true)
    (hl : l < w.config.layers) (hfilled : Filled w memory kv a state l 0) :
    ∃ memory', layer w l state.sequence.used
        ((List.range (state.sequence.used + a.tokens.length)).map
          (tokenOffset w.config kv state.sequence l))
        (hiddenRows w (state.sequence.tokens ++ a.tokens) state.sequence.used a.tokens.length l)
        memory =
          (hiddenRows w (state.sequence.tokens ++ a.tokens) state.sequence.used a.tokens.length
            (l + 1), memory') ∧
      KvInv (cpuSpec w) (cpuView w.config kv.config.blockTokens memory') kv (some a) flat pos ∧
      Filled w memory' kv a state (l + 1) 0 := by
  have htokens := (h.sequence a.id state hs).length
  have hposition : ∀ row < a.tokens.length,
      ((state.sequence.tokens ++ a.tokens).take (state.sequence.used + row + 1)).length =
        state.sequence.used + row + 1 := by
    intro row hrow
    rw [List.length_take, List.length_append, htokens]
    omega
  -- the rows of the layer before attention
  have hk : (((hiddenRows w (state.sequence.tokens ++ a.tokens) state.sequence.used
        a.tokens.length l).map
        (rms w.config.hidden w.config.rmsEpsilon (w.inputLayernorm l))).map
        (w.dot (.kProj l))).mapIdx (fun row =>
        rope w.config.kvHeads w.config.headDimension (state.sequence.used + row)
          w.config.ropeTheta) =
      (List.range a.tokens.length).map fun row =>
        causalKey w l ((state.sequence.tokens ++ a.tokens).take
          (state.sequence.used + row + 1)) := by
    rw [hiddenRows, List.map_map, List.map_map, mapIdx_map_range]
    refine List.map_congr_left fun row hrow => ?_
    rw [causalKey, hposition row (List.mem_range.mp hrow)]
    rfl
  have hv : ((hiddenRows w (state.sequence.tokens ++ a.tokens) state.sequence.used
        a.tokens.length l).map
        (rms w.config.hidden w.config.rmsEpsilon (w.inputLayernorm l))).map (w.dot (.vProj l)) =
      (List.range a.tokens.length).map fun row =>
        causalValue w l
          ((state.sequence.tokens ++ a.tokens).take (state.sequence.used + row + 1)) := by
    rw [hiddenRows, List.map_map, List.map_map]
    rfl
  have hoffsets : ((List.range (state.sequence.used + a.tokens.length)).map
        (tokenOffset w.config kv state.sequence l)).drop state.sequence.used =
      (List.range a.tokens.length).map fun row =>
        tokenOffset w.config kv state.sequence l (state.sequence.used + row) := by
    rw [List.range_add, List.map_append, List.drop_left' (by simp), List.map_map]
    rfl
  -- the keys and values of the new rows are written first
  obtain ⟨hinv, hwritten⟩ := writeRows_spec hs hl a.tokens.length (Nat.zero_add _) h hfilled rfl
  rw [← List.range_eq_range'] at hinv hwritten
  rw [layer, hoffsets, hk, hv]
  refine ⟨_, ?_, hinv, hwritten.next⟩
  -- the rows after attention
  simp only [hiddenRows, List.map_map, mapIdx_map_range, zipWith_map_range, Prod.mk.injEq, and_true]
  refine List.map_congr_left fun row hrow => ?_
  have hrow' := List.mem_range.mp hrow
  rw [causalHidden_succ, hposition row hrow']
  congr 1
  -- attention reads back the causal keys and values of every position
  have hread : ∀ t < state.sequence.used + row + 1, ∀ i < w.config.kvWidth, _ :=
    fun t ht i hi => hwritten.read hinv hs hcopy hl (t := t) (by omega) hi
  have hoffset : ∀ t < state.sequence.used + row + 1,
      ((List.range (state.sequence.used + a.tokens.length)).map
        (tokenOffset w.config kv state.sequence l)).getD t 0 =
        tokenOffset w.config kv state.sequence l t := by
    intro t ht
    rw [List.getD_eq_getElem?_getD, List.getElem?_map, List.getElem?_range (by omega)]
    rfl
  have htake : ∀ t < state.sequence.used + row + 1,
      ((state.sequence.tokens ++ a.tokens).take (state.sequence.used + row + 1)).take (t + 1) =
        (state.sequence.tokens ++ a.tokens).take (t + 1) := by
    intro t ht
    rw [List.take_take, Nat.min_eq_left ht]
  refine attention_congr _ (fun t ht i hi => ?_) (fun t ht i hi => ?_) _
  · rw [hoffset t ht, (hread t ht i hi).1, htake t ht]
  · rw [hoffset t ht, (hread t ht i hi).2, htake t ht]

/-- The loop over the layers; the induction is on the layers left. -/
theorem layersLoop_spec (hlayers : kv.layers = w.config.layers)
    (hwidth : kv.width = w.config.kvWidth) (hs : kv.sequences.find? a.id = some state)
    (hcopy : a.copy.isSome → a.copied = true) (m : Nat) {l : Nat} (hl : l + m = w.config.layers)
    {memory : CpuMemory F}
    (h : KvInv (cpuSpec w) (cpuView w.config kv.config.blockTokens memory) kv (some a) flat pos)
    (hfilled : Filled w memory kv a state l 0) :
    ∃ memory', layersLoop w kv state.sequence a.tokens.length (List.range' l m)
        (hiddenRows w (state.sequence.tokens ++ a.tokens) state.sequence.used a.tokens.length l)
        memory =
          (.ok (hiddenRows w (state.sequence.tokens ++ a.tokens) state.sequence.used
            a.tokens.length w.config.layers), memory') ∧
      KvInv (cpuSpec w) (cpuView w.config kv.config.blockTokens memory') kv (some a) flat pos ∧
      Filled w memory' kv a state w.config.layers 0 := by
  induction m generalizing l memory with
  | zero =>
    obtain rfl : l = w.config.layers := hl
    exact ⟨memory, rfl, h, hfilled⟩
  | succ m ih =>
    obtain ⟨memory₁, hlayer, hinv, hnext⟩ := layer_spec h hs hcopy (by omega) hfilled
    obtain ⟨memory', hloop, hdone⟩ := ih (by omega) hinv hnext
    refine ⟨memory', ?_, hdone⟩
    rw [List.range'_succ, layersLoop, h.offsets hs hlayers hwidth]
    simp only [hlayer]
    exact hloop

/-- The embeddings of the new tokens are their hidden states before any layer. -/
theorem hiddenRows_zero (w : LlamaWeights F) (tokens x : List TokenId) :
    x.map (fun token => w.embedTokens token.toNat) =
      hiddenRows w (tokens ++ x) tokens.length x.length 0 := by
  refine List.ext_getElem (by simp [hiddenRows]) fun i h₁ h₂ => ?_
  have hi : i < x.length := by simpa using h₁
  have hlast : (List.take (tokens.length + i + 1) (tokens ++ x)).getLastD 0 = x[i] := by
    rw [List.getLastD_eq_getLast?, List.getLast?_eq_getElem?, List.length_take, List.length_append,
      Nat.min_eq_left (by omega), Nat.add_sub_cancel, List.getElem?_take_of_lt (by omega),
      List.getElem?_append_right (by omega), Nat.add_sub_cancel_left, List.getElem?_eq_getElem hi]
    rfl
  simp only [hiddenRows, List.getElem_map, List.getElem_range, causalHidden, hlast]

/-- The last row is the hidden state of the whole history. -/
theorem hiddenRows_getLastD (w : LlamaWeights F) (tokens : List TokenId) {x : List TokenId}
    (hx : x ≠ []) (l : Nat) (d : Row F) :
    (hiddenRows w (tokens ++ x) tokens.length x.length l).getLastD d =
      causalHidden w l (tokens ++ x) := by
  have hpos := List.length_pos_iff.mpr hx
  rw [List.getLastD_eq_getLast?, List.getLast?_eq_getElem?, hiddenRows, List.length_map,
    List.length_range, List.getElem?_map, List.getElem?_range (by omega), Option.map_some,
    Option.getD_some, List.take_of_length_le (by rw [List.length_append]; omega)]

/-! ## The computation -/

/-- `forward` returns the logits of the causal forward of the history, if they are
finite. -/
theorem cpuForward_spec {copied : Bool} (hlayers : kv.layers = w.config.layers)
    (hwidth : kv.width = w.config.kvWidth)
    (h : KvInv (cpuSpec w) (cpuView w.config kv.config.blockTokens memory) kv
      (some { a with copied }) flat pos)
    (hready : a.copy.isSome → copied = true) (hs : kv.sequences.find? a.id = some state) :
    ∃ memory', cpuForward w kv a memory =
        (if (causalLogits w (state.sequence.tokens ++ a.tokens)).all Scalar.isFinite then
          .ok (causalLogits w (state.sequence.tokens ++ a.tokens))
        else .error (.runtimeError "nonfinite logits"), memory') ∧
      KvInv (cpuSpec w) (cpuView w.config kv.config.blockTokens memory') kv
        (some { a with copied }) flat pos ∧
      Written (cpuSpec w) (cpuView w.config kv.config.blockTokens memory') kv a state := by
  obtain ⟨state', hs', htx⟩ := h.transaction _ rfl
  obtain rfl : state' = state := Option.some.inj (hs'.symm.trans hs)
  have hlength := (h.sequence a.id state' hs).length
  have hstart : Filled w memory kv { a with copied } state' 0 0 := by
    intro t hlo hhi b hb l hl d
    omega
  obtain ⟨memory', hloop, hinv, hfilled⟩ :=
    layersLoop_spec (a := { a with copied }) hlayers hwidth hs hready w.config.layers
      (Nat.zero_add _) h hstart
  rw [← List.range_eq_range'] at hloop
  have hembed := hiddenRows_zero w state'.sequence.tokens a.tokens
  have hlast := hiddenRows_getLastD w state'.sequence.tokens htx.tokens_ne
    w.config.layers (w.embedTokens 0)
  rw [hlength] at hembed hlast
  refine ⟨memory', ?_, hinv, fun t hlo hhi b hb => ?_⟩
  · unfold cpuForward
    simp only [hs, Option.getD_some, hembed]
    dsimp only at hloop hlast
    rw [hloop]
    simp only [hlast]
    rw [causalLogits]
    split <;> rfl
  · funext l d
    exact hfilled t hlo hhi b hb l (Or.inl l.isLt) d

end Loops

/-- The managers of a runner over some weights. -/
def LlamaConfig.Fits (c : LlamaConfig F) (blockTokens : Nat) (kv : KVManager) : Prop :=
  kv.layers = c.layers ∧ kv.width = c.kvWidth ∧ kv.config.blockTokens = blockTokens

/-- What the runner computes between prepare and commit is the causal forward of the
history. -/
theorem cpuBackend_sound (w : LlamaWeights F) (blockTokens : Nat) :
    (cpuBackend w).Sound (w.config.Fits blockTokens) (cpuSpec w) (cpuView w.config blockTokens)
      fun tokens logits => logits = causalLogits w tokens ∧ logits.all Scalar.isFinite = true where
  copyTail kv copy memory hfits hvalid := by
    obtain ⟨hlayers, hwidth, htokens⟩ := hfits
    rw [htokens] at hvalid
    have hcopy := cpuView_copyRegion memory hlayers hwidth htokens hvalid
    constructor
    · intro b i
      by_cases hb : b = copy.destination
      · exact Or.inr hb
      · exact Or.inl ((hcopy b i).trans (if_neg fun h => hb h.1))
    · intro i hi
      exact (hcopy copy.destination i).trans (if_pos ⟨rfl, hi⟩)
  forward kv a copied memory flat pos state hfits hinv hready hs := by
    obtain ⟨hlayers, hwidth, rfl⟩ := hfits
    obtain ⟨memory', hrun, hinv', hwritten⟩ := cpuForward_spec hlayers hwidth hinv hready hs
    refine ⟨_, memory', hrun, hinv', fun logits heq => ?_⟩
    split at heq
    · next hfinite =>
      cases heq
      exact ⟨hwritten, rfl, hfinite⟩
    · cases heq

end TinyInfer.MiniPrefix
