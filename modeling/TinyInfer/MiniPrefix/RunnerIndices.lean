import TinyInfer.MiniPrefix.CpuIndices
import TinyInfer.MiniPrefix.CudaIndices

/-!
# The index arithmetic of the runners fits its types

Of what `validate` accepts, only the feed-forward network of the CUDA runner is too wide for an
`int`: the products of the number of new tokens with `hidden`, `heads * dim` and `kv_width()` fit
for every context, the one with `intermediate` does not (`runner_indices`).
-/

namespace TinyInfer.MiniPrefix

open Lib Lib.Footprint KVManager

/-! ## Buffers -/

section Buffers

variable {F : Type} {c : Llama.ModelConfig F}

theorem le_ensureBytes (bytes size : Nat) : size ≤ ensureBytes bytes size := by
  unfold ensureBytes
  split
  · assumption
  · exact Nat.le_refl _

/-- What was asked for is there, in elements. -/
theorem le_ensureBytes_div (bytes size : Nat) : size ≤ ensureBytes bytes (size * 4) / 4 := by
  rw [Nat.le_div_iff_mul_le (by decide)]
  exact le_ensureBytes bytes (size * 4)

/-- `Workspace::ensure` computes all its sizes, and leaves room for the tokens of an append. -/
theorem ensure_room (haccepted : c.Accepted) {n : Nat} (hlimit : n ≤ 131072) (w : Workspace) :
    ∃ after, w.ensure c n = some after ∧
      ∀ arrays entries, DeviceRoom c n arrays entries (cudaElements c after arrays entries) := by
  have hidden : n * c.hidden ≤ 131072 * 8192 := Nat.mul_le_mul hlimit haccepted.hidden.2
  have hwidth : n * c.width ≤ 131072 * 8192 :=
    Nat.mul_le_mul hlimit (Nat.le_trans haccepted.width_le haccepted.hidden.2)
  have hintermediate : n * c.intermediate ≤ 131072 * 65536 :=
    Nat.mul_le_mul hlimit haccepted.intermediate.2
  have hvocabulary := haccepted.vocabulary
  have hbound : 2 ^ 36 ≤ sizeMax := by decide
  have hsizes : n * c.hidden ≤ sizeMax ∧ n * c.hidden * 4 ≤ sizeMax ∧ n * c.width ≤ sizeMax ∧
      n * c.width * 4 ≤ sizeMax ∧ n * c.intermediate ≤ sizeMax ∧ n * c.intermediate * 4 ≤ sizeMax ∧
      c.vocabulary * 4 ≤ sizeMax ∧ n * 4 ≤ sizeMax := by omega
  obtain ⟨h₁, h₂, h₃, h₄, h₅, h₆, h₇, h₈⟩ := hsizes
  refine ⟨{
    x := ensureBytes w.x (n * c.hidden * 4), norm := ensureBytes w.norm (n * c.hidden * 4)
    q := ensureBytes w.q (n * c.hidden * 4), k := ensureBytes w.k (n * c.width * 4)
    v := ensureBytes w.v (n * c.width * 4)
    attention := ensureBytes w.attention (n * c.hidden * 4)
    projection := ensureBytes w.projection (n * c.hidden * 4)
    gate := ensureBytes w.gate (n * c.intermediate * 4)
    up := ensureBytes w.up (n * c.intermediate * 4)
    logits := ensureBytes w.logits (c.vocabulary * 4)
    tokens := ensureBytes w.tokens (n * 4) }, ?_, fun arrays entries => ?_⟩
  · simp only [Workspace.ensure, haccepted.kvWidth_eq, Machine.size_of_le h₁, Machine.size_of_le h₂,
      Machine.size_of_le h₃, Machine.size_of_le h₄, Machine.size_of_le h₅, Machine.size_of_le h₆,
      Machine.size_of_le h₇, Machine.size_of_le h₈, Option.bind_eq_bind, Option.bind_some]
  · exact {
      x := le_ensureBytes_div .., norm := le_ensureBytes_div .., q := le_ensureBytes_div ..
      k := le_ensureBytes_div .., v := le_ensureBytes_div ..
      attention := le_ensureBytes_div .., projection := le_ensureBytes_div ..
      gate := le_ensureBytes_div .., up := le_ensureBytes_div ..
      logits := le_ensureBytes_div .., tokens := le_ensureBytes_div ..
      keys := Nat.le_refl _, values := Nat.le_refl _, embedTokens := Nat.le_refl _
      inputLayernorm := fun _ => Nat.le_refl _, postAttentionLayernorm := fun _ => Nat.le_refl _
      finalNorm := Nat.le_refl _, matrix := fun _ => Nat.le_refl _
      shared := Nat.le_refl _, table := Nat.le_refl _ }

theorem cpuElements_room (c : Llama.ModelConfig F) (n used arrays : Nat) :
    Cpu.HostRoom c n used arrays (cpuElements c n used arrays) where
  x := Nat.le_refl _
  norm := Nat.le_refl _
  q := Nat.le_refl _
  k := Nat.le_refl _
  v := Nat.le_refl _
  attention := Nat.le_refl _
  projection := Nat.le_refl _
  gate := Nat.le_refl _
  up := Nat.le_refl _
  logits := Nat.le_refl _
  tokens := Nat.le_refl _
  keys := Nat.le_refl _
  values := Nat.le_refl _
  embedTokens := Nat.le_refl _
  inputLayernorm := fun _ => Nat.le_refl _
  postAttentionLayernorm := fun _ => Nat.le_refl _
  finalNorm := Nat.le_refl _
  matrix := fun _ => Nat.le_refl _
  last := Nat.le_refl _
  offsets := Nat.le_refl _
  scores := fun _ => Nat.le_refl _

end Buffers

/-! ## The manager of the CUDA runner -/

section Simulation

/-- The operations of the manager in the body of an append. -/
theorem CudaRunner.transact_kv {kv kv' : KVManager} {id : RequestId} {tokens : List TokenId}
    {a : KVManager.Append} (hprepared : kv.prepareAppend id tokens = (.ok a, kv'))
    (faults : AppendFaults) (table : BlockTable) (s : CudaRunner) :
    ∃ ops, (CudaRunner.transact a faults table { s with kv := kv' }).2.kv =
      (KvSystem.run { kv } ops).kv := by
  have hstart : (KvSystem.step { kv } (.prepareAppend id tokens)).2 = ⟨kv', some a⟩ := by
    simp only [KvSystem.step, hprepared]
  have hundone : ∃ ops, kv'.rollback (some a) = (KvSystem.run { kv } ops).kv := by
    refine ⟨[.prepareAppend id tokens, .rollback], ?_⟩
    show _ = (KvSystem.step (KvSystem.step { kv } (.prepareAppend id tokens)).2 .rollback).2.kv
    rw [hstart]
    rfl
  unfold CudaRunner.transact
  dsimp only
  split
  · exact hundone
  split
  · exact hundone
  next transaction hcopied =>
  obtain ⟨copier, hcopied⟩ :
    ∃ copier, kv'.copySharedTailRegion (some a) copier = (.ok (), transaction) :=
    ⟨_, hcopied⟩
  have hcopyStep : (KvSystem.step ⟨kv', some a⟩ (.copySharedTail copier)).2 =
    ⟨kv', transaction⟩ := by
    simp only [KvSystem.step, hcopied]
  split
  · exact hundone
  split
  · exact hundone
  split
  · exact hundone
  -- the transaction is committed
  split
  · next e after left hrefused =>
    refine ⟨[.prepareAppend id tokens, .copySharedTail copier, .commit, .rollback], ?_⟩
    show _ = (KvSystem.step (KvSystem.step (KvSystem.step (KvSystem.step { kv }
      (.prepareAppend id tokens)).2 (.copySharedTail copier)).2 .commit).2 .rollback).2.kv
    rw [hstart, hcopyStep]
    simp only [KvSystem.step, hrefused]
  · next after left hcommitted =>
    refine ⟨[.prepareAppend id tokens, .copySharedTail copier, .commit], ?_⟩
    show _ = (KvSystem.step (KvSystem.step (KvSystem.step { kv } (.prepareAppend id tokens)).2
      (.copySharedTail copier)).2 .commit).2.kv
    rw [hstart, hcopyStep]
    simp only [KvSystem.step, hcommitted]

/-- A call of the runner is a run of its manager. -/
theorem CudaRunner.step_kv (s : CudaRunner) (op : CudaOp) :
    ∃ ops, (s.step op).2.kv = (KvSystem.run { kv := s.kv } ops).kv := by
  cases op with
  | setCostTiming enabled => exact ⟨[], rfl⟩
  | reserveRequest id maxTokens => exact ⟨[.reserveRequest id maxTokens], rfl⟩
  | releaseReservation id => exact ⟨[.releaseReservation id], rfl⟩
  -- `create` releases the sequence again when its table cannot be stored
  | create id garbage allocate emplace =>
    unfold CudaRunner.step CudaRunner.create
    dsimp only
    split
    · exact ⟨[], rfl⟩
    split
    · exact ⟨[], rfl⟩
    split
    · next kv hcreated =>
      refine ⟨[.create id], ?_⟩
      show kv = (s.kv.create id).2
      rw [hcreated]
    · next kv hcreated =>
      split
      -- the emplacement threw
      · refine ⟨[.create id, .release id], ?_⟩
        show (kv.release id).2 = ((s.kv.create id).2.release id).2
        rw [hcreated]
      · refine ⟨[.create id], ?_⟩
        show kv = (s.kv.create id).2
        rw [hcreated]
  -- the device is synchronized before the manager is asked
  | forkSequence source target synchronize =>
    unfold CudaRunner.step CudaRunner.after CudaRunner.forkSequence
    dsimp only
    split
    · exact ⟨[], rfl⟩
    refine ⟨[.forkSequence source target], ?_⟩
    show _ = (s.kv.forkSequence source target).2
    split
    · next hforked => rw [hforked]
    · next hforked =>
      rw [hforked]
      split <;> rfl
  -- the pages are reset when the upload cannot be enqueued
  | reusePrefix id prompt table =>
    unfold CudaRunner.step CudaRunner.reusePrefix
    dsimp only
    split
    · next kv hreused =>
      refine ⟨[.reusePrefix id prompt], ?_⟩
      show kv = (s.kv.reusePrefix id prompt).2
      rw [hreused]
    · next used kv hreused =>
      have hkept : kv = (KvSystem.run { kv := s.kv } [.reusePrefix id prompt]).kv := by
        show kv = (s.kv.reusePrefix id prompt).2
        rw [hreused]
      have hreset : (kv.resetSequence id).2 =
          (KvSystem.run { kv := s.kv } [.reusePrefix id prompt, .resetSequence id]).kv := by
        show _ = ((s.kv.reusePrefix id prompt).2.resetSequence id).2
        rw [hreused]
      split
      · exact ⟨_, hkept⟩
      split
      · exact ⟨_, hreset⟩
      split
      · exact ⟨_, hreset⟩
      · exact ⟨_, hkept⟩
  | cachePrefix id => exact ⟨[.cachePrefix id], rfl⟩
  | clearPrefixCache synchronize =>
    unfold CudaRunner.step CudaRunner.after
    dsimp only
    split
    · exact ⟨[], rfl⟩
    · exact ⟨[.clearPrefixCache], rfl⟩
  -- a failed upload rolls the transaction back
  | append id tokens faults =>
    unfold CudaRunner.step CudaRunner.append
    dsimp only
    split
    · next e kv hrefused =>
      refine ⟨[.prepareAppend id tokens], ?_⟩
      show kv = (KvSystem.step { kv := s.kv } (.prepareAppend id tokens)).2.kv
      simp only [KvSystem.step, hrefused]
    · next a kv hprepared =>
      have hundone : kv.rollback (some a) =
          (KvSystem.run { kv := s.kv } [.prepareAppend id tokens, .rollback]).kv := by
        show _ = (KvSystem.step (KvSystem.step { kv := s.kv } (.prepareAppend id tokens)).2
          .rollback).2.kv
        simp only [KvSystem.step, hprepared]
      split
      · exact ⟨_, hundone⟩
      · exact ⟨_, hundone⟩
      · exact CudaRunner.transact_kv hprepared faults _ s
  | release id synchronize =>
    unfold CudaRunner.step CudaRunner.after CudaRunner.release
    dsimp only
    split
    · exact ⟨[], rfl⟩
    refine ⟨[.release id], ?_⟩
    show _ = (s.kv.release id).2
    split
    · next hreleased => rw [hreleased]
    · next hreleased => rw [hreleased]
  | clear synchronize =>
    unfold CudaRunner.step CudaRunner.after CudaRunner.clear
    dsimp only
    split
    · exact ⟨[], rfl⟩
    refine ⟨[.clear], ?_⟩
    show _ = s.kv.clear.2
    split
    · next hcleared => rw [hcleared]
    · next hcleared => rw [hcleared]

/-- What the constructor of the runner fixed stays fixed. -/
theorem CudaInv.parameters_run {n : Nat} {s : CudaRunner} (h : CudaInv n s) (ops : List CudaOp) :
    (s.run ops).kv.parameters = s.kv.parameters := by
  induction ops generalizing s with
  | nil => rfl
  | cons op ops ih =>
    have hledger : Ledger { kv := s.kv } := h.ledger
    obtain ⟨kvOps, heq⟩ := s.step_kv op
    calc ((s.step op).2.run ops).kv.parameters
        = (s.step op).2.kv.parameters := ih (h.step op)
      _ = s.kv.parameters := by rw [heq, hledger.parameters_run kvOps]

/-- An append that is accepted and does not fail launches the kernels of every layer with a table
that agrees with the block table of the sequence. -/
theorem CudaInv.append_launches {n : Nat} {s : CudaRunner} (h : CudaInv n s) {id : RequestId}
    {tokens : List TokenId} {a : KVManager.Append} {kv : KVManager}
    (hprepared : s.kv.prepareAppend id tokens = (.ok a, kv)) :
    ∃ before table, s.tables.find? id = some before ∧ table.length = n ∧
      ((kv.sequences.find? a.id).getD {}).sequence.blocks.length ≤ n ∧
      Agrees table ((kv.sequences.find? a.id).getD {}).sequence.blocks ∧
      (CudaRunner.append id tokens {} s).2.launches = s.launches ++ List.replicate kv.layers
        ⟨table, ((kv.sequences.find? a.id).getD {}).sequence.blocks⟩ := by
  rcases h.prepareAppend id tokens with ⟨e, other, heq, -⟩ | ⟨a', kv', before, state,
    heq, rfl, hopened⟩
  · rw [hprepared] at heq
    cases heq
  rw [hprepared] at heq
  cases heq
  rw [hopened.sequence, Option.getD_some]
  generalize hfirst : (if before.dirty then 0
    else if a.copy.isSome then a.originalBlocks - 1 else a.originalBlocks) = first
  generalize hupload : (if state.sequence.blocks.length ≠ first then
    before.upload state.sequence.blocks first .completed else (none, before)) = uploaded
  obtain ⟨failed, after⟩ := uploaded
  have hlength : failed = none ∧ after.data.length = n := by
    split at hupload
    · cases hupload
      exact ⟨rfl, (length_uploadEntries ..).trans hopened.size⟩
    · cases hupload
      exact ⟨rfl, hopened.size⟩
  obtain ⟨rfl, hlength⟩ := hlength
  refine ⟨before, after.data, hopened.found, hlength, hopened.fits,
    hopened.uploaded hfirst.symm hupload, ?_⟩
  -- nothing fails
  have htransaction : ∃ copied, (a.copy.isSome → copied = true) ∧
      kv.copySharedTailRegion (some a) (fun _ => .ok ()) = (.ok (), some { a with copied }) := by
    rcases copySharedTailRegion_cases kv a (fun _ => .ok ()) with
      ⟨hnone, heq⟩ | ⟨copy, hsome, ⟨e, hfailed, -⟩ | ⟨-, heq⟩⟩
    · refine ⟨a.copied, fun hsome => ?_, heq⟩
      rw [hnone] at hsome
      cases hsome
    · cases hfailed
    · exact ⟨true, fun _ => rfl, heq⟩
  obtain ⟨copied, hready, hcopies⟩ := htransaction
  have hcommits : kv.commit (some { a with copied }) = (.ok (), committed kv a state, none) :=
    commit_ok hopened.sequence hready
  unfold CudaRunner.append
  simp only [hprepared, hopened.found, CudaRunner.transact, hopened.sequence,
    Option.getD_some, ite_self, hcopies, hfirst, hupload, hcommits]

end Simulation

/-! ## Appends in every run -/

/-- The append of the CPU runner computes all its indices, inside of tensors and vectors of the
right shapes; `arrays` are the elements of `keys_` and of `values_`. -/
def CpuAppendFits {F : Type} (c : Llama.ModelConfig F) (arrays : Nat) (kv : KVManager)
    (a : KVManager.Append) : Prop :=
  Fits (cpuElements c a.tokens.length ((kv.sequences.find? a.id).getD {}).sequence.used arrays)
    (Cpu.append c kv a)

/-- The append of the CUDA runner and its kernels compute all their indices, inside of the
workspace that is ensured for them, the arrays and the device table. -/
def CudaAppendFits {F : Type} (c : Llama.ModelConfig F) (workspace : Workspace) (arrays : Nat)
    (kv : KVManager) (a : KVManager.Append) (dirty : Bool) (table : List Nat) : Prop :=
  ∃ after, workspace.ensure c a.tokens.length = some after ∧
    Fits (cudaElements c after arrays table.length) (Cuda.append c kv a dirty table)

section Runs

variable {F : Type} {c : Llama.ModelConfig F} {context : Nat} {config : KvCacheConfig}
  {id : RequestId} {tokens : List TokenId} {a : KVManager.Append} {kv : KVManager}

theorem cpuAppend_fits [Scalar F] (haccepted : c.Accepted) {w : LlamaWeights F}
    (hweights : w.config = c.llama haccepted) {runner : KvRunner (CpuMemory F)}
    (hmade : cpuRunner w context config = .ok runner) (ops : List RunnerOp)
    (hprepared : (KvRunner.run (cpuBackend w) runner ops).kv.prepareAppend id tokens =
      (.ok a, kv)) :
    a.tokens = tokens ∧ CpuAppendFits c runner.kv.pool.arrayElements kv a := by
  have hinv := (CpuInv.construct hmade).run ops
  obtain ⟨flat, pos, hledger⟩ := hinv.ledger
  have hlimit : context ≤ c.context := by
    unfold cpuRunner at hmade
    split at hmade
    · cases hmade
    split at hmade
    · cases hmade
    · next hbound =>
      rw [hweights] at hbound
      exact Nat.not_lt.1 fun hwide => hbound (Or.inr hwide)
  have hbuilt := cpuRunner_eq hmade
  obtain ⟨pool, hvalid, hcreated, heq⟩ := construct_eq hbuilt
  obtain ⟨hsameConfig, hsized⟩ := KvBlockPool.sized_of_create hcreated
  have harrays : runner.kv.pool = pool := by rw [heq]
  have hparameters := hinv.parameters
  rw [LlamaConfig.parameters, hweights, ← hsameConfig] at hparameters
  rw [hweights] at hsized
  obtain ⟨hsame, sequence, hopened⟩ := appendOpen hledger hparameters hsized hlimit hprepared
  refine ⟨hsame, ?_⟩
  rw [CpuAppendFits, hopened.found, harrays]
  exact Cpu.append_fits hopened haccepted (cpuElements_room ..)

/-- The elements of an array, as the CUDA runner allocates it. -/
theorem reservedBytes_halves (pool : KvBlockPool) :
    pool.reservedBytes / 2 / 4 = pool.arrayElements := by
  rw [KvBlockPool.arrayElements, Nat.div_div_eq_div_mul, Nat.div_div_eq_div_mul]

/-- A CUDA append stays inside its buffers iff its largest launch does not overflow. -/
theorem cudaAppend_fits_iff (haccepted : c.Accepted) {runner : CudaRunner}
    (hmade : cudaRunner (c.llama haccepted) context config = .ok runner) (ops : List CudaOp)
    (hprepared : (runner.run ops).kv.prepareAppend id tokens = (.ok a, kv)) :
    ∃ before table, (runner.run ops).tables.find? id = some before ∧
      table.length = runner.kv.maxSequenceBlocks ∧
      (CudaRunner.append id tokens {} (runner.run ops)).2.launches = (runner.run ops).launches ++
        List.replicate c.layers ⟨table, ((kv.sequences.find? a.id).getD {}).sequence.blocks⟩ ∧
      ∀ workspace, CudaAppendFits c workspace (runner.kv.pool.reservedBytes / 2 / 4) kv a
          before.dirty table ↔
        tokens.length * c.intermediate + 255 ≤ Machine.int32Max := by
  have hstart := CudaInv.construct hmade
  unfold cudaRunner at hmade
  split at hmade
  · cases hmade
  next manager hbuilt =>
  split at hmade
  · cases hmade
  next hbound =>
  cases hmade
  have hlimit : context ≤ c.context := Nat.not_lt.1 fun hwide => hbound (Or.inr hwide)
  have hinv := hstart.run ops
  have hfixed := hstart.parameters_run ops
  obtain ⟨pool, hvalid, hcreated, heq⟩ := construct_eq hbuilt
  obtain ⟨hsameConfig, hsized⟩ := KvBlockPool.sized_of_create hcreated
  have harrays : manager.pool = pool := by rw [heq]
  have hparameters : (CudaRunner.run { kv := manager } ops).kv.parameters =
      (c.layers, c.width, context, c.vocabulary, pool.config) := by
    rw [hfixed, heq]
    rfl
  obtain ⟨flat, pos, hledger⟩ := hinv.ledger
  obtain ⟨hsame, sequence, hopened⟩ := appendOpen hledger hparameters hsized hlimit hprepared
  obtain ⟨before, table, hfound, hlength, hfits, hagrees, hlaunches⟩ :=
    hinv.append_launches hprepared
  rw [hopened.layers] at hlaunches
  refine ⟨before, table, hfound, hlength, hlaunches, fun workspace => ?_⟩
  rw [hopened.found] at hfits hagrees
  rw [reservedBytes_halves, harrays]
  obtain ⟨after, hensured, hroom⟩ := ensure_room haccepted (hopened.products haccepted).1 workspace
  rw [← hsame, ← Cuda.append_fits_iff hopened haccepted hagrees (hlength ▸ hfits)
    (hroom pool.arrayElements table.length) before.dirty]
  constructor
  · rintro ⟨after', hensured', hfits'⟩
    rw [hensured] at hensured'
    cases hensured'
    exact hfits'
  · exact fun hfits' => ⟨after, hensured, hfits'⟩

/-- **The index arithmetic of the runners.** For every accepted configuration, in every run, an
accepted append of the CPU runner computes all its indices exactly and inside of its buffers.
The same holds of the CUDA runner and its kernels if and only if the launch of the activation,
over the product of the number of new tokens with `intermediate`, fits an `int`. -/
theorem runner_indices [Scalar F] [LE F] [DecidableLE F] (hvalid : c.validate = .ok ()) :
    (∀ (w : LlamaWeights F) (runner : KvRunner (CpuMemory F)) (ops : List RunnerOp)
      (id : RequestId) (tokens : List TokenId) (a : KVManager.Append) (kv : KVManager),
      w.config = c.llama (Llama.ModelConfig.accepted_of_validate hvalid) →
      cpuRunner w context config = .ok runner →
      (KvRunner.run (cpuBackend w) runner ops).kv.prepareAppend id tokens = (.ok a, kv) →
      a.tokens = tokens ∧ CpuAppendFits c runner.kv.pool.arrayElements kv a) ∧
    ∀ (runner : CudaRunner) (ops : List CudaOp) (id : RequestId) (tokens : List TokenId)
      (a : KVManager.Append) (kv : KVManager),
      cudaRunner (c.llama (Llama.ModelConfig.accepted_of_validate hvalid)) context
        config = .ok runner →
      (runner.run ops).kv.prepareAppend id tokens = (.ok a, kv) →
      ∃ before table, (runner.run ops).tables.find? id = some before ∧
        table.length = runner.kv.maxSequenceBlocks ∧
        (CudaRunner.append id tokens {} (runner.run ops)).2.launches = (runner.run ops).launches ++
          List.replicate c.layers ⟨table, ((kv.sequences.find? a.id).getD {}).sequence.blocks⟩ ∧
        ∀ workspace, CudaAppendFits c workspace (runner.kv.pool.reservedBytes / 2 / 4) kv a
            before.dirty table ↔
          tokens.length * c.intermediate + 255 ≤ Machine.int32Max :=
  ⟨fun _ _ ops _ _ _ _ hweights hmade hprepared => cpuAppend_fits _ hweights hmade ops hprepared,
    fun _ ops _ _ _ _ hmade hprepared => cudaAppend_fits_iff _ hmade ops hprepared⟩

end Runs

section Integers

local instance integerFloats : Scalar Int := integerScalar

def smallConfig : Llama.ModelConfig Int :=
  { layers := 1, hidden := 2, intermediate := 3, heads := 1, kvHeads := 1, vocabulary := 4,
    context := 8, eos := 0, rmsEpsilon := 1, ropeTheta := 2 }

theorem smallConfig_valid : smallConfig.validate = .ok () := by decide

def smallWeights : LlamaWeights Int :=
  { tinyWeights with config := smallConfig.llama (Llama.ModelConfig.accepted_of_validate
    smallConfig_valid) }

/-- A second token on each of the runners. -/
theorem runner_indices_small :
    (∃ runner a kv, cpuRunner smallWeights 8 ⟨2, 4, 2⟩ = .ok runner ∧
      (KvRunner.run (cpuBackend smallWeights) runner
        [.create "a", .append "a" [1]]).kv.prepareAppend "a" [2] = (.ok a, kv) ∧
      CpuAppendFits smallConfig runner.kv.pool.arrayElements kv a) ∧
    ∃ runner a kv before table, cudaRunner smallWeights.config 8 ⟨2, 4, 2⟩ = .ok runner ∧
      (runner.run [.create "a" id none none, .append "a" [1] {}]).kv.prepareAppend "a" [2] =
        (.ok a, kv) ∧
      (runner.run [.create "a" id none none, .append "a" [1] {}]).tables.find? "a" = some before ∧
      CudaAppendFits smallConfig {}
        (runner.kv.pool.reservedBytes / 2 / 4) kv a before.dirty table := by
  obtain ⟨hcpu, hcuda⟩ := @runner_indices Int smallConfig 8 ⟨2, 4, 2⟩ _ _ _ smallConfig_valid
  have hhost : ∃ runner, cpuRunner smallWeights 8 ⟨2, 4, 2⟩ = .ok runner ∧ ∃ a kv,
      (KvRunner.run (cpuBackend smallWeights) runner
        [.create "a", .append "a" [1]]).kv.prepareAppend "a" [2] = (.ok a, kv) :=
    ⟨_, rfl, _, _, rfl⟩
  have hdevice : ∃ runner, cudaRunner smallWeights.config 8 ⟨2, 4, 2⟩ = .ok runner ∧ ∃ a kv,
      (runner.run [.create "a" id none none, .append "a" [1] {}]).kv.prepareAppend "a" [2] =
        (.ok a, kv) := ⟨_, rfl, _, _, rfl⟩
  constructor
  · obtain ⟨runner, hmade, a, kv, hprepared⟩ := hhost
    exact ⟨runner, a, kv, hmade, hprepared,
      (hcpu smallWeights runner _ _ _ a kv rfl hmade hprepared).2⟩
  · obtain ⟨runner, hmade, a, kv, hprepared⟩ := hdevice
    obtain ⟨before, table, hfound, -, -, hfits⟩ := hcuda runner _ _ _ a kv hmade hprepared
    exact ⟨runner, a, kv, before, table, hmade, hprepared, hfound, (hfits {}).2 (by decide)⟩

/-- A model with the widest feed-forward network that `validate` accepts. -/
def wideConfig : Llama.ModelConfig Int :=
  { layers := 1, hidden := 2, intermediate := 65536, heads := 1, kvHeads := 1, vocabulary := 2,
    context := 131072, eos := 0, rmsEpsilon := 1, ropeTheta := 2 }

theorem wideConfig_valid : wideConfig.validate = .ok () := by decide

def wideWeights : LlamaWeights Int :=
  { tinyWeights with config := wideConfig.llama (Llama.ModelConfig.accepted_of_validate
    wideConfig_valid) }

/-- A prompt of 32768 tokens, which the runner accepts. -/
theorem runner_indices_wide : wideConfig.validate = .ok () ∧
    ∃ runner a kv before table, cudaRunner wideWeights.config 131072 ⟨131072, 1, 0⟩ = .ok runner ∧
      (runner.run [.create "a" id none none]).kv.prepareAppend "a" (List.replicate 32768 0) =
        (.ok a, kv) ∧
      (runner.run [.create "a" id none none]).tables.find? "a" = some before ∧
      ∀ workspace, ¬ CudaAppendFits wideConfig workspace (runner.kv.pool.reservedBytes / 2 / 4) kv a
        before.dirty table := by
  refine ⟨wideConfig_valid, ?_⟩
  obtain ⟨runner, hmade, hsequences, hreservations, hcontext, hvocabulary, hconfig⟩ : ∃ runner,
      cudaRunner wideWeights.config 131072 ⟨131072, 1, 0⟩ = .ok runner ∧
        (runner.run [.create "a" id none none]).kv.sequences = Lib.OrdMap.empty.insert "a" {} ∧
        (runner.run [.create "a" id none none]).kv.reservations = Lib.OrdMap.empty ∧
        (runner.run [.create "a" id none none]).kv.context = 131072 ∧
        (runner.run [.create "a" id none none]).kv.vocabulary = 2 ∧
        (runner.run [.create "a" id none none]).kv.config = ⟨131072, 1, 0⟩ :=
    ⟨_, rfl, rfl, rfl, rfl, rfl, rfl⟩
  obtain ⟨flat, pos, hledger⟩ := ((CudaInv.construct hmade).run [.create "a" id none none]).ledger
  have hprepared : ∃ a kv, (runner.run [.create "a" id none none]).kv.prepareAppend "a"
      (List.replicate 32768 0) = (.ok a, kv) := by
    refine hledger.prepare_fresh hsequences hreservations ?_ ?_ ?_ ?_
    · rw [← List.length_pos_iff, List.length_replicate]
      decide
    · rw [KVManager.validTokens, List.all_eq_true, hvocabulary]
      intro token hmem
      rw [List.eq_of_mem_replicate hmem]
      decide
    · rw [List.length_replicate, hcontext]
      decide
    · rw [List.length_replicate, hconfig]
      decide
  obtain ⟨a, kv, hprepared⟩ := hprepared
  obtain ⟨before, table, hfound, -, -, hfits⟩ := cudaAppend_fits_iff
    (Llama.ModelConfig.accepted_of_validate wideConfig_valid) hmade _ hprepared
  refine ⟨runner, a, kv, before, table, hmade, hprepared, hfound, fun workspace hfit => ?_⟩
  have hsmall := (hfits workspace).1 hfit
  rw [List.length_replicate] at hsmall
  exact absurd hsmall (by decide)

end Integers

end TinyInfer.MiniPrefix
