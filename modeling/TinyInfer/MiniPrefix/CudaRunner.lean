import TinyInfer.MiniPrefix.CpuRunner
import TinyInfer.MiniPrefix.KvAtomicity

/-!
# The block tables of the CUDA runner (`backend/cuda/llama_runner.cu`)

The kernels of an append read the pages of a sequence through a table in device
memory, of which every append uploads only a suffix. `BlockTable` is that table and
its dirty flag. The calls of the CUDA runtime are not modelled; each may fail, and a
failed upload may have written any entries (`AppendFaults`, `Upload`).

`launches` is a ghost: for every layer whose kernels were launched, the table on the
device and the block table of the transaction. `device_table_current` says that they
agree, in every run.
-/

namespace TinyInfer.MiniPrefix

open Lib KVManager

/-- `BlockTable`; the entries are uninitialised until they are uploaded. -/
structure BlockTable where
  data : List Nat
  dirty : Bool := false
  deriving DecidableEq, Repr

/-- What `append_kernel` and `attention_kernel` of a layer are launched on. -/
structure Launch where
  device : List Nat
  host : List Nat
  deriving DecidableEq, Repr

structure CudaRunner where
  kv : KVManager
  tables : OrdMap RequestId BlockTable := OrdMap.empty
  costTiming : Bool := false
  launches : List Launch := []

/-- The outcome of an upload; if it failed, the entries that were written. -/
inductive Upload where
  | completed
  | failed (e : Exn) (written : Nat → Bool)

/-- Where an append fails, if it does. -/
structure AppendFaults where
  /-- The vector of the logits. -/
  result : Option Exn := none
  timingBegin : Option Exn := none
  tailCopy : Option Exn := none
  timingEnd : Option Exn := none
  table : Upload := .completed
  /-- Everything from the workspace to the check of the logits, after the kernels of
  some layers were launched. -/
  compute : Option (Exn × Nat) := none

/-- The virtual functions, and the failures of the device during the call. -/
inductive CudaOp where
  | setCostTiming (enabled : Bool)
  | reserveRequest (id : RequestId) (maxTokens : Nat)
  | releaseReservation (id : RequestId)
  /-- `garbage` is what the allocated memory contains. -/
  | create (id : RequestId) (garbage : Nat → Nat) (allocate emplace : Option Exn)
  | forkSequence (source target : RequestId) (synchronize : Option Exn)
  | reusePrefix (id : RequestId) (prompt : List TokenId) (table : Upload)
  | cachePrefix (id : RequestId)
  | clearPrefixCache (synchronize : Option Exn)
  | append (id : RequestId) (tokens : List TokenId) (faults : AppendFaults)
  | release (id : RequestId) (synchronize : Option Exn)
  | clear (synchronize : Option Exn)

/-- `cudaMemcpyAsync` of the entries from `first` on, as far as they were `written`. -/
def uploadEntries (blocks : List Nat) (first : Nat) (written : Nat → Bool) (data : List Nat) :
    List Nat :=
  data.mapIdx fun i old => if first ≤ i ∧ i < blocks.length ∧
  written i then blocks.getD i 0 else old

namespace BlockTable

/-- An upload into the table, and the exception if it failed. -/
def upload (table : BlockTable) (blocks : List Nat) (first : Nat) (outcome : Upload) :
    Option Exn × BlockTable :=
  match outcome with
  | .completed =>
    (none, { table with data := uploadEntries blocks first (fun _ => true) table.data })
  | .failed e written =>
    (some e, { table with data := uploadEntries blocks first written table.data })

end BlockTable

namespace CudaRunner

/-- A call that may throw first. -/
def after (fault : Option Exn) (x : CudaRunner → Except Exn Unit × CudaRunner) (s : CudaRunner) :
    Except Exn Unit × CudaRunner :=
  match fault with
  | some e => (.error e, s)
  | none => x s

/-- A call of the manager. -/
def call {β : Type} (f : KVManager → Except Exn β × KVManager) (s : CudaRunner) :
    Except Exn Unit × CudaRunner :=
  let (outcome, kv) := f s.kv
  (outcome.map fun _ => (), { s with kv })

def create (id : RequestId) (garbage : Nat → Nat) (allocate emplace : Option Exn) (s : CudaRunner) :
    Except Exn Unit × CudaRunner :=
  if s.kv.contains id then (.error (.invalidArgument "sequence already exists"), s)
  else
    match allocate with
    | some e => (.error e, s)
    | none =>
      let table := { data := (List.range s.kv.maxSequenceBlocks).map garbage : BlockTable }
      match s.kv.create id with
      | (.error e, kv) => (.error e, { s with kv })
      | (.ok (), kv) =>
        match emplace with
        | some e => (.error e, { s with kv := (kv.release id).2 })
        | none => (.ok (), { s with kv, tables := s.tables.emplace id table })

def forkSequence (source target : RequestId) (s : CudaRunner) : Except Exn Unit × CudaRunner :=
  match s.kv.forkSequence source target with
  | (.error e, kv) => (.error e, { s with kv })
  | (.ok (), kv) =>
    match s.tables.find? target with
    | none => (.error (.outOfRange "map::at"), { s with kv })
    | some table =>
      (.ok (), { s with kv, tables := s.tables.insert target { table with dirty := true } })

def reusePrefix (id : RequestId) (prompt : List TokenId) (outcome : Upload) (s : CudaRunner) :
    Except Exn Unit × CudaRunner :=
  match s.kv.reusePrefix id prompt with
  | (.error e, kv) => (.error e, { s with kv })
  | (.ok used, kv) =>
    let blocks := ((kv.sequences.find? id).getD {}).sequence.blocks
    if used = 0 then (.ok (), { s with kv })
    else
      match s.tables.find? id with
      | none => (.error (.outOfRange "map::at"), { s with kv := (kv.resetSequence id).2 })
      | some table =>
        match table.upload blocks 0 outcome with
        | (some e, table) =>
          (.error e, { s with kv := (kv.resetSequence id).2, tables := s.tables.insert id table })
        | (none, table) => (.ok (), { s with kv, tables := s.tables.insert id table })

/-- The handler of an append: the table is dirty, the transaction rolled back. -/
def failAppend (s : CudaRunner) (append : KVManager.Append) (table : BlockTable) (e : Exn) :
    Except Exn Unit × CudaRunner :=
  (.error e, { s with
    kv := s.kv.rollback (some append)
    tables := s.tables.insert append.id { table with dirty := true } })

/-- The body of `append` once the table of the sequence is at hand. -/
def transact (append : KVManager.Append) (faults : AppendFaults) (table : BlockTable)
    (s : CudaRunner) : Except Exn Unit × CudaRunner :=
  let blocks := ((s.kv.sequences.find? append.id).getD {}).sequence.blocks
  let timed := s.costTiming && append.copy.isSome
  let copier (_ : TailCopyRegion) : Except Exn Unit :=
    match faults.tailCopy with
    | some e => .error e
    | none => .ok ()
  match if timed then faults.timingBegin else none with
  | some e => failAppend s append table e
  | none =>
    match s.kv.copySharedTailRegion (some append) copier with
    | (.error e, _) => failAppend s append table e
    | (.ok (), transaction) =>
      match if timed then faults.timingEnd else none with
      | some e => failAppend s append table e
      | none =>
        let first :=
          if table.dirty then 0
          else if append.copy.isSome then append.originalBlocks - 1
          else append.originalBlocks
        match if blocks.length ≠ first then table.upload blocks first faults.table
          else (none, table) with
        | (some e, table) => failAppend s append table e
        | (none, table) =>
          let launch : Launch := { device := table.data, host := blocks }
          match faults.compute with
          | some (e, layers) =>
            failAppend { s with
              launches := s.launches ++ List.replicate (min layers s.kv.layers) launch }
              append table e
          | none =>
            let s := { s with launches := s.launches ++ List.replicate s.kv.layers launch }
            match s.kv.commit transaction with
            | (.error e, kv, transaction) => (.error e, { s with
                kv := kv.rollback transaction, tables := s.tables.insert append.id table })
            | (.ok (), kv, _) => (.ok (), { s with
                kv, tables := s.tables.insert append.id { table with dirty := false } })

def append (id : RequestId) (tokens : List TokenId) (faults : AppendFaults) (s : CudaRunner) :
    Except Exn Unit × CudaRunner :=
  match s.kv.prepareAppend id tokens with
  | (.error e, kv) => (.error e, { s with kv })
  | (.ok append, kv) =>
    match faults.result, s.tables.find? id with
    | some e, _ => (.error e, { s with kv := kv.rollback (some append) })
    | none, none =>
      (.error (.outOfRange "map::at"), { s with kv := kv.rollback (some append) })
    | none, some table => transact append faults table { s with kv }

def release (id : RequestId) (s : CudaRunner) : Except Exn Unit × CudaRunner :=
  match s.kv.release id with
  | (.error e, kv) => (.error e, { s with kv })
  | (.ok (), kv) => (.ok (), { s with kv, tables := s.tables.erase id })

def clear (s : CudaRunner) : Except Exn Unit × CudaRunner :=
  match s.kv.clear with
  | (.error e, kv) => (.error e, { s with kv })
  | (.ok (), kv) => (.ok (), { s with kv, tables := OrdMap.empty })

/-- One call; it returns or throws. -/
def step (s : CudaRunner) : CudaOp → Except Exn Unit × CudaRunner
  | .setCostTiming enabled => (.ok (), { s with costTiming := enabled })
  | .reserveRequest id maxTokens => call (fun kv => kv.reserveRequest id maxTokens) s
  | .releaseReservation id => (.ok (), { s with kv := s.kv.releaseReservation id })
  | .create id garbage allocate emplace => create id garbage allocate emplace s
  | .forkSequence source target synchronize => after synchronize (forkSequence source target) s
  | .reusePrefix id prompt table => reusePrefix id prompt table s
  | .cachePrefix id => call (fun kv => kv.cachePrefix id) s
  | .clearPrefixCache synchronize => after synchronize (call fun kv => kv.clearPrefixCache) s
  | .append id tokens faults => append id tokens faults s
  | .release id synchronize => after synchronize (release id) s
  | .clear synchronize => after synchronize clear s

def run (s : CudaRunner) (ops : List CudaOp) : CudaRunner := ops.foldl (fun s op => (s.step op).2) s

end CudaRunner

/-- The constructor of `CudaRunner`, as far as the manager goes. -/
def cudaRunner {F : Type} (c : LlamaConfig F) (context : Nat) (config : KvCacheConfig) :
    Except Exn CudaRunner :=
  match construct config c.layers c.kvWidth context c.vocabulary with
  | .error e => .error e
  | .ok kv =>
    if context < 1 ∨ c.context < context then
      .error (.invalidArgument "invalid runner context")
    else .ok { kv }

/-! ## Uploads -/

/-- The entries a kernel may read are those of the block table. -/
def Agrees (data blocks : List Nat) : Prop :=
  ∀ (i b : Nat), blocks[i]? = some b → data[i]? = some b

theorem Agrees.nil (data : List Nat) : Agrees data [] := by
  intro i b hb
  cases hb

@[simp] theorem length_uploadEntries (blocks : List Nat) (first : Nat) (written : Nat → Bool)
    (data : List Nat) : (uploadEntries blocks first written data).length = data.length :=
  List.length_mapIdx

/-- An upload completes a table that agrees below its first entry. -/
theorem agrees_uploadEntries {data blocks : List Nat} {first : Nat}
    (hsize : blocks.length ≤ data.length)
    (hhold : ∀ i < first, ∀ b, blocks[i]? = some b → data[i]? = some b) :
    Agrees (uploadEntries blocks first (fun _ => true) data) blocks := by
  intro i b hb
  have hi : i < blocks.length := (List.getElem?_eq_some_iff.mp hb).1
  have hdata := List.getElem?_eq_getElem (Nat.lt_of_lt_of_le hi hsize)
  unfold uploadEntries
  rw [List.getElem?_mapIdx]
  by_cases hfirst : first ≤ i
  · rw [hdata, Option.map_some, if_pos ⟨hfirst, hi, rfl⟩, List.getD_eq_getElem?_getD, hb]
    rfl
  · rw [hhold i (Nat.lt_of_not_le hfirst) b hb, Option.map_some, if_neg fun h => hfirst h.1]

theorem upload_data_length (table : BlockTable) (blocks : List Nat) (first : Nat)
    (outcome : Upload) : (table.upload blocks first outcome).2.data.length = table.data.length := by
  unfold BlockTable.upload
  cases outcome with
  | completed => exact length_uploadEntries _ _ _ _
  | failed e written => exact length_uploadEntries _ _ _ _

/-! ## The tables -/

/-- Every sequence has its table, and a table that is not dirty is current. -/
structure TablesInv (n : Nat) (sequences : OrdMap RequestId State)
    (tables : OrdMap RequestId BlockTable) : Prop where
  domain : ∀ id, sequences.contains id = tables.contains id
  size : ∀ id table, tables.find? id = some table → table.data.length = n
  current : ∀ id table state, tables.find? id = some table → table.dirty = false →
    sequences.find? id = some state → Agrees table.data state.sequence.blocks

section Tables

variable {n : Nat} {sequences : OrdMap RequestId State} {tables : OrdMap RequestId BlockTable}
  {id : RequestId} {state : State} {table : BlockTable}

/-- A sequence may be stored with a table that is current or dirty. -/
theorem TablesInv.put (h : TablesInv n sequences tables) (hsize : table.data.length = n)
    (hcurrent : table.dirty = false → Agrees table.data state.sequence.blocks) :
    TablesInv n (sequences.insert id state) (tables.insert id table) := by
  constructor
  · intro other
    unfold OrdMap.contains
    rw [OrdMap.find?_insert, OrdMap.find?_insert]
    split
    · rfl
    · exact h.domain other
  · intro other table' htable
    rw [OrdMap.find?_insert] at htable
    split at htable
    · cases htable
      exact hsize
    · exact h.size other table' htable
  · intro other table' state' htable hclean hs
    rw [OrdMap.find?_insert] at htable hs
    split at htable
    · next heq =>
      rw [if_pos heq] at hs
      cases htable
      cases hs
      exact hcurrent hclean
    · next hne =>
      rw [if_neg hne] at hs
      exact h.current other table' state' htable hclean hs

theorem TablesInv.putSequence (h : TablesInv n sequences tables)
    (htable : tables.find? id = some table)
    (hcurrent : table.dirty = false → Agrees table.data state.sequence.blocks) :
    TablesInv n (sequences.insert id state) tables := by
  have hput : TablesInv n (sequences.insert id state) (tables.insert id table) :=
    h.put (h.size id table htable) hcurrent
  rw [OrdMap.insert_eq_self htable] at hput
  exact hput

/-- A table may change where it stays current or becomes dirty. -/
theorem TablesInv.putTable (h : TablesInv n sequences tables)
    (hs : sequences.find? id = some state) (hsize : table.data.length = n)
    (hcurrent : table.dirty = false → Agrees table.data state.sequence.blocks) :
    TablesInv n sequences (tables.insert id table) := by
  have hput : TablesInv n (sequences.insert id state) (tables.insert id table) :=
    h.put hsize hcurrent
  rw [OrdMap.insert_eq_self hs] at hput
  exact hput

/-- Erasing a sequence with its table keeps the tables right. -/
theorem TablesInv.erase (h : TablesInv n sequences tables) (id : RequestId) :
    TablesInv n (sequences.erase id) (tables.erase id) := by
  constructor
  · intro other
    unfold OrdMap.contains
    rw [OrdMap.find?_erase, OrdMap.find?_erase]
    split
    · rfl
    · exact h.domain other
  · intro other table htable
    rw [OrdMap.find?_erase] at htable
    split at htable
    · cases htable
    · exact h.size other table htable
  · intro other table state htable hclean hs
    rw [OrdMap.find?_erase] at htable hs
    split at htable
    · cases htable
    · next hne =>
      rw [if_neg hne] at hs
      exact h.current other table state htable hclean hs

theorem TablesInv.found (h : TablesInv n sequences tables) (hs : sequences.find? id = some state) :
    ∃ table, tables.find? id = some table ∧ table.data.length = n := by
  have hcontains : tables.contains id = true := by
    rw [← h.domain id, OrdMap.contains, hs]
    rfl
  obtain ⟨table, htable⟩ := Option.isSome_iff_exists.mp hcontains
  exact ⟨table, htable, h.size id table htable⟩

end Tables

/-! ## Calls -/

/-- The invariant of the runner; `n` entries fit a table. -/
structure CudaInv (n : Nat) (s : CudaRunner) : Prop where
  ledger : KvOk (fun _ => ()) (fun _ _ => ()) s.kv none
  capacity : s.kv.maxSequenceBlocks = n
  tables : TablesInv n s.kv.sequences s.tables
  launches : ∀ launch ∈ s.launches, Agrees launch.device launch.host

variable {n : Nat} {s : CudaRunner}

theorem maxSequenceBlocks_eq {kv kv' : KVManager} (hcontext : kv'.context = kv.context)
    (hconfig : kv'.config = kv.config) : kv'.maxSequenceBlocks = kv.maxSequenceBlocks := by
  unfold KVManager.maxSequenceBlocks
  rw [hcontext, hconfig]

/-- A call after which the sequences are the same. -/
theorem CudaInv.keep (h : CudaInv n s) {kv' : KVManager} (hcontext : kv'.context = s.kv.context)
    (hconfig : kv'.config = s.kv.config) (hsequences : kv'.sequences = s.kv.sequences)
    (hledger : KvOk (fun _ => ()) (fun _ _ => ()) kv' none) : CudaInv n { s with kv := kv' } := by
  refine ⟨hledger, (maxSequenceBlocks_eq hcontext hconfig).trans h.capacity, ?_, h.launches⟩
  show TablesInv n kv'.sequences s.tables
  rw [hsequences]
  exact h.tables

/-- A call that the device may refuse first. -/
theorem CudaInv.after (h : CudaInv n s) (fault : Option Exn)
    {x : CudaRunner → Except Exn Unit × CudaRunner} (hx : CudaInv n (x s).2) :
    CudaInv n (CudaRunner.after fault x s).2 := by
  unfold CudaRunner.after
  cases fault with
  | some e => exact h
  | none => exact hx

theorem CudaInv.reserveRequest (h : CudaInv n s) (id : RequestId) (maxTokens : Nat) :
    CudaInv n (CudaRunner.call (fun kv => kv.reserveRequest id maxTokens) s).2 := by
  obtain ⟨flat, pos, hinv⟩ := h.ledger
  obtain ⟨reservations, heq⟩ := reserveRequest_frame s.kv id maxTokens
  have hledger := (hinv.reserveRequest id maxTokens).ok
  unfold CudaRunner.call
  dsimp only
  rw [heq] at hledger ⊢
  exact h.keep rfl rfl rfl hledger

/-- Creating a sequence with a new id adds an empty one. -/
theorem KvInv.create_new {α : Type} {spec : List TokenId → α} {payload : Nat → Nat → α}
    {kv : KVManager} {flat : FlatCache} {pos : Nat → Nat} (h : KvInv spec payload kv none flat pos)
    {id : RequestId} (hnew : kv.sequences.find? id = none) :
    kv.create id = (.ok (), { kv with sequences := kv.sequences.insert id {} }) := by
  have hidle := h.requireIdle.resolve_right fun hbusy => by simp at hbusy
  unfold KVManager.create
  rw [hidle.1]
  simp only [KVManager.contains, OrdMap.contains, hnew, Option.isSome_none, Bool.false_eq_true,
    if_false, OrdMap.emplace_eq_insert _ hnew]

/-- A new sequence keeps the invariant, also where its table cannot be allocated. -/
theorem CudaInv.create (h : CudaInv n s) (id : RequestId) (garbage : Nat → Nat)
    (allocate emplace : Option Exn) :
    CudaInv n (CudaRunner.create id garbage allocate emplace s).2 := by
  obtain ⟨flat, pos, hinv⟩ := h.ledger
  unfold CudaRunner.create
  split
  · exact h
  next hnew =>
  cases allocate with
  | some e => exact h
  | none =>
  have hnone : s.kv.sequences.find? id = none := Option.isNone_iff_eq_none.mp (by
    simpa [KVManager.contains, OrdMap.contains] using hnew)
  have htable : s.tables.find? id = none := by
    have hdomain := h.tables.domain id
    rw [OrdMap.contains, OrdMap.contains, hnone] at hdomain
    exact Option.isSome_eq_false_iff.mp hdomain.symm |> Option.isNone_iff_eq_none.mp
  have hledger := (hinv.create id).ok
  have hcreate := hinv.create_new hnone
  rw [hcreate] at hledger
  simp only [hcreate]
  cases emplace with
  | none =>
    refine ⟨hledger, h.capacity, ?_, h.launches⟩
    simp only [OrdMap.emplace_eq_insert _ htable]
    refine h.tables.put ?_ fun _ => Agrees.nil _
    rw [List.length_map, List.length_range, h.capacity]
  | some e =>
    -- the new sequence is released again
    obtain ⟨flat', pos', hinv'⟩ := hledger
    rcases hinv'.release id with ⟨e', -, hno⟩ | ⟨state, -, hfind, heq, hledger'⟩
    · refine absurd ⟨rfl, ?_⟩ hno
      rw [OrdMap.contains, OrdMap.find?_insert_self]
      rfl
    · rw [heq] at hledger'
      simp only [heq]
      refine ⟨hledger'.ok, Eq.trans ?_ h.capacity, ?_, h.launches⟩
      · exact maxSequenceBlocks_eq rfl (KvBlockPool.unrefAll_config _ _)
      · simp only [OrdMap.erase_insert_self, OrdMap.erase_eq_self hnone]
        exact h.tables

/-- A fork keeps the invariant, as its table is dirty. -/
theorem CudaInv.forkSequence (h : CudaInv n s) (source target : RequestId) :
    CudaInv n (CudaRunner.forkSequence source target s).2 := by
  obtain ⟨flat, pos, hinv⟩ := h.ledger
  unfold CudaRunner.forkSequence
  rcases hinv.forkSequence source target with ⟨e, heq⟩ |
    ⟨original, pool, -, -, htarget, heq, hledger, hconfig⟩
  · simp only [heq]
    exact h
  · obtain ⟨table, htable, hsize⟩ := h.tables.found htarget
    simp only [heq, htable]
    refine ⟨hledger.ok, Eq.trans ?_ h.capacity, ?_, h.launches⟩
    · exact maxSequenceBlocks_eq rfl hconfig
    · exact h.tables.put hsize fun hclean => by cases hclean

/-- `reset_sequence` after a failed upload. -/
theorem CudaInv.resetSequence (h : CudaInv n s) {kv : KVManager}
    (hledger : KvOk (fun _ => ()) (fun _ _ => ()) kv none) (hcapacity : kv.maxSequenceBlocks = n)
    {id : RequestId} {state : State} (hsequences : kv.sequences = s.kv.sequences.insert id state)
    {table : BlockTable} (hsize : table.data.length = n) :
    CudaInv n { s with kv := (kv.resetSequence id).2, tables := s.tables.insert id table } := by
  obtain ⟨flat, pos, hinv⟩ := hledger
  have hs : kv.sequences.find? id = some state := by rw [hsequences, OrdMap.find?_insert_self]
  rcases hinv.resetSequence id with ⟨e, heq⟩ | ⟨state', -, hfind, heq⟩
  · -- it is idle, so it is reset
    have hidle := hinv.requireIdle.resolve_right fun hbusy => by simp at hbusy
    unfold KVManager.resetSequence KVManager.idleState at heq
    rw [hidle.1, hs] at heq
    simp [hinv.not_appending hs] at heq
  · simp only [heq]
    refine ⟨(hinv.emptySequence hfind).ok, Eq.trans ?_ hcapacity, ?_, h.launches⟩
    · exact maxSequenceBlocks_eq rfl (KvBlockPool.unrefAll_config _ _)
    · simp only [hsequences, OrdMap.insert_insert_self]
      exact h.tables.put hsize fun _ => Agrees.nil _

/-- The block table of a sequence fits its device table. -/
theorem KvInv.blocks_le {α : Type} {spec : List TokenId → α} {payload : Nat → Nat → α}
    {kv : KVManager} {flat : FlatCache} {pos : Nat → Nat} (h : KvInv spec payload kv none flat pos)
    {id : RequestId} {state : State} (hs : kv.sequences.find? id = some state) :
    state.sequence.blocks.length ≤ kv.maxSequenceBlocks := by
  rw [(h.idle id state hs fun a ha => by cases ha).2]
  exact pagesFor_mono (h.sequence id state hs).fits

/-- A restored prefix keeps the invariant, whether its upload arrives or not. -/
theorem CudaInv.reusePrefix (h : CudaInv n s) (id : RequestId) (prompt : List TokenId)
    (outcome : Upload) : CudaInv n (CudaRunner.reusePrefix id prompt outcome s).2 := by
  obtain ⟨flat, pos, hinv⟩ := h.ledger
  unfold CudaRunner.reusePrefix
  rcases hinv.reusePrefix id prompt with ⟨e, kv', flat', heq, hsame, hledger, -, hconfig⟩ |
    ⟨count, found, prefixCache, pool, costs, flat', -, hfind, -, heq, hledger, hconfig⟩
  · obtain ⟨pool, prefixCache, costs, sequences, hframe⟩ := reusePrefix_frame s.kv id prompt
    rw [heq] at hframe
    have hframe' : kv' = _ := hframe
    simp only [heq]
    exact h.keep (by rw [hframe']) hconfig hsame.sequences hledger.ok
  · obtain ⟨table, htable, hsize⟩ := h.tables.found hfind
    generalize hkv : ({ s.kv with
      pool, prefixCache, costs
      sequences := s.kv.sequences.insert id
        { sequence := { used := count, blocks := found, tokens := prompt.take count } } } :
      KVManager) = kv at heq hledger
    have hsequences : kv.sequences = s.kv.sequences.insert id
        { sequence := { used := count, blocks := found, tokens := prompt.take count } } := by
      rw [← hkv]
    have hcapacity : kv.maxSequenceBlocks = n := by
      rw [← h.capacity, ← hkv]
      exact maxSequenceBlocks_eq rfl hconfig
    have hs : kv.sequences.find? id =
        some { sequence := { used := count, blocks := found, tokens := prompt.take count } } := by
      rw [hsequences, OrdMap.find?_insert_self]
    have hfits := hledger.blocks_le hs
    rw [hcapacity] at hfits
    simp only [heq, hs, Option.getD_some, htable]
    split
    · -- nothing is reused: the block table is empty
      next hzero =>
      have hempty : found = [] := by
        have hlength := (hledger.idle id _ hs fun a ha => by cases ha).2
        dsimp only at hlength
        rw [hzero, pagesFor_zero] at hlength
        exact List.length_eq_zero_iff.mp hlength
      refine ⟨hledger.ok, hcapacity, ?_, h.launches⟩
      simp only [hsequences]
      refine h.tables.putSequence htable fun _ => ?_
      rw [hempty]
      exact Agrees.nil _
    · cases outcome with
      | completed =>
        refine ⟨hledger.ok, hcapacity, ?_, h.launches⟩
        simp only [BlockTable.upload, hsequences]
        refine h.tables.put ((length_uploadEntries _ _ _ _).trans hsize) fun _ => ?_
        refine agrees_uploadEntries (by rw [hsize]; exact hfits) fun i hi => ?_
        exact absurd hi (Nat.not_lt_zero i)
      | failed e written =>
        exact h.resetSequence hledger.ok hcapacity hsequences
          ((length_uploadEntries _ _ _ _).trans hsize)

theorem CudaInv.cachePrefix (h : CudaInv n s) (id : RequestId) :
    CudaInv n (CudaRunner.call (fun kv => kv.cachePrefix id) s).2 := by
  obtain ⟨flat, pos, hinv⟩ := h.ledger
  unfold CudaRunner.call
  rcases hinv.cachePrefix id with ⟨e, heq, -⟩ | ⟨prefixCache, pool, costs, flat', -, heq, hledger,
    hconfig⟩
  · simp only [heq]
    exact h
  · simp only [heq]
    exact h.keep rfl hconfig rfl hledger.ok

theorem CudaInv.clearPrefixCache (h : CudaInv n s) :
    CudaInv n (CudaRunner.call (fun kv => kv.clearPrefixCache) s).2 := by
  obtain ⟨flat, pos, hinv⟩ := h.ledger
  unfold CudaRunner.call
  rcases hinv.clearPrefixCache with ⟨e, heq, -⟩ | ⟨prefixCache, pool, flat', -, heq, -, hledger,
    hconfig⟩
  · simp only [heq]
    exact h
  · simp only [heq]
    exact h.keep rfl hconfig rfl hledger.ok

/-- A release drops the sequence with its table. -/
theorem CudaInv.release (h : CudaInv n s) (id : RequestId) :
    CudaInv n (CudaRunner.release id s).2 := by
  obtain ⟨flat, pos, hinv⟩ := h.ledger
  unfold CudaRunner.release
  rcases hinv.release id with ⟨e, heq, -⟩ | ⟨state, -, -, heq, hledger⟩
  · simp only [heq]
    exact h
  · rw [heq] at hledger
    simp only [heq]
    refine ⟨hledger.ok, Eq.trans ?_ h.capacity, h.tables.erase id, h.launches⟩
    exact maxSequenceBlocks_eq rfl (KvBlockPool.unrefAll_config _ _)

/-- Clearing drops all sequences with their tables. -/
theorem CudaInv.clear (h : CudaInv n s) : CudaInv n (CudaRunner.clear s).2 := by
  obtain ⟨flat, pos, hinv⟩ := h.ledger
  unfold CudaRunner.clear
  rcases hinv.clear with ⟨e, heq⟩ | ⟨prefixCache, pool, flat', -, heq, -, hledger, hconfig⟩
  · simp only [heq]
    exact h
  · simp only [heq]
    refine ⟨hledger.ok, Eq.trans ?_ h.capacity, ?_, h.launches⟩
    · exact maxSequenceBlocks_eq rfl hconfig
    · refine ⟨fun id => rfl, fun id table htable => ?_, fun id table state htable => ?_⟩
      · cases htable
      · cases htable

/-! ## Appends -/

/-- The transaction `a` on a runner: what happens to the tables if it is rolled back
or committed, and which entries of the block table are old. -/
structure CudaOpen (n : Nat) (s : CudaRunner) (kv : KVManager) (a : KVManager.Append)
    (table : BlockTable) (state : State) : Prop where
  live : ∃ flat pos, KvInv (fun _ => ()) (fun _ _ => ()) kv (some a) flat pos
  copied : a.copied = false
  capacity : kv.maxSequenceBlocks = n
  found : s.tables.find? a.id = some table
  size : table.data.length = n
  sequence : kv.sequences.find? a.id = some state
  sequences : kv.sequences = s.kv.sequences.insert a.id state
  restored : (kv.rollback (some a)).sequences = s.kv.sequences
  restoredCapacity : (kv.rollback (some a)).maxSequenceBlocks = n
  fits : state.sequence.blocks.length ≤ n
  old : table.dirty = false →
    ∀ i < (if a.copy.isSome then a.originalBlocks - 1 else a.originalBlocks), ∀ b,
    state.sequence.blocks[i]? = some b → table.data[i]? = some b

/-- What `prepare_append` leaves. -/
theorem CudaInv.prepareAppend (h : CudaInv n s) (id : RequestId) (tokens : List TokenId) :
    (∃ e kv, s.kv.prepareAppend id tokens = (.error e, kv) ∧ CudaInv n { s with kv := kv }) ∨
      ∃ a kv table state, s.kv.prepareAppend id tokens = (.ok a, kv) ∧ a.id = id ∧
        CudaOpen n s kv a table state := by
  obtain ⟨flat, pos, hinv⟩ := h.ledger
  rcases hinv.prepareAppend id tokens with ⟨e, heq, -⟩ |
    ⟨e, kv', flat', old, heq, -, hevicted, hinv', -⟩ |
    ⟨a, kv₁, kv', flat', old, fresh, heq, hchecked, hevicted, hinv₁, rfl, rfl, hprepared⟩
  -- refused before any page was touched
  · exact Or.inl ⟨e, s.kv, heq, h⟩
  -- refused after evictions
  · refine Or.inl ⟨e, kv', heq, h.keep ?_ hevicted.config ?_ hinv'.ok⟩
    · rw [hevicted.same]
    · rw [hevicted.same]
  -- prepared: the table is the one of the sequence
  · obtain ⟨table, htable, hsize⟩ := h.tables.found hchecked.found
    have hlive := hprepared.inv hinv₁ (hevicted.checked hchecked)
    have hsequences₁ : kv₁.sequences = s.kv.sequences := by rw [hevicted.same]
    have hcapacity₁ : kv₁.maxSequenceBlocks = n := by
      rw [← h.capacity]
      exact maxSequenceBlocks_eq (by rw [hevicted.same]) hevicted.config
    have hcapacity : kv'.maxSequenceBlocks = n := by
      rw [← hcapacity₁]
      exact maxSequenceBlocks_eq (by rw [hprepared.shape]) hprepared.config
    let live : State :=
      { sequence := { old.sequence with
          blocks := replaceTail a.copy old.sequence.blocks ++ fresh }, appending := true }
    have hsequences : kv'.sequences = s.kv.sequences.insert a.id live := by
      rw [hprepared.shape, ← hsequences₁]
    have hfound : kv'.sequences.find? a.id = some live := by
      rw [hsequences, OrdMap.find?_insert_self]
    -- the rollback puts the evicted state back
    have hold₁ : kv₁.sequences.find? a.id = some old := by rw [hsequences₁, hchecked.found]
    obtain ⟨pool, hrollback, -⟩ := hprepared.rollback hinv₁ hold₁ kv'.reservations a.copied
    have hrolled : kv'.rollback (some a) =
      { kv₁ with pool, reservations := kv'.reservations } := hrollback
    refine Or.inr ⟨a, kv', table, live, heq, rfl, ⟨_, _, hlive⟩, hprepared.copied, hcapacity,
      htable, hsize, hfound, hsequences, ?_, ?_, ?_, fun hclean i hi b hb => ?_⟩
    · rw [hrolled]
      exact hsequences₁
    · rw [rollback_eq hfound, ← hcapacity]
      exact maxSequenceBlocks_eq rfl (KvBlockPool.unrefAll_config _ _)
    · obtain ⟨state', hs', htx⟩ := hlive.transaction a rfl
      obtain rfl := Option.some.inj (hs'.symm.trans hfound)
      rw [htx.grown, ← hcapacity]
      exact pagesFor_mono htx.fits
    · -- below the replaced tail, the block table is the one before the append
      have hlength := hprepared.originalBlocks
      refine h.tables.current a.id table old htable hclean hchecked.found i b ?_
      have hb' : (replaceTail a.copy old.sequence.blocks ++ fresh)[i]? = some b := hb
      have hi' : i < old.sequence.blocks.length := by
        split at hi
        · omega
        · omega
      rw [List.getElem?_append_left (by rw [replaceTail_length]; exact hi')] at hb'
      cases hc : a.copy with
      | none =>
        rw [hc] at hb'
        exact hb'
      | some c =>
        rw [hc] at hb'
        rw [hc, if_pos Option.isSome_some] at hi
        rw [replaceTail, List.getElem?_set_ne (by omega)] at hb'
        exact hb'

/-- The handler of an append. -/
theorem CudaOpen.fail {kv : KVManager} {a : KVManager.Append} {table : BlockTable} {state : State}
    (ho : CudaOpen n s kv a table state) (h : CudaInv n s) {launches : List Launch}
    (hlaunches : ∀ launch ∈ launches, Agrees launch.device launch.host) {table' : BlockTable}
    (hsize : table'.data.length = n) (e : Exn) :
    CudaInv n (CudaRunner.failAppend { s with kv := kv, launches := launches } a table' e).2 := by
  obtain ⟨flat, pos, hlive⟩ := ho.live
  refine ⟨hlive.rollback.ok, ho.restoredCapacity, ?_, hlaunches⟩
  show TablesInv n (kv.rollback (some a)).sequences _
  rw [ho.restored]
  cases hfind : s.kv.sequences.find? a.id with
  | none =>
    have hdomain := h.tables.domain a.id
    rw [OrdMap.contains, OrdMap.contains, hfind, ho.found] at hdomain
    cases hdomain
  | some old => exact h.tables.putTable hfind hsize fun hclean => by cases hclean

/-- The table a clean upload of the suffix leaves is current. -/
theorem CudaOpen.uploaded {kv : KVManager} {a : KVManager.Append} {table : BlockTable}
    {state : State} (ho : CudaOpen n s kv a table state) {first : Nat}
    (hfirst : first = if table.dirty then 0
      else if a.copy.isSome then a.originalBlocks - 1 else a.originalBlocks)
    {outcome : Upload} {table' : BlockTable}
    (hrun : (if state.sequence.blocks.length ≠ first then
        table.upload state.sequence.blocks first outcome else (none, table)) = (none, table')) :
    Agrees table'.data state.sequence.blocks := by
  have hhold : ∀ i < first, ∀ b, state.sequence.blocks[i]? = some b → table.data[i]? = some b := by
    intro i hi b hb
    cases hdirty : table.dirty with
    | true =>
      rw [hfirst, hdirty, if_pos rfl] at hi
      exact absurd hi (Nat.not_lt_zero i)
    | false =>
      rw [hfirst, hdirty, if_neg Bool.false_ne_true] at hi
      exact ho.old hdirty i hi b hb
  split at hrun
  · cases outcome with
    | completed =>
      obtain rfl := (Prod.mk.inj hrun).2
      exact agrees_uploadEntries (by rw [ho.size]; exact ho.fits) hhold
    | failed e written => cases (Prod.mk.inj hrun).1
  · next hnone =>
    -- every entry is old
    obtain rfl := (Prod.mk.inj hrun).2
    intro i b hb
    have hi : i < state.sequence.blocks.length := (List.getElem?_eq_some_iff.mp hb).1
    rw [not_not] at hnone
    exact hhold i (hnone ▸ hi) b hb

/-- An append keeps the invariant, whatever fails between its device calls. -/
theorem CudaOpen.transact {kv : KVManager} {a : KVManager.Append} {table : BlockTable}
    {state : State} (ho : CudaOpen n s kv a table state) (h : CudaInv n s) (faults : AppendFaults) :
    CudaInv n (CudaRunner.transact a faults table { s with kv := kv }).2 := by
  obtain ⟨flat, pos, hlive⟩ := ho.live
  unfold CudaRunner.transact
  simp only [ho.sequence, Option.getD_some]
  split
  · exact ho.fail h h.launches ho.size _
  -- the tail copy
  split
  · exact ho.fail h h.launches ho.size _
  next transaction hcopy =>
  have htransaction : ∃ copied, (a.copy.isSome → copied = true) ∧
      transaction = some { a with copied } := by
    rcases copySharedTailRegion_cases kv a _ with ⟨hnone, heq⟩ | ⟨c, hc, ⟨e, -, heq⟩ | ⟨-, heq⟩⟩
    · rw [heq] at hcopy
      refine ⟨a.copied, fun hsome => ?_, (Prod.mk.inj hcopy).2.symm⟩
      rw [hnone] at hsome
      cases hsome
    · rw [heq] at hcopy
      cases hcopy
    · rw [heq] at hcopy
      exact ⟨true, fun _ => rfl, (Prod.mk.inj hcopy).2.symm⟩
  obtain ⟨copied, hready, rfl⟩ := htransaction
  split
  · exact ho.fail h h.launches ho.size _
  -- the upload
  generalize hfirst : (if table.dirty then 0
    else if a.copy.isSome then a.originalBlocks - 1 else a.originalBlocks) = first
  generalize hupload : (if state.sequence.blocks.length ≠ first then
    table.upload state.sequence.blocks first faults.table else (none, table)) = uploaded
  obtain ⟨failed, table'⟩ := uploaded
  have hsize : table'.data.length = n := by
    split at hupload
    · have hlength := upload_data_length table state.sequence.blocks first faults.table
      rw [hupload] at hlength
      exact hlength.trans ho.size
    · rw [← (Prod.mk.inj hupload).2]
      exact ho.size
  cases failed with
  | some e => exact ho.fail h h.launches hsize e
  | none =>
  have hagrees := ho.uploaded hfirst.symm hupload
  -- every layer launches with the table that was uploaded
  have hlaunches : ∀ layers, ∀ launch ∈ s.launches ++ List.replicate layers
      ({ device := table'.data, host := state.sequence.blocks } : Launch),
      Agrees launch.device launch.host := by
    intro layers launch hlaunch
    rcases List.mem_append.mp hlaunch with hhold | hnew
    · exact h.launches launch hhold
    · rw [List.eq_of_mem_replicate hnew]
      exact hagrees
  dsimp only
  split
  · exact ho.fail h (hlaunches _) hsize _
  -- the commit
  have hok : kv.commit (some { a with copied }) = (.ok (), committed kv a state, none) :=
    commit_ok ho.sequence hready
  have hcopied : KvInv (fun _ => ()) (fun _ _ => ()) kv (some { a with copied }) flat pos :=
    hlive.withPayload ho.sequence (fun _ _ => Or.inl rfl) fun _ _ _ _ _ _ => rfl
  have hcommit := hcopied.commit ho.sequence hready fun _ _ _ _ _ => rfl
  rw [hok] at hcommit
  simp only [hok]
  refine ⟨hcommit.ok, ?_, ?_, hlaunches _⟩
  · rw [← ho.capacity]
    exact maxSequenceBlocks_eq rfl (KvBlockPool.unrefAll_config _ _)
  · show TablesInv n (kv.sequences.insert a.id { sequence := committedSequence a state.sequence })
      (s.tables.insert a.id { table' with dirty := false })
    rw [ho.sequences, OrdMap.insert_insert_self]
    exact h.tables.put hsize fun _ => hagrees

/-- Both branches of `append` keep the invariant. -/
theorem CudaInv.append (h : CudaInv n s) (id : RequestId) (tokens : List TokenId)
    (faults : AppendFaults) : CudaInv n (CudaRunner.append id tokens faults s).2 := by
  unfold CudaRunner.append
  rcases h.prepareAppend id tokens with ⟨e, kv, heq, hinv⟩ | ⟨a, kv, table, state, heq, rfl, ho⟩
  · simp only [heq]
    exact hinv
  · obtain ⟨flat, pos, hlive⟩ := ho.live
    simp only [heq, ho.found]
    cases faults.result with
    | some e =>
      -- the destructor rolls back, and the table was not touched
      refine ⟨hlive.rollback.ok, ho.restoredCapacity, ?_, h.launches⟩
      show TablesInv n (kv.rollback (some a)).sequences s.tables
      rw [ho.restored]
      exact h.tables
    | none => exact ho.transact h faults

/-! ## Runs -/

/-- Every operation of the runner keeps the invariant. -/
theorem CudaInv.step (h : CudaInv n s) (op : CudaOp) : CudaInv n (s.step op).2 := by
  cases op with
  | setCostTiming enabled => exact ⟨h.ledger, h.capacity, h.tables, h.launches⟩
  | reserveRequest id maxTokens => exact h.reserveRequest id maxTokens
  | releaseReservation id =>
    obtain ⟨flat, pos, hinv⟩ := h.ledger
    exact h.keep rfl rfl rfl (hinv.releaseReservation id).ok
  | create id garbage allocate emplace => exact h.create id garbage allocate emplace
  | forkSequence source target synchronize =>
    exact h.after synchronize (h.forkSequence source target)
  | reusePrefix id prompt table => exact h.reusePrefix id prompt table
  | cachePrefix id => exact h.cachePrefix id
  | clearPrefixCache synchronize => exact h.after synchronize h.clearPrefixCache
  | append id tokens faults => exact h.append id tokens faults
  | release id synchronize => exact h.after synchronize (h.release id)
  | clear synchronize => exact h.after synchronize h.clear

theorem CudaInv.run (h : CudaInv n s) (ops : List CudaOp) : CudaInv n (s.run ops) := by
  induction ops generalizing s with
  | nil => exact h
  | cons op ops ih => exact ih (h.step op)

/-- A new runner satisfies the invariant. -/
theorem CudaInv.construct {F : Type} {c : LlamaConfig F} {context : Nat} {config : KvCacheConfig}
    {runner : CudaRunner} (h : cudaRunner c context config = .ok runner) :
    CudaInv runner.kv.maxSequenceBlocks runner := by
  unfold cudaRunner at h
  split at h
  · cases h
  next kv hkv =>
  split at h
  · cases h
  cases h
  refine ⟨(KvInv.construct hkv _ _).ok, rfl, ?_, fun launch hlaunch => by cases hlaunch⟩
  obtain ⟨pool, hvalid, hpool, heq⟩ := construct_eq hkv
  rw [heq]
  refine ⟨fun id => rfl, fun id table htable => ?_, fun id table state htable => ?_⟩
  · cases htable
  · cases htable

/-- **The device page table never goes stale.** In every run, whatever failed before,
the kernels of a layer are launched with a table that agrees with the block table of
the transaction on all its entries. -/
theorem device_table_current {F : Type} {c : LlamaConfig F} {context : Nat}
    {config : KvCacheConfig} {runner : CudaRunner} (h : cudaRunner c context config = .ok runner)
    (ops : List CudaOp) :
    ∀ launch ∈ (runner.run ops).launches, ∀ i < launch.host.length,
      launch.device[i]? = launch.host[i]? := by
  intro launch hlaunch i hi
  have hget := List.getElem?_eq_getElem hi
  rw [hget]
  exact ((CudaInv.construct h).run ops).launches launch hlaunch i _ hget

/-- A rolled back copy of a tail page whose source is released before the retry. -/
theorem device_table_current_retry :
    ∃ runner, cudaRunner tinyWeights.config 8 ⟨2, 4, 2⟩ = .ok runner ∧
      (runner.run [.create "a" id none none, .append "a" [1] {}, .create "b" id none none,
          .forkSequence "a" "b" none,
          .append "b" [2] { compute := some (.runtimeError "nonfinite CUDA logits", 1) },
          .release "a" none, .append "b" [2] {}]).launches =
        [⟨[0, 1, 2, 3], [0]⟩, ⟨[1, 1, 2, 3], [1]⟩, ⟨[0, 1, 2, 3], [0]⟩] ∧
      ∀ launch ∈ (runner.run [.create "a" id none none, .append "a" [1] {},
          .create "b" id none none, .forkSequence "a" "b" none,
          .append "b" [2] { compute := some (.runtimeError "nonfinite CUDA logits", 1) },
          .release "a" none, .append "b" [2] {}]).launches,
        ∀ i < launch.host.length, launch.device[i]? = launch.host[i]? := by
  obtain ⟨runner, hrunner, hlaunches⟩ : ∃ runner,
      cudaRunner tinyWeights.config 8 ⟨2, 4, 2⟩ = .ok runner ∧
      (runner.run [.create "a" id none none, .append "a" [1] {}, .create "b" id none none,
          .forkSequence "a" "b" none,
          .append "b" [2] { compute := some (.runtimeError "nonfinite CUDA logits", 1) },
          .release "a" none, .append "b" [2] {}]).launches =
        [⟨[0, 1, 2, 3], [0]⟩, ⟨[1, 1, 2, 3], [1]⟩, ⟨[0, 1, 2, 3], [0]⟩] := ⟨_, rfl, rfl⟩
  exact ⟨runner, hrunner, hlaunches, device_table_current hrunner _⟩

end TinyInfer.MiniPrefix
