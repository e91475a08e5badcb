import TinyInfer.MiniPrefix.PrefixCache

/-!
# The KV manager (`kv_manager.cpp`)

`KVManager` owns the sequences, their page references, the prefix cache and the
logical reservations. An `Append` is a transaction that edits the live block
table of one sequence in place until it is committed or rolled back.

An `Append` object whose `owner_` is null is `none` here; a live one refers to
the state of its sequence by the key of `sequences_`. `KvSystem` is a manager
with the latest `Append` made from it, and `KvOp` its public operations; the
destructor of `Append` is its rollback.
-/

namespace TinyInfer.MiniPrefix

open Lib

/-- `KVManager::State`. -/
structure KVManager.State where
  sequence : PagedSequence := {}
  appending : Bool := false
  deriving DecidableEq, Repr

/-- The call counters of `CostStats`. -/
structure CostStats where
  lookupCalls : Nat := 0
  publishCalls : Nat := 0
  deriving DecidableEq, Repr

structure KVManager where
  layers : Nat
  width : Nat
  context : Nat
  vocabulary : Nat
  valid : 0 < context ∧ 0 < vocabulary
  pool : KvBlockPool
  prefixCache : ExactPrefixCache := {}
  sequences : OrdMap RequestId KVManager.State := OrdMap.empty
  forwardTokens : Nat := 0
  appendActive : Bool := false
  costs : CostStats := {}
  reservations : OrdMap RequestId Nat := OrdMap.empty

/-- `KVManager::TailCopy`. -/
structure KVManager.TailCopy where
  source : Nat
  destination : Nat
  validTokens : Nat
  deriving DecidableEq, Repr

/-- `KVManager::TailCopyRegion`: offsets and sizes in floats, one row a layer. -/
structure KVManager.TailCopyRegion where
  destination : Nat
  source : Nat
  pitch : Nat
  width : Nat
  rows : Nat
  deriving DecidableEq, Repr

/-- A `KVManager::Append` with an owner; `id` names the sequence of `state_`. -/
structure KVManager.Append where
  id : RequestId
  tokens : List TokenId
  originalBlocks : Nat
  copy : Option KVManager.TailCopy := none
  copied : Bool := false
  deriving DecidableEq, Repr

namespace KVManager

/-- The constructor. -/
def construct (config : KvCacheConfig) (layers width context vocabulary : Nat) :
    Except Exn KVManager :=
  match KvBlockPool.create config layers width with
  | .error e => .error e
  | .ok pool =>
    if h : context < 1 ∨ vocabulary < 1 then
      .error (.invalidArgument "invalid KV manager context/vocabulary")
    else .ok { layers, width, context, vocabulary, valid := by omega, pool }

def config (kv : KVManager) : KvCacheConfig := kv.pool.config

def maxSequenceBlocks (kv : KVManager) : Nat := pagesFor kv.config.blockTokens kv.context

def contains (kv : KVManager) (id : RequestId) : Bool := kv.sequences.contains id

/-- `sequences_.at(id).sequence`. -/
def sequence (kv : KVManager) (id : RequestId) : Except Exn PagedSequence :=
  match kv.sequences.find? id with
  | none => .error (.outOfRange "map::at")
  | some state => .ok state.sequence

def offset (kv : KVManager) (sequence : PagedSequence) (layer token : Nat) : Except Exn Nat :=
  kv.pool.offset sequence layer token kv.layers kv.width

def requireIdle (kv : KVManager) : Except Exn Unit :=
  if kv.appendActive then .error (.logicError "KV append transaction is active") else .ok ()

def idleState (kv : KVManager) (id : RequestId) : Except Exn State :=
  match kv.requireIdle with
  | .error e => .error e
  | .ok () =>
    match kv.sequences.find? id with
    | none => .error (.outOfRange "map::at")
    | some state =>
      if state.appending then .error (.logicError "sequence has an active KV append")
      else .ok state

/-- The check of every token against the vocabulary. -/
def validTokens (kv : KVManager) (tokens : List TokenId) : Bool :=
  tokens.all fun token => 0 ≤ token ∧ token < kv.vocabulary

/-- Pages promised to reservations, and those of the sequences without one. -/
def committedBlocks (kv : KVManager) : Nat :=
  kv.reservations.sum (fun _ pages => pages) +
    kv.sequences.sum fun id state =>
      if kv.reservations.contains id then 0 else state.sequence.blocks.length

def reserveRequest (kv : KVManager) (id : RequestId) (maxTokens : Nat) :
    Except Exn KvAdmission × KVManager :=
  match kv.requireIdle with
  | .error e => (.error e, kv)
  | .ok () =>
    if kv.contains id ∨ kv.reservations.contains id then
      (.error (.invalidArgument "duplicate KV reservation"), kv)
    else if maxTokens = 0 ∨ maxTokens > kv.context then
      (.error (.invalidArgument "invalid KV reservation context"), kv)
    else
      let pages := 1 + (maxTokens - 1) / kv.config.blockTokens
      let total := kv.config.maxBlocks
      if pages > total then (.ok .impossible, kv)
      else
        let committed := kv.committedBlocks
        if committed > total ∨ pages > total - committed then (.ok .wait, kv)
        else (.ok .ready, { kv with reservations := kv.reservations.emplace id pages })

def releaseReservation (kv : KVManager) (id : RequestId) : KVManager :=
  { kv with reservations := kv.reservations.erase id }

def create (kv : KVManager) (id : RequestId) : Except Exn Unit × KVManager :=
  match kv.requireIdle with
  | .error e => (.error e, kv)
  | .ok () =>
    if kv.contains id then (.error (.invalidArgument "sequence already exists"), kv)
    else (.ok (), { kv with sequences := kv.sequences.emplace id {} })

/-- Assign to the sequence behind a reference into `sequences_`. -/
def setSequence (kv : KVManager) (id : RequestId) (sequence : PagedSequence) : KVManager :=
  { kv with sequences :=
      kv.sequences.insert id { (kv.sequences.find? id).getD {} with sequence } }

def forkSequence (kv : KVManager) (source target : RequestId) : Except Exn Unit × KVManager :=
  match kv.requireIdle with
  | .error e => (.error e, kv)
  | .ok () =>
    match kv.sequence source, kv.idleState target with
    | .error e, _ => (.error e, kv)
    | _, .error e => (.error e, kv)
    | .ok original, .ok state =>
      let destination := state.sequence
      if source = target ∨ destination.used ≠ 0 ∨ destination.blocks ≠ [] ∨
          destination.tokens ≠ [] then
        (.error (.invalidArgument "fork requires a distinct empty target"), kv)
      else
        let refused : Option Exn :=
          match kv.reservations.find? target with
          | some pages =>
            if original.blocks.length > pages then
              some (.kvCapacityError "fork exceeds KV reservation")
            else none
          | none =>
            let used := kv.committedBlocks
            let total := kv.config.maxBlocks
            if used > total ∨ original.blocks.length > total - used then
              some (.kvCapacityError "fork exceeds unreserved KV capacity")
            else none
        match refused with
        | some e => (.error e, kv)
        | none =>
          match kv.pool.retainAll original.blocks with
          | (.error e, pool) => (.error e, { kv with pool })
          | (.ok (), pool) => (.ok (), { kv with pool }.setSequence target original)

def reusePrefix (kv : KVManager) (id : RequestId) (prompt : List TokenId) :
    Except Exn Nat × KVManager :=
  if prompt = [] ∨ prompt.length > kv.context then
    (.error (.invalidArgument "invalid prefix context"), kv)
  else if ¬ kv.validTokens prompt then (.error (.invalidArgument "invalid prefix token"), kv)
  else
    match kv.idleState id with
    | .error e => (.error e, kv)
    | .ok state =>
      let kv := { kv with costs :=
        { kv.costs with lookupCalls := kv.costs.lookupCalls + 1 } }
      let (outcome, sequence, prefixCache, pool) :=
        kv.prefixCache.reuse kv.pool state.sequence prompt
      let kv := { kv with prefixCache, pool }.setSequence id sequence
      match outcome with
      | .error e => (.error e, kv)
      | .ok count =>
        let released :=
          let (sequence, pool) := kv.pool.release sequence
          { kv with pool }.setSequence id sequence
        match kv.reservations.find? id with
        | some pages =>
          if sequence.blocks.length > pages then
            (.error (.kvCapacityError "request exceeds KV reservation"), released)
          else if kv.committedBlocks > kv.config.maxBlocks then
            (.error (.kvCapacityError "KV capacity reserved by active requests"), released)
          else (.ok count, kv)
        | none =>
          if ¬ kv.reservations.isEmpty ∧ kv.committedBlocks > kv.config.maxBlocks then
            (.error (.kvCapacityError "KV capacity reserved by active requests"), released)
          else (.ok count, kv)

def cachePrefix (kv : KVManager) (id : RequestId) : Except Exn Unit × KVManager :=
  match kv.idleState id with
  | .error e => (.error e, kv)
  | .ok state =>
    let (outcome, prefixCache, pool) := kv.prefixCache.publish kv.pool state.sequence
    (outcome, { kv with
      costs := { kv.costs with publishCalls := kv.costs.publishCalls + 1 }
      prefixCache, pool })

def anyAppending (kv : KVManager) : Bool := kv.sequences.entries.any fun item => item.2.appending

def clearPrefixCache (kv : KVManager) : Except Exn Unit × KVManager :=
  match kv.requireIdle with
  | .error e => (.error e, kv)
  | .ok () =>
    if kv.anyAppending then
      (.error (.logicError "cannot clear prefix cache during KV append"), kv)
    else
      let (prefixCache, pool) := kv.prefixCache.clear kv.pool
      (.ok (), { kv with prefixCache, pool })

/-- The eviction loop of `reserve_pages`. Every turn drops a cache lease, so the
number of leases bounds it. `tail` is `sequence.blocks.back()`. -/
def evictLoop (required tail : Nat) :
    Nat → Bool → ExactPrefixCache → KvBlockPool → Bool × ExactPrefixCache × KvBlockPool
  | 0, cow, cache, pool => (cow, cache, pool)
  | fuel + 1, cow, cache, pool =>
    if pool.freeBlocks < required + cow.toNat then
      match cache.evictOne pool with
      | (false, cache, pool) => (cow, cache, pool)
      | (true, cache, pool) =>
        let cow := if cow && pool.references tail == 1 then false else cow
        evictLoop required tail fuel cow cache pool
    else (cow, cache, pool)

/-- The logical check at the head of `reserve_pages`. -/
def refusePages (kv : KVManager) (id : RequestId) (count required : Nat) : Option Exn :=
  if kv.reservations.isEmpty then none
  else
    match kv.reservations.find? id with
    | some pages =>
      if count > pages then some (.kvCapacityError "request exceeds KV reservation") else none
    | none =>
      let committed := kv.committedBlocks
      let total := kv.config.maxBlocks
      if committed > total ∨ required > total - committed then
        some (.kvCapacityError "KV capacity reserved by active requests")
      else none

/-- `reserve_pages`; it returns the updated copy-on-write flag and sequence. -/
def reservePages (kv : KVManager) (id : RequestId) (sequence : PagedSequence) (last : Nat)
    (cow : Bool) : Except Exn (Bool × PagedSequence) × KVManager :=
  let count := pagesFor kv.config.blockTokens last
  let required := count - sequence.blocks.length
  match kv.refusePages id count required with
  | some e => (.error e, kv)
  | none =>
    let (cow, prefixCache, pool) :=
      evictLoop required (sequence.blocks.getLastD 0) kv.prefixCache.size cow kv.prefixCache
        kv.pool
    let kv := { kv with prefixCache, pool }
    if cow ∧ kv.pool.freeBlocks < required + 1 then
      (.error (.kvCapacityError "paged KV block pool exhausted"), kv)
    else
      match kv.pool.reserve sequence last with
      | (.error e, _, pool) => (.error e, { kv with pool })
      | (.ok (), sequence, pool) => (.ok (cow, sequence), { kv with pool })

/-- `prepare_append`: the constructor of `Append`. -/
def prepareAppend (kv : KVManager) (id : RequestId) (tokens : List TokenId) :
    Except Exn Append × KVManager :=
  match kv.idleState id with
  | .error e => (.error e, kv)
  | .ok state =>
    let sequence := state.sequence
    let originalBlocks := sequence.blocks.length
    if tokens = [] ∨ tokens.length > kv.context - sequence.used then
      (.error (.invalidArgument "context overflow/empty input"), kv)
    else if ¬ kv.validTokens tokens then (.error (.invalidArgument "invalid token"), kv)
    else
      let valid := sequence.used % kv.config.blockTokens
      let cow := valid ≠ 0 && kv.pool.references (sequence.blocks.getLastD 0) > 1
      match kv.reservePages id sequence (sequence.used + tokens.length) cow with
      | (.error e, kv) => (.error e, kv)
      | (.ok (cow, sequence), kv) =>
        if cow then
          match kv.pool.allocate with
          | (.error e, pool) => (.error e, { kv with pool }.setSequence id sequence)
          | (.ok replacement, pool) =>
            let old := sequence.blocks.getD (originalBlocks - 1) 0
            let sequence := { sequence with
              blocks := sequence.blocks.set (originalBlocks - 1) replacement }
            (.ok { id, tokens, originalBlocks, copy := some ⟨old, replacement, valid⟩ },
              { kv with
                pool
                sequences := kv.sequences.insert id { sequence, appending := true }
                appendActive := true })
        else
          (.ok { id, tokens, originalBlocks },
            { kv with
              sequences := kv.sequences.insert id { sequence, appending := true }
              appendActive := true })

def resetSequence (kv : KVManager) (id : RequestId) : Except Exn Unit × KVManager :=
  match kv.idleState id with
  | .error e => (.error e, kv)
  | .ok state =>
    let (sequence, pool) := kv.pool.release state.sequence
    (.ok (), { kv with pool }.setSequence id sequence)

def release (kv : KVManager) (id : RequestId) : Except Exn Unit × KVManager :=
  match kv.requireIdle with
  | .error e => (.error e, kv)
  | .ok () =>
    match kv.sequences.find? id with
    | none => (.error (.invalidArgument "unknown sequence"), kv)
    | some state =>
      if state.appending then
        (.error (.logicError "cannot release sequence during KV append"), kv)
      else
        let (_, pool) := kv.pool.release state.sequence
        (.ok (), { kv with
          pool
          sequences := kv.sequences.erase id
          reservations := kv.reservations.erase id })

def clear (kv : KVManager) : Except Exn Unit × KVManager :=
  match kv.requireIdle with
  | .error e => (.error e, kv)
  | .ok () =>
    if kv.anyAppending then (.error (.logicError "cannot clear sequences during KV append"), kv)
    else
      let pool := kv.sequences.entries.foldl
        (fun pool item => (pool.release item.2.sequence).2) kv.pool
      let (prefixCache, pool) := kv.prefixCache.clear pool
      (.ok (), { kv with
        prefixCache
        pool
        sequences := OrdMap.empty
        reservations := OrdMap.empty })

/-! ## The append transaction -/

/-- The region `copy_shared_tail_region` passes to its callback. -/
def tailCopyRegion (kv : KVManager) (copy : TailCopy) : TailCopyRegion :=
  let pitch := kv.config.blockTokens * kv.width
  let rows := kv.layers
  { destination := copy.destination * rows * pitch
    source := copy.source * rows * pitch
    pitch
    width := copy.validTokens * kv.width
    rows }

/-- `copy_shared_tail_region`; the callback is code of the backend and may throw. -/
def copySharedTailRegion (kv : KVManager) (append : Option Append)
    (copier : TailCopyRegion → Except Exn Unit) : Except Exn Unit × Option Append :=
  match append with
  | none => (.error (.logicError "KV append already finished"), none)
  | some append =>
    match append.copy with
    | none => (.ok (), some append)
    | some copy =>
      match copier (kv.tailCopyRegion copy) with
      | .error e => (.error e, some { append with copied := false })
      | .ok () => (.ok (), some { append with copied := true })

def commit (kv : KVManager) (append : Option Append) :
    Except Exn Unit × KVManager × Option Append :=
  match append with
  | none => (.error (.logicError "KV append already finished"), kv, none)
  | some append =>
    if append.copy.isSome ∧ ¬ append.copied then
      (.error (.logicError "shared tail payload was not copied"), kv, some append)
    else
      let sequence := ((kv.sequences.find? append.id).getD {}).sequence
      let sequence := { sequence with
        tokens := sequence.tokens ++ append.tokens
        used := sequence.used + append.tokens.length }
      let pool :=
        match append.copy with
        | some copy => kv.pool.unref copy.source
        | none => kv.pool
      (.ok (), { kv with
          pool
          sequences := kv.sequences.insert append.id { sequence, appending := false }
          forwardTokens := kv.forwardTokens + append.tokens.length
          appendActive := false },
        none)

/-- `rollback`, which is also what the destructor does. -/
def rollback (kv : KVManager) (append : Option Append) : KVManager :=
  match append with
  | none => kv
  | some append =>
    let sequence := ((kv.sequences.find? append.id).getD {}).sequence
    let (sequence, pool) := kv.pool.rollback sequence append.originalBlocks
    let (sequence, pool) :=
      match append.copy with
      | some copy =>
        ({ sequence with blocks := sequence.blocks.set (append.originalBlocks - 1) copy.source },
          pool.unref copy.destination)
      | none => (sequence, pool)
    { kv with
      pool
      sequences := kv.sequences.insert append.id { sequence, appending := false }
      appendActive := false }

end KVManager

/-- A manager and the latest `Append` made from it, `none` once it is finished. -/
structure KvSystem where
  kv : KVManager
  append : Option KVManager.Append := none

/-- The public operations of `KVManager` and `KVManager::Append`. -/
inductive KvOp where
  | reserveRequest (id : RequestId) (maxTokens : Nat)
  | releaseReservation (id : RequestId)
  | create (id : RequestId)
  | forkSequence (source target : RequestId)
  | reusePrefix (id : RequestId) (prompt : List TokenId)
  | cachePrefix (id : RequestId)
  | clearPrefixCache
  | prepareAppend (id : RequestId) (tokens : List TokenId)
  | copySharedTail (copier : KVManager.TailCopyRegion → Except Exn Unit)
  | commit
  | rollback
  | resetSequence (id : RequestId)
  | release (id : RequestId)
  | clear

namespace KvSystem

/-- One operation; the flag says whether it returned. -/
def step (s : KvSystem) : KvOp → Except Exn Unit × KvSystem
  | .reserveRequest id maxTokens =>
    let (outcome, kv) := s.kv.reserveRequest id maxTokens
    (outcome.map fun _ => (), { s with kv })
  | .releaseReservation id => (.ok (), { s with kv := s.kv.releaseReservation id })
  | .create id =>
    let (outcome, kv) := s.kv.create id
    (outcome, { s with kv })
  | .forkSequence source target =>
    let (outcome, kv) := s.kv.forkSequence source target
    (outcome, { s with kv })
  | .reusePrefix id prompt =>
    let (outcome, kv) := s.kv.reusePrefix id prompt
    (outcome.map fun _ => (), { s with kv })
  | .cachePrefix id =>
    let (outcome, kv) := s.kv.cachePrefix id
    (outcome, { s with kv })
  | .clearPrefixCache =>
    let (outcome, kv) := s.kv.clearPrefixCache
    (outcome, { s with kv })
  | .prepareAppend id tokens =>
    match s.kv.prepareAppend id tokens with
    | (.error e, kv) => (.error e, { s with kv })
    | (.ok append, kv) => (.ok (), { kv, append := some append })
  | .copySharedTail copier =>
    let (outcome, append) := s.kv.copySharedTailRegion s.append copier
    (outcome, { s with append })
  | .commit =>
    let (outcome, kv, append) := s.kv.commit s.append
    (outcome, { kv, append })
  | .rollback => (.ok (), { kv := s.kv.rollback s.append })
  | .resetSequence id =>
    let (outcome, kv) := s.kv.resetSequence id
    (outcome, { s with kv })
  | .release id =>
    let (outcome, kv) := s.kv.release id
    (outcome, { s with kv })
  | .clear =>
    let (outcome, kv) := s.kv.clear
    (outcome, { s with kv })

/-- The state after a sequence of operations. -/
def run (s : KvSystem) (ops : List KvOp) : KvSystem := ops.foldl (fun s op => (s.step op).2) s

/-- The states reachable from a constructed manager. -/
def Reachable (s : KvSystem) : Prop :=
  ∃ config layers width context vocabulary kv ops,
    KVManager.construct config layers width context vocabulary = .ok kv ∧
      s = run { kv } ops

end KvSystem

end TinyInfer.MiniPrefix
