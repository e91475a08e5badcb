import TinyInfer.Lib.OrdMap
import TinyInfer.Lib.Links
import TinyInfer.Lib.CommonPrefix
import TinyInfer.MiniPrefix.PagedKv

/-!
# The exact prefix cache (`prefix_cache.cpp`)

A trie of pages. A node stands for the token history spelled by the edges from
the root; a node with a `block` holds a cache lease on that physical page.

Nodes live at addresses, and the fields of `Index::Node` are the functions
`parent`, `depth`, `edge`, `children`, `available` and `block` of the address:
`node->depth` is `ix.depth node`. The intrusive LRU list (`previous`, `next`,
`oldest`, `newest`) is the `lru` field. An edge is the key under which the
parent's `children` map owns the node; `edge` and the keys of `available` point
to that key in the code and are its value here. `make_unique` takes the next
unused address, while a spare node is reinserted at the address it always had,
with whatever its fields still contain.

The publication hint, both spares, the two-neighbour search and the pruning of
empty leaves are all modelled as the code performs them.
-/

namespace TinyInfer.MiniPrefix

open Lib

/-- An `Index::Node*`. -/
abbrev Ptr := Nat

/-- The address of `Index::root`. -/
def root : Ptr := 0

/-- `ExactPrefixCache::Index`. -/
structure Index where
  leases : Nat → Nat := fun _ => 0
  parent : Ptr → Option Ptr := fun _ => none
  depth : Ptr → Nat := fun _ => 0
  edge : Ptr → List TokenId := fun _ => []
  children : Ptr → OrdMap (List TokenId) Ptr := fun _ => OrdMap.empty
  available : Ptr → OrdMap (List TokenId) Ptr := fun _ => OrdMap.empty
  block : Ptr → Option Nat := fun _ => none
  lru : Links Ptr := Links.nil
  fresh : Ptr := root + 1
  cached : Nat := 0
  nodes : Nat := 0
  keyTokens : Nat := 0
  publication : List Ptr := []
  spareNode : Option (List TokenId × Ptr) := none
  spareAvailable : Option (List TokenId × Ptr) := none

namespace Index

open Function (update)

def unlink (ix : Index) (n : Ptr) : Index := { ix with lru := ix.lru.unlink n }

def append (ix : Index) (n : Ptr) : Index := { ix with lru := ix.lru.append n }

def touch (ix : Index) (n : Ptr) : Index := { ix with lru := ix.lru.touch n }

/-- Truncate the publication hint at a node about to disappear. -/
def truncatePublication (ix : Index) (n : Ptr) : Index :=
  { ix with publication :=
      if ix.depth n ≤ ix.publication.length ∧ ix.publication[ix.depth n - 1]? = some n then
        ix.publication.take (ix.depth n - 1)
      else ix.publication }

/-- One turn of the loop of `prune`: extract an empty leaf into the spare. -/
def extractLeaf (ix : Index) (n parent : Ptr) : Index :=
  let ix := { ix with keyTokens := ix.keyTokens - (ix.edge n).length }
  let ix := ix.truncatePublication n
  let siblings := ix.children parent
  { ix with
    spareNode := (siblings.find? (ix.edge n)).map fun p => (ix.edge n, p)
    children := update ix.children parent (siblings.erase (ix.edge n))
    nodes := ix.nodes - 1 }

/-- The loop condition of `prune`. -/
def prunable (ix : Index) (n : Ptr) (protectedNode : Option Ptr) : Bool :=
  n ≠ root && some n ≠ protectedNode && (ix.block n).isNone && (ix.children n).isEmpty

/-- The loop of `prune`; it moves to the parent, so the depth bounds it. -/
def pruneLoop : Nat → Index → Ptr → Option Ptr → Index
  | 0, ix, _, _ => ix
  | fuel + 1, ix, n, protectedNode =>
    if ix.prunable n protectedNode then
      match ix.parent n with
      | none => ix
      | some parent => pruneLoop fuel (ix.extractLeaf n parent) parent protectedNode
    else ix

/-- Erase empty unleased leaves from `n` upwards, up to a protected node. -/
def prune (ix : Index) (n : Ptr) (protectedNode : Option Ptr := none) : Index :=
  pruneLoop (ix.depth n) ix n protectedNode

/-- `available.extract(edge)` into the spare lookup entry. -/
def extractAvailable (ix : Index) (n parent : Ptr) : Index :=
  { ix with
    spareAvailable := ((ix.available parent).find? (ix.edge n)).map fun p => (ix.edge n, p)
    available := update ix.available parent ((ix.available parent).erase (ix.edge n)) }

/-- Give back the lease of a node and prune what this leaves empty. -/
def dropNode (ix : Index) (pool : KvBlockPool) (node : Ptr)
    (protectedNode : Option Ptr := none) : Index × KvBlockPool :=
  match ix.parent node, ix.block node with
  | some parent, some block =>
    let ix := ix.extractAvailable node parent
    let ix := { ix with leases := update ix.leases block (ix.leases block - 1) }
    let ix := ix.unlink node
    let pool := pool.unref block
    let ix := { ix with block := update ix.block node none, cached := ix.cached - 1 }
    (ix.prune node protectedNode, pool)
  | _, _ => (ix, pool)

/-- `drop`: give back the lease of the least recently used node. -/
def drop (ix : Index) (pool : KvBlockPool) (protectedNode : Option Ptr := none) :
    Index × KvBlockPool :=
  match ix.lru.oldest with
  | none => (ix, pool)
  | some node => ix.dropNode pool node protectedNode

/-- The upward loop of `successor`. -/
def successorUp : Nat → Index → Ptr → Option Ptr
  | 0, _, _ => none
  | fuel + 1, ix, n =>
    if n = root then none
    else match ix.parent n with
      | none => none
      | some parent =>
        match (ix.children parent).upperBound (ix.edge n) with
        | some (_, p) => some p
        | none => successorUp fuel ix parent

/-- The next node in lexicographic order of the paths. -/
def successor (ix : Index) (n : Ptr) : Option Ptr :=
  match (ix.children n).first with
  | some (_, p) => some p
  | none => successorUp (ix.depth n) ix n

/-- The traversal of `clear`; it visits every node once, so the number of
addresses ever used bounds it. -/
def clearLoop : Nat → Option Ptr → Index → KvBlockPool → Index × KvBlockPool
  | fuel + 1, some node, ix, pool =>
    let next := ix.successor node
    let (ix, pool) := if (ix.block node).isSome then ix.dropNode pool node else (ix, pool)
    clearLoop fuel next ix pool
  | _, _, ix, pool => (ix, pool)

/-- The lambda `consider` of `reuse`: keep a candidate that matches strictly more. -/
def consider (ix : Index) (query : List TokenId) (best : Option Ptr × Nat)
    (candidate : Option (List TokenId × Ptr)) : Option Ptr × Nat :=
  match candidate with
  | none => best
  | some (_, node) =>
    let n := commonPrefix (ix.edge node) query
    if n > best.2 then (some node, n) else best

/-- The best lookup entry for a query among the two lexicographic neighbours,
and how much of the query it matches. -/
def bestNeighbour (ix : Index) (parent : Ptr) (query : List TokenId) : Option Ptr × Nat :=
  let best := ix.consider query (none, 0) ((ix.available parent).lowerBound query)
  ix.consider query best ((ix.available parent).prev query)

/-- The walk of `reuse` from `parent`, with `count` tokens matched so far; it
returns the pages found and the final count. Every turn matches a token. -/
def reuseLoop (blockTokens limit : Nat) (prompt : List TokenId) :
    Nat → Index → Ptr → Nat → List Nat → Index × Nat × List Nat
  | 0, ix, _, count, pages => (ix, count, pages)
  | fuel + 1, ix, parent, count, pages =>
    if count < limit then
      let length := min blockTokens (limit - count)
      let query := (prompt.drop count).take length
      match ix.bestNeighbour parent query with
      | (some best, matched) =>
        let pages := pages ++ (ix.block best).toList
        let ix := ix.touch best
        let count := count + matched
        if matched ≠ blockTokens then (ix, count, pages)
        else reuseLoop blockTokens limit prompt fuel ix best count pages
      | (none, _) => (ix, count, pages)
    else (ix, count, pages)

/-- The hint lookup of `publish`: the hinted node if it is the wanted child,
otherwise the hint is cut off here. -/
def checkHint (ix : Index) (i : Nat) (parent : Ptr) (page : List TokenId) :
    Option Ptr × Index :=
  match ix.publication[i]? with
  | none => (none, ix)
  | some hint =>
    if ix.parent hint = some parent ∧ ix.edge hint = page then (some hint, ix)
    else (none, { ix with publication := ix.publication.take i })

/-- `std::make_unique<Node>()` at the next unused address. -/
def newNode (ix : Index) : Index :=
  { ix with
    fresh := ix.fresh + 1
    children := update ix.children ix.fresh OrdMap.empty
    available := update ix.available ix.fresh OrdMap.empty
    block := update ix.block ix.fresh none
    lru := ix.lru.detach ix.fresh }

/-- The storage of a new child: the spare node when there is one. -/
def takeNode (ix : Index) : Ptr × Index :=
  match ix.spareNode with
  | some (_, p) => (p, { ix with spareNode := none })
  | none => (ix.fresh, ix.newNode)

/-- Make a node the child of `parent` under the edge `page`. -/
def attach (ix : Index) (parent : Ptr) (page : List TokenId) (node : Ptr) : Index :=
  { ix with
    children := update ix.children parent ((ix.children parent).emplace page node)
    parent := update ix.parent node (some parent)
    depth := update ix.depth node (ix.depth parent + 1)
    edge := update ix.edge node page
    nodes := ix.nodes + 1
    keyTokens := ix.keyTokens + page.length }

def insertChild (ix : Index) (parent : Ptr) (page : List TokenId) : Ptr × Index :=
  let (node, ix) := ix.takeNode
  (node, ix.attach parent page node)

/-- The node of `publish` for a page: hinted, found, or inserted. -/
def selectChild (ix : Index) (i : Nat) (parent : Ptr) (page : List TokenId) : Ptr × Index :=
  match ix.checkHint i parent page with
  | (some hint, ix) => (hint, ix)
  | (none, ix) =>
    match (ix.children parent).find? page with
    | some p => (p, ix)
    | none => ix.insertChild parent page

/-- Prepare the lookup entry of a node, reusing the spare entry if there is one. -/
def insertAvailable (ix : Index) (parent node : Ptr) : Index :=
  { ix with
    available := update ix.available parent
      ((ix.available parent).emplace (ix.edge node) node)
    spareAvailable := none }

/-- The end of a `publish` of one page: the node takes its lease. -/
def grantLease (ix : Index) (node page : Nat) : Index :=
  let ix := { ix with
    leases := update ix.leases page (ix.leases page + 1)
    block := update ix.block node (some page) }
  let ix := ix.append node
  { ix with cached := ix.cached + 1 }

/-- Extend the publication hint by the node of page `i`, if it ends there. -/
def extendPublication (ix : Index) (i : Nat) (node : Ptr) : Index :=
  { ix with publication :=
      if ix.publication.length = i then ix.publication ++ [node] else ix.publication }

end Index

/-- `ExactPrefixCache`; the pool it refers to is passed along. -/
structure ExactPrefixCache where
  index : Index := {}
  hits : Nat := 0
  misses : Nat := 0
  reused : Nat := 0
  evictions : Nat := 0

namespace ExactPrefixCache

def size (cache : ExactPrefixCache) : Nat := cache.index.cached

def indexNodes (cache : ExactPrefixCache) : Nat := cache.index.nodes

def keyTokenBytes (cache : ExactPrefixCache) : Nat := cache.index.keyTokens * 4

def cacheOnlyBlocks (cache : ExactPrefixCache) (pool : KvBlockPool) : Nat :=
  ((List.range pool.config.maxBlocks).filter fun b =>
    cache.index.leases b ≠ 0 && pool.references b == cache.index.leases b).length

def evictOne (cache : ExactPrefixCache) (pool : KvBlockPool) :
    Bool × ExactPrefixCache × KvBlockPool :=
  match cache.index.lru.oldest with
  | none => (false, cache, pool)
  | some _ =>
    let (index, pool) := cache.index.drop pool
    (true, { cache with index, evictions := cache.evictions + 1 }, pool)

def clear (cache : ExactPrefixCache) (pool : KvBlockPool) : ExactPrefixCache × KvBlockPool :=
  let start := (cache.index.children root).first.map Prod.snd
  let (index, pool) := Index.clearLoop cache.index.fresh start cache.index pool
  ({ cache with
      index := { index with publication := [], spareAvailable := none, spareNode := none } },
    pool)

def reuse (cache : ExactPrefixCache) (pool : KvBlockPool) (sequence : PagedSequence)
    (prompt : List TokenId) :
    Except Exn Nat × PagedSequence × ExactPrefixCache × KvBlockPool :=
  if sequence.used ≠ 0 ∨ sequence.blocks ≠ [] ∨ sequence.tokens ≠ [] then
    (.error (.invalidArgument "prefix reuse requires an empty sequence"), sequence, cache, pool)
  else if pool.config.prefixCacheBlocks = 0 then (.ok 0, sequence, cache, pool)
  else
    let limit := prompt.length - 1
    let (index, count, pages) :=
      Index.reuseLoop pool.config.blockTokens limit prompt limit cache.index root 0 []
    let cache := { cache with index }
    match pool.retainAll pages with
    | (.error e, pool) => (.error e, sequence, cache, pool)
    | (.ok (), pool) =>
      let sequence := { used := count, blocks := pages, tokens := prompt.take count }
      let cache :=
        if count ≠ 0 then { cache with hits := cache.hits + 1, reused := cache.reused + count }
        else { cache with misses := cache.misses + 1 }
      (.ok count, sequence, cache, pool)

/-- The lease of `publish`: an unleased node takes a lease on its page, after
its lookup entry is in place and before a victim is evicted. -/
def leasePage (cache : ExactPrefixCache) (pool : KvBlockPool) (parent node : Ptr) (page : Nat) :
    Except Exn Unit × ExactPrefixCache × KvBlockPool :=
  let index := cache.index.insertAvailable parent node
  match pool.retain page with
  | (.error e, pool) =>
    let index := index.extractAvailable node parent
    (.error e, { cache with index := index.prune node }, pool)
  | (.ok (), pool) =>
    let (cache, pool) :=
      if index.cached = pool.config.prefixCacheBlocks then
        let (index, pool) := index.drop pool (some node)
        ({ cache with index, evictions := cache.evictions + 1 }, pool)
      else ({ cache with index }, pool)
    (.ok (), { cache with index := cache.index.grantLease node page }, pool)

/-- One turn of the loop of `publish`: page `i` of the sequence, under `parent`.
It returns the node of that page. -/
def publishPage (cache : ExactPrefixCache) (pool : KvBlockPool) (sequence : PagedSequence)
    (i : Nat) (parent : Ptr) : Except Exn Ptr × ExactPrefixCache × KvBlockPool :=
  let blockTokens := pool.config.blockTokens
  let length := min blockTokens (sequence.used - i * blockTokens)
  let page := (sequence.tokens.drop (i * blockTokens)).take length
  let (node, index) := cache.index.selectChild i parent page
  let cache := { cache with index }
  let (outcome, cache, pool) :=
    if (cache.index.block node).isSome then
      (.ok (), { cache with index := cache.index.touch node }, pool)
    else cache.leasePage pool parent node (sequence.blocks.getD i 0)
  match outcome with
  | .error e => (.error e, cache, pool)
  | .ok () => (.ok node, { cache with index := cache.index.extendPublication i node }, pool)

/-- The loop of `publish`: `pages` more turns from page `i`. -/
def publishLoop (sequence : PagedSequence) :
    Nat → Nat → Ptr → ExactPrefixCache → KvBlockPool →
      Except Exn Unit × ExactPrefixCache × KvBlockPool
  | 0, _, _, cache, pool => (.ok (), cache, pool)
  | pages + 1, i, parent, cache, pool =>
    match cache.publishPage pool sequence i parent with
    | (.error e, cache, pool) => (.error e, cache, pool)
    | (.ok node, cache, pool) => publishLoop sequence pages (i + 1) node cache pool

/-- The number of pages `publish` enters: never more than the cache capacity. -/
def publishCount (pool : KvBlockPool) (sequence : PagedSequence) : Nat :=
  min sequence.blocks.length
    (min ((sequence.used + pool.config.blockTokens - 1) / pool.config.blockTokens)
      pool.config.prefixCacheBlocks)

def publish (cache : ExactPrefixCache) (pool : KvBlockPool) (sequence : PagedSequence) :
    Except Exn Unit × ExactPrefixCache × KvBlockPool :=
  if sequence.tokens.length ≠ sequence.used then
    (.error (.logicError "invalid committed KV token history"), cache, pool)
  else
    let count := publishCount pool sequence
    match publishLoop sequence count 0 root cache pool with
    | (.error e, cache, pool) => (.error e, cache, pool)
    | (.ok (), cache, pool) =>
      let index := cache.index
      (.ok (), { cache with index := { index with
        publication := if index.publication.length > count then index.publication.take count
          else index.publication } }, pool)

end ExactPrefixCache

end TinyInfer.MiniPrefix
