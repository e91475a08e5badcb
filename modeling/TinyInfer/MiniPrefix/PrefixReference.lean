import TinyInfer.MiniPrefix.FlatLeases

/-!
# The reference cache of the tests (`partial_prefix_reference.h`)

`PartialPrefixReference` keeps whole histories as the keys of one ordered map,
each with its page and the time of its last use. `Timed` relates it to the flat
cache: the flat entries are the map's entries in the order of their times.

The reference evicts before it retains a new page; the two orders agree because
a published page is held by its sequence (`retain_unref_comm`).
-/

namespace TinyInfer.MiniPrefix

open Lib

/-- `PartialPrefixReference::Entry`; the clock never wraps here. -/
structure Stamp where
  block : Nat
  touched : Nat
  deriving DecidableEq, Repr

structure PartialPrefixReference where
  entries : OrdMap (List TokenId) Stamp := OrdMap.empty
  clock : Nat := 0
  hits : Nat := 0
  misses : Nat := 0
  reused : Nat := 0
  evictions : Nat := 0

namespace PartialPrefixReference

def size (cache : PartialPrefixReference) : Nat := cache.entries.size

/-- `std::min_element` by `touched`: the first of the least entries. -/
def minElement : List (List TokenId × Stamp) → Option (List TokenId × Stamp)
  | [] => none
  | e :: rest =>
    some (rest.foldl (fun least e => if e.2.touched < least.2.touched then e else least) e)

def evictOne (cache : PartialPrefixReference) (pool : KvBlockPool) :
    Bool × PartialPrefixReference × KvBlockPool :=
  match minElement cache.entries.entries with
  | none => (false, cache, pool)
  | some (key, victim) =>
    (true, { cache with entries := cache.entries.erase key, evictions := cache.evictions + 1 },
      pool.unref victim.block)

/-- The counting map of `cache_only_blocks`. -/
def leaseCounts (cache : PartialPrefixReference) : OrdMap Nat Nat :=
  cache.entries.entries.foldl
    (fun leases e => leases.insert e.2.block ((leases.find? e.2.block).getD 0 + 1)) OrdMap.empty

def cacheOnlyBlocks (cache : PartialPrefixReference) (pool : KvBlockPool) : Nat :=
  (cache.leaseCounts.entries.filter fun e => pool.references e.1 == e.2).length

def clear (cache : PartialPrefixReference) (pool : KvBlockPool) :
    PartialPrefixReference × KvBlockPool :=
  ({ cache with entries := OrdMap.empty },
    pool.unrefAll (cache.entries.entries.map fun e => e.2.block))

/-- The tie rule of `reuse`: a key on the right of the query first, then the
nearest one. -/
def tie (query key best : List TokenId) : Bool :=
  let right := decide (¬ key < query)
  let bestRight := decide (¬ best < query)
  if right ≠ bestRight then right else if right then decide (key < best) else decide (best < key)

/-- One turn of the search of `reuse`: `best` and `matched` against one entry. -/
def consider (blockTokens count length : Nat) (prompt : List TokenId)
    (best : Option (List TokenId × Stamp) × Nat) (it : List TokenId × Stamp) :
    Option (List TokenId × Stamp) × Nat :=
  let key := it.1
  if key.length ≤ count ∨ key.length > count + blockTokens ∨
      key.take count ≠ prompt.take count then best
  else
    let query := prompt.take (count + length)
    let n := commonPrefix (key.drop count) (query.drop count)
    match best with
    | (none, matched) => if n > matched then (some it, n) else best
    | (some b, matched) =>
      if n > matched ∨ (n ≠ 0 ∧ n = matched ∧ tie query key b.1) then (some it, n) else best

/-- The walk of `reuse`. -/
def walk (blockTokens limit : Nat) (prompt : List TokenId) :
    Nat → PartialPrefixReference → Nat → List Nat → PartialPrefixReference × Nat × List Nat
  | 0, cache, count, pages => (cache, count, pages)
  | fuel + 1, cache, count, pages =>
    if count < limit then
      let length := min blockTokens (limit - count)
      match cache.entries.entries.foldl (consider blockTokens count length prompt) (none, 0) with
      | (some (key, entry), matched) =>
        let cache := { cache with
          entries := cache.entries.insert key { entry with touched := cache.clock + 1 }
          clock := cache.clock + 1 }
        if matched ≠ blockTokens then (cache, count + matched, pages ++ [entry.block])
        else walk blockTokens limit prompt fuel cache (count + matched) (pages ++ [entry.block])
      | (none, _) => (cache, count, pages)
    else (cache, count, pages)

def reuse (cache : PartialPrefixReference) (pool : KvBlockPool) (sequence : PagedSequence)
    (prompt : List TokenId) :
    Except Exn Nat × PagedSequence × PartialPrefixReference × KvBlockPool :=
  if sequence.used ≠ 0 ∨ sequence.blocks ≠ [] ∨ sequence.tokens ≠ [] then
    (.error (.invalidArgument "prefix reuse requires an empty sequence"), sequence, cache, pool)
  else if pool.config.prefixCacheBlocks = 0 then (.ok 0, sequence, cache, pool)
  else
    let limit := prompt.length - 1
    let (cache, count, pages) :=
      walk pool.config.blockTokens limit prompt limit cache 0 []
    match pool.retainAll pages with
    | (.error e, pool) => (.error e, sequence, cache, pool)
    | (.ok (), pool) =>
      let sequence := { used := count, blocks := pages, tokens := prompt.take count }
      let cache :=
        if count ≠ 0 then { cache with hits := cache.hits + 1, reused := cache.reused + count }
        else { cache with misses := cache.misses + 1 }
      (.ok count, sequence, cache, pool)

/-- One turn of the loop of `publish`. -/
def publishPage (cache : PartialPrefixReference) (pool : KvBlockPool) (key : List TokenId)
    (page : Nat) : Except Exn Unit × PartialPrefixReference × KvBlockPool :=
  match cache.entries.find? key with
  | some found =>
    (.ok (), { cache with
      entries := cache.entries.insert key { found with touched := cache.clock + 1 }
      clock := cache.clock + 1 }, pool)
  | none =>
    let (cache, pool) :=
      if cache.entries.size = pool.config.prefixCacheBlocks then (cache.evictOne pool).2
      else (cache, pool)
    match pool.retain page with
    | (.error e, pool) => (.error e, cache, pool)
    | (.ok (), pool) =>
      (.ok (), { cache with
        entries := cache.entries.emplace key ⟨page, cache.clock + 1⟩
        clock := cache.clock + 1 }, pool)

def publishLoop (sequence : PagedSequence) :
    Nat → Nat → PartialPrefixReference → KvBlockPool →
      Except Exn Unit × PartialPrefixReference × KvBlockPool
  | 0, _, cache, pool => (.ok (), cache, pool)
  | pages + 1, i, cache, pool =>
    let key := sequence.tokens.take (min sequence.used ((i + 1) * pool.config.blockTokens))
    match cache.publishPage pool key (sequence.blocks.getD i 0) with
    | (.error e, cache, pool) => (.error e, cache, pool)
    | (.ok (), cache, pool) => publishLoop sequence pages (i + 1) cache pool

def publishCount (pool : KvBlockPool) (sequence : PagedSequence) : Nat :=
  min sequence.blocks.length
    (min ((sequence.used + pool.config.blockTokens - 1) / pool.config.blockTokens)
      pool.config.prefixCacheBlocks)

def publish (cache : PartialPrefixReference) (pool : KvBlockPool) (sequence : PagedSequence) :
    Except Exn Unit × PartialPrefixReference × KvBlockPool :=
  if sequence.tokens.length ≠ sequence.used then
    (.error (.logicError "invalid committed KV token history"), cache, pool)
  else publishLoop sequence (publishCount pool sequence) 0 cache pool

end PartialPrefixReference

/-! ## The order of the times is the order of use -/

/-- The entries `L` of the reference, in order of their times, are the flat ones. -/
structure TimedBy (ref : PartialPrefixReference) (flat : FlatCache)
    (L : List (List TokenId × Stamp)) : Prop where
  entries : flat.entries = L.map fun e => (e.1, e.2.block)
  mem : ∀ k s, ref.entries.find? k = some s ↔ (k, s) ∈ L
  keys_nodup : (L.map Prod.fst).Nodup
  increasing : L.Pairwise fun a b => a.2.touched < b.2.touched
  le_clock : ∀ e ∈ L, e.2.touched ≤ ref.clock
  hits : ref.hits = flat.hits
  misses : ref.misses = flat.misses
  reused : ref.reused = flat.reused
  evictions : ref.evictions = flat.evictions

def Timed (ref : PartialPrefixReference) (flat : FlatCache) : Prop := ∃ L, TimedBy ref flat L

namespace Timed

open PartialPrefixReference

theorem empty : Timed {} {} :=
  ⟨[], { entries := rfl, mem := by simp, keys_nodup := List.nodup_nil,
         increasing := List.Pairwise.nil, le_clock := by simp, hits := rfl, misses := rfl,
         reused := rfl, evictions := rfl }⟩

variable {ref : PartialPrefixReference} {flat : FlatCache} {L : List (List TokenId × Stamp)}

theorem perm (h : TimedBy ref flat L) : ref.entries.entries.Perm L := by
  refine (List.perm_ext_iff_of_nodup ref.entries.keys_nodup.of_map h.keys_nodup.of_map).mpr ?_
  rintro ⟨k, s⟩
  rw [← OrdMap.find?_eq_some_iff, h.mem]

theorem size (h : Timed ref flat) : ref.size = flat.entries.length := by
  obtain ⟨L, h⟩ := h
  rw [h.entries, List.length_map]
  exact (perm h).length_eq

/-! ## Eviction -/

/-- The least recently used entry is the first of the list. -/
theorem foldl_min_eq {first : List TokenId × Stamp} (rest : List (List TokenId × Stamp))
    {acc : List TokenId × Stamp}
    (hacc : acc = first ∨ first ∈ rest)
    (hmin : ∀ e ∈ acc :: rest, e = first ∨ first.2.touched < e.2.touched) :
    rest.foldl (fun least e => if e.2.touched < least.2.touched then e else least) acc =
      first := by
  induction rest generalizing acc with
  | nil => exact hacc.resolve_right (by simp)
  | cons e rest ih =>
    rw [List.foldl_cons]
    have he := hmin e (by simp)
    have ha := hmin acc (by simp)
    refine ih ?_ fun x hx => ?_
    · by_cases heq : acc = first
      · left
        rw [if_neg, heq]
        rcases he with rfl | hlt
        · exact heq ▸ lt_irrefl _
        · rw [heq]
          omega
      · rcases List.mem_cons.mp (hacc.resolve_left heq) with rfl | hin
        · left
          rw [if_pos (ha.resolve_left heq)]
        · exact Or.inr hin
    · rcases List.mem_cons.mp hx with rfl | hin
      · split
        · exact he
        · exact ha
      · exact hmin x (by simp [hin])

/-- The entry with the smallest stamp is the least recently used one. -/
theorem minElement_eq (h : TimedBy ref flat L) :
    minElement ref.entries.entries = L.head? := by
  have hperm := perm h
  cases L with
  | nil => rw [List.perm_nil.mp hperm]; rfl
  | cons first rest =>
    cases hent : ref.entries.entries with
    | nil => exact absurd (hent ▸ hperm.symm).eq_nil (by simp)
    | cons acc tail =>
      rw [hent] at hperm
      rw [minElement, List.head?_cons]
      refine congrArg some (foldl_min_eq tail ?_ fun e he => ?_)
      · rcases List.mem_cons.mp (hperm.mem_iff.mpr (List.mem_cons_self (a := first))) with h | h
        · exact Or.inl h.symm
        · exact Or.inr h
      · rcases List.mem_cons.mp (hperm.mem_iff.mp he) with rfl | hin
        · exact Or.inl rfl
        · exact Or.inr ((List.pairwise_cons.mp h.increasing).1 e hin)

/-- Dropping the first entry. -/
theorem TimedBy.tail {first : List TokenId × Stamp} {rest : List (List TokenId × Stamp)}
    (h : TimedBy ref flat (first :: rest)) :
    TimedBy { ref with entries := ref.entries.erase first.1, evictions := ref.evictions + 1 }
      { flat with entries := flat.entries.tail, evictions := flat.evictions + 1 } rest := by
  have hnd := List.nodup_cons.mp h.keys_nodup
  refine { entries := by rw [h.entries]; rfl, mem := fun k s => ?_, keys_nodup := hnd.2,
           increasing := (List.pairwise_cons.mp h.increasing).2,
           le_clock := fun e he => h.le_clock e (List.mem_cons_of_mem _ he), hits := h.hits,
           misses := h.misses, reused := h.reused, evictions := congrArg (· + 1) h.evictions }
  rw [OrdMap.find?_erase]
  by_cases hk : k = first.1
  · rw [if_pos hk]
    exact ⟨fun hs => absurd hs (by simp),
      fun hs => absurd (List.mem_map.mpr ⟨_, hs, hk⟩) hnd.1⟩
  · rw [if_neg hk, h.mem, List.mem_cons]
    refine ⟨fun hs => hs.resolve_left fun heq => hk (congrArg Prod.fst heq), Or.inr⟩

theorem evictOne (h : Timed ref flat) (pool : KvBlockPool) :
    (ref.evictOne pool).1 = (flat.evictOne pool).1 ∧
      (ref.evictOne pool).2.2 = (flat.evictOne pool).2.2 ∧
      Timed (ref.evictOne pool).2.1 (flat.evictOne pool).2.1 := by
  obtain ⟨L, h⟩ := h
  rw [PartialPrefixReference.evictOne, FlatCache.evictOne, minElement_eq h]
  cases L with
  | nil =>
    rw [h.entries]
    exact ⟨rfl, rfl, [], h⟩
  | cons first rest =>
    have htail := TimedBy.tail h
    rw [h.entries] at htail ⊢
    exact ⟨rfl, rfl, rest, htail⟩

/-! ## Clearing -/

/-- They return the same pages when cleared. -/
theorem clear (h : Timed ref flat) (pool : KvBlockPool) :
    (ref.clear pool).2 = (flat.clear pool).2 ∧ Timed (ref.clear pool).1 (flat.clear pool).1 := by
  obtain ⟨L, h⟩ := h
  constructor
  · -- both lists are sorted by history and have the same entries
    have hperm : (ref.entries.entries.map fun e => (e.1, e.2.block)).Perm
        (FlatCache.inKeyOrder flat.entries) := by
      refine ((perm h).map _).trans ?_
      rw [← h.entries]
      exact (FlatCache.inKeyOrder_perm _).symm
    have hsorted : (ref.entries.entries.map fun e => (e.1, e.2.block)).Pairwise
        fun a b : Entry => a.1 ≤ b.1 := by
      rw [List.pairwise_map]
      exact ref.entries.sorted.imp fun hlt => le_of_lt hlt
    have hnd : ((ref.entries.entries.map fun e => (e.1, e.2.block)).map Prod.fst).Nodup := by
      rw [List.map_map]
      exact ref.entries.keys_nodup
    have heq := hperm.eq_of_pairwise (fun a b ha hb hab hba =>
      List.inj_on_of_nodup_map hnd ha (hperm.mem_iff.mpr hb) (le_antisymm hab hba)) hsorted
      (FlatCache.inKeyOrder_sorted _)
    show pool.unrefAll _ = pool.unrefAll _
    rw [← heq, List.map_map]
    rfl
  · exact ⟨[], { entries := rfl, mem := by simp [PartialPrefixReference.clear],
                 keys_nodup := List.nodup_nil, increasing := List.Pairwise.nil,
                 le_clock := by simp, hits := h.hits, misses := h.misses, reused := h.reused,
                 evictions := h.evictions }⟩

/-! ## The search of `reuse` -/

variable {blockTokens count length : Nat} {prompt : List TokenId}

/-- A key at most one page longer than the matched tokens, which it starts with. -/
structure IsBelow (blockTokens count : Nat) (prompt key : List TokenId) : Prop where
  lt : count < key.length
  le : key.length ≤ count + blockTokens
  history : key.take count = prompt.take count

theorem IsBelow.eq_append {key : List TokenId} (h : IsBelow blockTokens count prompt key) :
    prompt.take count ++ key.drop count = key := by
  rw [← h.history, List.take_append_drop]

theorem isBelow_iff {key : List TokenId} : IsBelow blockTokens count prompt key ↔
    ¬ (key.length ≤ count ∨ key.length > count + blockTokens ∨
      key.take count ≠ prompt.take count) := by
  constructor
  · rintro ⟨h1, h2, h3⟩ (h | h | h)
    · omega
    · omega
    · exact h h3
  · intro h
    simp only [not_or, not_le, not_lt, not_not, gt_iff_lt] at h
    exact ⟨h.1, h.2.1, h.2.2⟩

/-- The tie rule ignores a common front of the keys and the query. -/
theorem tie_append {p q e b : List TokenId} : tie (p ++ q) (p ++ e) (p ++ b) = true ↔
    (q ≤ e ∧ (b < q ∨ e < b)) ∨ (e < q ∧ b < q ∧ b < e) := by
  simp only [tie, append_lt_append_iff]
  rw [← not_lt]
  by_cases he : e < q <;> by_cases hb : b < q <;> simp [he, hb]

/-- What the search has found among the entries it has seen. -/
structure Found (blockTokens count : Nat) (prompt query : List TokenId)
    (seen : List (List TokenId × Stamp)) (best : Option (List TokenId × Stamp) × Nat) : Prop where
  none : best.1 = none → best.2 = 0 ∧ ∀ x ∈ seen,
    IsBelow blockTokens count prompt x.1 → commonPrefix (x.1.drop count) query = 0
  some : ∀ b, best.1 = some b → b ∈ seen ∧ IsBelow blockTokens count prompt b.1 ∧
    best.2 = commonPrefix (b.1.drop count) query ∧ 0 < best.2 ∧
    ∀ x ∈ seen, IsBelow blockTokens count prompt x.1 → x.1 ≠ b.1 →
      outranks query (b.1.drop count) (x.1.drop count)

/-- One more entry of the scan updates the best match as the flat search does. -/
theorem Found.step {seen : List (List TokenId × Stamp)}
    {best : Option (List TokenId × Stamp) × Nat} {it : List TokenId × Stamp}
    (h : Found blockTokens count prompt ((prompt.drop count).take length) seen best) :
    Found blockTokens count prompt ((prompt.drop count).take length) (seen ++ [it])
      (consider blockTokens count length prompt best it) := by
  have hquery : (prompt.take (count + length)).drop count = (prompt.drop count).take length := by
    rw [List.drop_take, Nat.add_sub_cancel_left]
  have hsplit : prompt.take (count + length) =
      prompt.take count ++ (prompt.drop count).take length := List.take_add
  have hmem : ∀ x, x ∈ seen ++ [it] ↔ x ∈ seen ∨ x = it := fun x => by simp
  rw [consider]
  by_cases hskip : it.1.length ≤ count ∨ it.1.length > count + blockTokens ∨
      it.1.take count ≠ prompt.take count
  · -- not a candidate
    rw [if_pos hskip]
    have hnot : ¬ IsBelow blockTokens count prompt it.1 := fun hb => isBelow_iff.mp hb hskip
    refine { none := fun hn => ⟨(h.none hn).1, fun x hx hb => ?_⟩, some := fun b hb => ?_ }
    · rcases (hmem x).mp hx with hin | rfl
      · exact (h.none hn).2 x hin hb
      · exact absurd hb hnot
    · obtain ⟨h1, h2, h3, h4, h5⟩ := h.some b hb
      refine ⟨(hmem b).mpr (Or.inl h1), h2, h3, h4, fun x hx hxb hne => ?_⟩
      rcases (hmem x).mp hx with hin | rfl
      · exact h5 x hin hxb hne
      · exact absurd hxb hnot
  rw [if_neg hskip]
  have hhit := isBelow_iff.mpr hskip
  simp only [hquery]
  generalize hq : (prompt.drop count).take length = query at *
  obtain ⟨b, matched⟩ := best
  -- the candidate against the best one so far
  cases b with
  | none =>
    obtain ⟨hz, hnone⟩ := h.none rfl
    simp only at hz
    subst hz
    -- the first candidate with a common token becomes the best
    by_cases hpos : commonPrefix (it.1.drop count) query > 0
    · simp only [if_pos hpos]
      refine { none := fun hn => by simp at hn, some := fun b hb => ?_ }
      obtain rfl : it = b := by simpa using hb
      refine ⟨(hmem it).mpr (Or.inr rfl), hhit, rfl, hpos, fun x hx hxb hne => Or.inl ?_⟩
      rcases (hmem x).mp hx with hin | rfl
      · rw [hnone x hin hxb]
        exact hpos
      · exact absurd rfl hne
    · simp only [if_neg hpos]
      refine { none := fun _ => ⟨rfl, fun x hx hxb => ?_⟩, some := fun b hb => by simp at hb }
      rcases (hmem x).mp hx with hin | rfl
      · exact hnone x hin hxb
      · omega
  | some b =>
    obtain ⟨hin, hb, hmatched, hpos, hbest⟩ := h.some b rfl
    simp only at hmatched hpos
    -- the entry replaces the best one exactly when it is preferred to it
    have hiff : (commonPrefix (it.1.drop count) query > matched ∨
        (commonPrefix (it.1.drop count) query ≠ 0 ∧
          commonPrefix (it.1.drop count) query = matched ∧
          tie (prompt.take (count + length)) it.1 b.1 = true)) ↔
        outranks query (it.1.drop count) (b.1.drop count) := by
      rw [hsplit]
      conv_lhs => rw [← hhit.eq_append, ← hb.eq_append]
      rw [tie_append, outranks, hmatched, hhit.eq_append]
      constructor
      · rintro (hgt | ⟨-, heq, htie⟩)
        · exact Or.inl hgt
        · exact Or.inr ⟨heq.symm, htie⟩
      · rintro (hlt | ⟨heq, htie⟩)
        · exact Or.inl hlt
        · exact Or.inr ⟨by omega, heq.symm, htie⟩
    by_cases hrepl : outranks query (it.1.drop count) (b.1.drop count)
    · simp only [if_pos (hiff.mpr hrepl)]
      refine { none := fun hn => by simp at hn, some := fun b' hb' => ?_ }
      obtain rfl : it = b' := by simpa using hb'
      refine ⟨(hmem it).mpr (Or.inr rfl), hhit, rfl, ?_, fun x hx hxb hne => ?_⟩
      · rcases hiff.mpr hrepl with hgt | ⟨hne, -⟩
        · exact Nat.lt_of_le_of_lt (Nat.zero_le _) hgt
        · exact Nat.pos_of_ne_zero hne
      · rcases (hmem x).mp hx with hin' | rfl
        · by_cases hxeq : x.1 = b.1
          · rw [hxeq]
            exact hrepl
          · exact outranks_trans hrepl (hbest x hin' hxb hxeq)
        · exact absurd rfl hne
    -- the best one stays, as it outranks or equals the candidate
    · simp only [if_neg (fun hc => hrepl (hiff.mp hc))]
      refine { none := fun hn => by simp at hn, some := fun b' hb' => ?_ }
      obtain rfl : b = b' := by simpa using hb'
      refine ⟨(hmem b).mpr (Or.inl hin), hb, hmatched, hpos, fun x hx hxb hne => ?_⟩
      rcases (hmem x).mp hx with hin' | rfl
      · exact hbest x hin' hxb hne
      · refine outranks_total (fun heq => hne ?_) hrepl
        rw [← hhit.eq_append, ← hb.eq_append, heq]

/-- The search finds what `bestMatch` picks. -/
theorem search_eq (h : TimedBy ref flat L) (blockTokens : Nat) {prompt : List TokenId}
    {count : Nat} (hcount : count ≤ prompt.length) (length : Nat) :
    (ref.entries.entries.foldl (consider blockTokens count length prompt) (none, 0) = (none, 0) ∧
        FlatCache.bestMatch blockTokens (prompt.take count) ((prompt.drop count).take length)
          flat.entries = none) ∨
      ∃ e s, ref.entries.entries.foldl (consider blockTokens count length prompt) (none, 0) =
          (some (prompt.take count ++ e, s), commonPrefix e ((prompt.drop count).take length)) ∧
        FlatCache.bestMatch blockTokens (prompt.take count) ((prompt.drop count).take length)
          flat.entries = some (e, s.block) ∧
        ref.entries.find? (prompt.take count ++ e) = some s := by
  -- the whole scan, by induction on the entries still to come
  have hfound : ∀ (rest seen : List (List TokenId × Stamp)) best,
      Found blockTokens count prompt ((prompt.drop count).take length) seen best →
      Found blockTokens count prompt ((prompt.drop count).take length) (seen ++ rest)
        (rest.foldl (consider blockTokens count length prompt) best) := by
    intro rest
    induction rest with
    | nil =>
      intro seen best hf
      simpa using hf
    | cons it rest ih =>
      intro seen best hf
      have := ih (seen ++ [it]) _ hf.step
      rwa [List.append_assoc] at this
  have hf := hfound ref.entries.entries [] (none, 0)
    { none := fun _ => ⟨rfl, by simp⟩, some := fun b hb => by simp at hb }
  rw [List.nil_append] at hf
  have hhist : (prompt.take count).length = count := by
    rw [List.length_take, Nat.min_eq_left hcount]
  -- the flat entries below the matched tokens are the candidates
  have hbelow : ∀ e page, (e, page) ∈ FlatCache.below blockTokens (prompt.take count) flat.entries →
      ∃ s, (prompt.take count ++ e, s) ∈ ref.entries.entries ∧ s.block = page ∧
        IsBelow blockTokens count prompt (prompt.take count ++ e) := by
    intro e page hmem
    obtain ⟨hin, hne, hle⟩ := FlatCache.mem_below.mp hmem
    rw [h.entries, List.mem_map] at hin
    obtain ⟨⟨k, s⟩, hks, heq⟩ := hin
    obtain ⟨rfl, rfl⟩ : k = prompt.take count ++ e ∧ s.block = page := by simpa using heq
    have hpos : 0 < e.length := List.length_pos_iff.mpr hne
    refine ⟨s, (perm h).mem_iff.mpr hks, rfl, ?_, ?_, ?_⟩
    · rw [List.length_append, hhist]
      omega
    · rw [List.length_append, hhist]
      omega
    · rw [List.take_append_of_le_length hhist.ge, List.take_take, Nat.min_self]
  have hdrop : ∀ e : List TokenId, (prompt.take count ++ e).drop count = e :=
    fun e => List.drop_left' hhist
  have hnd : (flat.entries.map Prod.fst).Nodup := by
    rw [h.entries, List.map_map]
    exact h.keys_nodup
  generalize ref.entries.entries.foldl (consider blockTokens count length prompt) (none, 0) = best
    at hf
  obtain ⟨b, matched⟩ := best
  cases b with
  -- no candidate shares a token
  | none =>
    obtain ⟨hz, hnone⟩ := hf.none rfl
    simp only at hz
    refine Or.inl ⟨by rw [hz], FlatCache.bestMatch_eq_none fun e page hmem => ?_⟩
    obtain ⟨s, hin, -, hb⟩ := hbelow e page hmem
    have := hnone _ hin hb
    rwa [hdrop] at this
  -- the winner of the scan is the flat cache's best match
  | some b =>
    obtain ⟨k, s⟩ := b
    obtain ⟨hin, hb, hmatched, hpos, hbest⟩ := hf.some (k, s) rfl
    simp only at hmatched hpos hb
    refine Or.inr ⟨k.drop count, s, by rw [hb.eq_append, hmatched], ?_, ?_⟩
    · refine FlatCache.bestMatch_eq_some hnd (FlatCache.mem_below.mpr ⟨?_, ?_, ?_⟩)
        (hmatched ▸ hpos) fun e' page' hmem hne => ?_
      · rw [hb.eq_append, h.entries]
        exact List.mem_map.mpr ⟨_, (perm h).mem_iff.mp hin, rfl⟩
      · rw [← List.length_pos_iff, List.length_drop]
        have := hb.lt
        omega
      · rw [List.length_drop]
        have := hb.le
        omega
      · obtain ⟨s', hin', -, hb'⟩ := hbelow e' page' hmem
        have hne' : prompt.take count ++ e' ≠ k := fun heq => hne (by rw [← hdrop e', heq])
        have := hbest _ hin' hb' hne'
        rwa [hdrop] at this
    · rw [hb.eq_append]
      exact OrdMap.find?_eq_some_iff.mpr hin

/-- Giving an entry the next time makes it the most recently used one. -/
theorem TimedBy.touch (h : TimedBy ref flat L) {k : List TokenId} {s : Stamp}
    (hk : ref.entries.find? k = some s) :
    TimedBy { ref with
        entries := ref.entries.insert k { s with touched := ref.clock + 1 }
        clock := ref.clock + 1 }
      { flat with entries := Lru.touch flat.entries k }
      (L.filter (fun e => e.1 ≠ k) ++ [(k, { s with touched := ref.clock + 1 })]) := by
  have hmem : (k, s) ∈ L := (h.mem k s).mp hk
  have hfilter : ∀ e ∈ L.filter (fun e => e.1 ≠ k), e ∈ L ∧ e.1 ≠ k := fun e he => by
    simpa using he
  refine { entries := ?_, mem := fun k' s' => ?_, keys_nodup := ?_, increasing := ?_,
           le_clock := fun e he => ?_, hits := h.hits, misses := h.misses, reused := h.reused,
           evictions := h.evictions }
  · have hlast : L.filter (fun e => e.1 = k) = [(k, s)] := by
      obtain ⟨A, B, rfl⟩ := List.append_of_mem hmem
      have hnd := h.keys_nodup
      rw [List.map_append, List.map_cons, List.nodup_append, List.nodup_cons] at hnd
      have hA : A.filter (fun e => decide (e.1 = k)) = [] :=
        List.filter_eq_nil_iff.mpr fun e he => by
          simpa using hnd.2.2 e.1 (List.mem_map_of_mem he) k List.mem_cons_self
      have hB : B.filter (fun e => decide (e.1 = k)) = [] :=
        List.filter_eq_nil_iff.mpr fun e he => by
          simpa using fun heq : e.1 = k => hnd.2.1.1 (List.mem_map.mpr ⟨e, he, heq⟩)
      rw [List.filter_append, List.filter_cons_of_pos (by simp), hA, hB]
      rfl
    show Lru.touch flat.entries k = _
    rw [Lru.touch, h.entries, List.filter_map, List.filter_map]
    show List.map _ (L.filter fun e => decide (e.1 ≠ k)) ++
      List.map _ (L.filter fun e => decide (e.1 = k)) = _
    rw [hlast, List.map_append]
    rfl
  · rw [OrdMap.find?_insert, List.mem_append, List.mem_singleton, List.mem_filter]
    by_cases hkk : k' = k
    · subst hkk
      simp [eq_comm]
    · simp [hkk, h.mem]
  · rw [List.map_append, List.nodup_append]
    refine ⟨h.keys_nodup.sublist ((List.filter_sublist).map _), by simp, fun a ha b hb => ?_⟩
    obtain ⟨e, he, rfl⟩ := List.mem_map.mp ha
    obtain rfl : b = k := by simpa using hb
    exact (hfilter e he).2
  · refine List.pairwise_append.mpr ⟨h.increasing.filter _, by simp, fun a ha b hb => ?_⟩
    obtain rfl := List.mem_singleton.mp hb
    exact Nat.lt_succ_of_le (h.le_clock a (hfilter a ha).1)
  · rcases List.mem_append.mp he with hin | hin
    · exact (h.le_clock e (hfilter e hin).1).trans (Nat.le_succ _)
    · obtain rfl := List.mem_singleton.mp hin
      exact le_rfl

/-- The two walks restore the same pages, round by round. -/
theorem walk_eq (blockTokens : Nat) {limit : Nat} (hlimit : limit ≤ prompt.length) (fuel : Nat)
    {ref : PartialPrefixReference} {flat : FlatCache} (h : Timed ref flat) {count : Nat}
    (hle : count ≤ limit) (pages : List Nat) :
    ∃ ref' entries total found,
      PartialPrefixReference.walk blockTokens limit prompt fuel ref count pages =
        (ref', total, found) ∧
      FlatCache.walk blockTokens limit prompt fuel flat.entries count pages =
        (entries, total, found) ∧
      Timed ref' { flat with entries } := by
  induction fuel generalizing ref flat count pages with
  | zero => exact ⟨ref, flat.entries, count, pages, rfl, rfl, h⟩
  | succ fuel ih =>
    obtain ⟨L, hL⟩ := h
    rw [PartialPrefixReference.walk, FlatCache.walk]
    by_cases hlt : count < limit
    swap
    · rw [if_neg hlt, if_neg hlt]
      exact ⟨ref, flat.entries, count, pages, rfl, rfl, L, hL⟩
    rw [if_pos hlt, if_pos hlt]
    rcases search_eq hL blockTokens (show count ≤ prompt.length by omega)
      (min blockTokens (limit - count)) with ⟨hfold, hbest⟩ | ⟨e, s, hfold, hbest, hfind⟩
    · simp only [hfold, hbest]
      exact ⟨ref, flat.entries, count, pages, rfl, rfl, L, hL⟩
    · simp only [hfold, hbest]
      have htouch := TimedBy.touch hL hfind
      have hmatch := commonPrefix_le_length_right e
        ((prompt.drop count).take (min blockTokens (limit - count)))
      rw [List.length_take] at hmatch
      by_cases hstop : commonPrefix e
          ((prompt.drop count).take (min blockTokens (limit - count))) ≠ blockTokens
      · rw [if_pos hstop, if_pos hstop]
        exact ⟨_, _, _, _, rfl, rfl, _, htouch⟩
      · rw [if_neg hstop, if_neg hstop]
        exact ih ⟨_, htouch⟩ (by omega) _

/-- They restore the same pages and end related. -/
theorem reuse (h : Timed ref flat) (pool : KvBlockPool) (sequence : PagedSequence)
    (prompt : List TokenId) :
    ∃ outcome sequence' ref' flat' pool',
      ref.reuse pool sequence prompt = (outcome, sequence', ref', pool') ∧
      flat.reuse pool sequence prompt = (outcome, sequence', flat', pool') ∧
      Timed ref' flat' := by
  rw [PartialPrefixReference.reuse, FlatCache.reuse]
  by_cases hbusy : sequence.used ≠ 0 ∨ sequence.blocks ≠ [] ∨ sequence.tokens ≠ []
  · rw [if_pos hbusy, if_pos hbusy]
    exact ⟨_, sequence, ref, flat, pool, rfl, rfl, h⟩
  rw [if_neg hbusy, if_neg hbusy]
  by_cases hoff : pool.config.prefixCacheBlocks = 0
  · rw [if_pos hoff, if_pos hoff]
    exact ⟨_, sequence, ref, flat, pool, rfl, rfl, h⟩
  rw [if_neg hoff, if_neg hoff]
  obtain ⟨ref', entries, total, found, hwalk, hwalk', L, hL⟩ :=
    walk_eq pool.config.blockTokens (Nat.sub_le prompt.length 1) (prompt.length - 1) h
      (Nat.zero_le _) []
  simp only [hwalk, hwalk']
  cases hret : pool.retainAll found with
  | mk outcome pool' =>
  cases outcome with
  | error err => exact ⟨_, _, _, _, _, rfl, rfl, L, hL⟩
  | ok _ =>
    refine ⟨_, _, _, _, _, rfl, rfl, L, ?_⟩
    have hm : ref'.misses = flat.misses := hL.misses
    have hr : ref'.reused = flat.reused := hL.reused
    have hh : ref'.hits = flat.hits := hL.hits
    by_cases htotal : total ≠ 0
    · simp only [if_pos htotal]
      exact { hL with hits := congrArg (· + 1) hh, reused := congrArg (· + total) hr }
    · simp only [if_neg htotal]
      exact { hL with misses := congrArg (· + 1) hm }

/-! ## Publication -/

/-- A page with another holder can be retained before or after an eviction. -/
theorem retain_unref_comm {pool : KvBlockPool} {held : Nat → Nat} (h : pool.Accounts held)
    (page victim : Nat) (hpage : [victim].count page < held page) :
    ∃ pool', pool.retain page = (.ok (), pool') ∧
      (pool.unref victim).retain page = (.ok (), pool'.unref victim) := by
  have hlt : page < pool.config.maxBlocks := h.bounded page (by omega)
  have hrefs := h.refs page
  have hlt' : page < (pool.unref victim).config.maxBlocks := by rwa [KvBlockPool.unref_config]
  rw [KvBlockPool.retain, if_pos hlt, KvBlockPool.retain, if_pos hlt']
  refine ⟨_, rfl, ?_⟩
  rw [KvBlockPool.count_one] at hpage
  by_cases hv : page = victim
  · subst hv
    rw [if_pos rfl] at hpage
    have h1 : ¬ pool.references page - 1 = 0 := by omega
    have h2 : pool.references page ≠ 0 := by omega
    have h3 : pool.references page - 1 + 1 = pool.references page := by omega
    simp [KvBlockPool.unref, h1, h2, h3]
  · have hv' : victim ≠ page := fun heq => hv heq.symm
    simp only [KvBlockPool.unref, Function.update_self, Function.update_of_ne hv']
    split
    · simp [Function.update_comm hv', Function.update_of_ne hv]
    · simp [Function.update_comm hv', Function.update_of_ne hv]

/-- A new history with the next time. -/
theorem TimedBy.insert (h : TimedBy ref flat L) {k : List TokenId}
    (hk : ref.entries.find? k = none) (page : Nat) :
    TimedBy { ref with
        entries := ref.entries.emplace k ⟨page, ref.clock + 1⟩
        clock := ref.clock + 1 }
      { flat with entries := flat.entries ++ [(k, page)] }
      (L ++ [(k, ⟨page, ref.clock + 1⟩)]) := by
  have hnot : ∀ e ∈ L, e.1 ≠ k := by
    rintro ⟨k', s⟩ he rfl
    rw [(h.mem _ s).mpr he] at hk
    cases hk
  refine { entries := ?_, mem := fun k' s' => ?_, keys_nodup := ?_, increasing := ?_,
           le_clock := fun e he => ?_, hits := h.hits, misses := h.misses, reused := h.reused,
           evictions := h.evictions }
  · rw [h.entries, List.map_append]
    rfl
  · rw [OrdMap.emplace_eq_insert _ hk, OrdMap.find?_insert, List.mem_append, List.mem_singleton]
    by_cases hkk : k' = k
    · subst hkk
      rw [if_pos rfl]
      constructor
      · intro hs
        right
        rw [Option.some.inj hs]
      · rintro (hin | heq)
        · exact absurd rfl (hnot _ hin)
        · rw [(Prod.mk.inj heq).2]
    · rw [if_neg hkk, h.mem]
      exact ⟨Or.inl, fun hs => hs.resolve_right fun heq => hkk (congrArg Prod.fst heq)⟩
  · rw [List.map_append, List.nodup_append]
    refine ⟨h.keys_nodup, by simp, fun a ha b hb => ?_⟩
    obtain ⟨e, he, rfl⟩ := List.mem_map.mp ha
    obtain rfl : b = k := by simpa using hb
    exact hnot e he
  · refine List.pairwise_append.mpr ⟨h.increasing, by simp, fun a ha b hb => ?_⟩
    obtain rfl := List.mem_singleton.mp hb
    exact Nat.lt_succ_of_le (h.le_clock a ha)
  · rcases List.mem_append.mp he with hin | hin
    · exact (h.le_clock e hin).trans (Nat.le_succ _)
    · obtain rfl := List.mem_singleton.mp hin
      exact le_rfl

theorem find?_eq (h : TimedBy ref flat L) (k : List TokenId) :
    Lru.find? flat.entries k = (ref.entries.find? k).map Stamp.block := by
  have hnd : (flat.entries.map Prod.fst).Nodup := by
    rw [h.entries, List.map_map]
    exact h.keys_nodup
  ext b
  rw [Lru.find?_eq_some_iff hnd, h.entries, Option.map_eq_some_iff, List.mem_map]
  constructor
  · rintro ⟨⟨k', s⟩, hin, heq⟩
    obtain ⟨rfl, rfl⟩ : k' = k ∧ s.block = b := by simpa using heq
    exact ⟨s, (h.mem _ s).mpr hin, rfl⟩
  · rintro ⟨s, hs, rfl⟩
    exact ⟨(k, s), (h.mem k s).mp hs, rfl⟩

/-- They lease the same page. -/
theorem publishPage (h : Timed ref flat) {out : Nat → Nat} {pool : KvBlockPool}
    (hacc : pool.Accounts fun b => out b + flat.pages.count b) (key : List TokenId) {page : Nat}
    (hpage : 0 < out page) :
    ∃ outcome ref' flat' pool', ref.publishPage pool key page = (outcome, ref', pool') ∧
      flat.publishPage pool key page = (outcome, flat', pool') ∧ Timed ref' flat' := by
  obtain ⟨L, hL⟩ := h
  rw [PartialPrefixReference.publishPage, FlatCache.publishPage, find?_eq hL]
  cases hfind : ref.entries.find? key with
  | some s => exact ⟨_, _, _, _, rfl, rfl, _, TimedBy.touch hL hfind⟩
  | none =>
    have hsize : ref.entries.size = flat.entries.length := size ⟨L, hL⟩
    simp only [Option.map_none, Option.isSome_none, Bool.false_eq_true, if_false]
    by_cases hfull : ref.entries.size = pool.config.prefixCacheBlocks
    · rw [if_pos hfull]
      rw [hsize] at hfull
      rw [PartialPrefixReference.evictOne, minElement_eq hL]
      cases L with
      | nil =>
        obtain ⟨pool', hret, hcfg, -, -⟩ := KvBlockPool.retain_spec hacc (b := page) (by omega)
        have hevict : flat.evictOne pool' = (false, flat, pool') := by
          rw [FlatCache.evictOne, hL.entries]
          rfl
        simp only [List.head?_nil, hret, hcfg, if_pos hfull, hevict]
        exact ⟨_, _, _, _, rfl, rfl, _, TimedBy.insert hL hfind page⟩
      | cons first rest =>
        have hpages : flat.pages = first.2.block :: rest.map fun e => e.2.block := by
          rw [FlatCache.pages, hL.entries, List.map_map]
          rfl
        obtain ⟨pool', hret, hret'⟩ := retain_unref_comm hacc page first.2.block (by
            have := KvBlockPool.count_cons_eq first.2.block page (rest.map fun e => e.2.block)
            rw [hpages]
            omega)
        have hcfg : pool'.config = pool.config := by
          have := pool.retain_config page
          rwa [hret] at this
        have htail := TimedBy.tail hL
        have hfind' : (ref.entries.erase first.1).find? key = none := by
          rw [OrdMap.find?_erase, hfind, ite_self]
        have hins := TimedBy.insert htail hfind' page
        have hevict : flat.evictOne pool' = (true, { flat with
            entries := flat.entries.tail, evictions := flat.evictions + 1 },
            pool'.unref first.2.block) := by
          rw [FlatCache.evictOne, hL.entries]
          rfl
        simp only [List.head?_cons, hret, hret', hcfg, if_pos hfull, hevict]
        exact ⟨_, _, _, _, rfl, rfl, _, hins⟩
    · rw [if_neg hfull]
      rw [hsize] at hfull
      obtain ⟨pool', hret, hcfg, -, -⟩ := KvBlockPool.retain_spec hacc (b := page) (by omega)
      simp only [hret, hcfg, if_neg hfull]
      exact ⟨_, _, _, _, rfl, rfl, _, TimedBy.insert hL hfind page⟩

/-- They lease the same pages, by induction on the pages left. -/
theorem publishLoop {out : Nat → Nat} {sequence : PagedSequence} (pages : Nat) {i : Nat}
    {ref : PartialPrefixReference} {flat : FlatCache} (h : Timed ref flat) {pool : KvBlockPool}
    (hacc : pool.Accounts fun b => out b + flat.pages.count b)
    (hheld : ∀ b ∈ sequence.blocks, 0 < out b) (hlast : i + pages ≤ sequence.blocks.length) :
    ∃ outcome ref' flat' pool',
      PartialPrefixReference.publishLoop sequence pages i ref pool = (outcome, ref', pool') ∧
      FlatCache.publishLoop sequence pages i flat pool = (outcome, flat', pool') ∧
      Timed ref' flat' := by
  induction pages generalizing i ref flat pool with
  | zero => exact ⟨_, ref, flat, pool, rfl, rfl, h⟩
  | succ pages ih =>
    have hpage : 0 < out (sequence.blocks.getD i 0) := by
      refine hheld _ ?_
      rw [List.getD_eq_getElem?_getD, List.getElem?_eq_getElem (by omega), Option.getD_some]
      exact List.getElem_mem _
    obtain ⟨outcome, ref', flat', pool', h1, h2, h'⟩ := publishPage h hacc
      (sequence.tokens.take (min sequence.used ((i + 1) * pool.config.blockTokens))) hpage
    obtain ⟨flat'', pool'', h3, -, hacc', -⟩ := FlatCache.publishPage_accounts hacc
      (sequence.tokens.take (min sequence.used ((i + 1) * pool.config.blockTokens))) hpage
    rw [h3] at h2
    obtain ⟨rfl, heq⟩ := Prod.mk.inj h2
    obtain ⟨rfl, rfl⟩ := Prod.mk.inj heq
    rw [PartialPrefixReference.publishLoop, FlatCache.publishLoop]
    simp only [h1, h3]
    exact ih h' hacc' (by omega)

/-- They publish alike and end related. -/
theorem publish (h : Timed ref flat) {out : Nat → Nat} {pool : KvBlockPool}
    (hacc : pool.Accounts fun b => out b + flat.pages.count b) {sequence : PagedSequence}
    (hheld : ∀ b ∈ sequence.blocks, 0 < out b) :
    ∃ outcome ref' flat' pool', ref.publish pool sequence = (outcome, ref', pool') ∧
      flat.publish pool sequence = (outcome, flat', pool') ∧ Timed ref' flat' := by
  rw [PartialPrefixReference.publish, FlatCache.publish]
  by_cases hlen : sequence.tokens.length ≠ sequence.used
  · rw [if_pos hlen, if_pos hlen]
    exact ⟨_, ref, flat, pool, rfl, rfl, h⟩
  · rw [if_neg hlen, if_neg hlen]
    refine publishLoop _ h hacc hheld ?_
    rw [Nat.zero_add]
    exact Nat.min_le_left _ _

/-! ## Pages only the cache holds -/

/-- The counts of the scan are those of the entries. -/
theorem find?_leaseCounts (entries : List (List TokenId × Stamp)) (acc : OrdMap Nat Nat) (b : Nat) :
    (entries.foldl (fun leases e =>
        leases.insert e.2.block ((leases.find? e.2.block).getD 0 + 1)) acc).find? b =
      if (entries.map fun e => e.2.block).count b = 0 then acc.find? b
      else some ((acc.find? b).getD 0 + (entries.map fun e => e.2.block).count b) := by
  induction entries generalizing acc with
  | nil => rfl
  | cons e entries ih =>
    rw [List.foldl_cons, ih, OrdMap.find?_insert, List.map_cons,
      KvBlockPool.count_cons_eq e.2.block b, KvBlockPool.count_one]
    by_cases hb : b = e.2.block
    · subst hb
      simp only [if_true, Option.getD_some]
      split
      · next hz => rw [hz, if_neg (by omega)]
      · rw [if_neg (by omega)]
        congr 1
        omega
    · simp only [if_neg hb, Nat.zero_add]

/-- They hold the same pages alone. -/
theorem cacheOnlyBlocks (h : Timed ref flat) {out : Nat → Nat} {pool : KvBlockPool}
    (hacc : pool.Accounts fun b => out b + flat.pages.count b) :
    ref.cacheOnlyBlocks pool = flat.cacheOnlyBlocks pool := by
  obtain ⟨L, hL⟩ := h
  have hcount : ∀ b, (ref.entries.entries.map fun e => e.2.block).count b = flat.pages.count b := by
    intro b
    rw [((perm hL).map _).count_eq, FlatCache.pages, hL.entries, List.map_map]
    rfl
  have hmem : ∀ b n, (b, n) ∈ ref.leaseCounts.entries ↔
      flat.pages.count b ≠ 0 ∧ n = flat.pages.count b := by
    intro b n
    rw [← OrdMap.find?_eq_some_iff, leaseCounts, find?_leaseCounts, hcount]
    split
    · next hz => simp [hz]
    · next hz => simp [hz, eq_comm]
  rw [PartialPrefixReference.cacheOnlyBlocks, FlatCache.cacheOnlyBlocks, ← List.length_map Prod.fst]
  refine List.Perm.length_eq ((List.perm_ext_iff_of_nodup ?_ ?_).mpr fun b => ?_)
  · exact ref.leaseCounts.keys_nodup.sublist ((List.filter_sublist).map _)
  · exact List.nodup_range.filter _
  · rw [List.mem_filter, List.mem_range, List.mem_map]
    constructor
    · rintro ⟨⟨b', n⟩, hin, rfl⟩
      obtain ⟨hin, href⟩ := List.mem_filter.mp hin
      obtain ⟨hne, rfl⟩ := (hmem b' n).mp hin
      have hpos : 0 < flat.pages.count b' := Nat.pos_of_ne_zero hne
      refine ⟨hacc.bounded b' (by omega), ?_⟩
      simp only [beq_iff_eq] at href
      simp only [Bool.and_eq_true, decide_eq_true_eq, beq_iff_eq]
      exact ⟨hne, href⟩
    · rintro ⟨-, hb⟩
      simp only [Bool.and_eq_true, decide_eq_true_eq, beq_iff_eq] at hb
      refine ⟨(b, flat.pages.count b), List.mem_filter.mpr ⟨(hmem b _).mpr ⟨hb.1, rfl⟩, ?_⟩, rfl⟩
      simpa [FlatCache.pages] using hb.2

end Timed

end TinyInfer.MiniPrefix
