import TinyInfer.MiniPrefix.FlatLeases

/-!
# The walk finds the longest match

A history can be reused when each of its page fronts is cached: `LeasedPath`.
`walk_longest` says that following best matches ends at the history that shares
most with the prompt among all of those.

- `bestMatch_le`: a best match shares at least as much as any other entry one
  page below, and there is one as soon as some entry shares anything;
- `LeasedPath.below`, `LeasedPath.snoc`: one page of a path, from above and from
  below.
-/

namespace TinyInfer.MiniPrefix

open Lib

namespace FlatCache

variable {blockTokens : Nat} {c : List Entry}

/-! ## Best matches -/

/-- No entry one page below a history shares more with the query than the best
match does; without a best match none shares anything. -/
theorem bestMatch_le {history e : List TokenId} {b : Nat} (query : List TokenId)
    (h : (e, b) ∈ below blockTokens history c) :
    commonPrefix e query ≤
      ((bestMatch blockTokens history query c).map fun m => commonPrefix m.1 query).getD 0 := by
  cases hfind : bestMatch blockTokens history query c with
  | some m =>
    rw [bestMatch] at hfind
    have hm := List.find?_some hfind
    rw [decide_eq_true_eq] at hm
    show commonPrefix e query ≤ commonPrefix m.1 query
    by_cases heq : e = m.1
    · rw [heq]
    · exact commonPrefix_le_of_outranks (hm.2 (e, b) h heq)
  | none =>
    -- the entry preferred to all others is no match either
    have hmem : e ∈ (below blockTokens history c).map Prod.fst := List.mem_map.mpr ⟨_, h, rfl⟩
    obtain ⟨e₀, he₀, hbest⟩ := exists_outranks query (List.ne_nil_of_mem hmem)
    obtain ⟨m, hm, rfl⟩ := List.mem_map.mp he₀
    have hno := List.find?_eq_none.mp hfind m hm
    rw [decide_eq_true_eq, not_and] at hno
    have hzero : ¬ 0 < commonPrefix m.1 query := fun hpos =>
      hno hpos fun e' he' => hbest e'.1 (List.mem_map.mpr ⟨e', he', rfl⟩)
    have hle : commonPrefix e query ≤ commonPrefix m.1 query := by
      by_cases heq : e = m.1
      · rw [heq]
      · exact commonPrefix_le_of_outranks (hbest e hmem heq)
    show commonPrefix e query ≤ 0
    omega

/-! ## Leased paths -/

/-- Every page front of the history `k` is cached, and `pages` are their pages. -/
structure LeasedPath (blockTokens : Nat) (c : List Entry) (k : List TokenId) (pages : List Nat) :
    Prop where
  length : pages.length = pagesFor blockTokens k.length
  entry : ∀ i b, pages[i]? = some b → (k.take (blockTokens * (i + 1)), b) ∈ c

theorem LeasedPath.nil (blockTokens : Nat) (c : List Entry) : LeasedPath blockTokens c [] [] where
  length := by simp
  entry := fun i b h => by simp at h

theorem LeasedPath.congr {c' : List Entry} {k : List TokenId} {pages : List Nat}
    (h : LeasedPath blockTokens c k pages) (hsub : ∀ e ∈ c, e ∈ c') :
    LeasedPath blockTokens c' k pages where
  length := h.length
  entry := fun i b hi => hsub _ (h.entry i b hi)

/-- The page of a path below one of its full fronts. -/
theorem LeasedPath.below {k ps : List _} (hpos : 0 < blockTokens)
    (h : LeasedPath blockTokens c k ps) {d : Nat} (hd : blockTokens * d < k.length) :
    ∃ b, ((k.drop (blockTokens * d)).take blockTokens, b) ∈
      below blockTokens (k.take (blockTokens * d)) c := by
  have hlen : d < ps.length := by
    have hlt := div_lt_pagesFor hpos hd
    rwa [Nat.mul_div_cancel_left _ hpos, ← h.length] at hlt
  refine ⟨ps[d], mem_below.mpr ⟨?_, ?_, ?_⟩⟩
  · have hentry := h.entry d _ (List.getElem?_eq_getElem hlen)
    rwa [Nat.mul_succ, List.take_add] at hentry
  · intro hnil
    have hzero := congrArg List.length hnil
    rw [List.length_take, List.length_drop, List.length_nil] at hzero
    omega
  · rw [List.length_take]
    exact Nat.min_le_left _ _

/-- A path goes on with an entry below it. -/
theorem LeasedPath.snoc {k pages e : List _} {d b : Nat} (h : LeasedPath blockTokens c k pages)
    (hpos : 0 < blockTokens) (hk : k.length = blockTokens * d) (hne : e ≠ [])
    (hle : e.length ≤ blockTokens) (hmem : (k ++ e, b) ∈ c) :
    LeasedPath blockTokens c (k ++ e) (pages ++ [b]) := by
  have hpages : pages.length = d := by rw [h.length, hk, pagesFor_mul d hpos]
  have hepos : 0 < e.length := List.length_pos_iff.mpr hne
  have hmul : blockTokens * (d + 1) = blockTokens * d + blockTokens := Nat.mul_succ _ _
  refine { length := ?_, entry := fun i b' hi => ?_ }
  · rw [List.length_append, hpages, List.length_append, hk,
      pagesFor_of_lt (k := d) (by omega) (by omega)]
    rfl
  · rcases Nat.lt_or_ge i d with hlt | hge
    · rw [List.getElem?_append_left (by omega)] at hi
      have hfront : blockTokens * (i + 1) ≤ k.length := by
        rw [hk]
        exact Nat.mul_le_mul_left _ hlt
      rw [List.take_append_of_le_length hfront]
      exact h.entry i b' hi
    · rw [List.getElem?_append_right (by omega), List.getElem?_singleton] at hi
      split at hi
      · obtain rfl := Option.some.inj hi
        obtain rfl : i = d := by omega
        rw [List.take_of_length_le (by rw [List.length_append]; omega)]
        exact hmem
      · cases hi

/-! ## The walk -/

/-- `total` is the most that a leased path shares with the query, and `found`
are the pages of a path that shares it. -/
structure Longest (blockTokens : Nat) (c : List Entry) (query : List TokenId) (total : Nat)
    (found : List Nat) : Prop where
  attained : ∃ k, LeasedPath blockTokens c k found ∧ commonPrefix k query = total
  bound : ∀ k pages, LeasedPath blockTokens c k pages → commonPrefix k query ≤ total

theorem Longest.congr {c' : List Entry} {query : List TokenId} {total : Nat} {found : List Nat}
    (h : Longest blockTokens c query total found) (hperm : c.Perm c') :
    Longest blockTokens c' query total found where
  attained := by
    obtain ⟨k, hk, htotal⟩ := h.attained
    exact ⟨k, hk.congr fun e he => hperm.mem_iff.mp he, htotal⟩
  bound := fun k pages hk => h.bound k pages (hk.congr fun e he => hperm.mem_iff.mpr he)

/-- What a path shares with a query beyond a front of it is what their rests share. -/
theorem commonPrefix_drop {k query : List TokenId} {n : Nat} (h : n < commonPrefix k query) :
    k.take n = query.take n ∧
      commonPrefix k query = n + commonPrefix (k.drop n) (query.drop n) := by
  have htake : k.take n = query.take n := by
    have hcut := congrArg (List.take n) (take_commonPrefix k query)
    rwa [List.take_take, List.take_take, Nat.min_eq_left h.le] at hcut
  have hlen := commonPrefix_le_length_left k query
  refine ⟨htake, ?_⟩
  conv_lhs => rw [← List.take_append_drop n k, ← List.take_append_drop n query, htake]
  rw [commonPrefix_append, ← htake, List.length_take, Nat.min_eq_left (by omega)]

/-- A path that shares more than its first `d` pages with the query has an entry
below them, and that entry decides how much of page `d` is shared. -/
theorem LeasedPath.shared_page {k ps query : List _} (hpos : 0 < blockTokens)
    (h : LeasedPath blockTokens c k ps) {d : Nat} (hd : blockTokens * d < commonPrefix k query) :
    ∃ e b, (e, b) ∈ FlatCache.below blockTokens (query.take (blockTokens * d)) c ∧
      commonPrefix e ((query.drop (blockTokens * d)).take blockTokens) =
        min (commonPrefix k query - blockTokens * d) blockTokens := by
  obtain ⟨hfront, hrest⟩ := commonPrefix_drop hd
  have hlen := commonPrefix_le_length_left k query
  obtain ⟨b, hb⟩ := h.below hpos (show blockTokens * d < k.length by omega)
  refine ⟨_, b, hfront ▸ hb, ?_⟩
  rw [commonPrefix_take, hrest, Nat.add_sub_cancel_left]

/-! ### One turn

The walk has matched the first `d` pages of the wanted tokens `goal`, and `pages`
hold them. -/

section Turn

variable {goal : List TokenId} {d : Nat} {pages : List Nat}

theorem commonPrefix_front (n : Nat) : commonPrefix (goal.take n) goal = min n goal.length := by
  have hself := commonPrefix_append (goal.take n) [] (goal.drop n)
  rwa [List.append_nil, List.take_append_drop, commonPrefix_nil, Nat.add_zero,
    List.length_take] at hself

/-- Stopping where no path shares more. -/
theorem Longest.stop (hpath : LeasedPath blockTokens c (goal.take (blockTokens * d)) pages)
    (hle : blockTokens * d ≤ goal.length)
    (hbound : ∀ k ps, LeasedPath blockTokens c k ps → commonPrefix k goal ≤ blockTokens * d) :
    Longest blockTokens c goal (blockTokens * d) pages where
  attained := ⟨_, hpath, by rw [commonPrefix_front, Nat.min_eq_left hle]⟩
  bound := hbound

/-- Without a best match no path shares more. -/
theorem LeasedPath.le_of_none {k ps : List _} (hk : LeasedPath blockTokens c k ps)
    (hpos : 0 < blockTokens)
    (hbest : bestMatch blockTokens (goal.take (blockTokens * d))
      ((goal.drop (blockTokens * d)).take blockTokens) c = none) :
    commonPrefix k goal ≤ blockTokens * d := by
  by_contra hmore
  obtain ⟨e, b, hb, hshared⟩ := hk.shared_page hpos (Nat.lt_of_not_le hmore)
  have hno := bestMatch_le ((goal.drop (blockTokens * d)).take blockTokens) hb
  rw [hbest, hshared] at hno
  simp only [Option.map_none, Option.getD_none] at hno
  omega

/-- No path shares more of a page than the best match. -/
theorem LeasedPath.page_le {k ps edge : List _} {page : Nat}
    (hk : LeasedPath blockTokens c k ps) (hpos : 0 < blockTokens)
    (hbest : bestMatch blockTokens (goal.take (blockTokens * d))
      ((goal.drop (blockTokens * d)).take blockTokens) c = some (edge, page)) :
    min (commonPrefix k goal - blockTokens * d) blockTokens ≤
      commonPrefix edge ((goal.drop (blockTokens * d)).take blockTokens) := by
  by_cases hmore : blockTokens * d < commonPrefix k goal
  · obtain ⟨e, b, hb, hshared⟩ := hk.shared_page hpos hmore
    have hle := bestMatch_le ((goal.drop (blockTokens * d)).take blockTokens) hb
    rwa [hbest, hshared] at hle
  · omega

/-- The path through the best match, and what it shares. -/
theorem LeasedPath.through_best {edge : List TokenId} {page : Nat}
    (hpath : LeasedPath blockTokens c (goal.take (blockTokens * d)) pages)
    (hpos : 0 < blockTokens) (hle : blockTokens * d ≤ goal.length)
    (hbest : bestMatch blockTokens (goal.take (blockTokens * d))
      ((goal.drop (blockTokens * d)).take blockTokens) c = some (edge, page)) :
    LeasedPath blockTokens c (goal.take (blockTokens * d) ++ edge) (pages ++ [page]) ∧
      commonPrefix (goal.take (blockTokens * d) ++ edge) goal = blockTokens * d +
        commonPrefix edge ((goal.drop (blockTokens * d)).take blockTokens) := by
  obtain ⟨hmem, hedge, hmatch⟩ := bestMatch_mem hbest
  have hlen : (goal.take (blockTokens * d)).length = blockTokens * d := by
    rw [List.length_take, Nat.min_eq_left hle]
  refine ⟨hpath.snoc hpos hlen ?_ hedge hmem, ?_⟩
  · rintro rfl
    simp at hmatch
  · conv_lhs => rw [← List.take_append_drop (blockTokens * d) goal, List.take_left' hlen]
    rw [commonPrefix_append, hlen, commonPrefix_take_right hedge]

end Turn

/-- The walk of `reuse` ends at the longest match. The induction carries the
path walked so far, all of which the prompt shares. -/
theorem walk_longest {limit : Nat} {prompt : List TokenId} (hpos : 0 < blockTokens)
    (hlimit : limit ≤ prompt.length) (fuel : Nat) {c : List Entry} {d : Nat} {pages : List Nat}
    (hpath : LeasedPath blockTokens c ((prompt.take limit).take (blockTokens * d)) pages)
    (hle : blockTokens * d ≤ limit) (hfuel : limit - blockTokens * d ≤ fuel) :
    ∃ c' total found, walk blockTokens limit prompt fuel c (blockTokens * d) pages =
        (c', total, found) ∧ Longest blockTokens c (prompt.take limit) total found := by
  have hgoal : (prompt.take limit).length = limit := by
    rw [List.length_take, Nat.min_eq_left hlimit]
  have hshort : ∀ k, commonPrefix k (prompt.take limit) ≤ limit := fun k => by
    conv_rhs => rw [← hgoal]
    exact commonPrefix_le_length_right k (prompt.take limit)
  induction fuel generalizing c d pages with
  | zero =>
    refine ⟨c, _, pages, rfl, Longest.stop hpath (by omega) fun k ps _ => ?_⟩
    have := hshort k
    omega
  | succ fuel ih =>
    rw [walk]
    by_cases hlt : blockTokens * d < limit
    swap
    · rw [if_neg hlt]
      refine ⟨c, _, pages, rfl, Longest.stop hpath (by omega) fun k ps _ => ?_⟩
      have := hshort k
      omega
    rw [if_pos hlt]
    have hfront : prompt.take (blockTokens * d) = (prompt.take limit).take (blockTokens * d) := by
      rw [List.take_take, Nat.min_eq_left hle]
    have hquery : (prompt.drop (blockTokens * d)).take (min blockTokens (limit - blockTokens * d)) =
        ((prompt.take limit).drop (blockTokens * d)).take blockTokens := by
      rw [List.drop_take, List.take_take]
    rw [hfront, hquery]
    cases hbest : bestMatch blockTokens ((prompt.take limit).take (blockTokens * d))
        (((prompt.take limit).drop (blockTokens * d)).take blockTokens) c with
    | none =>
      simp only [hbest]
      exact ⟨c, _, pages, rfl,
        Longest.stop hpath (by omega) fun k ps hk => hk.le_of_none hpos hbest⟩
    | some r =>
      obtain ⟨edge, page⟩ := r
      simp only [hbest]
      obtain ⟨hnext, hcommon⟩ := hpath.through_best hpos (by omega) hbest
      have hpage := fun k ps (hk : LeasedPath blockTokens c k ps) => hk.page_le hpos hbest
      obtain ⟨-, hedge, -⟩ := bestMatch_mem hbest
      have hpartial := commonPrefix_le_length_left edge
        (((prompt.take limit).drop (blockTokens * d)).take blockTokens)
      have hsize := hshort ((prompt.take limit).take (blockTokens * d) ++ edge)
      by_cases hfull : commonPrefix edge
          (((prompt.take limit).drop (blockTokens * d)).take blockTokens) ≠ blockTokens
      · rw [if_pos hfull]
        refine ⟨_, _, _, rfl, { attained := ⟨_, hnext, hcommon⟩, bound := fun k ps hk => ?_ }⟩
        have := hpage k ps hk
        omega
      · rw [if_neg hfull]
        -- a page matched in full is the next page of the prompt
        rw [not_not.mp hfull] at hcommon ⊢
        have hmul : blockTokens * (d + 1) = blockTokens * d + blockTokens := Nat.mul_succ _ _
        have hkey : (prompt.take limit).take (blockTokens * d) ++ edge =
            (prompt.take limit).take (blockTokens * (d + 1)) := by
          have hagree := take_commonPrefix ((prompt.take limit).take (blockTokens * d) ++ edge)
            (prompt.take limit)
          rw [hcommon, ← hmul, List.take_of_length_le] at hagree
          · exact hagree
          · rw [List.length_append, List.length_take, hgoal]
            omega
        have hperm := Lru.touch_perm c ((prompt.take limit).take (blockTokens * d) ++ edge)
        rw [hkey] at hnext hperm ⊢
        rw [← hmul]
        obtain ⟨c', total, found, hwalk, hlong⟩ :=
          ih (hnext.congr fun e he => hperm.mem_iff.mpr he) (by omega) (by omega)
        exact ⟨c', total, found, hwalk, hlong.congr hperm⟩

/-! ## Reuse -/

/-- A `reuse` that returns hands out what the walk found. -/
theorem reuse_eq_walk {cache cache' : FlatCache} {pool pool' : KvBlockPool}
    {sequence sequence' : PagedSequence} {prompt : List TokenId} {count : Nat}
    (hcache : 0 < pool.config.prefixCacheBlocks)
    (h : cache.reuse pool sequence prompt = (.ok count, sequence', cache', pool')) :
    ∃ c', walk pool.config.blockTokens (prompt.length - 1) prompt (prompt.length - 1)
      cache.entries 0 [] = (c', count, sequence'.blocks) := by
  rw [reuse] at h
  split at h
  · cases h
  rw [if_neg hcache.ne'] at h
  obtain ⟨c', total, found, hwalk⟩ : ∃ c' total found, walk pool.config.blockTokens
      (prompt.length - 1) prompt (prompt.length - 1) cache.entries 0 [] = (c', total, found) :=
    ⟨_, _, _, rfl⟩
  rw [hwalk]
  simp only [hwalk] at h
  split at h
  · cases h
  · obtain ⟨hcount, hseq, -⟩ := by simpa only [Prod.mk.injEq, Except.ok.injEq] using h
    exact ⟨c', by rw [← hcount, ← hseq]⟩

/-- `reuse` finds the longest leased match. -/
theorem longest_of_reuse {cache cache' : FlatCache} {pool pool' : KvBlockPool}
    {sequence sequence' : PagedSequence} {prompt : List TokenId} {count : Nat}
    (hcache : 0 < pool.config.prefixCacheBlocks)
    (h : cache.reuse pool sequence prompt = (.ok count, sequence', cache', pool')) :
    Longest pool.config.blockTokens cache.entries (prompt.take (prompt.length - 1)) count
      sequence'.blocks := by
  obtain ⟨c', hwalk⟩ := reuse_eq_walk hcache h
  have hnil : LeasedPath pool.config.blockTokens cache.entries
      ((prompt.take (prompt.length - 1)).take (pool.config.blockTokens * 0)) [] := by
    rw [Nat.mul_zero, List.take_zero]
    exact LeasedPath.nil _ _
  obtain ⟨c'', total, found, hwalk', hlong⟩ := walk_longest pool.valid.blockTokens_pos
    (Nat.sub_le _ _) (prompt.length - 1) hnil (by simp) (by simp)
  rw [Nat.mul_zero, hwalk] at hwalk'
  obtain ⟨-, rfl, rfl⟩ := by simpa only [Prod.mk.injEq] using hwalk'
  exact hlong

end FlatCache

end TinyInfer.MiniPrefix
