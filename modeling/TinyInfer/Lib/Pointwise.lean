import Mathlib.Data.List.Range
import Mathlib.Data.Nat.Basic

/-!
# Loops that change memory cell by cell

Counting loops, and what they do to a memory `ι → α` when every round changes each cell
by a function of its old contents. `Acts T S φ` says that `T` changes the cells of `S`
by `φ` and no other cell.

- `Acts.forRange`, `Acts.forTiles`, `Acts.forBlocks`: the rounds change different cells.
- `Acts.forRange_same`, `Acts.forBlocks_same`: the rounds change the same cells, one after
  the other.
-/

namespace Lib.Pointwise

variable {σ ι α : Type}

/-! ## Loops -/

/-- `for (i = start; i < stop; ++i)` -/
def forRange (start stop : Nat) (body : Nat → σ → σ) (s : σ) : σ :=
  (List.range' start (stop - start)).foldl (fun s i => body i s) s

/-- `for (; i + width <= stop; i += width)`, for at most `fuel` rounds, and the last `i`. -/
def forTiles (width stop : Nat) (body : Nat → σ → σ) : Nat → Nat → σ → σ × Nat
  | 0, start, s => (s, start)
  | fuel + 1, start, s =>
    if start + width ≤ stop then forTiles width stop body fuel (start + width) (body start s)
    else (s, start)

/-- `for (start = 0; start < stop; start += size)` over the blocks from `start` to
`min(start + size, stop)`, for at most `fuel` rounds, where numbers wrap around at `bound`. -/
def forBlocks (bound size stop : Nat) (body : Nat → Nat → σ → σ) : Nat → Nat → σ → σ
  | 0, _, s => s
  | fuel + 1, start, s =>
    if start < stop then
      forBlocks bound size stop body fuel ((start + size) % bound)
        (body start (min ((start + size) % bound) stop) s)
    else s

theorem forRange_of_le {start stop : Nat} (h : stop ≤ start) (body : Nat → σ → σ) (s : σ) :
    forRange start stop body s = s := by
  rw [forRange, Nat.sub_eq_zero_of_le h]
  rfl

/-- A loop runs its first round and then the rest. -/
theorem forRange_succ {start stop : Nat} (h : start < stop) (body : Nat → σ → σ) (s : σ) :
    forRange start stop body s = forRange (start + 1) stop body (body start s) := by
  obtain ⟨n, rfl⟩ : ∃ n, stop = start + n + 1 := ⟨stop - start - 1, by omega⟩
  have hlength : start + n + 1 - start = n + 1 := by omega
  have hlength' : start + n + 1 - (start + 1) = n := by omega
  rw [forRange, forRange, hlength, hlength', List.range'_succ, List.foldl_cons]

/-- A loop that is split in two. -/
theorem forRange_append {a b c : Nat} (hab : a ≤ b) (hbc : b ≤ c) (body : Nat → σ → σ) (s : σ) :
    forRange b c body (forRange a b body s) = forRange a c body s := by
  obtain ⟨m, rfl⟩ := Nat.exists_eq_add_of_le hab
  obtain ⟨n, rfl⟩ := Nat.exists_eq_add_of_le hbc
  rw [forRange, forRange, forRange, Nat.add_sub_cancel_left, Nat.add_sub_cancel_left, Nat.add_assoc,
    Nat.add_sub_cancel_left, ← List.foldl_append, List.range'_append_1]

/-- Bodies that agree inside the range make the same loop. -/
theorem forRange_congr {start stop : Nat} {body body' : Nat → σ → σ}
    (h : ∀ i s, start ≤ i → i < stop → body i s = body' i s) (s : σ) :
    forRange start stop body s = forRange start stop body' s := by
  unfold forRange
  refine List.foldl_ext _ _ s fun s i hmem => ?_
  have := List.mem_range'_1.1 hmem
  exact h i s this.1 (by omega)

/-- The tiles end where the last whole tile does. -/
def tilesEnd (width start stop : Nat) : Nat := start + (stop - start) / width * width

theorem tilesEnd_le (width : Nat) {start stop : Nat} (h : start ≤ stop) :
    tilesEnd width start stop ≤ stop := by
  have := Nat.div_mul_le_self (stop - start) width
  unfold tilesEnd
  omega

theorem tilesEnd_step {width start stop : Nat} (hpos : 0 < width) (h : start + width ≤ stop) :
    tilesEnd width start stop = tilesEnd width (start + width) stop := by
  have hrest : stop - start = stop - (start + width) + width := by omega
  rw [tilesEnd, tilesEnd, hrest, Nat.add_div_right _ hpos, Nat.succ_mul]
  omega

theorem tilesEnd_self {width start stop : Nat} (hpos : 0 < width) (h : stop < start + width) :
    tilesEnd width start stop = start := by
  rw [tilesEnd, Nat.div_eq_of_lt (by omega), Nat.zero_mul, Nat.add_zero]

/-- The loop over the tiles ends after the last whole tile. -/
theorem forTiles_snd {width stop : Nat} (hpos : 0 < width) (body : Nat → σ → σ) {fuel start : Nat}
    (hle : start ≤ stop) (henough : stop - start ≤ fuel) (s : σ) :
    (forTiles width stop body fuel start s).2 = tilesEnd width start stop := by
  induction fuel generalizing start s with
  | zero => rw [tilesEnd_self hpos (by omega)]; rfl
  | succ fuel ih =>
    rw [forTiles]
    split
    · rename_i hmore
      rw [ih hmore (by omega), tilesEnd_step hpos hmore]
    · rename_i hlast
      exact (tilesEnd_self hpos (Nat.lt_of_not_le hlast)).symm

/-! ## Changes cell by cell -/

/-- `T` changes the cells in `S` by `φ`, and no other cell. -/
def Acts (T : (ι → α) → ι → α) (S : ι → Prop) (φ : ι → α → α) : Prop :=
  ∀ m i, (S i → T m i = φ i (m i)) ∧ (¬ S i → T m i = m i)

variable {T T' : (ι → α) → ι → α} {S S' R : ι → Prop} {φ φ' : ι → α → α}

theorem Acts.run (h : Acts T S φ) [DecidablePred S] (m : ι → α) :
    T m = fun i => if S i then φ i (m i) else m i := by
  funext i
  split
  · rename_i hinside
    exact (h m i).1 hinside
  · rename_i houtside
    exact (h m i).2 houtside

theorem Acts.id (h : ∀ i, ¬ S i) : Acts (fun m : ι → α => m) S φ :=
  fun _ i => ⟨fun hinside => absurd hinside (h i), fun _ => rfl⟩

theorem Acts.congr (h : Acts T S φ) (hcells : ∀ i, S i ↔ S' i)
    (hsame : ∀ i v, S' i → φ i v = φ' i v) : Acts T S' φ' := by
  intro m i
  constructor
  · intro hinside
    rw [(h m i).1 ((hcells i).2 hinside), hsame i _ hinside]
  · intro houtside
    exact (h m i).2 fun hinside => houtside ((hcells i).1 hinside)

theorem Acts.cells (h : Acts T S φ) (cells : ∀ i, S i ↔ S' i) : Acts T S' φ :=
  h.congr cells fun _ _ _ => rfl

/-- One after the other, on different cells. -/
theorem Acts.union (h : Acts T S φ) (h' : Acts T' S' φ) (hapart : ∀ i, S i → ¬ S' i) :
    Acts (fun m => T' (T m)) (fun i => S i ∨ S' i) φ := by
  intro m i
  show (_ → T' (T m) i = _) ∧ (_ → T' (T m) i = _)
  constructor
  · rintro (hinside | hinside)
    · rw [(h' _ i).2 (hapart i hinside), (h m i).1 hinside]
    · rw [(h' _ i).1 hinside, (h m i).2 fun hfirst => hapart i hfirst hinside]
  · intro houtside
    rw [not_or] at houtside
    rw [(h' _ i).2 houtside.2, (h m i).2 houtside.1]

/-- One after the other, on the same cells. -/
theorem Acts.seq (h : Acts T S φ) (h' : Acts T' S φ') :
    Acts (fun m => T' (T m)) S fun i v => φ' i (φ i v) := by
  intro m i
  show (_ → T' (T m) i = _) ∧ (_ → T' (T m) i = _)
  constructor
  · intro hinside
    rw [(h' _ i).1 hinside, (h m i).1 hinside]
  · intro houtside
    rw [(h' _ i).2 houtside, (h m i).2 houtside]

/-- The store of one cell. -/
theorem Acts.update [DecidableEq ι] (i : ι) (f : α → α) :
    Acts (fun m : ι → α => Function.update m i (f (m i))) (fun j => j = i) fun _ v => f v := by
  intro m j
  constructor
  · rintro rfl
    exact Function.update_self ..
  · intro hother
    exact Function.update_of_ne hother ..

/-! ## Loops whose rounds change different cells -/

/-- Round `x` changes the cells of coordinate `x`. -/
theorem Acts.forRange {start stop : Nat} {body : Nat → (ι → α) → ι → α} (c : ι → Nat)
    (heach : ∀ x, start ≤ x → x < stop → Acts (body x) (fun i => R i ∧ c i = x) φ) :
    Acts (fun m => Pointwise.forRange start stop body m)
      (fun i => R i ∧ start ≤ c i ∧ c i < stop) φ := by
  induction rounds : stop - start generalizing start with
  | zero =>
    have hnone : stop ≤ start := by omega
    simp only [forRange_of_le hnone]
    exact Acts.id fun i => by omega
  | succ n ih =>
    have hmore : start < stop := by omega
    simp only [forRange_succ hmore]
    have hrest : Acts _ (fun i => R i ∧ start + 1 ≤ c i ∧ c i < stop) φ :=
      ih (fun x hlower hupper => heach x (by omega) hupper) (by omega)
    refine ((heach start le_rfl hmore).union hrest ?_).cells fun i => ?_
    · omega
    · rw [← and_or_left]
      refine and_congr_right fun _ => ?_
      omega

/-- The tile at `x` changes the cells of coordinates from `x` to `x + width`. -/
theorem Acts.forTiles {width stop : Nat} {body : Nat → (ι → α) → ι → α} (hpos : 0 < width)
    (c : ι → Nat) {fuel start : Nat} (hle : start ≤ stop) (henough : stop - start ≤ fuel)
    (heach : ∀ x, start ≤ x → x + width ≤ tilesEnd width start stop →
      Acts (body x) (fun i => R i ∧ x ≤ c i ∧ c i < x + width) φ) :
    Acts (fun m => (forTiles width stop body fuel start m).1)
      (fun i => R i ∧ start ≤ c i ∧ c i < tilesEnd width start stop) φ := by
  induction fuel generalizing start with
  | zero =>
    rw [tilesEnd_self hpos (by omega)]
    exact Acts.id fun i => by omega
  | succ fuel ih =>
    by_cases hmore : start + width ≤ stop
    · have hgrows : start + width ≤ tilesEnd width (start + width) stop := Nat.le_add_right ..
      rw [tilesEnd_step hpos hmore] at heach ⊢
      simp only [Pointwise.forTiles, if_pos hmore]
      have hrest := ih hmore (by omega) fun x hlower hupper => heach x (by omega) hupper
      refine ((heach start le_rfl hgrows).union hrest ?_).cells fun i => ?_
      · omega
      · rw [← and_or_left]
        refine and_congr_right fun _ => ?_
        omega
    · simp only [Pointwise.forTiles, if_neg hmore, tilesEnd_self hpos (Nat.lt_of_not_le hmore)]
      exact Acts.id fun i => by omega

variable {bound size stop : Nat}

/-- The start of the next block does not wrap around. -/
theorem next_block {q : Nat} (hsmall : size < bound) (htwice : 2 * stop ≤ bound)
    (hmore : q * size < stop) :
    (q * size + size) % bound = (q + 1) * size := by
  rw [Nat.mod_eq_of_lt, Nat.succ_mul]
  rcases q with _ | q
  · omega
  · rw [Nat.succ_mul] at *
    omega

/-- A loop over disjoint blocks acts on their union, from any block on. -/
theorem Acts.forBlocks_from {body : Nat → Nat →
    (ι → α) → ι → α} (hpos : 0 < size) (hsmall : size < bound) (htwice : 2 * stop ≤ bound) (c :
    ι → Nat) {fuel q : Nat} (henough : stop - q * size ≤ fuel)
    (heach : ∀ q, q * size < stop → Acts (body (q * size) (min ((q + 1) * size) stop))
      (fun i => R i ∧ c i / size = q ∧ c i < stop) φ) :
    Acts (fun m => Pointwise.forBlocks bound size stop body fuel (q * size) m)
      (fun i => R i ∧ q * size ≤ c i ∧ c i < stop) φ := by
  induction fuel generalizing q with
  | zero => exact Acts.id fun i => by omega
  | succ fuel ih =>
    by_cases hmore : q * size < stop
    · simp only [Pointwise.forBlocks, if_pos hmore, next_block hsmall htwice hmore]
      have hstep : (q + 1) * size = q * size + size := Nat.succ_mul q size
      have hrest := ih (q := q + 1) (by omega)
      refine ((heach q hmore).union hrest ?_).cells fun i => ?_
      · rintro i ⟨-, hblock, -⟩ ⟨-, hlower, -⟩
        have := (Nat.le_div_iff_mul_le hpos).2 hlower
        omega
      · have hblock : c i / size = q ↔ q * size ≤ c i ∧ c i < (q + 1) * size := by
          rw [Nat.div_eq_iff hpos, hstep]
          omega
        rw [← and_or_left, hblock]
        refine and_congr_right fun _ => ?_
        omega
    · simp only [Pointwise.forBlocks, if_neg hmore]
      exact Acts.id fun i => by omega

/-- Block `q` changes the cells whose coordinate lies in it. -/
theorem Acts.forBlocks {body : Nat → Nat →
    (ι → α) → ι → α} (hpos : 0 < size) (hsmall : size < bound) (htwice :
    2 * stop ≤ bound) (c : ι → Nat)
    (heach : ∀ q, q * size < stop → Acts (body (q * size) (min ((q + 1) * size) stop))
      (fun i => R i ∧ c i / size = q ∧ c i < stop) φ) :
    Acts (fun m => Pointwise.forBlocks bound size stop body stop 0 m)
      (fun i => R i ∧ c i < stop) φ := by
  have hall := Acts.forBlocks_from hpos hsmall htwice c (Nat.sub_le stop (0 * size)) heach
  rw [Nat.zero_mul] at hall
  exact hall.cells fun i => and_congr_right fun _ => and_iff_right (Nat.zero_le _)

/-! ## Loops whose rounds change the same cells -/

/-- A loop over one cell set folds its updates cell by cell. -/
theorem Acts.forRange_same {start stop : Nat} {body : Nat → (ι → α) → ι → α} {f : Nat → ι → α → α}
    (heach : ∀ x, start ≤ x → x < stop → Acts (body x) S (f x)) :
    Acts (fun m => Pointwise.forRange start stop body m) S
      fun i v => Pointwise.forRange start stop (fun x v => f x i v) v := by
  induction rounds : stop - start generalizing start with
  | zero =>
    have hnone : stop ≤ start := by omega
    simp only [forRange_of_le hnone]
    exact fun m i => ⟨fun _ => rfl, fun _ => rfl⟩
  | succ n ih =>
    have hmore : start < stop := by omega
    simp only [forRange_succ hmore]
    exact (heach start le_rfl hmore).seq
      (ih (fun x hlower hupper => heach x (by omega) hupper) (by omega))

/-- A blocked loop over one cell set is the unblocked one, from any block on. -/
theorem Acts.forBlocks_same_from {body : Nat → Nat → (ι → α) → ι → α} {f : Nat → Nat → ι → α → α}
    (hpos : 0 < size) (hsmall : size < bound) (htwice : 2 * stop ≤ bound)
    (heach : ∀ a b, a < b → b ≤ stop → Acts (body a b) S (f a b))
    (hjoin : ∀ a b c i v, a < b → b < c → c ≤ stop → f b c i (f a b i v) = f a c i v)
    {fuel q : Nat} (henough : stop - q * size ≤ fuel) (hmore : q * size < stop) :
    Acts (fun m => Pointwise.forBlocks bound size stop body fuel (q * size) m) S
      (f (q * size) stop) := by
  induction fuel generalizing q with
  | zero => omega
  | succ fuel ih =>
    have hstep : (q + 1) * size = q * size + size := Nat.succ_mul q size
    simp only [Pointwise.forBlocks, if_pos hmore, next_block hsmall htwice hmore]
    by_cases hlast : (q + 1) * size < stop
    · rw [Nat.min_eq_left hlast.le]
      refine ((heach _ _ (by omega) hlast.le).seq (ih (by omega) hlast)).congr (fun _ => Iff.rfl)
        fun i v _ => ?_
      exact hjoin _ _ _ i v (by omega) hlast le_rfl
    · rw [Nat.min_eq_right (Nat.not_lt.1 hlast)]
      have hdone (m : ι → α) :
        Pointwise.forBlocks bound size stop body fuel ((q + 1) * size) m = m := by
        cases fuel with
        | zero => rfl
        | succ fuel => exact if_neg hlast
      simp only [hdone]
      exact heach _ _ hmore le_rfl

/-- The blocks change the same cells, and together they change them by `f 0 stop`. -/
theorem Acts.forBlocks_same {body : Nat → Nat → (ι → α) → ι → α} {f : Nat → Nat → ι → α → α}
    (hpos : 0 < size) (hsmall : size < bound) (htwice : 2 * stop ≤ bound)
    (heach : ∀ a b, a < b → b ≤ stop → Acts (body a b) S (f a b))
    (hjoin : ∀ a b c i v, a < b → b < c → c ≤ stop → f b c i (f a b i v) = f a c i v)
    (hmore : 0 < stop) :
    Acts (fun m => Pointwise.forBlocks bound size stop body stop 0 m) S (f 0 stop) := by
  have hall := Acts.forBlocks_same_from hpos hsmall htwice heach hjoin (Nat.sub_le stop (0 * size))
    (by rwa [Nat.zero_mul])
  rwa [Nat.zero_mul] at hall

/-! ## Stores at the values of an index -/

/-- `T` changes cell `index r` by `f r` for each `r < n`, and no other cell. -/
def Stores (T : (ι → α) → ι → α) (n : Nat) (index : Nat → ι) (f : Nat → α → α) : Prop :=
  ∀ m, (∀ r < n, T m (index r) = f r (m (index r))) ∧ ∀ i, (∀ r < n, i ≠ index r) → T m i = m i

/-- Two stores to the same rows compose row by row. -/
theorem Stores.seq {n : Nat} {index : Nat → ι} {f f' : Nat → α → α} (h : Stores T n index f)
    (h' : Stores T' n index f') : Stores (fun m => T' (T m)) n index fun r v => f' r (f r v) := by
  refine fun m => ⟨fun r hr => ?_, fun i hother => ?_⟩
  · show T' (T m) (index r) = _
    rw [(h' _).1 r hr, (h m).1 r hr]
  · show T' (T m) i = _
    rw [(h' _).2 i hother, (h m).2 i hother]

/-- One store for each value of an index. -/
theorem Stores.foldl [DecidableEq ι] {n : Nat} {index : Nat → ι} (f : Nat → α → α)
    (hinjective : ∀ r < n, ∀ r' < n, index r = index r' → r = r') :
    Stores (fun m => (List.range n).foldl
      (fun m r => Function.update m (index r) (f r (m (index r)))) m) n index f := by
  induction n with
  | zero => exact fun m => ⟨fun r hnone => absurd hnone (Nat.not_lt_zero r), fun _ _ => rfl⟩
  | succ n ih =>
    have hbefore := ih fun r hr r' hr' => hinjective r (by omega) r' (by omega)
    intro m
    obtain ⟨hstored, hkept⟩ := hbefore m
    dsimp only at hstored hkept
    simp only [List.range_succ, List.foldl_append, List.foldl_cons, List.foldl_nil]
    constructor
    · intro r hr
      by_cases hlast : r = n
      · rw [hlast, Function.update_self, hkept _ fun r' hr' hsame => ?_]
        exact absurd (hinjective n (by omega) r' (by omega) hsame) (by omega)
      · rw [Function.update_of_ne fun hsame => hlast (hinjective r hr n (by omega) hsame)]
        exact hstored r (by omega)
    · intro i hother
      rw [Function.update_of_ne (hother n (by omega))]
      exact hkept i fun r hr => hother r (by omega)

/-- Rounds that store at different cells. -/
theorem Stores.groups {m n : Nat} {body : Nat → (ι → α) → ι → α} {index : Nat → Nat → ι}
    {f : Nat → Nat → α → α} (heach : ∀ o < m, Stores (body o) n (index o) (f o))
    (hinjective : ∀ o < m, ∀ r < n, ∀ o' < m, ∀ r' < n, index o r = index o' r' →
      o = o') (c : ι → α) :
    (∀ o < m, ∀ r < n, (List.range m).foldl (fun c o => body o c) c (index o r) = f o r
      (c (index o r))) ∧
      ∀ i, (∀ o < m, ∀ r < n, i ≠ index o r) →
        (List.range m).foldl (fun c o => body o c) c i = c i := by
  induction m with
  | zero => exact ⟨fun o hnone => absurd hnone (Nat.not_lt_zero o), fun _ _ => rfl⟩
  | succ m ih =>
    obtain ⟨hstored, hkept⟩ := ih (fun o ho => heach o (by omega))
      fun o ho r hr o' ho' r' hr' => hinjective o (by omega) r hr o' (by omega) r' hr'
    obtain ⟨hlast, hothers⟩ := heach m (by omega) ((List.range m).foldl (fun c o => body o c) c)
    simp only [List.range_succ, List.foldl_append, List.foldl_cons, List.foldl_nil]
    constructor
    · intro o ho r hr
      by_cases hhere : o = m
      · rw [hhere, hlast r hr, hkept _ fun o' ho' r' hr' hsame => ?_]
        exact absurd (hinjective m (by omega) r hr o' (by omega) r' hr' hsame) (by omega)
      · rw [hothers _ fun r' hr' hsame => hhere (hinjective o ho r hr m (by omega) r' hr' hsame)]
        exact hstored o (by omega) r hr
    · intro i hother
      rw [hothers i (hother m (by omega))]
      exact hkept i fun o ho => hother o (by omega)

end Lib.Pointwise
