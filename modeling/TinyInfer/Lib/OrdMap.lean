import Mathlib.Data.List.Lex
import Mathlib.Data.List.Sort
import Mathlib.Algebra.Order.BigOperators.Group.List
import Mathlib.Algebra.Order.Group.Nat
import Mathlib.Algebra.GroupWithZero.Nat

/-!
# Ordered maps as strictly sorted association lists

The search structure behind a balanced-tree map: a list of entries whose keys
strictly increase. Sortedness is a field, so a map with duplicate or unordered
keys cannot be built, and two maps with the same lookups are equal
(`OrdMap.ext_find?`).

- `find?`, `insert` (insert or assign), `erase`: the dictionary operations;
- `lowerBound`, `prev`, `upperBound`, `first`: the ordered queries, each
  characterized by what it returns among all keys of the map;
- `sum`: the total of a weight over the entries, with the two equations an
  accounting argument needs (`sum_eq_add_erase`, `sum_insert`).
-/

namespace Lib

universe u v

/-- A finite map with linearly ordered keys, stored in strictly increasing key
order. -/
structure OrdMap (κ : Type u) (ν : Type v) [LinearOrder κ] where
  entries : List (κ × ν)
  sorted : entries.Pairwise fun a b => a.1 < b.1

namespace OrdMap

variable {κ : Type u} {ν : Type v} [LinearOrder κ]

instance [DecidableEq ν] : DecidableEq (OrdMap κ ν) := fun a b =>
  decidable_of_iff (a.entries = b.entries)
    ⟨fun h => by cases a; cases b; cases h; rfl, fun h => h ▸ rfl⟩

/-- The map with no entry. -/
def empty : OrdMap κ ν := ⟨[], List.Pairwise.nil⟩

instance : Inhabited (OrdMap κ ν) := ⟨empty⟩

/-- The value stored under a key. -/
def find? (m : OrdMap κ ν) (k : κ) : Option ν :=
  (m.entries.find? fun e => e.1 = k).map Prod.snd

def contains (m : OrdMap κ ν) (k : κ) : Bool := (m.find? k).isSome

def isEmpty (m : OrdMap κ ν) : Bool := m.entries.isEmpty

def size (m : OrdMap κ ν) : Nat := m.entries.length

/-- Insert or assign. -/
def insert (m : OrdMap κ ν) (k : κ) (v : ν) : OrdMap κ ν where
  entries := (m.entries.filter fun e => e.1 < k) ++
    (k, v) :: (m.entries.filter fun e => k < e.1)
  sorted := by
    refine List.pairwise_append.2 ⟨m.sorted.filter _, ?_, ?_⟩
    · exact List.pairwise_cons.2
        ⟨fun e he => by simpa using (List.mem_filter.1 he).2, m.sorted.filter _⟩
    · intro a ha b hb
      have hak : a.1 < k := by simpa using (List.mem_filter.1 ha).2
      rcases List.mem_cons.1 hb with rfl | hb
      · exact hak
      · exact hak.trans (by simpa using (List.mem_filter.1 hb).2)

/-- Insert unless the key is present. -/
def emplace (m : OrdMap κ ν) (k : κ) (v : ν) : OrdMap κ ν :=
  if m.contains k then m else m.insert k v

/-- Remove a key. -/
def erase (m : OrdMap κ ν) (k : κ) : OrdMap κ ν where
  entries := m.entries.filter fun e => e.1 ≠ k
  sorted := m.sorted.filter _

/-- The first entry whose key is not below the query. -/
def lowerBound (m : OrdMap κ ν) (q : κ) : Option (κ × ν) :=
  m.entries.find? fun e => ¬ e.1 < q

/-- The entry just before `lowerBound`: the last key below the query. -/
def prev (m : OrdMap κ ν) (q : κ) : Option (κ × ν) :=
  (m.entries.filter fun e => e.1 < q).getLast?

/-- The first entry whose key is above the query. -/
def upperBound (m : OrdMap κ ν) (q : κ) : Option (κ × ν) :=
  m.entries.find? fun e => q < e.1

/-- The entry with the least key. -/
def first (m : OrdMap κ ν) : Option (κ × ν) := m.entries.head?

/-- The total of a weight over all entries. -/
def sum (m : OrdMap κ ν) (w : κ → ν → Nat) : Nat :=
  (m.entries.map fun e => w e.1 e.2).sum

/-! ## Lookup -/

theorem keys_nodup (m : OrdMap κ ν) : (m.entries.map Prod.fst).Nodup := by
  rw [List.Nodup, List.pairwise_map]
  exact m.sorted.imp fun h => ne_of_lt h

/-- A key has one value. -/
theorem eq_of_mem_of_mem {m : OrdMap κ ν} {k : κ} {v w : ν}
    (hv : (k, v) ∈ m.entries) (hw : (k, w) ∈ m.entries) : v = w := by
  have h := List.inj_on_of_nodup_map m.keys_nodup hv hw rfl
  exact congrArg Prod.snd h

/-- A lookup finds exactly the entries. -/
theorem find?_eq_some_iff {m : OrdMap κ ν} {k : κ} {v : ν} :
    m.find? k = some v ↔ (k, v) ∈ m.entries := by
  rw [find?, Option.map_eq_some_iff]
  constructor
  · rintro ⟨⟨k', v'⟩, hfind, rfl⟩
    have hk : k' = k := by simpa using List.find?_some hfind
    exact hk ▸ List.mem_of_find?_eq_some hfind
  · intro hmem
    cases hfind : m.entries.find? fun e => e.1 = k with
    | none => simpa using (List.find?_eq_none.1 hfind) _ hmem
    | some e =>
      obtain ⟨k', v'⟩ := e
      have hk : k' = k := by simpa using List.find?_some hfind
      subst hk
      exact ⟨_, rfl, eq_of_mem_of_mem (List.mem_of_find?_eq_some hfind) hmem⟩

theorem mem_of_find? {m : OrdMap κ ν} {k : κ} {v : ν} (h : m.find? k = some v) :
    (k, v) ∈ m.entries := find?_eq_some_iff.1 h

@[simp] theorem find?_empty (k : κ) : (empty : OrdMap κ ν).find? k = none := rfl

theorem entries_inj {m m' : OrdMap κ ν} (h : m.entries = m'.entries) : m = m' := by
  cases m; cases m'; cases h; rfl

/-- Maps with the same lookups are equal: a strictly sorted list is determined
by its members. -/
theorem ext_find? {m m' : OrdMap κ ν} (h : ∀ k, m.find? k = m'.find? k) : m = m' := by
  have hmem : ∀ e, e ∈ m.entries ↔ e ∈ m'.entries := by
    rintro ⟨k, v⟩
    rw [← find?_eq_some_iff, ← find?_eq_some_iff, h k]
  have hnd : ∀ l : OrdMap κ ν, l.entries.Nodup := fun l => l.keys_nodup.of_map
  have hperm : m.entries.Perm m'.entries :=
    (List.perm_ext_iff_of_nodup (hnd m) (hnd m')).2 hmem
  exact entries_inj (hperm.eq_of_pairwise
    (fun a b _ _ hab hba => absurd (hab.trans hba) (lt_irrefl _)) m.sorted m'.sorted)

/-- After an insertion the key has the new value and the others their old one. -/
theorem find?_insert (m : OrdMap κ ν) (k k' : κ) (v : ν) :
    (m.insert k v).find? k' = if k' = k then some v else m.find? k' := by
  have hmem : ∀ w, (k', w) ∈ (m.insert k v).entries ↔
      (k' = k ∧ w = v) ∨ (k' ≠ k ∧ (k', w) ∈ m.entries) := by
    intro w
    simp only [insert, List.mem_append, List.mem_cons, List.mem_filter, Prod.mk.injEq,
      decide_eq_true_eq]
    rcases lt_trichotomy k' k with hlt | rfl | hgt
    · simp [hlt, hlt.ne, hlt.not_gt]
    · simp
    · simp [hgt, hgt.ne', hgt.not_gt]
  split
  · next heq => exact find?_eq_some_iff.2 ((hmem v).2 (Or.inl ⟨heq, rfl⟩))
  · next hne =>
    ext w
    rw [find?_eq_some_iff, find?_eq_some_iff, hmem w]
    simp [hne]

@[simp] theorem find?_insert_self (m : OrdMap κ ν) (k : κ) (v : ν) :
    (m.insert k v).find? k = some v := by rw [find?_insert, if_pos rfl]

theorem find?_insert_ne (m : OrdMap κ ν) {k k' : κ} (v : ν) (h : k' ≠ k) :
    (m.insert k v).find? k' = m.find? k' := by rw [find?_insert, if_neg h]

/-- After an erasure the key is absent and the others are untouched. -/
theorem find?_erase (m : OrdMap κ ν) (k k' : κ) :
    (m.erase k).find? k' = if k' = k then none else m.find? k' := by
  ext w
  split
  · next heq => simp [find?_eq_some_iff, erase, heq]
  · next hne => simp [find?_eq_some_iff, erase, hne]

@[simp] theorem find?_erase_self (m : OrdMap κ ν) (k : κ) :
    (m.erase k).find? k = none := by rw [find?_erase, if_pos rfl]

theorem find?_erase_ne (m : OrdMap κ ν) {k k' : κ} (h : k' ≠ k) :
    (m.erase k).find? k' = m.find? k' := by rw [find?_erase, if_neg h]

/-- A map is empty iff every lookup fails. -/
theorem isEmpty_iff {m : OrdMap κ ν} : m.isEmpty = true ↔ ∀ k, m.find? k = none := by
  rw [isEmpty, List.isEmpty_iff]
  constructor
  · intro h k
    simp [find?, h]
  · intro h
    rw [List.eq_nil_iff_forall_not_mem]
    rintro ⟨k, v⟩ hmem
    have := find?_eq_some_iff.2 hmem
    rw [h k] at this
    cases this

/-- Erasing after an insertion forgets the inserted value. -/
theorem erase_insert_self (m : OrdMap κ ν) (k : κ) (v : ν) :
    (m.insert k v).erase k = m.erase k := by
  refine ext_find? fun k' => ?_
  rw [find?_erase, find?_erase, find?_insert]
  split <;> rfl

/-- Erasing an absent key changes nothing. -/
theorem erase_eq_self {m : OrdMap κ ν} {k : κ} (h : m.find? k = none) : m.erase k = m := by
  refine ext_find? fun k' => ?_
  rw [find?_erase]
  split
  · next heq => rw [heq, h]
  · rfl

/-- The later of two insertions at one key wins. -/
theorem insert_insert_self (m : OrdMap κ ν) (k : κ) (v w : ν) :
    (m.insert k v).insert k w = m.insert k w := by
  refine ext_find? fun k' => ?_
  simp only [find?_insert]
  split <;> rfl

/-- Inserting the value a key already has changes nothing. -/
theorem insert_eq_self {m : OrdMap κ ν} {k : κ} {v : ν} (h : m.find? k = some v) :
    m.insert k v = m := by
  refine ext_find? fun k' => ?_
  rw [find?_insert]
  split
  · next heq => rw [heq, h]
  · rfl

theorem emplace_eq_insert {m : OrdMap κ ν} {k : κ} (v : ν) (h : m.find? k = none) :
    m.emplace k v = m.insert k v := by
  rw [emplace, contains, h]
  rfl

/-! ## Ordered queries -/

/-- `lower_bound` finds the least key that is not below the bound. -/
theorem lowerBound_eq_some {m : OrdMap κ ν} {q k : κ} {v : ν}
    (h : m.lowerBound q = some (k, v)) :
    m.find? k = some v ∧ q ≤ k ∧ ∀ k' v', m.find? k' = some v' → q ≤ k' → k ≤ k' := by
  obtain ⟨hge, as, bs, hsplit, hhas⟩ := List.find?_eq_some_iff_append.1 h
  refine ⟨find?_eq_some_iff.2 (by rw [hsplit]; simp), by simpa using hge, ?_⟩
  intro k' v' hfind hk'
  have hmem := mem_of_find? hfind
  have hsorted := m.sorted
  rw [hsplit] at hmem hsorted
  rcases List.mem_append.1 hmem with hmem | hmem
  · exact absurd hk' (by simpa using hhas _ hmem)
  · rcases List.mem_cons.1 hmem with heq | hmem
    · exact (congrArg Prod.fst heq).ge
    · exact ((List.pairwise_cons.1 (List.pairwise_append.1 hsorted).2.1).1 _ hmem).le

/-- No `lower_bound` means that every key is below the bound. -/
theorem lowerBound_eq_none {m : OrdMap κ ν} {q : κ} (h : m.lowerBound q = none) :
    ∀ k v, m.find? k = some v → k < q := by
  intro k v hfind
  simpa using List.find?_eq_none.1 h _ (mem_of_find? hfind)

/-- The entry before a key is the greatest one below it. -/
theorem prev_eq_some {m : OrdMap κ ν} {q k : κ} {v : ν} (h : m.prev q = some (k, v)) :
    m.find? k = some v ∧ k < q ∧ ∀ k' v', m.find? k' = some v' → k' < q → k' ≤ k := by
  obtain ⟨init, hinit⟩ := List.getLast?_eq_some_iff.1 h
  have hmem : (k, v) ∈ m.entries.filter fun e => e.1 < q := by rw [hinit]; simp
  obtain ⟨hin, hlt⟩ := List.mem_filter.1 hmem
  refine ⟨find?_eq_some_iff.2 hin, by simpa using hlt, ?_⟩
  intro k' v' hfind hk'
  have hmem' : (k', v') ∈ m.entries.filter fun e => e.1 < q :=
    List.mem_filter.2 ⟨mem_of_find? hfind, by simpa using hk'⟩
  have hsorted := m.sorted.filter fun e => decide (e.1 < q)
  rw [hinit] at hmem' hsorted
  rcases List.mem_append.1 hmem' with hmem' | hmem'
  · exact ((List.pairwise_append.1 hsorted).2.2 _ hmem' _ (List.mem_singleton.2 rfl)).le
  · exact (congrArg Prod.fst (List.mem_singleton.1 hmem')).le

/-- Nothing stands before a key iff every key is at or above it. -/
theorem prev_eq_none {m : OrdMap κ ν} {q : κ} (h : m.prev q = none) :
    ∀ k v, m.find? k = some v → q ≤ k := by
  intro k v hfind
  have hnil := List.getLast?_eq_none_iff.1 h
  by_contra hlt
  have : (k, v) ∈ m.entries.filter fun e => e.1 < q :=
    List.mem_filter.2 ⟨mem_of_find? hfind, by simpa using hlt⟩
  rw [hnil] at this
  cases this

/-- `upper_bound` finds the least key strictly above the bound. -/
theorem upperBound_eq_some {m : OrdMap κ ν} {q k : κ} {v : ν}
    (h : m.upperBound q = some (k, v)) :
    m.find? k = some v ∧ q < k ∧ ∀ k' v', m.find? k' = some v' → q < k' → k ≤ k' := by
  obtain ⟨hge, as, bs, hsplit, hhas⟩ := List.find?_eq_some_iff_append.1 h
  refine ⟨find?_eq_some_iff.2 (by rw [hsplit]; simp), by simpa using hge, ?_⟩
  intro k' v' hfind hk'
  have hmem := mem_of_find? hfind
  have hsorted := m.sorted
  rw [hsplit] at hmem hsorted
  rcases List.mem_append.1 hmem with hmem | hmem
  · exact absurd hk' (by simpa using hhas _ hmem)
  · rcases List.mem_cons.1 hmem with heq | hmem
    · exact (congrArg Prod.fst heq).ge
    · exact ((List.pairwise_cons.1 (List.pairwise_append.1 hsorted).2.1).1 _ hmem).le

/-- No `upper_bound` means that no key is above the bound. -/
theorem upperBound_eq_none {m : OrdMap κ ν} {q : κ} (h : m.upperBound q = none) :
    ∀ k v, m.find? k = some v → k ≤ q := by
  intro k v hfind
  simpa using List.find?_eq_none.1 h _ (mem_of_find? hfind)

/-- The first entry has the least key. -/
theorem first_eq_some {m : OrdMap κ ν} {k : κ} {v : ν} (h : m.first = some (k, v)) :
    m.find? k = some v ∧ ∀ k' v', m.find? k' = some v' → k ≤ k' := by
  obtain ⟨rest, hsplit⟩ := List.head?_eq_some_iff.1 h
  refine ⟨find?_eq_some_iff.2 (by rw [hsplit]; simp), ?_⟩
  intro k' v' hfind
  have hmem := mem_of_find? hfind
  have hsorted := m.sorted
  rw [hsplit] at hmem hsorted
  rcases List.mem_cons.1 hmem with heq | hmem
  · exact (congrArg Prod.fst heq).ge
  · exact ((List.pairwise_cons.1 hsorted).1 _ hmem).le

theorem first_eq_none {m : OrdMap κ ν} (h : m.first = none) (k : κ) : m.find? k = none := by
  have : m.entries = [] := List.head?_eq_none_iff.1 h
  simp [find?, this]

/-! ## Weighted sums -/

/-- A sum over a map splits off any one entry. -/
theorem sum_eq_add_erase {m : OrdMap κ ν} {k : κ} {v : ν} (w : κ → ν → Nat)
    (h : m.find? k = some v) : m.sum w = w k v + (m.erase k).sum w := by
  obtain ⟨as, bs, hsplit⟩ := List.append_of_mem (mem_of_find? h)
  have hsorted := m.sorted
  rw [hsplit] at hsorted
  obtain ⟨-, hcons, hcross⟩ := List.pairwise_append.1 hsorted
  have hhas : as.filter (fun e => decide (e.1 ≠ k)) = as :=
    List.filter_eq_self.2 fun e he => by
      simpa using (hcross e he (k, v) List.mem_cons_self).ne
  have hbs : bs.filter (fun e => decide (e.1 ≠ k)) = bs :=
    List.filter_eq_self.2 fun e he => by
      simpa using ((List.pairwise_cons.1 hcons).1 e he).ne'
  have herase : (m.erase k).entries = as ++ bs := by
    show m.entries.filter _ = _
    rw [hsplit, List.filter_append, List.filter_cons_of_neg (by simp), hhas, hbs]
  rw [sum, sum, herase, hsplit]
  simp only [List.map_append, List.map_cons, List.sum_append, List.sum_cons]
  omega

/-- An insertion adds its weight to the sum over the other entries. -/
theorem sum_insert (m : OrdMap κ ν) (k : κ) (v : ν) (w : κ → ν → Nat) :
    (m.insert k v).sum w = w k v + (m.erase k).sum w := by
  rw [sum_eq_add_erase w (find?_insert_self m k v), erase_insert_self]

/-- Inserting replaces the weight the key had before. -/
theorem sum_insert_add (m : OrdMap κ ν) (k : κ) (v : ν) (w : κ → ν → Nat) :
    (m.insert k v).sum w + ((m.find? k).map (w k)).getD 0 = m.sum w + w k v := by
  rw [sum_insert]
  cases hfind : m.find? k with
  | none =>
    rw [erase_eq_self hfind, Option.map_none, Option.getD_none]
    omega
  | some old =>
    rw [sum_eq_add_erase w hfind, Option.map_some, Option.getD_some]
    omega

@[simp] theorem sum_empty (w : κ → ν → Nat) : (empty : OrdMap κ ν).sum w = 0 := rfl

/-- Each entry's weight is at most the sum. -/
theorem le_sum {m : OrdMap κ ν} {k : κ} {v : ν} (w : κ → ν → Nat)
    (h : m.find? k = some v) : w k v ≤ m.sum w := by
  rw [sum_eq_add_erase w h]
  exact Nat.le_add_right _ _

/-- Two different keys weigh at most the total. -/
theorem add_le_sum {m : OrdMap κ ν} {k k' : κ} {v v' : ν} (w : κ → ν → Nat)
    (h : m.find? k = some v) (h' : m.find? k' = some v') (hne : k' ≠ k) :
    w k v + w k' v' ≤ m.sum w := by
  rw [sum_eq_add_erase w h]
  exact Nat.add_le_add_left (le_sum w ((find?_erase_ne m hne).trans h')) _

theorem sum_eq_zero {m : OrdMap κ ν} {w : κ → ν → Nat}
    (h : ∀ k v, m.find? k = some v → w k v = 0) : m.sum w = 0 := by
  rw [sum, List.sum_eq_zero]
  intro x hx
  obtain ⟨⟨k, v⟩, hmem, rfl⟩ := List.mem_map.1 hx
  exact h k v (find?_eq_some_iff.2 hmem)

/-- Sums of weights that agree on the entries are equal. -/
theorem sum_congr {m : OrdMap κ ν} {w w' : κ → ν → Nat}
    (h : ∀ k v, m.find? k = some v → w k v = w' k v) : m.sum w = m.sum w' := by
  rw [sum, sum, List.map_congr_left]
  rintro ⟨k, v⟩ hmem
  exact h k v (find?_eq_some_iff.2 hmem)

/-- Sums are monotone in the weights. -/
theorem sum_le_sum {m : OrdMap κ ν} {w w' : κ → ν → Nat}
    (h : ∀ k v, m.find? k = some v → w k v ≤ w' k v) : m.sum w ≤ m.sum w' := by
  refine List.sum_le_sum ?_
  rintro ⟨k, v⟩ hmem
  exact h k v (find?_eq_some_iff.2 hmem)

/-- The sum of two weights is the sum of their sums. -/
theorem sum_add (m : OrdMap κ ν) (w w' : κ → ν → Nat) :
    m.sum (fun k v => w k v + w' k v) = m.sum w + m.sum w' := by
  rw [sum, sum, sum, List.sum_map_add]

/-- What one map assigns to the keys of another is at most its total. -/
theorem sum_getD_le (m : OrdMap κ ν) (r : OrdMap κ Nat) :
    m.sum (fun k _ => (r.find? k).getD 0) ≤ r.sum fun _ n => n := by
  have hlist : ∀ (ks : List κ) (r : OrdMap κ Nat), ks.Nodup →
      (ks.map fun k => (r.find? k).getD 0).sum ≤ r.sum fun _ n => n := by
    intro ks
    induction ks with
    | nil => exact fun r _ => Nat.zero_le _
    | cons k ks ih =>
      intro r hnd
      obtain ⟨hk, hnd⟩ := List.nodup_cons.1 hnd
      have hrest := ih (r.erase k) hnd
      have hsame : (ks.map fun k' => ((r.erase k).find? k').getD 0) =
          ks.map fun k' => (r.find? k').getD 0 := List.map_congr_left fun k' hk' => by
        have hne : k' ≠ k := fun heq => hk (heq ▸ hk')
        rw [find?_erase_ne r hne]
      rw [hsame] at hrest
      rw [List.map_cons, List.sum_cons]
      cases hfind : r.find? k with
      | none =>
        rw [erase_eq_self hfind] at hrest
        simpa using hrest
      | some n =>
        rw [sum_eq_add_erase (fun _ n => n) hfind]
        exact Nat.add_le_add_left hrest n
  have := hlist (m.entries.map Prod.fst) r m.keys_nodup
  rwa [List.map_map] at this

end OrdMap

end Lib
