import Mathlib.Data.List.Nodup
import Mathlib.Data.List.Perm.Basic

/-!
# Association lists in order of use

A cache as the list of its entries, least recently used first: `touch` moves an
entry to the end, insertion appends, and eviction drops the head.
-/

namespace Lib.Lru

universe u v

variable {κ : Type u} {ν : Type v} [DecidableEq κ]

/-- Make an entry the most recently used one. -/
def touch (c : List (κ × ν)) (k : κ) : List (κ × ν) :=
  c.filter (fun e => e.1 ≠ k) ++ c.filter (fun e => e.1 = k)

/-- The value cached under a key. -/
def find? (c : List (κ × ν)) (k : κ) : Option ν :=
  (c.find? fun e => e.1 = k).map Prod.snd

theorem touch_perm (c : List (κ × ν)) (k : κ) : (touch c k).Perm c := by
  have h := List.filter_append_perm (fun e : κ × ν => decide (e.1 ≠ k)) c
  refine List.Perm.trans (List.Perm.append_left _ ?_) h
  rw [List.filter_congr (q := fun e => !decide (e.1 ≠ k)) fun e _ => by simp]

/-- At the place where the entry stands, touching moves it to the end. -/
theorem touch_split {A B : List (κ × ν)} {k : κ} {v : ν}
    (h : ((A ++ (k, v) :: B).map Prod.fst).Nodup) :
    touch (A ++ (k, v) :: B) k = A ++ B ++ [(k, v)] := by
  rw [List.map_append, List.map_cons, List.nodup_append, List.nodup_cons] at h
  obtain ⟨-, ⟨hB, -⟩, hcross⟩ := h
  have hA : ∀ e ∈ A, e.1 ≠ k := fun e he =>
    hcross e.1 (List.mem_map_of_mem he) k List.mem_cons_self
  have hB' : ∀ e ∈ B, e.1 ≠ k := fun e he heq =>
    hB (List.mem_map.mpr ⟨e, he, heq⟩)
  have h1 : A.filter (fun e => decide (e.1 ≠ k)) = A :=
    List.filter_eq_self.mpr fun e he => by simpa using hA e he
  have h2 : B.filter (fun e => decide (e.1 ≠ k)) = B :=
    List.filter_eq_self.mpr fun e he => by simpa using hB' e he
  have h3 : A.filter (fun e => decide (e.1 = k)) = [] :=
    List.filter_eq_nil_iff.mpr fun e he => by simpa using hA e he
  have h4 : B.filter (fun e => decide (e.1 = k)) = [] :=
    List.filter_eq_nil_iff.mpr fun e he => by simpa using hB' e he
  rw [touch, List.filter_append, List.filter_append, h1, h3, List.filter_cons_of_neg (by simp),
    List.filter_cons_of_pos (by simp), h2, h4]
  simp

/-- With distinct keys a lookup finds exactly the entries. -/
theorem find?_eq_some_iff {c : List (κ × ν)} (h : (c.map Prod.fst).Nodup) {k : κ} {v : ν} :
    find? c k = some v ↔ (k, v) ∈ c := by
  rw [find?, Option.map_eq_some_iff]
  constructor
  · rintro ⟨⟨k', v'⟩, hfind, rfl⟩
    have hk : k' = k := by simpa using List.find?_some hfind
    exact hk ▸ List.mem_of_find?_eq_some hfind
  · intro hmem
    cases hfind : c.find? fun e => e.1 = k with
    | none => simpa using (List.find?_eq_none.mp hfind) _ hmem
    | some e =>
      have hk : e.1 = k := by simpa using List.find?_some hfind
      exact ⟨e, rfl, congrArg Prod.snd
        (List.inj_on_of_nodup_map h (List.mem_of_find?_eq_some hfind) hmem hk)⟩

/-- A lookup fails iff the key is absent. -/
theorem find?_eq_none_iff {c : List (κ × ν)} {k : κ} :
    find? c k = none ↔ k ∉ c.map Prod.fst := by
  rw [find?, Option.map_eq_none_iff, List.find?_eq_none, List.mem_map]
  constructor
  · rintro h ⟨e, he, rfl⟩
    simpa using h e he
  · intro h e he
    simpa using fun heq => h ⟨e, he, heq⟩

end Lib.Lru
