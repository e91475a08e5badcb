import TinyInfer.Onnx.Importer
import Mathlib.Data.List.Perm.Subperm

/-!
# The names the importer makes up

A node is named after its index, with as many underscores behind it as it takes to
differ from the reserved names. So names of different nodes differ (`nodeName_inj`), no
name of a node is reserved (`nodeName_fresh`), and the name of its output differs from
every name of a node (`outputName_ne_nodeName`). Whether the name of the output is
reserved is not looked at.
-/

namespace TinyInfer.Onnx

/-- The name of a node with `k` underscores behind it. -/
def candidate (index k : Nat) : String := (·.push '_')^[k] ("__onnx_node_" ++ toString index)

theorem candidate_succ (index k : Nat) :
    candidate index (k + 1) = (candidate index k).push '_' := by
  rw [candidate, candidate, Function.iterate_succ_apply']

/-- A candidate is the index in digits and then its underscores. -/
theorem toList_candidate (index k : Nat) :
    (candidate index k).toList =
      "__onnx_node_".toList ++ (Nat.toDigits 10 index ++ List.replicate k '_') := by
  induction k with
  | zero => simp [candidate]
  | succ k ih => rw [candidate_succ, String.toList_push, ih, List.replicate_succ']; simp

/-- The name that `nodeName` settles on is the first candidate that is not reserved. -/
structure FirstFree (reserved : List String) (index k : Nat) : Prop where
  taken : ∀ j < k, candidate index j ∈ reserved
  free : candidate index k ∉ reserved

/-- Candidates with different numbers of underscores differ. -/
theorem candidate_inj {index j k : Nat} (h : candidate index j = candidate index k) : j = k := by
  have hlength := congrArg (fun s => s.toList.length) h
  simpa [toList_candidate] using hlength

/-- There are more candidates than reserved names. -/
theorem exists_free (reserved : List String) (index : Nat) :
    ∃ k ≤ reserved.length, candidate index k ∉ reserved := by
  by_contra hnone
  push Not at hnone
  have hnodup : ((List.range (reserved.length + 1)).map (candidate index)).Nodup :=
    List.nodup_range.map fun _ _ => candidate_inj
  have hsubset : (List.range (reserved.length + 1)).map (candidate index) ⊆ reserved := by
    intro name hmem
    obtain ⟨k, hinside, rfl⟩ := List.mem_map.1 hmem
    exact hnone k (Nat.lt_succ_iff.1 (List.mem_range.1 hinside))
  have hlength := (hnodup.subperm hsubset).length_le
  rw [List.length_map, List.length_range] at hlength
  omega

/-- With enough fuel the loop stops at the first free candidate. -/
theorem appendUnderscores_eq {reserved : List String} {index fuel j : Nat}
    (htaken : ∀ i < j, candidate index i ∈ reserved)
    (hfree : ∃ k ≤ j + fuel, candidate index k ∉ reserved) :
    ∃ k, FirstFree reserved index k ∧
      appendUnderscores reserved fuel (candidate index j) = candidate index k := by
  induction fuel generalizing j with
  | zero =>
    obtain ⟨k, hle, hfree⟩ := hfree
    have hsame : k = j := by
      refine Nat.le_antisymm hle (Nat.not_lt.1 fun hlt => hfree (htaken k hlt))
    exact ⟨j, ⟨htaken, hsame ▸ hfree⟩, rfl⟩
  | succ fuel ih =>
    rw [appendUnderscores]
    by_cases hmem : candidate index j ∈ reserved
    · rw [if_pos (by simpa using hmem), ← candidate_succ]
      refine ih (fun i hlt => ?_)
        (by simpa [Nat.add_right_comm, Nat.add_assoc, Nat.add_comm 1] using hfree)
      rcases Nat.lt_succ_iff_lt_or_eq.1 hlt with hlt | rfl
      · exact htaken i hlt
      · exact hmem
    · rw [if_neg (by simpa using hmem)]
      exact ⟨j, ⟨htaken, hmem⟩, rfl⟩

/-- The chosen name is the first free candidate, with the fuel the model gives it. -/
theorem nodeName_eq (index : Nat) (reserved : List String) :
    ∃ k, FirstFree reserved index k ∧ nodeName index reserved = candidate index k := by
  obtain ⟨k, hle, hfree⟩ := exists_free reserved index
  exact appendUnderscores_eq (j := 0) (fun i hlt => absurd hlt (Nat.not_lt_zero i))
    ⟨k, by omega, hfree⟩

/-- Only which names are reserved counts. -/
theorem nodeName_congr {index : Nat} {reserved reserved' : List String}
    (hsame : ∀ name, name ∈ reserved ↔ name ∈ reserved') :
    nodeName index reserved = nodeName index reserved' := by
  obtain ⟨k, hfirst, heq⟩ := nodeName_eq index reserved
  obtain ⟨l, hfirst', heq'⟩ := nodeName_eq index reserved'
  rw [heq, heq']
  rcases Nat.lt_trichotomy k l with hlt | rfl | hlt
  · exact absurd ((hsame _).2 (hfirst'.taken k hlt)) hfirst.free
  · rfl
  · exact absurd ((hsame _).1 (hfirst.taken l hlt)) hfirst'.free

theorem nodeName_fresh (index : Nat) (reserved : List String) :
    nodeName index reserved ∉ reserved := by
  obtain ⟨k, hfirst, heq⟩ := nodeName_eq index reserved
  exact heq ▸ hfirst.free

theorem nodeName_ne_empty (index : Nat) (reserved : List String) :
    nodeName index reserved ≠ "" := by
  obtain ⟨k, -, heq⟩ := nodeName_eq index reserved
  intro hempty
  have := congrArg String.toList (heq.symm.trans hempty)
  rw [toList_candidate] at this
  simp at this

theorem toDigits_inj {m n : Nat} (h : Nat.toDigits 10 m = Nat.toDigits 10 n) : m = n := by
  rw [← Nat.ofDigitChars_ten_toDigits (n := m), h, Nat.ofDigitChars_ten_toDigits]

/-- Two nodes never get the same name. -/
theorem nodeName_inj {i j : Nat} {reserved : List String}
    (h : nodeName i reserved = nodeName j reserved) : i = j := by
  obtain ⟨k, -, heq⟩ := nodeName_eq i reserved
  obtain ⟨l, -, heq'⟩ := nodeName_eq j reserved
  have hlists := congrArg String.toList (heq.symm.trans (h.trans heq'))
  rw [toList_candidate, toList_candidate] at hlists
  have htails := List.append_cancel_left hlists
  -- The digits end where the underscores begin.
  have hdigits (n k : Nat) :
      (Nat.toDigits 10 n ++ List.replicate k '_').takeWhile (· != '_') = Nat.toDigits 10 n := by
    rw [List.takeWhile_append_of_pos]
    · cases k <;> simp [List.replicate_succ]
    · intro c hmem
      simpa using fun hsame : c = '_' => Nat.underscore_not_in_toDigits (hsame ▸ hmem)
  have := congrArg (List.takeWhile (· != '_')) htails
  rw [hdigits, hdigits] at this
  exact toDigits_inj this

/-- No name of a node has a colon in it. -/
theorem outputName_ne_nodeName (name : String) (index : Nat) (reserved : List String) :
    Graph.outputName name 0 ≠ nodeName index reserved := by
  obtain ⟨k, -, heq⟩ := nodeName_eq index reserved
  intro hsame
  have hcolon : ':' ∈ (candidate index k).toList := by
    rw [← heq, ← hsame, Graph.outputName]
    simp [String.toList_append]
  rw [toList_candidate] at hcolon
  rcases List.mem_append.1 hcolon with hmem | hmem
  · revert hmem
    decide
  · rcases List.mem_append.1 hmem with hmem | hmem
    · exact absurd (Nat.isDigit_of_mem_toDigits (by decide) (by decide) hmem) (by decide)
    · exact absurd (List.eq_of_mem_replicate hmem) (by decide)

/-- Two nodes never get the same output name. -/
theorem outputName_inj {name name' : String}
    (h : Graph.outputName name 0 = Graph.outputName name' 0) : name = name' := by
  have hlists := congrArg String.toList h
  simp only [Graph.outputName, String.toList_append, List.append_assoc] at hlists
  exact String.toList_inj.1 (List.append_cancel_right hlists)

end TinyInfer.Onnx
