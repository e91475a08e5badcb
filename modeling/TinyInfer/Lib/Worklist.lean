import Mathlib.Logic.Relation

/-!
# Searching a graph with a worklist

A search takes a vertex off its worklist, marks it unless it is marked already, and adds
its successors. `Search` is what holds after every round, in whatever order the vertices
are taken, and `Search.finished` what it means when the worklist is empty: the marked
vertices are those that can be reached.

Main definitions: `Reaches`, `Search`.
-/

namespace Lib

variable {β : Type} {next : β → List β} {roots pending new : List β} {seen : β → Prop} {v w : β}

/-- `v` can be reached from one of `roots`. -/
def Reaches (next : β → List β) (roots : List β) (v : β) : Prop :=
  ∃ root ∈ roots, Relation.ReflTransGen (fun a b => b ∈ next a) root v

theorem Reaches.root (hmem : v ∈ roots) : Reaches next roots v := ⟨v, hmem, .refl⟩

theorem Reaches.step (h : Reaches next roots v) (hmem : w ∈ next v) : Reaches next roots w := by
  obtain ⟨root, hknown, hpath⟩ := h
  exact ⟨root, hknown, hpath.tail hmem⟩

/-- A set of vertices that has the roots and the successors of its members has all
vertices that can be reached. -/
theorem Reaches.induct {P : β → Prop} (hstart : ∀ root ∈ roots, P root)
    (hstep : ∀ a b, P a → b ∈ next a → P b) (h : Reaches next roots v) : P v := by
  obtain ⟨root, hmem, hpath⟩ := h
  induction hpath with
  | refl => exact hstart root hmem
  | tail _ hedge ih => exact hstep _ _ ih hedge

/-- What holds of the worklist and of the marked vertices after every round. -/
structure Search (next : β → List β) (roots pending : List β) (seen : β → Prop) : Prop where
  pending_reached : ∀ v ∈ pending, Reaches next roots v
  seen_reached : ∀ v, seen v → Reaches next roots v
  roots_found : ∀ root ∈ roots, seen root ∨ root ∈ pending
  next_found : ∀ v w, seen v → w ∈ next v → seen w ∨ w ∈ pending

/-- A search starts with the roots pending and nothing visited. -/
theorem Search.start (roots : List β) (hsame : ∀ v, v ∈ pending ↔ v ∈ roots) :
    Search next roots pending fun _ => False where
  pending_reached v hmem := .root ((hsame v).1 hmem)
  seen_reached _ hnone := hnone.elim
  roots_found root hmem := .inr ((hsame root).2 hmem)
  next_found _ _ hnone := hnone.elim

/-- A round that takes a marked vertex. -/
theorem Search.skip (h : Search next roots (v :: pending) seen) (hmarked : seen v) :
    Search next roots pending seen := by
  have hrest (u : β) (hfound : seen u ∨ u ∈ v :: pending) : seen u ∨ u ∈ pending := by
    rcases hfound with hfound | hfound
    · exact .inl hfound
    · rcases List.mem_cons.1 hfound with rfl | hfound
      · exact .inl hmarked
      · exact .inr hfound
  constructor
  · exact fun u hmem => h.pending_reached u (List.mem_cons_of_mem v hmem)
  · exact h.seen_reached
  · exact fun root hmem => hrest root (h.roots_found root hmem)
  · exact fun u w hmarked hedge => hrest w (h.next_found u w hmarked hedge)

/-- A round that marks a vertex. -/
theorem Search.visit (h : Search next roots (v :: pending) seen)
    (hall : ∀ w, w ∈ new ↔ w ∈ next v) :
    Search next roots (new ++ pending) fun u => u = v ∨ seen u := by
  have hhere := h.pending_reached v List.mem_cons_self
  have hrest (u : β) (hfound : seen u ∨ u ∈ v :: pending) :
    (u = v ∨ seen u) ∨ u ∈ new ++ pending := by
    rcases hfound with hfound | hfound
    · exact .inl (.inr hfound)
    · rcases List.mem_cons.1 hfound with rfl | hfound
      · exact .inl (.inl rfl)
      · exact .inr (List.mem_append_right new hfound)
  constructor
  · intro u hmem
    rcases List.mem_append.1 hmem with hmem | hmem
    · exact hhere.step ((hall u).1 hmem)
    · exact h.pending_reached u (List.mem_cons_of_mem v hmem)
  · rintro u (rfl | hmarked)
    · exact hhere
    · exact h.seen_reached u hmarked
  · exact fun root hmem => hrest root (h.roots_found root hmem)
  · rintro u w (rfl | hmarked) hedge
    · exact .inr (List.mem_append_left pending ((hall w).2 hedge))
    · exact hrest w (h.next_found u w hmarked hedge)

/-- When the worklist is empty, the marked vertices are those that can be reached. -/
theorem Search.finished (h : Search next roots [] seen) : seen v ↔ Reaches next roots v := by
  constructor
  · exact h.seen_reached v
  · refine Reaches.induct (fun root hmem => ?_) (fun a b hmarked hedge => ?_)
    · exact (h.roots_found root hmem).resolve_right List.not_mem_nil
    · exact (h.next_found a b hmarked hedge).resolve_right List.not_mem_nil

end Lib
