import TinyInfer.MiniPrefix.PrefixCache
import Mathlib.Logic.Relation

/-!
# The shape of the trie

`keys p` is the token history spelled from the root to the node at address `p`,
defined exactly at the nodes of the trie. `Tree` ties it to the stored fields:
every child stands in its parent's map under its own edge, one level deeper,
and only nodes whose history ends at a page boundary have children.

From it: a history determines its node (`Tree.inj`), extending a history by at
most a page means going to a child (`Tree.child_of_key`), subtrees are the
histories with a common front (`Tree.below_of_prefix`), and a subtree is
lexicographically before its later siblings (`Tree.lt_of_sibling`).
-/

namespace TinyInfer.MiniPrefix

open Lib

namespace Index

/-- The history of each node of the trie. -/
abbrev Keys := Ptr → Option (List TokenId)

/-- `p` is the child of `q` under the edge `e`. -/
structure ChildOf (blockTokens : Nat) (ix : Index) (keys : Keys) (q : Ptr)
    (kq e : List TokenId) (p : Ptr) : Prop where
  ne_root : p ≠ root
  key : keys p = some (kq ++ e)
  parent : ix.parent p = some q
  edge : ix.edge p = e
  depth : ix.depth p = ix.depth q + 1
  edge_ne : e ≠ []
  edge_le : e.length ≤ blockTokens
  full : kq.length = blockTokens * ix.depth q

structure Tree (blockTokens : Nat) (ix : Index) (keys : Keys) : Prop where
  root_key : keys root = some []
  root_depth : ix.depth root = 0
  up : ∀ p k, keys p = some k → p ≠ root →
    ∃ q kq, keys q = some kq ∧ (ix.children q).find? (ix.edge p) = some p
  down : ∀ q kq e p, keys q = some kq → (ix.children q).find? e = some p →
    ChildOf blockTokens ix keys q kq e p
  bounded : ∀ p k, keys p = some k → p < ix.fresh

namespace Tree

variable {blockTokens : Nat} {ix : Index} {keys : Keys}

/-- The parent of a node other than the root. -/
theorem parent_of (h : Tree blockTokens ix keys) {p : Ptr} {k : List TokenId}
    (hp : keys p = some k) (hne : p ≠ root) :
    ∃ q kq, keys q = some kq ∧ k = kq ++ ix.edge p ∧
      (ix.children q).find? (ix.edge p) = some p ∧
      ChildOf blockTokens ix keys q kq (ix.edge p) p := by
  obtain ⟨q, kq, hq, hfind⟩ := h.up p k hp hne
  have hchild := h.down q kq _ p hq hfind
  exact ⟨q, kq, hq, Option.some.inj (hp.symm.trans hchild.key), hfind, hchild⟩

/-- Fronts that end at a page boundary and leave at most one page are the same. -/
theorem append_page_inj {kq kq' e e' : List TokenId} {d d' : Nat}
    (heq : kq ++ e = kq' ++ e') (hq : kq.length = blockTokens * d)
    (hq' : kq'.length = blockTokens * d') (he : e ≠ []) (he' : e' ≠ [])
    (hle : e.length ≤ blockTokens) (hle' : e'.length ≤ blockTokens) : kq = kq' ∧ e = e' := by
  have hlen := congrArg List.length heq
  rw [List.length_append, List.length_append, hq, hq'] at hlen
  have hpos : 0 < e.length := List.length_pos_iff.mpr he
  have hpos' : 0 < e'.length := List.length_pos_iff.mpr he'
  have hd : d = d' := by
    rcases Nat.lt_trichotomy d d' with hlt | heq | hgt
    · have := Nat.mul_le_mul_left blockTokens (Nat.succ_le_of_lt hlt)
      rw [Nat.mul_succ] at this
      omega
    · exact heq
    · have := Nat.mul_le_mul_left blockTokens (Nat.succ_le_of_lt hgt)
      rw [Nat.mul_succ] at this
      omega
  exact List.append_inj heq (by rw [hq, hq', hd])

/-- A history determines its node. -/
theorem inj (h : Tree blockTokens ix keys) {p p' : Ptr} {k : List TokenId}
    (hp : keys p = some k) (hp' : keys p' = some k) : p = p' := by
  induction hn : k.length using Nat.strong_induction_on generalizing k p p' with
  | _ n ih =>
    by_cases hr : p = root
    · subst hr
      by_contra hne
      obtain ⟨q, kq, -, hk, -, hc⟩ := h.parent_of hp' (Ne.symm hne)
      have hnil : k = [] := Option.some.inj (hp.symm.trans h.root_key)
      rw [hnil] at hk
      exact hc.edge_ne (List.append_eq_nil_iff.mp hk.symm).2
    · by_cases hr' : p' = root
      · subst hr'
        obtain ⟨q, kq, -, hk, -, hc⟩ := h.parent_of hp hr
        have hnil : k = [] := Option.some.inj (hp'.symm.trans h.root_key)
        rw [hnil] at hk
        exact absurd (List.append_eq_nil_iff.mp hk.symm).2 hc.edge_ne
      · obtain ⟨q, kq, hq, hk, hf, hc⟩ := h.parent_of hp hr
        obtain ⟨q', kq', hq', hk', hf', hc'⟩ := h.parent_of hp' hr'
        obtain ⟨hkq, he⟩ := append_page_inj (hk.symm.trans hk') hc.full hc'.full hc.edge_ne
          hc'.edge_ne hc.edge_le hc'.edge_le
        subst hkq
        have hpos : 0 < (ix.edge p).length := List.length_pos_iff.mpr hc.edge_ne
        have hlt : kq.length < n := by
          rw [← hn, hk, List.length_append]
          omega
        have hqq : q = q' := ih kq.length hlt hq hq' rfl
        subst hqq
        rw [he, hf'] at hf
        exact (Option.some.inj hf).symm

/-- A node whose history extends another by at most a page is its child. -/
theorem child_of_key (h : Tree blockTokens ix keys) {p q : Ptr} {kq e : List TokenId}
    (hq : keys q = some kq) (hfull : kq.length = blockTokens * ix.depth q)
    (hp : keys p = some (kq ++ e)) (hne : e ≠ []) (hle : e.length ≤ blockTokens) :
    (ix.children q).find? e = some p := by
  have hroot : p ≠ root := by
    rintro rfl
    have := Option.some.inj (h.root_key.symm.trans hp)
    exact hne (List.append_eq_nil_iff.mp this.symm).2
  obtain ⟨q', kq', hq', hk, hf, hc⟩ := h.parent_of hp hroot
  obtain ⟨rfl, rfl⟩ := append_page_inj hk hfull hc.full hne hc.edge_ne hle hc.edge_le
  rw [h.inj hq hq']
  exact hf

/-- Only the root has depth zero. -/
theorem depth_pos (h : Tree blockTokens ix keys) {p : Ptr} {k : List TokenId}
    (hp : keys p = some k) (hne : p ≠ root) : 0 < ix.depth p := by
  obtain ⟨q, kq, -, -, -, hc⟩ := h.parent_of hp hne
  rw [hc.depth]
  exact Nat.succ_pos _

theorem ne_nil (h : Tree blockTokens ix keys) {p : Ptr} {k : List TokenId}
    (hp : keys p = some k) (hne : p ≠ root) : k ≠ [] := by
  rintro rfl
  exact hne (h.inj hp h.root_key)

/-! ## Subtrees -/

/-- `p` is a child of `q`. -/
def Child (ix : Index) (q p : Ptr) : Prop := ∃ e, (ix.children q).find? e = some p

/-- `p` is `m` or below it. -/
abbrev Below (ix : Index) (m p : Ptr) : Prop := Relation.ReflTransGen (Child ix) m p

/-- Going down extends the history. -/
theorem key_of_below (h : Tree blockTokens ix keys) {m p : Ptr} {km : List TokenId}
    (hm : keys m = some km) (hb : Below ix m p) :
    ∃ s, keys p = some (km ++ s) ∧ (s ≠ [] → ∃ e c, (ix.children m).find? e = some c) := by
  induction hb with
  | refl => exact ⟨[], by simpa using hm, fun hne => absurd rfl hne⟩
  | @tail q p hmq hqp ih =>
    obtain ⟨s, hq, hs⟩ := ih
    obtain ⟨e, he⟩ := hqp
    have hc := h.down q _ e p hq he
    refine ⟨s ++ e, by rw [hc.key, List.append_assoc], fun _ => ?_⟩
    rcases List.eq_nil_or_concat s with rfl | ⟨s', x, rfl⟩
    · have hqm : q = m := h.inj hq (by simpa using hm)
      exact ⟨e, p, hqm ▸ he⟩
    · exact hs (by simp)

/-- Descendants of a full history are the nodes whose history starts with it. -/
theorem below_of_prefix (h : Tree blockTokens ix keys) {m p : Ptr} {km s : List TokenId}
    (hm : keys m = some km) (hfull : km.length = blockTokens * ix.depth m)
    (hp : keys p = some (km ++ s)) : Below ix m p := by
  induction hn : s.length using Nat.strong_induction_on generalizing s p with
  | _ n ih =>
    rcases eq_or_ne s [] with rfl | hs
    · rw [h.inj hp (by simpa using hm)]
    · have hroot : p ≠ root := by
        rintro rfl
        have := Option.some.inj (h.root_key.symm.trans hp)
        exact hs (List.append_eq_nil_iff.mp this.symm).2
      obtain ⟨q, kq, hq, hk, hf, hc⟩ := h.parent_of hp hroot
      have hlen := congrArg List.length hk
      rw [List.length_append, List.length_append, hfull, hc.full] at hlen
      have hpos : 0 < s.length := List.length_pos_iff.mpr hs
      have hle := hc.edge_le
      -- the parent is still below `m`: page boundaries do not cross
      have hdepth : ix.depth m ≤ ix.depth q := by
        by_contra hlt
        have := Nat.mul_le_mul_left blockTokens (Nat.succ_le_of_lt (Nat.lt_of_not_le hlt))
        rw [Nat.mul_succ] at this
        omega
      have hkm : km.length ≤ kq.length := by
        rw [hfull, hc.full]
        exact Nat.mul_le_mul_left _ hdepth
      obtain ⟨s', rfl⟩ : ∃ s', kq = km ++ s' := by
        obtain ⟨t, ht⟩ := List.prefix_of_prefix_length_le (List.prefix_append km s)
          (hk ▸ List.prefix_append kq (ix.edge p)) hkm
        exact ⟨t, ht.symm⟩
      have hlt : s'.length < n := by
        have hepos : 0 < (ix.edge p).length := List.length_pos_iff.mpr hc.edge_ne
        rw [← hc.full, List.length_append, hfull] at hlen
        omega
      exact (ih s'.length hlt hq rfl).tail ⟨_, hf⟩

/-! ## Lexicographic order of subtrees -/

/-- Lists that differ before either ends keep their order when extended. -/
theorem append_lt_append_of_not_prefix {a b s t : List TokenId} (hlt : a < b)
    (hnp : ¬ a <+: b) : a ++ s < b ++ t := by
  induction a generalizing b with
  | nil => exact absurd (List.nil_prefix) hnp
  | cons x a ih =>
    cases b with
    | nil => exact absurd hlt (by simp)
    | cons y b =>
      rw [List.cons_lt_cons_iff] at hlt
      rw [List.cons_append, List.cons_append, List.cons_lt_cons_iff]
      rcases hlt with hxy | ⟨rfl, hab⟩
      · exact Or.inl hxy
      · exact Or.inr ⟨rfl, ih hab fun hp => hnp (List.cons_prefix_cons.mpr ⟨rfl, hp⟩)⟩

theorem le_append_self (a s : List TokenId) : a ≤ a ++ s := by
  rcases eq_or_ne s [] with rfl | hs
  · simp
  · have := (append_lt_append_iff a [] s).mpr
      (by cases s with
          | nil => exact absurd rfl hs
          | cons x s => exact List.nil_lt_cons x s)
    simpa using this.le

theorem lt_append_of_lt {a b : List TokenId} (s : List TokenId) (h : a < b) : a < b ++ s :=
  lt_of_lt_of_le h (le_append_self b s)

/-- A subtree comes before every later sibling's subtree. -/
theorem lt_of_sibling (h : Tree blockTokens ix keys) {q c c' p p' : Ptr}
    {kq e e' k k' : List TokenId} (hq : keys q = some kq)
    (hc : (ix.children q).find? e = some c) (hc' : (ix.children q).find? e' = some c')
    (hlt : e < e') (hb : Below ix c p) (hb' : Below ix c' p') (hp : keys p = some k)
    (hp' : keys p' = some k') : k < k' := by
  have h1 := h.down q kq e c hq hc
  have h2 := h.down q kq e' c' hq hc'
  obtain ⟨s, hs, hchild⟩ := h.key_of_below h1.key hb
  obtain ⟨s', hs', -⟩ := h.key_of_below h2.key hb'
  obtain rfl := Option.some.inj (hp.symm.trans hs)
  obtain rfl := Option.some.inj (hp'.symm.trans hs')
  rw [List.append_assoc, List.append_assoc, append_lt_append_iff]
  by_cases hpre : e <+: e'
  · -- a proper front of another edge is a partial page, and those have no children
    have hlen : e.length < e'.length := by
      rcases Nat.lt_or_ge e.length e'.length with hl | hg
      · exact hl
      · exact absurd (hpre.eq_of_length (Nat.le_antisymm hpre.length_le hg)) hlt.ne
    rcases eq_or_ne s [] with rfl | hs0
    · rw [List.append_nil]
      exact lt_append_of_lt s' hlt
    · obtain ⟨e₀, c₀, hc₀⟩ := hchild hs0
      have hfull := (h.down c _ e₀ c₀ h1.key hc₀).full
      rw [h1.depth, Nat.mul_succ, List.length_append, h1.full] at hfull
      have := h2.edge_le
      omega
  · exact append_lt_append_of_not_prefix hlt hpre

end Tree

end Index

end TinyInfer.MiniPrefix
