import TinyInfer.MiniPrefix.KvAccounting
import TinyInfer.MiniPrefix.KvAtomicity

/-!
# Payload soundness

The manager together with what its pages contain: a ghost payload that maps a slot
of a page to the token history it was computed from.

- `PayloadStep` are the operations of the manager and what backends do to pages
  while a transaction is open: write new slots, in any order and more than once,
  and copy the tail page, maybe only in part when the copy throws. A transaction is
  committed only when all its slots were written;
- `PayloadInv` is the invariant, `payload_sound` what it says about reading: whatever
  a sequence or a cache node refers to was computed from exactly that history.
-/

namespace TinyInfer.MiniPrefix

open Lib KVManager

/-- A manager with the contents of its pages; `written` are the tokens the open
transaction has stored. -/
structure PayloadSystem where
  sys : KvSystem
  payload : Nat → Nat → List TokenId
  written : List Nat := []

namespace PayloadSystem

/-- The token positions the open transaction is going to commit are all stored. -/
def Complete (s : PayloadSystem) : Prop :=
  ∀ a state, s.sys.append = some a → s.sys.kv.sequences.find? a.id = some state →
    ∀ t, state.sequence.used ≤ t → t < state.sequence.used + a.tokens.length → t ∈ s.written

/-- The pages after an attempt to copy the tail: all valid slots if it `returned`,
else only some. -/
def copyTail (append : Option KVManager.Append) (payload : Nat → Nat → List TokenId)
    (returned : Bool) (slots : Nat → Bool) (b s : Nat) : List TokenId :=
  match append.bind Append.copy with
  | none => payload b s
  | some c =>
    if b = c.destination ∧ s < c.validTokens ∧ (returned || slots s) = true then
      payload c.source s
    else payload b s

end PayloadSystem

open PayloadSystem

inductive PayloadStep : PayloadSystem → PayloadSystem → Prop where
  | call (s : PayloadSystem) (op : KvOp) (hop : op.Quiet) :
      PayloadStep s { s with
        sys := (s.sys.step op).2
        written := if s.sys.append.isSome then s.written else [] }
  | write (s : PayloadSystem) (a : KVManager.Append) (state : State) (t b : Nat)
      (ha : s.sys.append = some a) (hs : s.sys.kv.sequences.find? a.id = some state)
      (hlo : state.sequence.used ≤ t) (hhi : t < state.sequence.used + a.tokens.length)
      (hb : state.sequence.blocks[t / s.sys.kv.config.blockTokens]? = some b) :
      PayloadStep s { s with
        payload := store s.payload b (t % s.sys.kv.config.blockTokens)
          ((state.sequence.tokens ++ a.tokens).take (t + 1))
        written := t :: s.written }
  | copy (s : PayloadSystem) (copier : TailCopyRegion → Except Exn Unit) (slots : Nat → Bool) :
      PayloadStep s { s with
        sys := (s.sys.step (.copySharedTail copier)).2
        payload := copyTail s.sys.append s.payload
          (s.sys.step (.copySharedTail copier)).1.isOk slots }
  | commit (s : PayloadSystem) (hcomplete : s.Complete) :
      PayloadStep s { s with sys := (s.sys.step .commit).2 }

inductive PayloadSystem.Reachable : PayloadSystem → Prop where
  | init {config : KvCacheConfig} {layers width context vocabulary : Nat} {kv : KVManager}
      (h : construct config layers width context vocabulary = .ok kv)
      (payload : Nat → Nat → List TokenId) : Reachable { sys := { kv }, payload }
  | step {s t : PayloadSystem} (h : Reachable s) (hst : PayloadStep s t) : Reachable t

/-! ## The invariant -/

/-- What the open transaction has stored is there. -/
def WrittenInv (s : PayloadSystem) : Prop :=
  ∀ a state, s.sys.append = some a → s.sys.kv.sequences.find? a.id = some state →
    ∀ t ∈ s.written, state.sequence.used ≤ t → t < state.sequence.used + a.tokens.length → ∀ b,
      state.sequence.blocks[t / s.sys.kv.config.blockTokens]? = some b →
      s.payload b (t % s.sys.kv.config.blockTokens) =
        (state.sequence.tokens ++ a.tokens).take (t + 1)

structure PayloadInv (s : PayloadSystem) : Prop where
  ok : KvOk (fun history => history) s.payload s.sys.kv s.sys.append
  written : WrittenInv s

/-- A call that moves no payload keeps the invariant. -/
theorem PayloadInv.call {s : PayloadSystem} (h : PayloadInv s) {op : KvOp} (hop : op.Quiet) :
    PayloadInv { s with
      sys := (s.sys.step op).2
      written := if s.sys.append.isSome then s.written else [] } := by
  refine ⟨h.ok.step hop, ?_⟩
  intro a state ha hs t ht
  cases happend : s.sys.append with
  | none =>
    rw [happend] at ht
    cases ht
  | some a₀ =>
    rw [happend] at ht
    obtain ⟨flat, pos, hinv⟩ := h.ok
    have hactive : s.sys.kv.appendActive = true := by rw [hinv.active, happend]; rfl
    cases hrelease : op.released with
    | some id =>
      cases op with
      | releaseReservation other => exact h.written a state ha hs t ht
      | _ => cases hrelease
    | none =>
      by_cases hopen : op.KeepsOpen
      · have hsame : (s.sys.step op).2 = s.sys := by
          refine step_busy hactive hopen hrelease ?_
          cases op with
          | copySharedTail copier => exact hop.elim
          | _ => rfl
        simp only [hsame] at ha hs ⊢
        exact h.written a state ha hs t ht
      · cases op with
        | rollback => cases ha
        | commit => exact hop.elim
        | _ => exact absurd trivial hopen

/-- Writing a new position of the open append keeps the invariant. -/
theorem PayloadInv.write {s : PayloadSystem} (h : PayloadInv s) {a : KVManager.Append}
    {state : State} {t b : Nat} (ha : s.sys.append = some a)
    (hs : s.sys.kv.sequences.find? a.id = some state) (hlo : state.sequence.used ≤ t)
    (hb : state.sequence.blocks[t / s.sys.kv.config.blockTokens]? = some b) :
    PayloadInv { s with
      payload := store s.payload b (t % s.sys.kv.config.blockTokens)
        ((state.sequence.tokens ++ a.tokens).take (t + 1))
      written := t :: s.written } := by
  obtain ⟨flat, pos, hinv⟩ := h.ok
  rw [ha] at hinv
  refine ⟨?_, ?_⟩
  · show KvOk _ _ s.sys.kv s.sys.append
    rw [ha]
    exact (hinv.write hs hlo hb _).ok
  intro a' state' ha' hs' t' ht' hlo' hhi' b' hb'
  obtain rfl := Option.some.inj (ha.symm.trans ha')
  obtain rfl := Option.some.inj (hs.symm.trans hs')
  dsimp only at hb' ⊢
  rw [store]
  by_cases hslot : b' = b ∧ t' % s.sys.kv.config.blockTokens = t % s.sys.kv.config.blockTokens
  · -- the slot decides the token
    obtain ⟨rfl, hmod⟩ := hslot
    have hseq := hinv.sequence a.id state hs
    have hpage := (hseq.position _ _ hb').symm.trans (hseq.position _ _ hb)
    have htt : t' = t := by
      rw [← Nat.div_add_mod t' s.sys.kv.config.blockTokens, hpage, hmod, Nat.div_add_mod]
    rw [if_pos ⟨rfl, hmod⟩, htt]
  · rw [if_neg hslot]
    rcases List.mem_cons.mp ht' with rfl | hin
    · exact absurd ⟨Option.some.inj (hb'.symm.trans hb), rfl⟩ hslot
    · exact h.written a state ha hs t' hin hlo' hhi' b' hb'

/-- Copying the shared tail keeps the invariant. -/
theorem PayloadInv.copy {s : PayloadSystem} (h : PayloadInv s)
    (copier : TailCopyRegion → Except Exn Unit) (slots : Nat → Bool) :
    PayloadInv { s with
      sys := (s.sys.step (.copySharedTail copier)).2
      payload := copyTail s.sys.append s.payload
        (s.sys.step (.copySharedTail copier)).1.isOk slots } := by
  obtain ⟨⟨kv, append⟩, payload, written⟩ := s
  cases append with
  | none => exact ⟨h.ok, h.written⟩
  | some a =>
    obtain ⟨flat, pos, hinv⟩ := h.ok
    obtain ⟨state, hs, htx⟩ := hinv.transaction a rfl
    rcases copySharedTailRegion_cases kv a copier with ⟨hnone, heq⟩ | ⟨c, hc, hcases⟩
    -- there is no tail to copy
    · have hsame : copyTail (some a) payload true slots = payload := by
        funext b i
        rw [copyTail, Option.bind_some, hnone]
      simp only [KvSystem.step, heq]
      refine ⟨?_, ?_⟩
      · show KvOk _ (copyTail (some a) payload true slots) kv (some a)
        rw [hsame]
        exact h.ok
      · show WrittenInv ⟨⟨kv, some a⟩, copyTail (some a) payload true slots, written⟩
        rw [hsame]
        exact h.written
    have hpayload : ∀ returned b i, copyTail (some a) payload returned slots b i =
        if b = c.destination ∧ i < c.validTokens ∧ (returned || slots i) = true then
          payload c.source i else payload b i := fun returned b i => by
      rw [copyTail, Option.bind_some, hc]
    -- a copy stays below the first new slot
    have hwritten : ∀ returned copied, WrittenInv
        ⟨⟨kv, some { a with copied }⟩, copyTail (some a) payload returned slots, written⟩ := by
      intro returned copied a' state' ha' hs' t ht hlo hhi b hb
      obtain rfl := Option.some.inj ha'
      obtain rfl : state' = state := Option.some.inj (hs'.symm.trans hs)
      dsimp only at hb ⊢
      rw [hpayload, if_neg]
      · exact h.written a state' rfl hs t ht hlo hhi b hb
      rintro ⟨rfl, hslot, -⟩
      have hseq := hinv.sequence a.id state' hs
      have hpage := (hseq.position _ _ hb).symm.trans (hseq.position _ _ (htx.destination c hc))
      rw [htx.original_eq hc, Nat.add_sub_cancel] at hpage
      rw [(htx.partial_tail c hc).1] at hslot
      have hdm := Nat.div_add_mod t kv.config.blockTokens
      have hdm' := Nat.div_add_mod state'.sequence.used kv.config.blockTokens
      rw [hpage] at hdm
      dsimp only at hdm hslot
      omega
    have hframe : ∀ returned b i, copyTail (some a) payload returned slots b i = payload b i ∨
        b = c.destination := fun returned b i => by
      rw [hpayload]
      split
      · next hcond => exact Or.inr hcond.1
      · exact Or.inl rfl
    -- the copy threw, or it returned and the whole tail is there
    rcases hcases with ⟨e, -, heq⟩ | ⟨-, heq⟩
    · simp only [KvSystem.step, heq]
      exact ⟨(hinv.copyTail hs hc (hframe _) fun hfalse => by cases hfalse).ok, hwritten _ _⟩
    · simp only [KvSystem.step, heq]
      refine ⟨(hinv.copyTail hs hc (hframe _) fun _ i hi => ?_).ok, hwritten _ _⟩
      rw [hpayload, if_pos ⟨rfl, hi, by rfl⟩]

/-- A commit after all positions are written keeps the invariant. -/
theorem PayloadInv.commit {s : PayloadSystem} (h : PayloadInv s) (hcomplete : s.Complete) :
    PayloadInv { s with sys := (s.sys.step .commit).2 } := by
  obtain ⟨⟨kv, append⟩, payload, written⟩ := s
  cases append with
  | none => exact ⟨h.ok, h.written⟩
  | some a =>
    obtain ⟨flat, pos, hinv⟩ := h.ok
    obtain ⟨state, hs, htx⟩ := hinv.transaction a rfl
    by_cases hcopy : a.copy.isSome ∧ a.copied = false
    · simp only [KvSystem.step, commit_refused hcopy.1 hcopy.2]
      exact ⟨h.ok, h.written⟩
    · have hready : a.copy.isSome → a.copied = true := fun hsome =>
        Bool.not_eq_false _ ▸ fun hfalse => hcopy ⟨hsome, hfalse⟩
      have hcommit := hinv.commit hs hready fun t hlo hhi b hb =>
        h.written a state rfl hs t (hcomplete a state rfl hs t hlo hhi) hlo hhi b hb
      rw [commit_ok hs hready] at hcommit
      simp only [KvSystem.step, commit_ok hs hready]
      exact ⟨hcommit.ok, fun a' state' ha' => by cases ha'⟩

theorem PayloadInv.step {s t : PayloadSystem} (h : PayloadInv s) (hst : PayloadStep s t) :
    PayloadInv t := by
  cases hst with
  | call op hop => exact h.call hop
  | write a state t b ha hs hlo hhi hb => exact h.write ha hs hlo hb
  | copy copier slots => exact h.copy copier slots
  | commit hcomplete => exact h.commit hcomplete

theorem PayloadSystem.Reachable.inv {s : PayloadSystem} (h : s.Reachable) : PayloadInv s := by
  induction h with
  | init h payload => exact ⟨(KvInv.construct h _ _).ok, fun a state ha => by cases ha⟩
  | step h hst ih => exact ih.step hst

/-! ## Reading -/

/-- **Payload soundness.** In every reachable state, every committed token of a
sequence is read from a slot computed from exactly its history, and so is every slot
a cache node refers to. Only a tail page that is still to be copied is read at its
source. -/
theorem payload_sound {s : PayloadSystem} (h : s.Reachable) :
    (∀ id state t, s.sys.kv.sequences.find? id = some state → t < state.sequence.used →
      (∀ a, s.sys.append = some a → a.id = id → a.copy.isSome → a.copied = true) →
      ∃ b, state.sequence.blocks[t / s.sys.kv.config.blockTokens]? = some b ∧
        s.payload b (t % s.sys.kv.config.blockTokens) = state.sequence.tokens.take (t + 1)) ∧
    (∀ a state c t, s.sys.append = some a → s.sys.kv.sequences.find? a.id = some state →
      a.copy = some c → t < state.sequence.used →
      t / s.sys.kv.config.blockTokens + 1 = a.originalBlocks →
      s.payload c.source (t % s.sys.kv.config.blockTokens) =
        state.sequence.tokens.take (t + 1)) ∧
    ∀ k p b t, s.sys.kv.prefixCache.index.Spells k p →
      s.sys.kv.prefixCache.index.block p = some b → t < k.length →
      t / s.sys.kv.config.blockTokens + 1 = s.sys.kv.prefixCache.index.depth p →
      s.payload b (t % s.sys.kv.config.blockTokens) = k.take (t + 1) := by
  obtain ⟨⟨flat, pos, hinv⟩, -⟩ := h.inv
  refine ⟨fun id state t hs ht hready => ?_, fun a state c t ha hs hc ht hpage => ?_,
    fun k p b t hk hb ht hpage => ?_⟩
  · have hseq := hinv.sequence id state hs
    have hlt : t / s.sys.kv.config.blockTokens < state.sequence.blocks.length :=
      Nat.lt_of_lt_of_le (div_lt_pagesFor s.sys.kv.pool.valid.blockTokens_pos ht) hseq.covered
    have hget := List.getElem?_eq_getElem hlt
    refine ⟨_, hget, ?_⟩
    cases happend : s.sys.append with
    | none =>
      have hstored := hseq.stored
      rw [happend] at hstored
      exact hstored t ht _ hget
    | some a =>
      rw [happend] at hinv hseq
      by_cases hid : a.id = id
      swap
      · refine hseq.stored t ht _ ?_
        rw [stableBlocks_of_ne fun a' ha' => Option.some.inj ha' ▸ hid]
        exact hget
      subst hid
      obtain ⟨state', hs', htx⟩ := hinv.transaction a rfl
      obtain rfl := Option.some.inj (hs.symm.trans hs')
      exact hinv.committed_stored hs (hready a happend rfl) ht hget
  · rw [ha] at hinv
    exact hinv.source_stored hs hc ht hpage
  · obtain ⟨hentry, hdepth⟩ := hinv.cache.entry_of_node hk hb
    obtain ⟨hpos, hstored⟩ := hinv.entry k b hentry
    refine hstored t ht ?_
    have : pos b + 1 = s.sys.kv.prefixCache.index.depth p := hpos.trans hdepth
    omega

/-- The second of two sequences that share a full page and a tail page, both of them cached,
appends a token: it is read from its copy of the tail, the first one from the source of the
copy, and the cache from the full page. -/
theorem payload_sound_copied_tail : ∃ s : PayloadSystem, s.Reachable ∧ ∃ a state c b,
    s.sys.append = some a ∧ a.copy = some c ∧ a.copied = true ∧
      s.sys.kv.sequences.find? "b" = some state ∧ state.sequence.blocks[1]? = some b ∧
      b ≠ c.source ∧ s.payload b 0 = [5, 6, 7] ∧ s.payload c.source 0 = [5, 6, 7] ∧
      ∃ p cached, s.sys.kv.prefixCache.index.Spells [5, 6] p ∧
        s.sys.kv.prefixCache.index.block p = some cached ∧ s.payload cached 1 = [5, 6] := by
  have h₁ := Reachable.init (show construct ⟨2, 8, 2⟩ 1 1 8 8 = .ok _ from rfl) fun _ _ => []
  have h₂ := h₁.step (.call _ (.create "a") trivial)
  have h₃ := h₂.step (.call _ (.prepareAppend "a" [5, 6, 7]) trivial)
  have h₄ := h₃.step (.write _ _ _ 0 0 rfl rfl (by decide) (by decide) rfl)
  have h₅ := h₄.step (.write _ _ _ 1 0 rfl rfl (by decide) (by decide) rfl)
  have h₆ := h₅.step (.write _ _ _ 2 1 rfl rfl (by decide) (by decide) rfl)
  have h₇ := h₆.step (.commit _ fun a state ha hs t hlo hhi => by
    cases ha
    cases hs
    have hlt : t < 3 := hhi
    show t ∈ [2, 1, 0]
    simp only [List.mem_cons, List.not_mem_nil, or_false]
    omega)
  have h₈ := h₇.step (.call _ (.cachePrefix "a") trivial)
  have h₉ := h₈.step (.call _ (.create "b") trivial)
  have h₁₀ := h₉.step (.call _ (.forkSequence "a" "b") trivial)
  have h₁₁ := h₁₀.step (.call _ (.prepareAppend "b" [4]) trivial)
  have h₁₂ := h₁₁.step (.copy _ (fun _ => .ok ()) fun _ => false)
  have h := payload_sound h₁₂
  obtain ⟨b, hb, hown⟩ := h.1 "b" _ 2 rfl (by decide) fun a ha _ _ => by cases ha; rfl
  have hshared := h.2.1 _ _ _ 2 rfl rfl rfl (by decide) rfl
  have hfull := h.2.2 [5, 6] _ _ 1 (.child .root rfl) rfl (by decide) rfl
  have hne : b ≠ 1 := by
    cases hb
    decide
  exact ⟨_, h₁₂, _, _, _, b, rfl, rfl, rfl, rfl, hb, hne, hown, hshared, _, _,
    .child .root rfl, rfl, hfull⟩

end TinyInfer.MiniPrefix
