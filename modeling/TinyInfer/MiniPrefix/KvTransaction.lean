import TinyInfer.MiniPrefix.KvPrepare

/-!
# The life of an append transaction

- `Prepared.inv`: a prepared transaction satisfies the invariant;
- `KvInv.write`: so does one that wrote payload to its own slots, and
  `KvInv.copySharedTail` one that copied its tail page;
- `KvInv.commit` and `KvInv.rollback`: the two ways it ends.

The transaction owns the pages from its first new slot on: `AppendInv.exclusive`.
A page of anybody else is therefore out of its reach, and after a rollback no
trace of the written payload is referred to.
-/

namespace TinyInfer.MiniPrefix

open Lib KVManager

variable {α : Type} {spec : List TokenId → α} {payload : Nat → Nat → α} {kv : KVManager}
  {append : Option KVManager.Append} {flat : FlatCache} {pos : Nat → Nat}

/-! ## The edited block table -/

theorem replaceTail_some {init : List Nat} {source : Nat} (copy : TailCopy) :
    replaceTail (some copy) (init ++ [source]) = init ++ [copy.destination] := by
  rw [replaceTail]
  simp

theorem replaceTail_length (copy : Option TailCopy) (blocks : List Nat) :
    (replaceTail copy blocks).length = blocks.length := by
  cases copy with
  | none => rfl
  | some copy => exact List.length_set

/-- The replaced tail page is held by the transaction instead. -/
theorem replaceTail_count {copy : Option TailCopy} {blocks : List Nat}
    (h : ∀ c, copy = some c → blocks.getLast? = some c.source) (b : Nat) :
    (replaceTail copy blocks).count b + (copy.map TailCopy.source).toList.count b =
      blocks.count b + (destinationPages copy).count b := by
  cases copy with
  | none => rfl
  | some c =>
    obtain ⟨init, rfl⟩ := List.getLast?_eq_some_iff.mp (h c rfl)
    rw [replaceTail_some]
    simp only [destinationPages, Option.map_some, Option.toList_some, List.count_append]
    omega

/-- A page of the edited table is an old page in its place, or a new one. -/
theorem getElem?_replaceTail {copy : Option TailCopy} {blocks fresh : List Nat} {j b : Nat}
    (h : ∀ c, copy = some c → blocks.getLast? = some c.source)
    (hj : (replaceTail copy blocks ++ fresh)[j]? = some b) :
    (blocks[j]? = some b ∧ (copy.isSome → j + 1 ≠ blocks.length)) ∨
      (j + 1 = blocks.length ∧ b ∈ destinationPages copy) ∨
      ∃ i, j = blocks.length + i ∧ fresh[i]? = some b := by
  rcases Nat.lt_or_ge j blocks.length with hlt | hge
  · rw [List.getElem?_append_left (by rwa [replaceTail_length])] at hj
    cases copy with
    | none => exact Or.inl ⟨hj, fun hc => by cases hc⟩
    | some c =>
      obtain ⟨init, rfl⟩ := List.getLast?_eq_some_iff.mp (h c rfl)
      rw [replaceTail_some] at hj
      rw [List.length_append, List.length_singleton] at hlt ⊢
      rcases Nat.lt_or_ge j init.length with hin | hout
      · rw [List.getElem?_append_left hin] at hj
        exact Or.inl ⟨by rwa [List.getElem?_append_left hin], fun _ => by omega⟩
      · obtain rfl : j = init.length := by omega
        rw [List.getElem?_append_right le_rfl, Nat.sub_self] at hj
        exact Or.inr (Or.inl ⟨rfl, by simpa [destinationPages, eq_comm] using hj⟩)
  · rw [List.getElem?_append_right (by rwa [replaceTail_length]), replaceTail_length] at hj
    exact Or.inr (Or.inr ⟨j - blocks.length, by omega, hj⟩)

/-! ## After `prepare_append` -/

theorem isEmpty_eq_false {m : OrdMap RequestId Nat} {id : RequestId} {pages : Nat}
    (h : m.find? id = some pages) : m.isEmpty = false := by
  rw [Bool.eq_false_iff, Ne, OrdMap.isEmpty_iff]
  intro hall
  rw [hall] at h
  cases h

/-- What the logical check of `reserve_pages` grants. -/
theorem refusePages_eq_none {id : RequestId} {count required : Nat}
    (h : kv.refusePages id count required = none) :
    (∀ pages, kv.reservations.find? id = some pages → count ≤ pages) ∧
      (kv.reservations.isEmpty = false → kv.reservations.find? id = none →
        kv.committedBlocks + required ≤ kv.config.maxBlocks) := by
  rw [refusePages] at h
  constructor
  · intro pages hpages
    rw [if_neg (by rw [isEmpty_eq_false hpages]; exact Bool.false_ne_true), hpages] at h
    by_contra hmore
    simp only [if_pos (Nat.lt_of_not_le hmore)] at h
    cases h
  · intro hne hnone
    rw [if_neg (by rw [hne]; exact Bool.false_ne_true), hnone] at h
    by_contra hmore
    simp only at h
    rw [if_pos (by omega)] at h
    cases h

theorem Evicted.checked {kv' : KVManager} {flat' : FlatCache} (h : Evicted kv kv' flat flat')
    {id : RequestId} {tokens : List TokenId} {state : State}
    (hc : Checked kv append id tokens state) : Checked kv' append id tokens state := by
  have hseq : kv'.sequences = kv.sequences := by rw [h.same]
  have hres : kv'.reservations = kv.reservations := by rw [h.same]
  have hcontext : kv'.context = kv.context := by rw [h.same]
  have hvalid : kv'.validTokens tokens = kv.validTokens tokens := by rw [h.same]; rfl
  have hcommitted : kv'.committedBlocks = kv.committedBlocks := by rw [h.same]; rfl
  refine ⟨hc.idle, hseq ▸ hc.found, hc.tokens_ne, hcontext ▸ hc.fits, hvalid.trans hc.valid, ?_⟩
  have hpages := hc.pages
  rw [refusePages, missingPages, hres, hcommitted, h.config]
  exact hpages

/-- Where the pages of a prepared transaction sit. -/
def preparedPos (pos : Nat → Nat) (copy : Option TailCopy) (blocks fresh : List Nat) (b : Nat) :
    Nat :=
  if b ∈ fresh then blocks.length + fresh.idxOf b
  else if b ∈ destinationPages copy then blocks.length - 1
  else pos b

theorem preparedPos_old {copy : Option TailCopy} {blocks fresh : List Nat} {b : Nat}
    (h : b ∉ destinationPages copy ++ fresh) : preparedPos pos copy blocks fresh b = pos b := by
  rw [List.mem_append, not_or] at h
  rw [preparedPos, if_neg h.2, if_neg h.1]

/-- The new pages get the positions after the old ones. -/
theorem preparedPos_eq {copy : Option TailCopy} {blocks fresh : List Nat}
    (hlast : ∀ c, copy = some c → blocks.getLast? = some c.source)
    (hnd : (destinationPages copy ++ fresh).Nodup)
    (hhold : ∀ j b, blocks[j]? = some b → pos b = j ∧ b ∉ destinationPages copy ++ fresh)
    {j b : Nat} (hj : (replaceTail copy blocks ++ fresh)[j]? = some b) :
    preparedPos pos copy blocks fresh b = j := by
  obtain ⟨-, hfresh, hdisj⟩ := List.nodup_append.mp hnd
  rcases getElem?_replaceTail hlast hj with ⟨hb, -⟩ | ⟨hlen, hb⟩ | ⟨i, rfl, hb⟩
  · obtain ⟨hpos, hnew⟩ := hhold j b hb
    rw [preparedPos_old hnew, hpos]
  · rw [preparedPos, if_neg fun hf => hdisj b hb b hf rfl, if_pos hb]
    omega
  · obtain ⟨hlt, rfl⟩ := List.getElem?_eq_some_iff.mp hb
    rw [preparedPos, if_pos (List.getElem_mem hlt), hfresh.idxOf_getElem]

section Prepared

variable {kv' : KVManager} {state : State} {a : KVManager.Append} {fresh : List Nat}

theorem Prepared.last (hp : Prepared kv kv' flat state a fresh) (c : TailCopy)
    (hc : a.copy = some c) : state.sequence.blocks.getLast? = some c.source := (hp.source c hc).1

/-- The new pages were in nobody's hands. -/
theorem Prepared.old (hp : Prepared kv kv' flat state a fresh) {b : Nat}
    (h : 0 < kv.sequenceLeases b + flat.pages.count b) : b ∉ destinationPages a.copy ++ fresh :=
  fun hb => by
    have := hp.new b hb
    omega

/-- All leases of the prepared state: those from before, and one on each new page. -/
theorem Prepared.held (hp : Prepared kv kv' flat state a fresh)
    (hfind : kv.sequences.find? a.id = some state) (b : Nat) :
    outside kv' (some a) b =
      kv.sequenceLeases b + (destinationPages a.copy ++ fresh).count b := by
  have hleases := sequenceLeases_insert kv kv' a.id _ (congrArg KVManager.sequences hp.shape) b
  rw [hfind, Option.getD_some] at hleases
  have hcount := replaceTail_count hp.last b
  dsimp only at hleases
  rw [outside, sourcePages]
  rw [List.count_append] at hleases ⊢
  omega

/-- The pages a transaction may write to are its own. -/
theorem Prepared.exclusive (hp : Prepared kv kv' flat state a fresh)
    (h : KvInv spec payload kv none flat pos) (hfind : kv.sequences.find? a.id = some state)
    {j b : Nat} (hj : state.sequence.used / kv.config.blockTokens ≤ j)
    (hb : (replaceTail a.copy state.sequence.blocks ++ fresh)[j]? = some b) :
    outside kv' (some a) b + flat.pages.count b = 1 := by
  have hlen := (h.idle a.id state hfind fun a ha => by cases ha).2
  rw [hp.held hfind]
  have hnew : b ∈ destinationPages a.copy ++ fresh →
      kv.sequenceLeases b + (destinationPages a.copy ++ fresh).count b + flat.pages.count b = 1 :=
    fun hmem => by
      have hzero := hp.new b hmem
      have hone := List.count_eq_one_of_mem hp.nodup hmem
      omega
  rcases getElem?_replaceTail hp.last hb with ⟨hhold, hcopy⟩ | ⟨-, hdest⟩ | ⟨i, -, hfresh⟩
  · -- an old page from the first new slot on is the partial tail, left in place
    have hlt := (List.getElem?_eq_some_iff.mp hhold).1
    have hpos := sequenceLeases_pos hfind hhold
    have hmod : state.sequence.used % kv.config.blockTokens ≠ 0 := fun hzero => by
      rw [hlen, pagesFor, if_neg (not_not.mpr hzero)] at hlt
      omega
    rw [pagesFor, if_pos hmod] at hlen
    have hlastj : j + 1 = state.sequence.blocks.length := by omega
    have hnone : a.copy = none := by
      cases hcp : a.copy with
      | none => rfl
      | some c => exact absurd hlastj (hcopy (by rw [hcp]; rfl))
    have hget : state.sequence.blocks.getLast? = some b := by
      rw [List.getLast?_eq_getElem?, ← hlastj, Nat.add_sub_cancel, hhold]
    have hone := hp.in_place hnone hmod b hget
    rw [h.accounts.refs b, outside, sourcePages, List.count_nil] at hone
    have hzero : (destinationPages a.copy ++ fresh).count b = 0 :=
      List.count_eq_zero.mpr (hp.old (by omega))
    omega
  · exact hnew (List.mem_append_left _ hdest)
  · exact hnew (List.mem_append_right _ (List.mem_of_getElem? hfresh))

/-- The committed tokens are still read from the old pages. -/
theorem Prepared.stableBlocks (hp : Prepared kv kv' flat state a fresh) :
    stableBlocks (some a) a.id (replaceTail a.copy state.sequence.blocks ++ fresh) =
      state.sequence.blocks ++ fresh := by
  rw [KVManager.stableBlocks, if_pos rfl]
  cases hcopy : a.copy with
  | none => rfl
  | some c =>
    obtain ⟨init, hinit⟩ := List.getLast?_eq_some_iff.mp (hp.last c hcopy)
    simp only [hp.originalBlocks, hinit, replaceTail_some]
    simp

/-- A prepared append satisfies the invariant. -/
theorem Prepared.inv (hp : Prepared kv kv' flat state a fresh)
    (h : KvInv spec payload kv none flat pos) (hc : Checked kv none a.id a.tokens state) :
    KvInv spec payload kv' (some a) flat (preparedPos pos a.copy state.sequence.blocks fresh) := by
  have hseq := h.sequence a.id state hc.found
  have hlen := (h.idle a.id state hc.found fun a ha => by cases ha).2
  have hbt : 0 < kv.config.blockTokens := kv.pool.valid.blockTokens_pos
  have hmono : pagesFor kv.config.blockTokens state.sequence.used ≤
      pagesFor kv.config.blockTokens (state.sequence.used + a.tokens.length) :=
    pagesFor_mono (Nat.le_add_right _ _)
  have hmissing : fresh.length = pagesFor kv.config.blockTokens
      (state.sequence.used + a.tokens.length) - state.sequence.blocks.length := hp.missing
  have hgrown : (replaceTail a.copy state.sequence.blocks ++ fresh).length =
      pagesFor kv.config.blockTokens (state.sequence.used + a.tokens.length) := by
    rw [List.length_append, replaceTail_length]
    omega
  have hcontext : kv'.context = kv.context := by rw [hp.shape]
  -- the old pages keep their positions, as none of them is new
  have hhold : ∀ j b, state.sequence.blocks[j]? = some b →
      pos b = j ∧ b ∉ destinationPages a.copy ++ fresh := fun j b hb =>
    ⟨hseq.position j b hb, hp.old (Nat.lt_of_lt_of_le (sequenceLeases_pos hc.found hb)
      (Nat.le_add_right _ _))⟩
  have hprefix : kv'.prefixCache = kv.prefixCache := by rw [hp.shape]
  refine h.replace a.id _ (fun a ha => by cases ha) (fun a' ha => Option.some.inj ha ▸ rfl)
    (congrArg KVManager.sequences hp.shape) hcontext hp.config (by rw [hp.shape])
    (by rw [hp.config, hprefix]; exact h.cache) (hp.accounts.congr fun b => ?_) hp.peak ?_ ?_ ?_
    (by rw [hp.shape]; rfl) (fun a' ha => ?_) (fun hne => by cases hne) (fun pages hpages => ?_)
    fun hne => ?_
  · rw [hp.held hc.found]
    omega
  -- another sequence's pages were in use, so none of them is new
  · intro other otherState j b hother hs hb
    exact preparedPos_old (hp.old (Nat.lt_of_lt_of_le (sequenceLeases_pos hs hb)
      (Nat.le_add_right _ _)))
  -- nor is a cached page
  · intro k b he
    have hlease : 0 < flat.pages.count b := List.count_pos_iff.mpr (List.mem_map.mpr ⟨_, he, rfl⟩)
    rw [EntryInv, preparedPos_old (hp.old (by omega))]
    exact h.entry k b he
  -- the appended sequence, with its tail replaced and the new pages behind
  · refine { length := hseq.length, fits := by rw [hcontext]; exact hseq.fits,
             covered := ?_, position := fun j b hb => preparedPos_eq hp.last hp.nodup hhold hb,
             stored := ?_ }
    · rw [hp.config, hgrown]
      exact hmono
    · rw [hp.config, hp.stableBlocks]
      intro t ht b hb
      rw [List.getElem?_append_left (by rw [hlen]; exact div_lt_pagesFor hbt ht)] at hb
      exact hseq.stored t ht b hb
  -- the transaction record
  · obtain rfl := Option.some.inj ha
    refine { appending := rfl, tokens_ne := hc.tokens_ne, fits := by rw [hcontext]; exact hc.fits,
             original := by rw [hp.originalBlocks, hp.config, hlen],
             grown := by rw [hp.config]; exact hgrown,
             exclusive := fun j b hj hb => hp.exclusive h hc.found (by rwa [hp.config] at hj) hb,
             partial_tail := fun c hcopy => ?_, destination := fun c hcopy => ?_,
             source := fun c hcopy => ?_, copied := fun hcopied => ?_ }
    -- a copy is made only of a partial tail page
    · have hmod := hp.partial_tail (by rw [hcopy]; rfl)
      rw [hp.config, (hp.source c hcopy).2.1]
      exact ⟨rfl, Nat.pos_of_ne_zero hmod⟩
    · obtain ⟨init, hinit⟩ := List.getLast?_eq_some_iff.mp (hp.last c hcopy)
      simp only [hp.originalBlocks, hcopy, hinit, replaceTail_some]
      simp
    · have hlast := hp.last c hcopy
      rw [List.getLast?_eq_getElem?] at hlast
      have hlt := (List.getElem?_eq_some_iff.mp hlast).1
      rw [preparedPos_old (hhold _ _ hlast).2, (hhold _ _ hlast).1, hp.originalBlocks]
      omega
    · rw [hp.copied] at hcopied
      cases hcopied
  -- the grown sequence stays inside its reservation
  · show (replaceTail a.copy state.sequence.blocks ++ fresh).length ≤ pages
    rw [hgrown]
    exact (refusePages_eq_none hc.pages).1 pages hpages
  -- or inside what the other reservations leave
  · have hsum := committedBlocks_insert kv kv' a.id _ (congrArg KVManager.sequences hp.shape)
      (by rw [hp.shape])
    rw [hc.found, Option.getD_some, commitment, commitment] at hsum
    dsimp only at hsum
    rw [List.length_append, replaceTail_length] at hsum
    have hbefore := h.committed hne
    cases hres : kv.reservations.find? a.id with
    | some pages =>
      rw [if_pos (contains_iff.mpr ⟨pages, hres⟩), if_pos (contains_iff.mpr ⟨pages, hres⟩)] at hsum
      omega
    | none =>
      have hroom := (refusePages_eq_none hc.pages).2 hne hres
      have hnot : ¬ kv.reservations.contains a.id = true := fun hc => by
        obtain ⟨pages, hsome⟩ := contains_iff.mp hc
        rw [hres] at hsome
        cases hsome
      rw [if_neg hnot, if_neg hnot, hp.missing] at hsum
      omega

end Prepared

/-! ## Payload -/

section Payload

variable {a : KVManager.Append} {state : State}

/-- A page in the reach of the transaction is in nobody else's table. -/
theorem KvInv.exclusive (h : KvInv spec payload kv (some a) flat pos)
    (hs : kv.sequences.find? a.id = some state) {j b : Nat}
    (hj : state.sequence.used / kv.config.blockTokens ≤ j)
    (hb : state.sequence.blocks[j]? = some b) :
    (sourcePages (some a)).count b = 0 ∧ flat.pages.count b = 0 ∧
      ∀ other (otherState : State), other ≠ a.id → kv.sequences.find? other = some otherState →
        b ∉ otherState.sequence.blocks := by
  obtain ⟨state', hs', htx⟩ := h.transaction a rfl
  obtain rfl := Option.some.inj (hs'.symm.trans hs)
  have hone := htx.exclusive j b hj hb
  have hpos := sequenceLeases_pos hs hb
  simp only [outside] at hone
  refine ⟨by omega, by omega, fun other otherState hne hother hmem => ?_⟩
  have hsum := OrdMap.add_le_sum (fun _ s => s.sequence.blocks.count b) hother hs hne.symm
  have h1 : 0 < otherState.sequence.blocks.count b := List.count_pos_iff.mpr hmem
  have h2 : 0 < state'.sequence.blocks.count b :=
    List.count_pos_iff.mpr (List.mem_of_getElem? hb)
  have hle : otherState.sequence.blocks.count b + state'.sequence.blocks.count b ≤
    kv.sequenceLeases b := hsum
  omega

/-- A page of the stable table is the replaced tail page, or sits in the table. -/
theorem getElem?_stableBlocks {blocks : List Nat} {i b : Nat}
    (h : (stableBlocks (some a) a.id blocks)[i]? = some b) :
    (∃ c, a.copy = some c ∧ i = a.originalBlocks - 1 ∧ b = c.source) ∨
      (blocks[i]? = some b ∧ (a.copy.isSome → i ≠ a.originalBlocks - 1)) := by
  rw [stableBlocks, if_pos rfl] at h
  cases hcopy : a.copy with
  | none =>
    rw [hcopy] at h
    exact Or.inr ⟨h, fun hc => by cases hc⟩
  | some c =>
    rw [hcopy] at h
    simp only [List.getElem?_set] at h
    by_cases hi : a.originalBlocks - 1 = i
    · rw [if_pos hi] at h
      split at h
      · exact Or.inl ⟨c, rfl, hi.symm, (Option.some.inj h).symm⟩
      · cases h
    · rw [if_neg hi] at h
      exact Or.inr ⟨h, fun _ heq => hi heq.symm⟩

/-- The slots a transaction may change: new slots in its table, and any slot of the
page that replaces the tail. -/
def Writable (kv : KVManager) (a : KVManager.Append) (state : State) (b s : Nat) : Prop :=
  ∃ j, state.sequence.used / kv.config.blockTokens ≤ j ∧ state.sequence.blocks[j]? = some b ∧
    (state.sequence.used ≤ kv.config.blockTokens * j + s ∨
      ∃ c, a.copy = some c ∧ b = c.destination)

/-- Changing writable slots keeps the invariant; `copied` must stay truthful. -/
theorem KvInv.withPayload (h : KvInv spec payload kv (some a) flat pos)
    (hs : kv.sequences.find? a.id = some state) {payload' : Nat → Nat → α} {copied : Bool}
    (hframe : ∀ b s, payload' b s = payload b s ∨ Writable kv a state b s)
    (hcopied : copied = true → ∀ c, a.copy = some c → ∀ t < state.sequence.used,
      t / kv.config.blockTokens + 1 = a.originalBlocks →
      payload' c.destination (t % kv.config.blockTokens) =
        spec (state.sequence.tokens.take (t + 1))) :
    KvInv spec payload' kv (some { a with copied }) flat pos := by
  obtain ⟨state', hs', htx⟩ := h.transaction a rfl
  obtain rfl := Option.some.inj (hs'.symm.trans hs)
  have hseq := h.sequence a.id state' hs
  refine { h with entry := fun k b he => ?_, sequence := fun other otherState hother => ?_,
                  active := h.active, transaction := fun a' ha => ?_,
                  idle := fun other otherState hother hne => h.idle other otherState hother
                    fun a' ha => ?_ }
  -- the pages of the cache are not written
  · refine ⟨(h.entry k b he).1, fun t ht htj => ?_⟩
    rcases hframe b (t % kv.config.blockTokens) with hsame | ⟨j, hj, hb, -⟩
    · rw [hsame]
      exact (h.entry k b he).2 t ht htj
    · have hlease : 0 < flat.pages.count b :=
        List.count_pos_iff.mpr (List.mem_map.mpr ⟨_, he, rfl⟩)
      have := (h.exclusive hs hj hb).2.1
      omega
  -- the other sequences share no page that is written
  · have hhold := h.sequence other otherState hother
    refine { hhold with stored := fun t ht b hb => ?_ }
    have hstored := hhold.stored t ht b hb
    rcases hframe b (t % kv.config.blockTokens) with hsame | ⟨j, hj, hbj, hwhy⟩
    · rw [hsame]
      exact hstored
    exfalso
    obtain ⟨hsource, -, hothers⟩ := h.exclusive hs hj hbj
    by_cases hid : other = a.id
    swap
    · have hblocks : otherState.sequence.blocks[t / kv.config.blockTokens]? = some b := by
        rw [← hb]
        exact congrArg (fun l : List Nat => l[t / kv.config.blockTokens]?)
          (stableBlocks_of_ne (fun a' ha heq => hid (by
            obtain rfl := Option.some.inj ha
            exact heq.symm)) _).symm
      exact hothers other otherState hid hother (List.mem_of_getElem? hblocks)
    -- in its own table, a slot below the committed end is not writable
    subst hid
    obtain rfl := Option.some.inj (hother.symm.trans hs)
    rcases getElem?_stableBlocks (a := a) hb with ⟨c, hc, -, rfl⟩ | ⟨hbt, hnot⟩
    · rw [sourcePages, hc] at hsource
      simp at hsource
    · have hpos : j = t / kv.config.blockTokens := (hseq.position j b hbj).symm.trans
        (hseq.position _ b hbt)
      rcases hwhy with hnew | ⟨c, hc, rfl⟩
      · have := Nat.div_add_mod t kv.config.blockTokens
        rw [← hpos] at this
        omega
      · have hdest := hseq.position _ _ (htx.destination c hc)
        have hcur := hseq.position _ _ hbt
        exact hnot (by rw [hc]; rfl) (hcur.symm.trans hdest)
  · obtain rfl := Option.some.inj ha
    exact ⟨state', hs, { htx with copied := hcopied }⟩
  · obtain rfl := Option.some.inj ha
    exact hne { a with copied } rfl

/-- The payload after storing a value in one slot. -/
def store (payload : Nat → Nat → α) (b s : Nat) (value : α) (b' s' : Nat) : α :=
  if b' = b ∧ s' = s then value else payload b' s'

/-- Any value may be stored in a new slot of the transaction's own table. -/
theorem KvInv.write (h : KvInv spec payload kv (some a) flat pos)
    (hs : kv.sequences.find? a.id = some state) {t b : Nat} (ht : state.sequence.used ≤ t)
    (hb : state.sequence.blocks[t / kv.config.blockTokens]? = some b) (value : α) :
    KvInv spec (store payload b (t % kv.config.blockTokens) value) kv (some a) flat pos := by
  obtain ⟨state', hs', htx⟩ := h.transaction a rfl
  obtain rfl := Option.some.inj (hs'.symm.trans hs)
  have hdm := Nat.div_add_mod t kv.config.blockTokens
  have hframe : ∀ b' s', store payload b (t % kv.config.blockTokens) value b' s' = payload b' s' ∨
      Writable kv a state' b' s' := by
    intro b' s'
    rw [store]
    by_cases hslot : b' = b ∧ s' = t % kv.config.blockTokens
    · obtain ⟨rfl, rfl⟩ := hslot
      exact Or.inr ⟨_, Nat.div_le_div_right ht, hb, Or.inl (by omega)⟩
    · exact Or.inl (if_neg hslot)
  refine h.withPayload hs hframe fun hcopied c hc t' ht' hpage => ?_
  -- the slot just written is not one that was copied
  rw [store, if_neg, htx.copied hcopied c hc t' ht' hpage]
  rintro ⟨rfl, hslot⟩
  have hseq := h.sequence a.id state' hs
  have hpos := (hseq.position _ _ hb).symm.trans (hseq.position _ _ (htx.destination c hc))
  have hdm' := Nat.div_add_mod t' kv.config.blockTokens
  rw [(Nat.eq_sub_of_add_eq hpage).trans hpos.symm, hslot] at hdm'
  omega

/-- The tail page is the one of the last committed token. -/
theorem AppendInv.original_eq {held : Nat → Nat} (htx : AppendInv spec payload kv held pos a state)
    {c : TailCopy} (hc : a.copy = some c) :
    a.originalBlocks = state.sequence.used / kv.config.blockTokens + 1 := by
  have hpartial := htx.partial_tail c hc
  rw [htx.original, pagesFor, if_pos (by omega)]

/-- A committed slot of the tail page is still read from the source. -/
theorem KvInv.source_stored (h : KvInv spec payload kv (some a) flat pos)
    (hs : kv.sequences.find? a.id = some state) {c : TailCopy} (hc : a.copy = some c) {t : Nat}
    (ht : t < state.sequence.used) (hpage : t / kv.config.blockTokens + 1 = a.originalBlocks) :
    payload c.source (t % kv.config.blockTokens) = spec (state.sequence.tokens.take (t + 1)) := by
  obtain ⟨state', hs', htx⟩ := h.transaction a rfl
  obtain rfl := Option.some.inj (hs'.symm.trans hs)
  refine (h.sequence a.id state' hs).stored t ht c.source ?_
  have hlt := (List.getElem?_eq_some_iff.mp (htx.destination c hc)).1
  rw [stableBlocks, if_pos rfl, hc]
  simp only
  rw [Nat.eq_sub_of_add_eq hpage, List.getElem?_set_self hlt]

/-- A copy of the tail page, complete or not, keeps the invariant. -/
theorem KvInv.copyTail (h : KvInv spec payload kv (some a) flat pos)
    (hs : kv.sequences.find? a.id = some state) {c : TailCopy} (hc : a.copy = some c)
    {payload' : Nat → Nat → α} {copied : Bool}
    (hframe : ∀ b s, payload' b s = payload b s ∨ b = c.destination)
    (hcopied : copied = true → ∀ s < c.validTokens,
      payload' c.destination s = payload c.source s) :
    KvInv spec payload' kv (some { a with copied }) flat pos := by
  obtain ⟨state', hs', htx⟩ := h.transaction a rfl
  obtain rfl := Option.some.inj (hs'.symm.trans hs)
  have horiginal := htx.original_eq hc
  refine h.withPayload hs (fun b s => (hframe b s).imp_right ?_) fun hflag c' hc' t ht hpage => ?_
  · rintro rfl
    exact ⟨a.originalBlocks - 1, by omega, htx.destination c hc, Or.inr ⟨c, hc, rfl⟩⟩
  · obtain rfl := Option.some.inj (hc.symm.trans hc')
    have hdm := Nat.div_add_mod t kv.config.blockTokens
    have hdm' := Nat.div_add_mod state'.sequence.used kv.config.blockTokens
    rw [show t / kv.config.blockTokens =
      state'.sequence.used / kv.config.blockTokens by omega] at hdm
    rw [hcopied hflag _ (by rw [(htx.partial_tail c hc).1]; omega)]
    exact h.source_stored hs hc ht hpage

/-- The outcomes of `copy_shared_tail_region` on a live transaction. -/
theorem copySharedTailRegion_cases (kv : KVManager) (a : KVManager.Append)
    (copier : TailCopyRegion → Except Exn Unit) :
    (a.copy = none ∧ kv.copySharedTailRegion (some a) copier = (.ok (), some a)) ∨
      ∃ c, a.copy = some c ∧
        ((∃ e, copier (kv.tailCopyRegion c) = .error e ∧
            kv.copySharedTailRegion (some a) copier =
              (.error e, some { a with copied := false })) ∨
          (copier (kv.tailCopyRegion c) = .ok () ∧
            kv.copySharedTailRegion (some a) copier =
              (.ok (), some { a with copied := true }))) := by
  rw [copySharedTailRegion]
  cases hcopy : a.copy with
  | none => exact Or.inl ⟨rfl, rfl⟩
  | some c =>
    cases hrun : copier (kv.tailCopyRegion c) with
    | error e => exact Or.inr ⟨c, rfl, Or.inl ⟨e, hrun, by simp only [hrun]⟩⟩
    | ok _ => exact Or.inr ⟨c, rfl, Or.inr ⟨hrun, by simp only [hrun]⟩⟩

end Payload

/-! ## Commit -/

section Finish

variable {a : KVManager.Append} {state : State}

/-- The sequence that a commit leaves behind. -/
def committedSequence (a : KVManager.Append) (sequence : PagedSequence) : PagedSequence :=
  { sequence with
    tokens := sequence.tokens ++ a.tokens
    used := sequence.used + a.tokens.length }

theorem commit_ok (hs : kv.sequences.find? a.id = some state)
    (hcopy : a.copy.isSome → a.copied = true) :
    kv.commit (some a) = (.ok (), { kv with
      pool := kv.pool.unrefAll (sourcePages (some a))
      sequences := kv.sequences.insert a.id { sequence := committedSequence a state.sequence }
      forwardTokens := kv.forwardTokens + a.tokens.length
      appendActive := false }, none) := by
  rw [KVManager.commit, if_neg (fun h => h.2 (hcopy h.1)), hs]
  cases hc : a.copy with
  | none =>
    simp only [sourcePages, hc]
    rfl
  | some c =>
    simp only [sourcePages, hc]
    rfl

theorem commit_refused (hcopy : a.copy.isSome) (hcopied : a.copied = false) :
    kv.commit (some a) =
      (.error (.logicError "shared tail payload was not copied"), kv, some a) := by
  rw [KVManager.commit, if_pos ⟨hcopy, by rw [hcopied]; exact Bool.false_ne_true⟩]

/-- Once the tail page is copied, a committed slot is read from the table itself. -/
theorem KvInv.committed_stored (h : KvInv spec payload kv (some a) flat pos)
    (hs : kv.sequences.find? a.id = some state) (hcopy : a.copy.isSome → a.copied = true)
    {t b : Nat} (ht : t < state.sequence.used)
    (hb : state.sequence.blocks[t / kv.config.blockTokens]? = some b) :
    payload b (t % kv.config.blockTokens) = spec (state.sequence.tokens.take (t + 1)) := by
  obtain ⟨state', hs', htx⟩ := h.transaction a rfl
  obtain rfl := Option.some.inj (hs'.symm.trans hs)
  have hseq := h.sequence a.id state' hs
  -- it is where it was, or was copied to the new tail page
  cases hc : a.copy with
  | none =>
    refine hseq.stored t ht b ?_
    rw [KVManager.stableBlocks, if_pos rfl, hc]
    exact hb
  | some c =>
    by_cases hpage : t / kv.config.blockTokens + 1 = a.originalBlocks
    · have hdest := htx.destination c hc
      rw [← Nat.eq_sub_of_add_eq hpage] at hdest
      obtain rfl := Option.some.inj (hdest.symm.trans hb)
      exact htx.copied (hcopy (by rw [hc]; rfl)) c hc t ht hpage
    · have hpos : 0 < a.originalBlocks := by
        rw [htx.original_eq hc]
        exact Nat.succ_pos _
      refine hseq.stored t ht b ?_
      rw [KVManager.stableBlocks, if_pos rfl, hc]
      simp only
      rw [List.getElem?_set_ne (by omega)]
      exact hb

/-- A commit whose slots are all written keeps the invariant. -/
theorem KvInv.commit (h : KvInv spec payload kv (some a) flat pos)
    (hs : kv.sequences.find? a.id = some state) (hcopy : a.copy.isSome → a.copied = true)
    (hwritten : ∀ t, state.sequence.used ≤ t → t < state.sequence.used + a.tokens.length → ∀ b,
      state.sequence.blocks[t / kv.config.blockTokens]? = some b →
      payload b (t % kv.config.blockTokens) =
        spec ((state.sequence.tokens ++ a.tokens).take (t + 1))) :
    KvInv spec payload (kv.commit (some a)).2.1 none flat pos := by
  obtain ⟨state', hs', htx⟩ := h.transaction a rfl
  obtain rfl := Option.some.inj (hs'.symm.trans hs)
  have hseq := h.sequence a.id state' hs
  have hpeak := kv.pool.unrefAll_peak (sourcePages (some a))
  generalize hkv' : (kv.commit (some a)).2.1 = kv'
  have hshape : kv' = _ := hkv'.symm.trans
    (congrArg (fun r : Except Exn Unit × KVManager × Option KVManager.Append => r.2.1)
      (commit_ok hs hcopy))
  have hsequences : kv'.sequences = kv.sequences.insert a.id
    { sequence := committedSequence a state'.sequence } := by rw [hshape]
  have hpool : kv'.pool = kv.pool.unrefAll (sourcePages (some a)) := by rw [hshape]
  have hcfg : kv'.config = kv.config := by
    rw [KVManager.config, hpool, KvBlockPool.unrefAll_config]
    rfl
  have hcontext : kv'.context = kv.context := by rw [hshape]
  have hreservations : kv'.reservations = kv.reservations := by rw [hshape]
  have hcache : kv'.prefixCache = kv.prefixCache := by rw [hshape]
  have hactive : kv'.appendActive = false := by rw [hshape]
  refine h.replace a.id _ (fun a' ha => Option.some.inj ha ▸ rfl) (fun a' ha => by cases ha)
    hsequences hcontext hcfg hreservations ?_ ?_
    (by rw [hpool]; exact hpeak.2.trans (h.peak.trans hpeak.1.ge)) (fun _ _ _ _ _ _ _ => rfl)
    h.entry ?_ hactive (fun a' ha => by cases ha) (fun _ => ⟨rfl, htx.grown⟩)
    (fun pages hpages => h.reserved a.id pages hpages state' hs) fun hne => ?_
  · rw [hcfg, hcache]
    exact h.cache
  · rw [hpool]
    refine KvBlockPool.unrefAll_accounts h.accounts fun b => ?_
    have hleases := sequenceLeases_insert kv kv' a.id _ hsequences b
    rw [hs, Option.getD_some] at hleases
    have hsame : kv'.sequenceLeases b = kv.sequenceLeases b := Nat.add_right_cancel hleases
    have hnone : (sourcePages none).count b = 0 := rfl
    rw [outside, outside, hsame, hnone]
    omega
  · refine { length := ?_, fits := by rw [hcontext]; exact htx.fits,
             covered := by rw [hcfg]; exact htx.grown.ge, position := hseq.position, stored := ?_ }
    · simp only [committedSequence, List.length_append, hseq.length]
    rw [hcfg]
    intro t ht b hb
    show payload b (t % kv.config.blockTokens) = spec ((state'.sequence.tokens ++ a.tokens).take _)
    rcases Nat.lt_or_ge t state'.sequence.used with hhold | hnew
    swap
    · exact hwritten t hnew ht b hb
    rw [List.take_append_of_le_length (by rw [hseq.length]; omega)]
    exact h.committed_stored hs hcopy hhold hb
  · have hsum := committedBlocks_insert kv kv' a.id _ hsequences hreservations
    rw [hs, Option.getD_some] at hsum
    exact (Nat.add_right_cancel hsum).trans_le (h.committed hne)

/-! ## Rollback -/

/-- The block table that a rollback restores. -/
def restoredBlocks (a : KVManager.Append) (blocks : List Nat) : List Nat :=
  (stableBlocks (some a) a.id blocks).take a.originalBlocks

/-- The pages that a rollback gives back. -/
def droppedPages (a : KVManager.Append) (blocks : List Nat) : List Nat :=
  (blocks.drop a.originalBlocks).reverse ++ destinationPages a.copy

theorem rollback_eq (hs : kv.sequences.find? a.id = some state) :
    kv.rollback (some a) = { kv with
      pool := kv.pool.unrefAll (droppedPages a state.sequence.blocks)
      sequences := kv.sequences.insert a.id { sequence := { state.sequence with
        blocks := restoredBlocks a state.sequence.blocks } }
      appendActive := false } := by
  rw [KVManager.rollback, hs]
  simp only [Option.getD_some, KvBlockPool.rollback_eq, restoredBlocks, droppedPages,
    KVManager.stableBlocks]
  cases hc : a.copy with
  | none => simp only [destinationPages, Option.map_none, Option.toList_none,
    List.append_nil, if_true]
  | some c =>
    simp only [destinationPages, Option.map_some, Option.toList_some, if_true, List.take_set,
      KvBlockPool.unrefAll, List.foldl_append, List.foldl_cons, List.foldl_nil]

/-- What a rollback gives back and what the transaction kept make up the table. -/
theorem restored_count (hdest : ∀ c, a.copy = some c →
      state.sequence.blocks[a.originalBlocks - 1]? = some c.destination ∧ 0 < a.originalBlocks)
    (b : Nat) :
    (restoredBlocks a state.sequence.blocks).count b +
        (droppedPages a state.sequence.blocks).count b =
      state.sequence.blocks.count b + (sourcePages (some a)).count b := by
  have hsplit := congrArg (List.count b)
    (List.take_append_drop a.originalBlocks state.sequence.blocks)
  rw [List.count_append] at hsplit
  rw [restoredBlocks, droppedPages, List.count_append, List.count_reverse, KVManager.stableBlocks,
    if_pos rfl]
  cases hc : a.copy with
  | none =>
    simp only [destinationPages, sourcePages, hc, Option.map_none, Option.toList_none,
      List.count_nil]
    omega
  | some c =>
    obtain ⟨hget, hpos⟩ := hdest c hc
    obtain ⟨n, hn⟩ := Nat.exists_eq_add_of_lt hpos
    rw [Nat.zero_add] at hn
    simp only [hn, Nat.add_sub_cancel] at hget hsplit ⊢
    have htake : state.sequence.blocks.take (n + 1) =
        state.sequence.blocks.take n ++ [c.destination] := by
      rw [List.take_add_one, hget, Option.toList_some]
    have hlen : (state.sequence.blocks.take n).length = n := by
      have := (List.getElem?_eq_some_iff.mp hget).1
      rw [List.length_take]
      omega
    have hset : (state.sequence.blocks.set n c.source).take (n + 1) =
        state.sequence.blocks.take n ++ [c.source] := by
      rw [List.take_set, htake, List.set_append_right _ _ hlen.le, hlen, Nat.sub_self]
      rfl
    rw [hset, List.count_append]
    rw [htake, List.count_append] at hsplit
    simp only [destinationPages, sourcePages, hc, Option.map_some, Option.toList_some]
    omega

/-- A rollback keeps the invariant, whatever the transaction wrote. -/
theorem KvInv.rollback (h : KvInv spec payload kv (some a) flat pos) :
    KvInv spec payload (kv.rollback (some a)) none flat pos := by
  obtain ⟨state, hs, htx⟩ := h.transaction a rfl
  have hseq := h.sequence a.id state hs
  have hpeak := kv.pool.unrefAll_peak (droppedPages a state.sequence.blocks)
  -- the manager after the rollback, field by field
  generalize hkv' : kv.rollback (some a) = kv'
  have hshape : kv' = _ := hkv'.symm.trans (rollback_eq hs)
  have hsequences : kv'.sequences = kv.sequences.insert a.id { sequence := { state.sequence with
    blocks := restoredBlocks a state.sequence.blocks } } := by rw [hshape]
  have hpool : kv'.pool = kv.pool.unrefAll (droppedPages a state.sequence.blocks) := by rw [hshape]
  have hcfg : kv'.config = kv.config := by
    rw [KVManager.config, hpool, KvBlockPool.unrefAll_config]
    rfl
  have hcontext : kv'.context = kv.context := by rw [hshape]
  have hreservations : kv'.reservations = kv.reservations := by rw [hshape]
  have hcache : kv'.prefixCache = kv.prefixCache := by rw [hshape]
  have hactive : kv'.appendActive = false := by rw [hshape]
  -- the destination of the copy is the tail page
  have hdest : ∀ c, a.copy = some c →
      state.sequence.blocks[a.originalBlocks - 1]? = some c.destination ∧ 0 < a.originalBlocks := by
    intro c hc
    refine ⟨htx.destination c hc, ?_⟩
    rw [htx.original_eq hc]
    exact Nat.succ_pos _
  have hcount := restored_count hdest
  have hstable : (stableBlocks (some a) a.id state.sequence.blocks).length =
      state.sequence.blocks.length := by
    rw [KVManager.stableBlocks, if_pos rfl]
    cases a.copy with
    | none => rfl
    | some c => exact List.length_set
  -- the pages of the sequence after the rollback are those that `append` found
  have hrestored : (restoredBlocks a state.sequence.blocks).length =
      pagesFor kv.config.blockTokens state.sequence.used := by
    rw [restoredBlocks, List.length_take, hstable, htx.original]
    exact Nat.min_eq_left hseq.covered
  have hget : ∀ j b, (restoredBlocks a state.sequence.blocks)[j]? = some b →
      (stableBlocks (some a) a.id state.sequence.blocks)[j]? = some b := fun j b hb => by
    rw [restoredBlocks, List.getElem?_take] at hb
    split at hb
    · exact hb
    · cases hb
  refine h.replace a.id _ (fun a' ha => Option.some.inj ha ▸ rfl) (fun a' ha => by cases ha)
    hsequences hcontext hcfg hreservations ?_ ?_
    (by rw [hpool]; exact hpeak.2.trans (h.peak.trans hpeak.1.ge)) (fun _ _ _ _ _ _ _ => rfl)
    h.entry ?_ hactive (fun a' ha => by cases ha) (fun _ => ⟨rfl, hrestored⟩)
    (fun pages hpages => ?_) fun hne => ?_
  · rw [hcfg, hcache]
    exact h.cache
  -- the pages that were dropped go back to the pool
  · rw [hpool]
    refine KvBlockPool.unrefAll_accounts h.accounts fun b => ?_
    have hleases := sequenceLeases_insert kv kv' a.id _ hsequences b
    rw [hs, Option.getD_some] at hleases
    dsimp only at hleases
    have hnone : (sourcePages none).count b = 0 := rfl
    have hb := hcount b
    have hle := le_sequenceLeases hs b
    rw [outside, outside, hnone]
    omega
  -- the sequence is the stable view, cut to the pages it had
  · refine { length := hseq.length, fits := by rw [hcontext]; exact hseq.fits,
             covered := by rw [hcfg]; exact hrestored.ge, position := fun j b hb => ?_,
             stored := by rw [hcfg]; exact fun t ht b hb => hseq.stored t ht b (hget _ b hb) }
    rcases getElem?_stableBlocks (hget j b hb) with ⟨c, hc, rfl, rfl⟩ | ⟨hb', -⟩
    · have := htx.source c hc
      omega
    · exact hseq.position j b hb'
  · have := h.reserved a.id pages hpages state hs
    have := hseq.covered
    exact hrestored.trans_le (by omega)
  -- the pages promised to reservations
  · have hsum := committedBlocks_insert kv kv' a.id _ hsequences hreservations
    have hle := h.committed hne
    have hcovered := hseq.covered
    rw [hs, Option.getD_some, commitment, commitment] at hsum
    dsimp only at hsum
    rw [hrestored] at hsum
    split at hsum <;> omega

end Finish

end TinyInfer.MiniPrefix
