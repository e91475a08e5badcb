import TinyInfer.Core.TensorLayout

/-!
# Reshaping a layout (`core/tensor_layout.cpp`)

`resolve_reshape_shape` multiplies the listed dimensions up to the first zero, skips
what comes after it, and computes the dimension that is `-1` from the quotient. The
constructor of a layout then checks the shape.

Main definitions: `resolveReshapeShape`, `reshaped`, `complete`, `Fills`, `Counted`.
-/

namespace TinyInfer.TensorLayout

/-- The locals of `resolve_reshape_shape`. -/
structure Resolution where
  knownElements : Nat := 1
  inferredDimension : Option Nat := none
  hasZero : Bool := false

/-- The loop of `resolve_reshape_shape`, at `dimension`. -/
def resolveLoop : List Int → Nat → Resolution → Except Exn Resolution
  | [], _, r => .ok r
  | size :: shape, dimension, r =>
    if size = -1 then
      if r.inferredDimension.isSome then
        .error (.invalidArgument "reshape allows at most one inferred dimension")
      else resolveLoop shape (dimension + 1) { r with inferredDimension := some dimension }
    else if size < 0 then
      .error (.invalidArgument "reshape dimensions must be non-negative or -1")
    else if size = 0 then
      resolveLoop shape (dimension + 1) { r with hasZero := true, knownElements := 0 }
    else if r.hasZero then resolveLoop shape (dimension + 1) r
    else do
      let known ← checkedMultiply r.knownElements size.toNat
        "reshape element count overflows size_t"
      resolveLoop shape (dimension + 1) { r with knownElements := known }

/-- `resolve_reshape_shape` -/
def resolveReshapeShape (shape : Shape) (currentElements : Nat) : Except Exn Shape := do
  let r ← resolveLoop shape 0 {}
  match r.inferredDimension with
  | none =>
    require (r.knownElements == currentElements)
      (.invalidArgument "reshape must preserve the number of elements")
    .ok shape
  | some dimension =>
    require (r.knownElements != 0) (.invalidArgument
      "cannot infer a reshape dimension when known dimensions multiply to zero")
    require (currentElements % r.knownElements == 0)
      (.invalidArgument "reshape cannot infer an integral dimension")
    let inferred := currentElements / r.knownElements
    require (inferred ≤ int64Max) (.overflowError "inferred reshape dimension overflows int64_t")
    let known ← checkedMultiply r.knownElements inferred "reshape element count overflows size_t"
    require (known == currentElements)
      (.invalidArgument "reshape must preserve the number of elements")
    .ok (shape.set dimension inferred)

def reshaped (layout : TensorLayout) (newShape : Shape) : Except Exn TensorLayout := do
  require layout.isContiguous (.logicError "reshape requires a contiguous layout")
  ofShape (← resolveReshapeShape newShape layout.numel)

/-! ## The loop -/

/-- The dimensions that are not inferred. -/
def known (target : Shape) : Shape := target.filter (· ≠ -1)

/-- The product that the loop computes fits `size_t`: it ends at the first zero. -/
def Counted (target : Shape) : Prop := Shape.count ((known target).takeWhile (· ≠ 0)) ≤ sizeMax

instance (target : Shape) : Decidable (Counted target) :=
  inferInstanceAs (Decidable (_ ≤ _))

theorem count_eq_zero {shape : Shape} (hzero : (0 : Int) ∈ shape) : Shape.count shape = 0 :=
  List.prod_eq_zero_iff_exists_zero_nat.2 ⟨0, List.mem_map.2 ⟨0, hzero, rfl⟩, rfl⟩

theorem known_of_nonneg {target : Shape} (hnonneg : ∀ d ∈ target, 0 ≤ d) :
    known target = target := by
  refine List.filter_eq_self.2 fun d hmem => ?_
  have := hnonneg d hmem
  exact decide_eq_true (by omega)

/-- What the loop computes where no dimension is inferred. -/
theorem resolveLoop_eq {target : Shape} (hnonneg : ∀ d ∈ target, 0 ≤ d) (dimension : Nat)
    {r : Resolution} (hzero : r.hasZero = true → r.knownElements = 0)
    (hfits : r.knownElements ≤ sizeMax) :
    resolveLoop target dimension r =
      if r.knownElements * Shape.count (target.takeWhile (· ≠ 0)) ≤ sizeMax then
        .ok { r with
          knownElements := r.knownElements * Shape.count target
          hasZero := r.hasZero || decide ((0 : Int) ∈ target) }
      else .error (.overflowError "reshape element count overflows size_t") := by
  induction target generalizing dimension r with
  | nil =>
    rw [List.takeWhile_nil, show Shape.count [] = 1 from rfl, Nat.mul_one, if_pos hfits]
    simp [resolveLoop]
  | cons d target ih =>
    obtain ⟨hhead, htail⟩ := List.forall_mem_cons.1 hnonneg
    rw [resolveLoop, if_neg (by omega), if_neg (by omega)]
    by_cases hempty : d = 0
    · subst hempty
      have hcounted : Shape.count (0 :: target) = 0 := count_eq_zero List.mem_cons_self
      rw [if_pos rfl, ih htail _ (fun _ => rfl) (Nat.zero_le _), Nat.zero_mul,
        if_pos (Nat.zero_le _), List.takeWhile_cons_of_neg (by simp),
        show Shape.count [] = 1 from rfl, Nat.mul_one, if_pos hfits, hcounted]
      simp
    · have hother : decide ((0 : Int) ∈ d :: target) = decide ((0 : Int) ∈ target) := by
        rw [decide_eq_decide, List.mem_cons, or_iff_right fun h => hempty h.symm]
      rw [if_neg hempty, List.takeWhile_cons_of_pos (by simpa using hempty), Shape.count_cons,
        Shape.count_cons, hother]
      by_cases hseen : r.hasZero = true
      · have hnone := hzero hseen
        rw [if_pos hseen, ih htail _ hzero hfits, hnone]
        simp only [Nat.zero_mul]
      · rw [if_neg hseen, checkedMultiply_eq, ← Nat.mul_assoc, ← Nat.mul_assoc]
        have hunseen : r.hasZero = false := Bool.eq_false_iff.2 hseen
        by_cases hsmall : r.knownElements * d.toNat ≤ sizeMax
        · rw [if_pos hsmall]
          exact ih (r := { r with knownElements := r.knownElements * d.toNat }) htail _
            (fun h => absurd h hseen) hsmall
        · -- the later factors are positive, up to the first zero
          have hgrows : r.knownElements * d.toNat ≤
              r.knownElements * d.toNat * Shape.count (target.takeWhile (· ≠ 0)) := by
            refine Nat.le_mul_of_pos_right _ (count_pos fun e hmem => ?_)
            have := htail e (List.takeWhile_subset _ hmem)
            have : e ≠ 0 := of_decide_eq_true (List.all_eq_true.1 List.all_takeWhile e hmem)
            omega
          rw [if_neg hsmall, if_neg (by omega)]
          rfl

/-- The loop passes over the inferred dimension. -/
theorem resolveLoop_inferred {front back : Shape} (hnonneg : ∀ d ∈ front ++ back, 0 ≤ d)
    (dimension : Nat) {r : Resolution} (hfirst : r.inferredDimension = none)
    (hzero : r.hasZero = true → r.knownElements = 0) (hfits : r.knownElements ≤ sizeMax) :
    resolveLoop (front ++ -1 :: back) dimension r =
      (resolveLoop (front ++ back) dimension r).map fun r =>
        { r with inferredDimension := some (dimension + front.length) } := by
  induction front generalizing dimension r with
  | nil =>
    rw [List.nil_append] at hnonneg
    rw [List.nil_append, List.nil_append, resolveLoop, if_pos rfl, if_neg (by rw [hfirst]; simp),
      resolveLoop_eq hnonneg dimension hzero hfits,
      resolveLoop_eq (r := { r with inferredDimension := some dimension }) hnonneg _ hzero hfits]
    dsimp only
    split <;> rfl
  | cons d front ih =>
    obtain ⟨hhead, htail⟩ := List.forall_mem_cons.1 hnonneg
    have hshifted : dimension + (d :: front).length = dimension + 1 + front.length := by
      rw [List.length_cons]
      omega
    have hlisted : d ≠ -1 ∧ ¬ d < 0 := by omega
    rw [List.cons_append, List.cons_append, resolveLoop, resolveLoop, if_neg hlisted.1,
      if_neg hlisted.2, if_neg hlisted.1, if_neg hlisted.2, hshifted]
    by_cases hempty : d = 0
    · rw [if_pos hempty, if_pos hempty]
      exact ih htail _ hfirst (fun _ => rfl) (Nat.zero_le _)
    · rw [if_neg hempty, if_neg hempty]
      by_cases hseen : r.hasZero = true
      · rw [if_pos hseen, if_pos hseen]
        exact ih htail _ hfirst hzero hfits
      · rw [if_neg hseen, if_neg hseen, checkedMultiply_eq]
        by_cases hsmall : r.knownElements * d.toNat ≤ sizeMax
        · rw [if_pos hsmall]
          exact ih (r := { r with knownElements := r.knownElements * d.toNat }) htail _ hfirst
            (fun h => absurd h hseen) hsmall
        · rw [if_neg hsmall]
          rfl

/-! ## The shape -/

/-- The target with an extent in the place of `-1`. -/
def complete (extent : Nat) (target : Shape) : Shape :=
  target.map fun d => if d = -1 then (extent : Int) else d

theorem complete_of_nonneg {target : Shape} (hnonneg : ∀ d ∈ target, 0 ≤ d) (extent : Nat) :
    complete extent target = target := by
  refine (List.map_congr_left fun d hmem => ?_).trans (List.map_id target)
  have := hnonneg d hmem
  exact if_neg (by omega)

/-- The placeholder becomes the inferred extent. -/
theorem complete_split {front back : Shape} (hnonneg : ∀ d ∈ front ++ back, 0 ≤ d) (extent : Nat) :
    complete extent (front ++ -1 :: back) = front ++ (extent : Int) :: back := by
  obtain ⟨hleft, hright⟩ := List.forall_mem_append.1 hnonneg
  show List.map _ _ = _
  rw [List.map_append, List.map_cons, if_pos rfl]
  exact congrArg₂ (· ++ (extent : Int) :: ·) (complete_of_nonneg hleft extent)
    (complete_of_nonneg hright extent)

/-- The known dimensions are those around the placeholder. -/
theorem known_split {front back : Shape} (hnonneg : ∀ d ∈ front ++ back, 0 ≤ d) :
    known (front ++ -1 :: back) = front ++ back := by
  have hskipped : known (front ++ -1 :: back) = known (front ++ back) := by
    unfold known
    rw [List.filter_append, List.filter_cons_of_neg (by decide), List.filter_append]
  rw [hskipped, known_of_nonneg hnonneg]

theorem count_insert (front back : Shape) (extent : Nat) :
    Shape.count (front ++ (extent : Int) :: back) = Shape.count (front ++ back) * extent := by
  simp only [Shape.count, Shape.dims, List.map_append, List.map_cons, List.prod_append,
    List.prod_cons, Int.toNat_natCast]
  ring

/-- A target with one `-1`, and the dimensions on both sides of it. -/
theorem split_once {target : Shape} (hentries : ∀ d ∈ target, -1 ≤ d)
    (honce : List.count (-1) target ≤ 1) (hmem : -1 ∈ target) :
    ∃ front back, target = front ++ -1 :: back ∧ ∀ d ∈ front ++ back, 0 ≤ d := by
  obtain ⟨front, back, rfl⟩ := List.append_of_mem hmem
  refine ⟨front, back, rfl, fun d hmem => ?_⟩
  have hlisted : d ∈ front ++ -1 :: back := by
    rcases List.mem_append.1 hmem with hleft | hright
    · exact List.mem_append_left _ hleft
    · exact List.mem_append_right _ (List.mem_cons_of_mem _ hright)
  have hother : d ≠ -1 := by
    rintro rfl
    have := List.count_pos_iff.2 hmem
    rw [List.count_append, List.count_cons_self] at honce
    rw [List.count_append] at this
    omega
  have := hentries d hlisted
  omega

theorem nonneg_of_known {target : Shape} (hentries : ∀ d ∈ target, -1 ≤ d) (hnone : -1 ∉ target) :
    ∀ d ∈ target, 0 ≤ d := by
  intro d hmem
  have := hentries d hmem
  have : d ≠ -1 := fun heq => hnone (heq ▸ hmem)
  omega

/-- A shape without placeholder is accepted iff its count is right and its products fit. -/
theorem resolve_known {target s : Shape} {n : Nat} (hnonneg : ∀ d ∈ target, 0 ≤ d) :
    resolveReshapeShape target n = .ok s ↔ Counted target ∧ Shape.count target = n ∧
      s = target := by
  unfold resolveReshapeShape Counted
  rw [resolveLoop_eq hnonneg 0 (fun h => by cases h) (by decide),
    known_of_nonneg hnonneg, Nat.one_mul, Nat.one_mul]
  by_cases hfits : Shape.count (target.takeWhile (· ≠ 0)) ≤ sizeMax
  · rw [if_pos hfits]
    refine Iff.trans check_ok ?_
    rw [require_ok, beq_iff_eq]
    constructor
    · rintro ⟨hsize, heq⟩
      cases heq
      exact ⟨hfits, hsize, rfl⟩
    · rintro ⟨-, hsize, rfl⟩
      exact ⟨hsize, rfl⟩
  · rw [if_neg hfits]
    exact ⟨fun h => (by cases h), fun h => absurd h.1 hfits⟩

/-- The placeholder is inferred iff the known count divides the number of elements. -/
theorem resolve_inferred {front back s : Shape} {n : Nat} (hnonneg : ∀ d ∈ front ++ back, 0 ≤ d)
    (hsmall : n ≤ sizeMax) :
    resolveReshapeShape (front ++ -1 :: back) n = .ok s ↔
      Counted (front ++ -1 :: back) ∧ 0 < Shape.count (front ++ back) ∧
      ∃ extent : Nat, Shape.count (front ++ back) * extent = n ∧ extent ≤ int64Max ∧
        s = front ++ (extent : Int) :: back := by
  unfold resolveReshapeShape Counted
  rw [resolveLoop_inferred hnonneg 0 rfl (fun h => by cases h) (by decide),
    resolveLoop_eq hnonneg 0 (fun h => by cases h) (by decide), known_split hnonneg,
    Nat.one_mul, Nat.one_mul]
  by_cases hfits : Shape.count ((front ++ back).takeWhile (· ≠ 0)) ≤ sizeMax
  · rw [if_pos hfits]
    constructor
    · intro h
      obtain ⟨hpositive, h⟩ := check_ok.1 h
      obtain ⟨hdivides, h⟩ := check_ok.1 h
      obtain ⟨hint64, h⟩ := check_ok.1 h
      obtain ⟨product, -, h⟩ := bind_ok.1 h
      obtain ⟨-, h⟩ := check_ok.1 h
      cases h
      have hdivides := beq_iff_eq.1 (require_ok.1 hdivides)
      refine ⟨hfits, Nat.pos_of_ne_zero (by simpa using require_ok.1 hpositive), _,
        Nat.mul_div_cancel' (Nat.dvd_of_mod_eq_zero hdivides),
        of_decide_eq_true (require_ok.1 hint64), ?_⟩
      simp
    · rintro ⟨-, hpositive, extent, rfl, hint64, rfl⟩
      have hquotient : Shape.count (front ++ back) *
        extent / Shape.count (front ++ back) = extent :=
        Nat.mul_div_cancel_left extent hpositive
      refine check_ok.2 ⟨require_ok.2 (by simpa using Nat.ne_of_gt hpositive),
        check_ok.2 ⟨require_ok.2 (by simp), check_ok.2 ⟨require_ok.2 ?_, bind_ok.2 ⟨_, ?_,
          check_ok.2 ⟨require_ok.2 (beq_self_eq_true _), ?_⟩⟩⟩⟩⟩
      · exact decide_eq_true (by rwa [hquotient])
      · rw [hquotient, checkedMultiply_eq, if_pos hsmall]
      · rw [hquotient]
        simp
  · rw [if_neg hfits]
    exact ⟨fun h => (by cases h), fun h => absurd h.1 hfits⟩

/-! ## What `reshaped` accepts -/

/-- An extent for `-1` that makes a layout of `n` elements. -/
def Fills (n : Nat) (target : Shape) (extent : Nat) (result : TensorLayout) : Prop :=
  ofShape (complete extent target) = .ok result ∧ result.numel = n ∧ extent ≤ int64Max

/-- What it means to fill the target, with the layout's own limits written out. -/
theorem fills_iff {n : Nat} {target : Shape} {extent : Nat} {result : TensorLayout} :
    Fills n target extent result ↔ extent ≤ int64Max ∧ Shape.count (complete extent target) = n ∧
      ∃ hadmits : Admits (complete extent target), result = contiguous _ hadmits := by
  unfold Fills
  rw [ofShape_ok]
  constructor
  · rintro ⟨⟨hadmits, rfl⟩, hsize, hint64⟩
    exact ⟨hint64, hsize, hadmits, rfl⟩
  · rintro ⟨hint64, hsize, hadmits, rfl⟩
    exact ⟨⟨hadmits, rfl⟩, hsize, hint64⟩

theorem numel_le (layout : TensorLayout) : layout.numel ≤ sizeMax := layout.admits.count_le

variable {layout : TensorLayout} {target : Shape}

theorem reshaped_ok (hcontiguous : layout.isContiguous = true) {result : TensorLayout} :
    layout.reshaped target = .ok result ↔
      ∃ s, resolveReshapeShape target layout.numel = .ok s ∧ ofShape s = .ok result := by
  unfold reshaped
  rw [hcontiguous]
  exact check_ok.trans ((and_iff_right rfl).trans bind_ok)

/-- The product that the loop computes fits, the dimensions next to `-1` are not zero, and
an extent makes the layout. -/
theorem reshaped_iff (hcontiguous : layout.isContiguous = true) (hentries : ∀ d ∈ target, -1 ≤ d)
    (honce : List.count (-1) target ≤ 1) {result : TensorLayout} :
    layout.reshaped target = .ok result ↔
      Counted target ∧ (-1 ∈ target → 0 ∉ target) ∧
        ∃ extent, Fills layout.numel target extent result := by
  rw [reshaped_ok hcontiguous]
  by_cases hinferred : -1 ∈ target
  · obtain ⟨front, back, rfl, hnonneg⟩ := split_once hentries honce hinferred
    have hzeros : 0 < Shape.count (front ++ back) ↔ (0 : Int) ∉ front ++ -1 :: back := by
      rw [List.mem_append, List.mem_cons, or_iff_right (by decide : (0 : Int) ≠ -1),
        ← List.mem_append]
      refine ⟨fun hpositive hzero => ?_, fun hnonzero => count_pos fun d hmem => ?_⟩
      · rw [count_eq_zero hzero] at hpositive
        exact Nat.lt_irrefl 0 hpositive
      · exact lt_of_le_of_ne (hnonneg d hmem) fun hzero => hnonzero (hzero ▸ hmem)
    constructor
    · rintro ⟨s, hresolved, hbuilt⟩
      obtain ⟨hcounted, hpositive, extent, hsize, hint64, rfl⟩ :=
        (resolve_inferred hnonneg layout.numel_le).1 hresolved
      refine ⟨hcounted, fun _ => hzeros.1 hpositive, extent, ?_⟩
      obtain ⟨hadmits, rfl⟩ := ofShape_ok.1 hbuilt
      refine ⟨by rw [complete_split hnonneg, hbuilt], ?_, hint64⟩
      rw [← hsize]
      exact count_insert front back extent
    · rintro ⟨hcounted, hnonzero, extent, hbuilt, hsize, hint64⟩
      rw [complete_split hnonneg] at hbuilt
      refine ⟨_, (resolve_inferred hnonneg layout.numel_le).2
        ⟨hcounted, hzeros.2 (hnonzero hinferred), extent, ?_, hint64, rfl⟩, hbuilt⟩
      obtain ⟨hadmits, rfl⟩ := ofShape_ok.1 hbuilt
      rw [← hsize]
      exact (count_insert front back extent).symm
  · have hnonneg := nonneg_of_known hentries hinferred
    constructor
    · rintro ⟨s, hresolved, hbuilt⟩
      obtain ⟨hcounted, hsize, rfl⟩ := (resolve_known hnonneg).1 hresolved
      refine ⟨hcounted, fun hmem => absurd hmem hinferred, 0, ?_⟩
      obtain ⟨hadmits, rfl⟩ := ofShape_ok.1 hbuilt
      exact ⟨by rw [complete_of_nonneg hnonneg, hbuilt], hsize, Nat.zero_le _⟩
    · rintro ⟨hcounted, -, extent, hbuilt, hsize, -⟩
      rw [complete_of_nonneg hnonneg] at hbuilt
      refine ⟨target, (resolve_known hnonneg).2 ⟨hcounted, ?_, rfl⟩, hbuilt⟩
      obtain ⟨hadmits, rfl⟩ := ofShape_ok.1 hbuilt
      exact hsize

/-- A target without zeros, with an extent for `-1` that is not zero, is counted to the end. -/
theorem counted_of_pos (hentries : ∀ d ∈ target, -1 ≤ d) (extent : Nat)
    (hpositive : 0 < Shape.count (complete extent target))
    (hsmall : Shape.count (complete extent target) ≤ sizeMax) : Counted target := by
  -- by induction on the target, the extent only adds a positive factor
  have hbound : Shape.count ((known target).takeWhile (· ≠ 0)) ≤
    Shape.count (complete extent target) := by
    clear hsmall
    induction target with
    | nil => exact Nat.le_refl _
    | cons d target ih =>
      have hsplit : Shape.count (complete extent (d :: target)) =
        (if d = -1 then (extent : Int) else d).toNat * Shape.count (complete extent target) := rfl
      rw [hsplit] at hpositive ⊢
      have hrest := ih (List.forall_mem_cons.1 hentries).2 (Nat.pos_of_mul_pos_left hpositive)
      have hfactor := Nat.pos_of_mul_pos_right hpositive
      by_cases hinferred : d = -1
      · rw [known, List.filter_cons_of_neg (by simpa using hinferred)]
        exact Nat.le_trans hrest (Nat.le_mul_of_pos_left _ hfactor)
      · rw [if_neg hinferred] at hfactor ⊢
        rw [known, List.filter_cons_of_pos (by simpa using hinferred),
          List.takeWhile_cons_of_pos (p := fun x => decide (x ≠ 0)) (decide_eq_true (by omega)),
          Shape.count_cons]
        exact Nat.mul_le_mul_left _ hrest
  exact Nat.le_trans hbound hsmall

/-- Only one extent gives the elements. -/
theorem extent_unique (hentries : ∀ d ∈ target, -1 ≤ d) (honce : List.count (-1) target ≤ 1)
    (hinferred : -1 ∈ target) (hnonzero : 0 ∉ target) {n e e' : Nat}
    (hleft : Shape.count (complete e target) = n) (hright : Shape.count (complete e' target) = n) :
    e' = e := by
  obtain ⟨front, back, rfl, hnonneg⟩ := split_once hentries honce hinferred
  rw [complete_split hnonneg, count_insert] at hleft hright
  refine Nat.eq_of_mul_eq_mul_left (count_pos fun d hmem => ?_) (hright.trans hleft.symm)
  refine lt_of_le_of_ne (hnonneg d hmem) fun hzero => hnonzero ?_
  subst hzero
  rcases List.mem_append.1 hmem with hthere | hthere
  · exact List.mem_append_left _ hthere
  · exact List.mem_append_right _ (List.mem_cons_of_mem _ hthere)

/-- The strides of a layout with elements fit where its number of elements does. -/
theorem stridesFit_of_prod {dims : List Nat} (hpositive : 0 < dims.prod)
    (hsmall : dims.prod ≤ int64Max) :
    StridesFit dims := by
  induction dims with
  | nil => trivial
  | cons d dims ih =>
    rw [List.prod_cons] at hpositive hsmall
    have hinner : dims.prod ≤ int64Max :=
      Nat.le_trans (Nat.le_mul_of_pos_left _ (Nat.pos_of_mul_pos_right hpositive)) hsmall
    exact ⟨hinner, ih (Nat.pos_of_mul_pos_left hpositive) hinner⟩

theorem count_perm {s s' : Shape} (hperm : s.Perm s') : Shape.count s = Shape.count s' :=
  (hperm.map Int.toNat).prod_eq

/-- The shapes with some elements, not too many, have layouts in every order. -/
theorem admits_perm {s s' : Shape} (hperm : s'.Perm s) (hadmits : Admits s)
    (hpositive : 0 < Shape.count s) (hsmall : Shape.count s ≤ int64Max) : Admits s' := by
  rw [← count_perm hperm] at hpositive hsmall
  exact ⟨fun d hmem => hadmits.nonneg d (hperm.subset hmem), count_perm hperm ▸ hadmits.count_le,
    stridesFit_of_prod hpositive hsmall⟩

/-- A reshape in another order of the target, where its completed shape has a layout. -/
theorem reshaped_perm (hcontiguous : layout.isContiguous = true) (hentries : ∀ d ∈ target, -1 ≤ d)
    (honce : List.count (-1) target ≤ 1) {other : Shape} (hperm : other.Perm target)
    (hcounted : layout.numel = 0 → Counted other) {result : TensorLayout}
    (h : layout.reshaped target = .ok result) {extent : Nat}
    (hshape : result.shape = complete extent target) (hadmits : Admits (complete extent other)) :
    ∃ result', layout.reshaped other = .ok result' ∧ result'.shape = complete extent other := by
  have hentries' : ∀ d ∈ other, -1 ≤ d := fun d hmem => hentries d (hperm.subset hmem)
  have hperm' : (complete extent other).Perm (complete extent target) := hperm.map _
  obtain ⟨-, hnonzero, extent', hfilled⟩ := (reshaped_iff hcontiguous hentries honce).1 h
  obtain ⟨hint64', hsize, hadmits', rfl⟩ := fills_iff.1 hfilled
  have hshape : complete extent' target = complete extent target := hshape
  have hsize' : Shape.count (complete extent other) = layout.numel := by
    rw [count_perm hperm', ← hshape, hsize]
  refine ⟨.contiguous _ hadmits, (reshaped_iff hcontiguous hentries' (by rwa [hperm.count_eq])).2
    ⟨?_, fun hmem hzero => hnonzero (hperm.subset hmem) (hperm.subset hzero), ?_⟩, rfl⟩
  · rcases Nat.eq_zero_or_pos layout.numel with hempty | hpositive
    · exact hcounted hempty
    · refine counted_of_pos hentries' extent ?_ ?_
      · rwa [hsize']
      · rw [hsize']
        exact layout.numel_le
  · by_cases hinferred : -1 ∈ target
    · have hsame : extent = extent' :=
        extent_unique hentries honce hinferred (hnonzero hinferred) hsize
        (by rw [← hshape, hsize])
      exact ⟨extent, fills_iff.2 ⟨hsame ▸ hint64', hsize', hadmits, rfl⟩⟩
    · have hnonneg := nonneg_of_known hentries' fun hmem => hinferred (hperm.subset hmem)
      refine ⟨0, fills_iff.2 ⟨Nat.zero_le _, ?_⟩⟩
      rw [complete_of_nonneg hnonneg] at hsize' hadmits ⊢
      simp only [complete_of_nonneg hnonneg]
      exact ⟨hsize', hadmits, trivial⟩

/-- `reshaped` of a contiguous layout accepts a target only if it has a layout with as
many elements, with the only extent for `-1` that gives it one and no zero beside; it
accepts these targets, but for a layout without elements and a product before the first
zero that overflows; and the order of the target matters at most to what layouts there
are, and not at all between one and `int64Max` elements. -/
theorem reshape_exact (layout : TensorLayout) (hcontiguous : layout.isContiguous = true)
    (target : Shape) (hentries : ∀ d ∈ target, -1 ≤ d) (honce : List.count (-1) target ≤ 1) :
    (∀ result, layout.reshaped target = .ok result →
      (-1 ∉ target → ofShape target = .ok result ∧ result.numel = layout.numel) ∧
      (-1 ∈ target → 0 ∉ target ∧ ∃ extent, Fills layout.numel target extent result ∧
        ∀ extent' result', Fills layout.numel target extent' result' → extent' = extent)) ∧
    ((layout.numel = 0 → Counted target) → ∀ result,
      (-1 ∉ target → ofShape target = .ok result → result.numel = layout.numel →
        layout.reshaped target = .ok result) ∧
      (-1 ∈ target → 0 ∉ target → ∀ extent, Fills layout.numel target extent result →
        layout.reshaped target = .ok result)) ∧
    ∀ other : Shape, other.Perm target →
      (0 < layout.numel → layout.numel ≤ int64Max →
        ((∃ result, layout.reshaped target = .ok result) ↔
          ∃ result, layout.reshaped other = .ok result)) ∧
      ((layout.numel = 0 → Counted other) → ∀ result extent, layout.reshaped target = .ok result →
        result.shape = complete extent target → Admits (complete extent other) →
          ∃ result', layout.reshaped other = .ok result' ∧
            result'.shape = complete extent other) := by
  refine ⟨fun result h => ?_, fun hcounted result => ?_, fun other hperm =>
    ⟨fun hpositive hsmall => ?_, ?_⟩⟩
  -- a reshape that returns has the target filled in, in one way
  · obtain ⟨-, hnonzero, extent, hfilled⟩ := (reshaped_iff hcontiguous hentries honce).1 h
    refine ⟨fun hnone => ?_, fun hinferred => ⟨hnonzero hinferred, extent, hfilled, ?_⟩⟩
    · obtain ⟨hbuilt, hsize, -⟩ := hfilled
      rw [complete_of_nonneg (nonneg_of_known hentries hnone)] at hbuilt
      exact ⟨hbuilt, hsize⟩
    · intro extent' result' hfilled'
      obtain ⟨-, hsize, -⟩ := fills_iff.1 hfilled
      obtain ⟨-, hsize', -⟩ := fills_iff.1 hfilled'
      exact extent_unique hentries honce hinferred (hnonzero hinferred) hsize hsize'
  -- a target that fills is accepted
  · have hfill (extent : Nat) (hnonzero : -1 ∈ target → 0 ∉ target)
        (hfilled : Fills layout.numel target extent result) :
          layout.reshaped target = .ok result := by
      refine (reshaped_iff hcontiguous hentries honce).2 ⟨?_, hnonzero, extent, hfilled⟩
      obtain ⟨-, hsize, -⟩ := fills_iff.1 hfilled
      rcases Nat.eq_zero_or_pos layout.numel with hempty | hpositive
      · exact hcounted hempty
      · exact counted_of_pos hentries extent (by rwa [hsize]) (by rw [hsize]; exact layout.numel_le)
    refine ⟨fun hnone hbuilt hsize => hfill 0 (fun hmem => absurd hmem hnone) ?_,
      fun _ hnonzero extent hfilled => hfill extent (fun _ => hnonzero) hfilled⟩
    exact ⟨by rw [complete_of_nonneg (nonneg_of_known hentries hnone), hbuilt], hsize,
      Nat.zero_le _⟩
  -- the order of the axes does not matter
  · have hswap {s s' : Shape} (hentries : ∀ d ∈ s, -1 ≤ d) (honce : List.count (-1) s ≤ 1)
      (hperm : s'.Perm s) :
        (∃ result, layout.reshaped s = .ok result) → ∃ result, layout.reshaped s' = .ok result := by
      rintro ⟨result, h⟩
      obtain ⟨-, -, extent, hfilled⟩ := (reshaped_iff hcontiguous hentries honce).1 h
      obtain ⟨-, hsize, hadmits, rfl⟩ := fills_iff.1 hfilled
      rw [← hsize] at hpositive hsmall
      obtain ⟨result', h', -⟩ := reshaped_perm hcontiguous hentries honce hperm
        (fun hempty => absurd (hsize.trans hempty) (Nat.ne_of_gt hpositive)) h rfl
        (admits_perm (hperm.map _) hadmits hpositive hsmall)
      exact ⟨result', h'⟩
    exact ⟨hswap hentries honce hperm,
      hswap (fun d hmem => hentries d (hperm.subset hmem)) (by rwa [hperm.count_eq]) hperm.symm⟩
  · intro hcounted result extent h hshape hadmits
    exact reshaped_perm hcontiguous hentries honce hperm hcounted h hshape hadmits

/-- A 2 by 3 matrix reshaped to three rows of an inferred extent. -/
theorem reshape_exact_matrix :
    (contiguous [2, 3] (by decide)).reshaped [3, -1] = .ok (contiguous [3, 2] (by decide)) :=
  ((reshape_exact (contiguous [2, 3] (by decide)) (by decide) [3, -1] (by decide) (by decide)).2.1
    (fun hempty => absurd hempty (by decide)) _).2 (by decide) (by decide) 2
    (fills_iff.2 ⟨by decide, by decide, by decide, rfl⟩)

/-- Not every reshape that exists is accepted, and the order of the target matters: with
`2 ^ 63` elements to the strides of the layout, without elements to them and to the
overflow of the product; and a zero beside `-1` is refused where only one extent has a
layout. -/
theorem reshape_order_matters :
    ((∃ result, (contiguous [2, 2 ^ 62] (by decide)).reshaped [2 ^ 62, 2, 1] = .ok result) ∧
      ¬ ∃ result, (contiguous [2, 2 ^ 62] (by decide)).reshaped [1, 2 ^ 62, 2] = .ok result) ∧
    ((∃ result, (contiguous [0] (by decide)).reshaped [2 ^ 40, 0, 2 ^ 40] = .ok result) ∧
      (∃ result, ofShape [2 ^ 40, 2 ^ 40, 0] = .ok result ∧ result.numel = 0) ∧
      ¬ ∃ result, (contiguous [0] (by decide)).reshaped [2 ^ 40, 2 ^ 40, 0] = .ok result) ∧
    (∃ result, Fills 0 [0, 2 ^ 40, -1, 2 ^ 40] 0 result) ∧
      (∀ extent result, Fills 0 [0, 2 ^ 40, -1, 2 ^ 40] extent result → extent = 0) ∧
      ¬ ∃ result, (contiguous [0] (by decide)).reshaped [0, 2 ^ 40, -1, 2 ^ 40] = .ok result := by
  refine ⟨⟨⟨_, (reshaped_iff (by decide) (by decide) (by decide)).2
    ⟨by decide, by decide, 0, fills_iff.2
      ⟨by decide, by decide, by decide, rfl⟩⟩⟩, ?_⟩,
    ⟨⟨_, (reshaped_iff (by decide) (by decide) (by decide)).2 ⟨by decide, by decide, 0, fills_iff.2
      ⟨by decide, by decide, by decide, rfl⟩⟩⟩, ⟨_, ofShape_ok.2 ⟨by decide, rfl⟩, by decide⟩, ?_⟩,
    ⟨_, fills_iff.2 ⟨by decide, by decide, by decide, rfl⟩⟩, ?_, ?_⟩
  · rintro ⟨result, h⟩
    obtain ⟨-, -, extent, hfilled⟩ := (reshaped_iff (by decide) (by decide) (by decide)).1 h
    obtain ⟨-, -, hadmits, -⟩ := fills_iff.1 hfilled
    rw [complete_of_nonneg (by decide)] at hadmits
    exact absurd hadmits (by decide)
  · rintro ⟨result, h⟩
    exact absurd ((reshaped_iff (by decide) (by decide) (by decide)).1 h).1 (by decide)
  · intro extent result hfilled
    obtain ⟨-, -, hadmits, -⟩ := fills_iff.1 hfilled
    have hfits := hadmits.fits
    rw [show complete extent [0, 2 ^ 40, -1, 2 ^ 40] = [0, 2 ^ 40, (extent : Int), 2 ^ 40] from
      complete_split (by decide : ∀ d ∈ [0, 2 ^ 40] ++ [2 ^ 40], (0 : Int) ≤ d) extent] at hfits
    have hbound : Shape.count [2 ^ 40, (extent : Int), 2 ^ 40] ≤ int64Max := hfits.1
    rw [Shape.count_cons, Shape.count_cons, Int.toNat_natCast] at hbound
    by_contra hother
    have hlarge := Nat.le_trans (Nat.mul_le_mul_left _
      (Nat.mul_le_mul_right _ (Nat.one_le_iff_ne_zero.2 hother))) hbound
    exact absurd hlarge (by decide)
  · rintro ⟨result, h⟩
    exact absurd (((reshaped_iff (by decide) (by decide) (by decide)).1 h).2.1 (by decide))
      (by decide)

end TinyInfer.TensorLayout
