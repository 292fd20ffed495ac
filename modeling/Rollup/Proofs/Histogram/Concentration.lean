import Rollup.Proofs.Histogram.Intake

/-!
# Average selectivity without rounding

The formula of the average selectivity, read in rationals (`exactAverage`), is the sum of the squares of the shares that
the buckets have, over the width of a bucket that is at least one. Shares add up to one. The sum of their squares is
least where they are spread evenly (`sum_sq_sub`) and greatest where one bucket has all (`sum_sq_eq_one_iff`).

- `one_le_card_mul_sum_sq`: among few shares the sum of the squares is large;
- `Tallies.card_occupied_le`: no more buckets are occupied than the range has integers, whichever bucket each of them
  falls into;
- `averageSelectivity_between`: so the average lies between the one for an even spread and the one for a single bucket,
  and tells these two from all else.
-/

namespace Rollup

/-! ## Sums of squares -/

section Shares

variable {ι : Type} [Fintype ι] {p : ι → ℚ}

/-- Cauchy-Schwarz for shares of which some are zero. -/
theorem one_le_card_mul_sum_sq {s : Finset ι} (hsum : ∑ i, p i = 1) (hs : ∀ i, i ∉ s → p i = 0) :
    1 ≤ s.card * ∑ i, p i ^ 2 := by
  have hpart : ∑ i ∈ s, p i = 1 :=
    (Finset.sum_subset (Finset.subset_univ s) fun i _ hi => hs i hi).trans hsum
  have hsquares : ∑ i ∈ s, p i ^ 2 = ∑ i, p i ^ 2 :=
    Finset.sum_subset (Finset.subset_univ s) fun i _ hi => by rw [hs i hi, zero_pow two_ne_zero]
  have hcauchy := sq_sum_le_card_mul_sum_sq (s := s) (f := p)
  rwa [hpart, one_pow, hsquares] at hcauchy

/-- What the squares of the distances from an even share add up to. -/
theorem sum_sq_sub (hsum : ∑ i, p i = 1) (hcard : (Fintype.card ι : ℚ) ≠ 0) :
    ∑ i, (p i - 1 / Fintype.card ι) ^ 2 = ∑ i, p i ^ 2 - 1 / Fintype.card ι := by
  simp only [sub_sq, Finset.sum_add_distrib, Finset.sum_sub_distrib, ← Finset.sum_mul, ← Finset.mul_sum, hsum,
    Finset.sum_const, Finset.card_univ, nsmul_eq_mul]
  field_simp
  ring

/-- The sum of the squares is least where all have an even share. -/
theorem sum_sq_eq_iff (hsum : ∑ i, p i = 1) (hcard : (Fintype.card ι : ℚ) ≠ 0) :
    ∑ i, p i ^ 2 = 1 / Fintype.card ι ↔ ∀ i j, p i = p j := by
  have heven : (∀ i, p i = 1 / Fintype.card ι) ↔ ∀ i j, p i = p j := by
    refine ⟨fun h i j => (h i).trans (h j).symm, fun h i => ?_⟩
    rw [Finset.sum_congr rfl fun j _ => h j i, Finset.sum_const, Finset.card_univ, nsmul_eq_mul] at hsum
    rw [eq_div_iff hcard, mul_comm, hsum]
  rw [← heven, ← sub_eq_zero, ← sum_sq_sub hsum hcard, Finset.sum_eq_zero_iff_of_nonneg fun i _ => sq_nonneg _]
  simp [sub_eq_zero]

section Nonneg

variable (h0 : ∀ i, 0 ≤ p i) (hsum : ∑ i, p i = 1)

include h0 hsum

theorem share_le_one (i : ι) : p i ≤ 1 :=
  hsum ▸ Finset.single_le_sum (fun j _ => h0 j) (Finset.mem_univ i)

theorem sum_sq_le_one : ∑ i, p i ^ 2 ≤ 1 := by
  rw [← hsum]
  exact Finset.sum_le_sum fun i _ => pow_le_of_le_one (h0 i) (share_le_one h0 hsum i) two_ne_zero

/-- The sum of the squares is greatest where one has all. -/
theorem sum_sq_eq_one_iff : ∑ i, p i ^ 2 = 1 ↔ ∃ i, p i = 1 := by
  constructor
  · intro hsq
    -- no share can be more than its square
    have hrest : ∑ i, (p i - p i ^ 2) = 0 := by rw [Finset.sum_sub_distrib, hsum, hsq, sub_self]
    rw [Finset.sum_eq_zero_iff_of_nonneg fun i _ =>
      sub_nonneg.mpr (pow_le_of_le_one (h0 i) (share_le_one h0 hsum i) two_ne_zero)] at hrest
    obtain ⟨i, -, hi⟩ := Finset.exists_ne_zero_of_sum_ne_zero (hsum.trans_ne one_ne_zero)
    have hzero := hrest i (Finset.mem_univ i)
    rw [sq, ← mul_one_sub, mul_eq_zero, sub_eq_zero] at hzero
    exact ⟨i, (hzero.resolve_left hi).symm⟩
  · rintro ⟨i, hi⟩
    refine le_antisymm (sum_sq_le_one h0 hsum) ?_
    calc 1 = p i ^ 2 := by rw [hi, one_pow]
      _ ≤ ∑ i, p i ^ 2 := Finset.single_le_sum (fun j _ => sq_nonneg (p j)) (Finset.mem_univ i)

end Nonneg

end Shares

theorem meanShare_eq (counts : List ℚ) (total width : ℚ) :
    meanShare counts total width = (counts.map fun c => (c / total) ^ 2).sum / max width 1 := by
  rw [meanShare, List.sum_eq_foldl, List.foldl_map]
  simp only [sq]

namespace Histogram

variable {h h₀ : Histogram} {values : List Int64}

/-! ## The formula -/

/-- The formula of the average selectivity, with the numbers that stand for counts and the width of a bucket. -/
def averageOf {K : Type} [Zero K] [One K] [Add K] [Mul K] [Div K] [Max K] (h : Histogram) (number : ℕ → K)
    (width : K) : K :=
  if h.observations = 0 then 0 else meanShare (h.counts.toList.map number) (number h.observations) width

theorem averageSelectivity_eq (h : Histogram) : h.averageSelectivity = h.averageOf .ofNat h.width := rfl

/-- The width of a bucket, not rounded. -/
def exactWidth (h : Histogram) : ℚ :=
  h.span / h.counts.size

/-- The average selectivity, without any rounding. -/
def exactAverage (h : Histogram) : ℚ :=
  h.averageOf (fun n => n) h.exactWidth

/-- The share of the observations that a bucket has. -/
def portion (h : Histogram) (i : Fin h.counts.size) : ℚ :=
  h.counts.toList.get i / h.observations

theorem exactAverage_of_empty (h0 : h.observations = 0) : h.exactAverage = 0 :=
  if_pos h0

theorem exactAverage_eq (h0 : h.observations ≠ 0) :
    h.exactAverage = (∑ i, h.portion i ^ 2) / max h.exactWidth 1 := by
  rw [exactAverage, averageOf, if_neg h0, meanShare_eq, List.map_map]
  exact congrArg (· / _) (Fin.sum_univ_fun_getElem h.counts.toList fun c => ((c : ℚ) / h.observations) ^ 2).symm

theorem portion_nonneg (h : Histogram) (i : Fin h.counts.size) : 0 ≤ h.portion i := by
  unfold portion
  positivity

/-- The shares of two buckets are equal exactly if their counts are. -/
theorem portion_eq_iff (h0 : h.observations ≠ 0) {i j : ℕ} (hi : i < h.counts.size) (hj : j < h.counts.size) :
    h.portion ⟨i, hi⟩ = h.portion ⟨j, hj⟩ ↔ h.counts[i] = h.counts[j] := by
  have h0 : (h.observations : ℚ) ≠ 0 := by exact_mod_cast h0
  rw [portion, portion, div_left_inj' h0, Nat.cast_inj]
  rfl

theorem exactWidth_pos (h : Histogram) : 0 < h.exactWidth := by
  have hspan : (0 : ℚ) < h.span := by exact_mod_cast h.one_le_span
  have hsize : (0 : ℚ) < h.counts.size := by exact_mod_cast h.counts_pos
  exact div_pos hspan hsize

/-! ## What has been counted -/

namespace Tallies

variable (ht : h.Tallies values)

include ht

theorem sum_portion (h0 : h.observations ≠ 0) : ∑ i, h.portion i = 1 := by
  have h0 : (h.observations : ℚ) ≠ 0 := by exact_mod_cast h0
  have hcounts : ∑ i : Fin h.counts.size, (h.counts.toList.get i : ℚ) = h.observations := by
    rw [← ht.sum_counts, Nat.cast_list_sum]
    exact Fin.sum_univ_fun_getElem h.counts.toList fun c => (c : ℚ)
  simp only [portion]
  rw [← Finset.sum_div, hcounts, div_self h0]

theorem get_counts (i : Fin h.counts.size) :
    h.counts.toList.get i = values.countP fun v => (h.bucketOf v : ℕ) = i :=
  ht.counts i i.isLt

/-- A bucket that is not empty is the bucket of an integer that was counted. -/
theorem exists_of_portion_ne_zero {i : Fin h.counts.size} (hi : h.portion i ≠ 0) :
    ∃ v ∈ values, h.bucketOf v = i := by
  have hcount : h.counts.toList.get i ≠ 0 := fun h0 => hi (by rw [portion, h0, Nat.cast_zero, zero_div])
  have hpos := Nat.pos_of_ne_zero hcount
  rw [ht.get_counts, List.countP_pos_iff] at hpos
  obtain ⟨v, hv, hbucket⟩ := hpos
  exact ⟨v, hv, Fin.ext (of_decide_eq_true hbucket)⟩

/-- The integers that were counted are some of those in the range. -/
theorem card_toFinset_le : (values.toFinset.card : ℤ) ≤ h.span := by
  have hsub : values.toFinset.image Int64.toInt ⊆ Finset.Icc h.lower.toInt h.upper.toInt := by
    intro n hn
    obtain ⟨v, hv, rfl⟩ := Finset.mem_image.mp hn
    obtain ⟨hlower, hupper⟩ := ht.covers v (List.mem_toFinset.mp hv)
    exact Finset.mem_Icc.mpr ⟨Int64.le_iff_toInt_le.mp hlower, Int64.le_iff_toInt_le.mp hupper⟩
  have hcard := Finset.card_le_card hsub
  rw [Finset.card_image_of_injective _ fun _ _ => Int64.toInt_inj.mp, Int.card_Icc] at hcard
  have hspan := h.one_le_span
  unfold span at *
  omega

/-- Not more buckets are occupied than the range has integers. -/
theorem card_occupied_le : ((values.toFinset.image h.bucketOf).card : ℤ) ≤ h.span :=
  (Int.ofNat_le.mpr Finset.card_image_le).trans ht.card_toFinset_le

/-- A bucket has all of the observations exactly if all that was counted fell into it. -/
theorem portion_eq_one_iff (h0 : h.observations ≠ 0) (i : Fin h.counts.size) :
    h.portion i = 1 ↔ ∀ v ∈ values, h.bucketOf v = i := by
  have h0 : (h.observations : ℚ) ≠ 0 := by exact_mod_cast h0
  rw [portion, div_eq_one_iff_eq h0, Nat.cast_inj, ht.observations, ht.get_counts, List.countP_eq_length]
  simp only [decide_eq_true_eq, Fin.ext_iff]

section Observed

variable (h0 : h.observations ≠ 0)

include h0

/-- The shares of the buckets are no less concentrated than an even spread over the buckets, or over the integers of the
range where these are fewer. -/
theorem max_width_le : max h.exactWidth 1 * (1 / h.span) ≤ ∑ i, h.portion i ^ 2 := by
  have hspan : (0 : ℚ) < h.span := by exact_mod_cast h.one_le_span
  have hsize : (0 : ℚ) < h.counts.size := by exact_mod_cast h.counts_pos
  have hsum := ht.sum_portion h0
  rcases le_total h.exactWidth 1 with hnarrow | hwide
  · have hcauchy := one_le_card_mul_sum_sq (s := values.toFinset.image h.bucketOf) hsum fun i hi => by
      by_contra hne
      obtain ⟨v, hv, rfl⟩ := ht.exists_of_portion_ne_zero hne
      exact hi (Finset.mem_image_of_mem _ (List.mem_toFinset.mpr hv))
    have hcard : ((values.toFinset.image h.bucketOf).card : ℚ) ≤ h.span := by exact_mod_cast ht.card_occupied_le
    rw [max_eq_right hnarrow, one_mul, div_le_iff₀' hspan]
    exact hcauchy.trans (mul_le_mul_of_nonneg_right hcard (Finset.sum_nonneg fun i _ => sq_nonneg _))
  · have hcauchy := one_le_card_mul_sum_sq (s := Finset.univ) hsum fun i hi => absurd (Finset.mem_univ i) hi
    rw [Finset.card_univ, Fintype.card_fin, ← div_le_iff₀' hsize] at hcauchy
    rw [max_eq_left hwide, exactWidth, div_mul_div_comm, mul_one, mul_comm, ← div_div, div_self hspan.ne']
    exact hcauchy

theorem le_exactAverage : 1 / h.span ≤ h.exactAverage := by
  rw [exactAverage_eq h0, le_div_iff₀' (lt_max_of_lt_right one_pos)]
  exact ht.max_width_le h0

theorem exactAverage_le : h.exactAverage ≤ 1 / max h.exactWidth 1 := by
  rw [exactAverage_eq h0]
  exact div_le_div_of_nonneg_right (sum_sq_le_one h.portion_nonneg (ht.sum_portion h0))
    (lt_max_of_lt_right one_pos).le

/-- Where buckets are not narrower than one, the average is least for equal counts. -/
theorem exactAverage_eq_least_iff (hwide : 1 ≤ h.exactWidth) :
    h.exactAverage = 1 / h.span ↔
      ∀ (i : ℕ) (hi : i < h.counts.size) (j : ℕ) (hj : j < h.counts.size), h.counts[i] = h.counts[j] := by
  have hspan : (h.span : ℚ) ≠ 0 := by
    have hone := h.one_le_span
    exact_mod_cast (by omega : h.span ≠ 0)
  have hsize : ((Fintype.card (Fin h.counts.size) : ℕ) : ℚ) ≠ 0 := by
    rw [Fintype.card_fin]
    exact_mod_cast h.counts_pos.ne'
  have heven : h.exactWidth * (1 / h.span) = 1 / (Fintype.card (Fin h.counts.size) : ℕ) := by
    rw [exactWidth, Fintype.card_fin, div_mul_div_comm, mul_one, mul_comm, ← div_div, div_self hspan]
  simp only [← portion_eq_iff h0]
  rw [exactAverage_eq h0, max_eq_left hwide, div_eq_iff h.exactWidth_pos.ne', mul_comm, heven,
    sum_sq_eq_iff (ht.sum_portion h0) hsize]
  exact ⟨fun h i hi j hj => h ⟨i, hi⟩ ⟨j, hj⟩, fun h i j => h i i.isLt j j.isLt⟩

/-- The average is greatest for a single bucket. -/
theorem exactAverage_eq_greatest_iff :
    h.exactAverage = 1 / max h.exactWidth 1 ↔ ∃ i, ∀ v ∈ values, h.bucketOf v = i := by
  have hmax : max h.exactWidth 1 ≠ 0 := (lt_max_of_lt_right one_pos).ne'
  simp only [← ht.portion_eq_one_iff h0]
  rw [← sum_sq_eq_one_iff h.portion_nonneg (ht.sum_portion h0), exactAverage_eq h0, div_left_inj' hmax]

end Observed

end Tallies

/-- **The average lies between the even spread and the single bucket.** After any run that has counted something, the
average selectivity, not rounded, is at least that of a constant drawn evenly from the range and at most that of one
bucket with all the observations. Where buckets are not narrower than one, it is the least exactly for equal counts; it
is the greatest exactly if all that was counted fell into one bucket. Nothing counted gives zero. -/
theorem averageSelectivity_between {buckets : ℕ} {lower upper : Int64} {calls : List Intake}
    (hnew : ofBounds buckets lower upper = .ok h₀) (hrun : h₀.takeAll calls = h) :
    (h.span = upper.toInt - lower.toInt + 1 ∧ h.exactWidth = h.span / buckets ∧
      h.averageSelectivity = h.averageOf .ofNat h.width) ∧
    (1 ≤ h.observations →
      1 / h.span ≤ h.exactAverage ∧ h.exactAverage ≤ 1 / max h.exactWidth 1 ∧
      (1 ≤ h.exactWidth → (h.exactAverage = 1 / h.span ↔
        ∀ (i : ℕ) (hi : i < h.counts.size) (j : ℕ) (hj : j < h.counts.size), h.counts[i] = h.counts[j])) ∧
      (h.exactAverage = 1 / max h.exactWidth 1 ↔ ∃ i, ∀ v ∈ h₀.acceptedOf calls, h.bucketOf v = i)) ∧
    (h.observations = 0 → h.averageSelectivity = 0 ∧ h.exactAverage = 0) := by
  have ht := tallies_takeAll hnew hrun
  obtain ⟨rfl, rfl, rfl⟩ := shape_takeAll hnew hrun
  refine ⟨⟨rfl, rfl, h.averageSelectivity_eq⟩, fun hone => ?_, fun hzero => ⟨if_pos hzero, exactAverage_of_empty hzero⟩⟩
  have h0 : h.observations ≠ 0 := Nat.one_le_iff_ne_zero.mp hone
  exact ⟨ht.le_exactAverage h0, ht.exactAverage_le h0, ht.exactAverage_eq_least_iff h0,
    ht.exactAverage_eq_greatest_iff h0⟩

/-- Two integers in each of two buckets that are three integers wide. -/
theorem averageSelectivity_between_even :
    ∃ h₀ h, ofBounds 2 0 5 = .ok h₀ ∧ h₀.takeAll [.several [0, 5, 4], .one 6, .one 1] = h ∧ 1 ≤ h.observations ∧
      1 ≤ h.exactWidth ∧ h.exactAverage = 1 / 6 ∧ h.exactAverage ≠ 1 / max h.exactWidth 1 := by
  obtain ⟨h₀, h, hnew, hrun, hobserved, hwide, heven, haccepted, htwo⟩ : ∃ h₀ h, ofBounds 2 0 5 = .ok h₀ ∧
      h₀.takeAll [.several [0, 5, 4], .one 6, .one 1] = h ∧ 1 ≤ h.observations ∧ 1 ≤ h.exactWidth ∧
      (∀ (i : ℕ) (hi : i < h.counts.size) (j : ℕ) (hj : j < h.counts.size), h.counts[i] = h.counts[j]) ∧
      h₀.acceptedOf [.several [0, 5, 4], .one 6, .one 1] = [0, 5, 4, 1] ∧ h.bucketOf 0 ≠ h.bucketOf 5 :=
    ⟨_, _, rfl, rfl, by decide +kernel, by decide +kernel, by decide +kernel, by decide +kernel, by decide +kernel⟩
  obtain ⟨⟨hspan, -, -⟩, hbetween, -⟩ := averageSelectivity_between hnew hrun
  obtain ⟨-, -, hleast, hgreatest⟩ := hbetween hobserved
  have hsix : h.span = 6 := hspan
  refine ⟨h₀, h, hnew, hrun, hobserved, hwide, ?_, fun heq => ?_⟩
  · rw [(hleast hwide).mpr heven, hsix]
    norm_num
  · obtain ⟨i, hall⟩ := hgreatest.mp heq
    rw [haccepted] at hall
    exact htwo ((hall 0 (by decide)).trans (hall 5 (by decide)).symm)

end Histogram

end Rollup
