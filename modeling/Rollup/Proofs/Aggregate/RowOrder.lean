import Rollup.Proofs.Aggregate.Distributive
import Rollup.Proofs.Aggregate.PartialAverage

/-!
# The order of rows

Rows in another order make up the same groups with the same reports, unless one of the orders fails: a sum on the way can
leave the range in one order and not in another. So if both orders are merged and read without a failure, then they give
the same row for every group, and only the order of the groups can differ (`results_eq_of_perm`).

Whether an order succeeds is a matter of the rows alone for minima, maxima and counts (`succeeds_perm`). For sums and the
averages over raw numbers every order succeeds if the absolute values of each group add up within the range
(`succeeds_of_absFit`). `results_perm` puts this together.
-/

namespace Rollup

open Exact

section Reordered

variable {xs ys : List Int}

theorem min?_perm (h : xs.Perm ys) : xs.min? = ys.min? := by
  refine Option.ext fun m => ?_
  simp only [List.min?_eq_some_iff, h.mem_iff]

theorem max?_perm (h : xs.Perm ys) : xs.max? = ys.max? := by
  refine Option.ext fun m => ?_
  simp only [List.max?_eq_some_iff, h.mem_iff]

end Reordered

variable {c : Config} {f : Aggregate} {rows rows' : List Row}

/-! ## Groups -/

namespace Config

/-- Reports on the same rows in two orders are the same, if there are both. -/
theorem report_perm {ns ns' : List Int} (hp : rows.Perm rows') (h : c.report rows = .ok ns)
    (h' : c.report rows' = .ok ns') : ns = ns' := by
  have hnum : (c.numbers rows).Perm (c.numbers rows') := hp.map _
  have hcnt : (c.counts rows).Perm (c.counts rows') := hp.map _
  unfold report at h h'
  split at h <;> rename_i hf <;> rw [hf] at h'
  case h_1 =>
    cases h
    cases h'
    rw [min?_perm hnum]
  case h_2 =>
    cases h
    cases h'
    rw [max?_perm hnum]
  case h_3 =>
    cases h
    cases h'
    rw [hnum.sum_eq]
  case h_4 =>
    cases h
    cases h'
    rw [hp.length_eq]
  case h_5 | h_6 =>
    dsimp only at h'
    split at h <;> cases h
    split at h' <;> cases h'
    rw [hnum.sum_eq, hp.length_eq]
  case h_7 =>
    dsimp only at h h'
    rw [← hnum.sum_eq, ← hcnt.sum_eq] at h'
    exact Except.ok.inj (h.symm.trans h')

/-- What is kept for a minimum, a maximum or a count does not depend on the order of the rows. -/
theorem KeptSums.perm (hf : c.aggregate = .min ∨ c.aggregate = .max ∨ c.aggregate = .count) (hp : rows.Perm rows')
    (h : c.KeptSums rows) : c.KeptSums rows' := by
  unfold KeptSums at h ⊢
  rcases hf with hf | hf | hf <;> rw [hf] at h ⊢
  · trivial
  · trivial
  · rwa [← hp.length_eq]

/-- Numbers whose absolute values add up within the range can be summed in any order. -/
theorem keptSums_of_abs (hf : c.aggregate = .sum ∨ c.aggregate.KeepsNumbers)
    (h : Fits ((c.numbers rows).map (|·|)).sum) : c.KeptSums rows := by
  unfold KeptSums
  rcases hf with hf | hf | hf <;> rw [hf]
  · exact sumsFit_of_abs le_rfl h
  · trivial
  · trivial

end Config

namespace Aggregator

open Config

variable {a b : Aggregator}

theorem AbsFit.perm (h : AbsFit c rows) (hp : rows.Perm rows') : AbsFit c rows' := by
  intro key
  have habs : ((c.numbers (rows.filter (c.keyOf · = key))).map (|·|)).Perm
      ((c.numbers (rows'.filter (c.keyOf · = key))).map (|·|)) := ((hp.filter _).map _).map _
  rw [← habs.sum_eq]
  exact h key

/-- If all absolute values add up within the range, then those of each group do. -/
theorem absFit_of_numbers (h : Fits ((c.numbers rows).map (|·|)).sum) : AbsFit c rows := by
  intro key
  have hsub : (c.numbers (rows.filter (c.keyOf · = key))).Sublist (c.numbers rows) := List.filter_sublist.map _
  have habs := sum_abs_le_of_sublist hsub
  have hnonneg := (abs_nonneg _).trans (abs_sum_le (c.numbers (rows.filter (c.keyOf · = key))))
  unfold Fits at *
  rw [Int64.toInt_minValue] at *
  omega

/-! ## Runs -/

/-- All rows are merged, and every group can be read then. -/
def Succeeds (a : Aggregator) (rows : List Row) : Prop :=
  (a.mergeAll rows).outcome = .ok () ∧ (a.mergeAll rows).state.Finalizes

theorem succeeds_iff_of_combiner (hf : c.aggregate.combiner? = some f) :
    (empty c).Succeeds rows ↔ ((empty c).mergeAll rows).outcome = .ok () := by
  refine ⟨And.left, fun hok => ⟨hok, ?_⟩⟩
  obtain ⟨ht, hconf⟩ := tabulates_mergeAll hok
  exact ht.finalizes_of_combiner (by rwa [hconf])

/-- Tables of the same rows in two orders read the same, if both can be read. -/
theorem results_eq_of_perm (ha : a.Tabulates rows) (hb : b.Tabulates rows') (hconf : a.config = b.config)
    (hfa : a.Finalizes) (hfb : b.Finalizes) (hp : rows.Perm rows') :
    a.results.Perm b.results ∧ ∀ key, a.read? key = b.read? key := by
  have hkeys : a.keys.Perm b.keys := by
    rw [ha.keys_eq, hb.keys_eq, hconf]
    exact eraseDups_perm (hp.map _)
  have hentries : ∀ key, a.outcome? key = b.outcome? key := by
    intro key
    refine ha.outcome?_eq hb hfa hfb hkeys.mem_iff fun ns ns' h h' => ?_
    rw [hconf] at h
    exact report_perm (hp.filter _) h h'
  refine ⟨?_, fun key => ?_⟩
  · rw [← List.map_perm_map_iff (Option.some_injective _), ha.consistent.results_eq_outcomes,
      hb.consistent.results_eq_outcomes, funext hentries]
    exact hkeys.map _
  · rw [ha.consistent.read?_eq, hb.consistent.read?_eq, hentries]

/-- Minima, maxima and counts succeed in every order or in none. -/
theorem succeeds_perm (hf : c.aggregate = .min ∨ c.aggregate = .max ∨ c.aggregate = .count) (hp : rows.Perm rows')
    (h : (empty c).Succeeds rows) : (empty c).Succeeds rows' := by
  obtain ⟨f, hcombiner⟩ : ∃ f, c.aggregate.combiner? = some f := by
    rcases hf with hf | hf | hf <;> exact ⟨_, congrArg Aggregate.combiner? hf⟩
  obtain ⟨hr, hkept⟩ := mergeAll_isOk_iff.mp h.1
  refine (succeeds_iff_of_combiner hcombiner).mpr (mergeAll_isOk_iff.mpr ⟨fun row hm => ?_, fun key => ?_⟩)
  · exact hr row (hp.mem_iff.mpr hm)
  · exact (hkept key).perm hf (hp.filter _)

/-- Sums and averages over raw numbers succeed if the absolute values of each group add up within the range. -/
theorem succeeds_of_absFit (hf : c.aggregate = .sum ∨ c.aggregate.KeepsNumbers)
    (hr : ∀ row ∈ rows, c.Readable row) (hlen : rows.length < 2 ^ 63) (habs : AbsFit c rows) : (empty c).Succeeds rows := by
  have hok : ((empty c).mergeAll rows).outcome = .ok () :=
    mergeAll_isOk_iff.mpr ⟨hr, fun key => keptSums_of_abs hf (habs key)⟩
  rcases hf with hf | hkeeps
  · exact (succeeds_iff_of_combiner (by rw [hf]; rfl)).mpr hok
  · exact ⟨hok, finalizes_of_absFit hok hkeeps (List.Sublist.refl rows) hlen habs⟩

/-- **The order of rows does not matter.** Two orders of the same rows that succeed give the same results up to the order
of the groups: one row for every group, whichever the order. Minima, maxima and counts succeed in one order if they do in
another. Sums and averages over raw numbers succeed in every order if the rows can be read, are fewer than `2 ^ 63`, and
the absolute values of each group add up to a 64-bit integer. -/
theorem results_perm {a : Aggregator} (hc : ofConfig c = .ok a) (hp : rows.Perm rows') :
    (a.Succeeds rows → a.Succeeds rows' →
      (a.mergeAll rows).state.results.Perm (a.mergeAll rows').state.results ∧
      ∀ key, (a.mergeAll rows).state.read? key = (a.mergeAll rows').state.read? key) ∧
    (c.aggregate ∈ [.min, .max, .count] → (a.Succeeds rows ↔ a.Succeeds rows')) ∧
    (c.aggregate ∈ [.sum, .average, .sumAndCount] → (∀ row ∈ rows, c.Readable row) → rows.length < 2 ^ 63 →
      AbsFit c rows → a.Succeeds rows') := by
  obtain rfl := eq_empty_of_ofConfig hc
  refine ⟨?_, ?_, ?_⟩
  · rintro ⟨hok, hfin⟩ ⟨hok', hfin'⟩
    obtain ⟨ht, hconf⟩ := tabulates_mergeAll hok
    obtain ⟨ht', hconf'⟩ := tabulates_mergeAll hok'
    exact results_eq_of_perm ht ht' (hconf.trans hconf'.symm) hfin hfin' hp
  · intro hf
    have hf : c.aggregate = .min ∨ c.aggregate = .max ∨ c.aggregate = .count := by simpa using hf
    exact ⟨succeeds_perm hf hp, succeeds_perm hf hp.symm⟩
  · intro hf hr hlen habs
    have hf : c.aggregate = .sum ∨ c.aggregate.KeepsNumbers := by simpa [Aggregate.KeepsNumbers] using hf
    refine succeeds_of_absFit hf (fun row hm => hr row (hp.mem_iff.mpr hm)) ?_ (habs.perm hp)
    rwa [← hp.length_eq]

/-- The averages of two groups, in an order in which the other group comes first. -/
theorem results_perm_average :
    let c : Config := ⟨some ⟨0, .text⟩, 1, .int, .average⟩
    let rows : List Row := [⟨[.text "b", .int 7]⟩, ⟨[.text "a", .int (-3)]⟩, ⟨[.text "a", .int 10]⟩]
    let rows' : List Row := [⟨[.text "a", .int 10]⟩, ⟨[.text "b", .int 7]⟩, ⟨[.text "a", .int (-3)]⟩]
    ofConfig c = .ok (empty c) ∧ rows.Perm rows' ∧ (∀ row ∈ rows, c.Readable row) ∧ AbsFit c rows ∧
      (empty c).Succeeds rows ∧ (empty c).Succeeds rows' ∧
      ((empty c).mergeAll rows).state.results = [.ok ⟨[.text "b", .int 7]⟩, .ok ⟨[.text "a", .int 3]⟩] ∧
      ((empty c).mergeAll rows).state.results.Perm ((empty c).mergeAll rows').state.results := by
  intro c rows rows'
  have hc : ofConfig c = .ok (empty c) := rfl
  have hp : rows.Perm rows' := by decide
  have hread : ∀ row ∈ rows, c.Readable row := by
    unfold Readable
    decide
  have habs : AbsFit c rows := absFit_of_numbers (by decide +kernel)
  obtain ⟨hsame, -, hsafe'⟩ := results_perm hc hp
  obtain ⟨-, -, hsafe⟩ := results_perm hc (List.Perm.refl rows)
  have hok := hsafe (by decide) hread (by decide) habs
  have hok' := hsafe' (by decide) hread (by decide) habs
  exact ⟨hc, hp, hread, habs, hok, hok', by decide +kernel, (hsame hok hok').1⟩

/-- A sum overflows in one order and not in another. -/
example : let c : Config := ⟨none, 0, .int, .sum⟩
    ((empty c).mergeAll [⟨[.int Int64.maxValue]⟩, ⟨[.int 1]⟩, ⟨[.int (-1)]⟩]).outcome = .error (.overflow .sum) ∧
      ((empty c).mergeAll [⟨[.int Int64.maxValue]⟩, ⟨[.int (-1)]⟩, ⟨[.int 1]⟩]).outcome = .ok () := by
  decide +kernel

end Aggregator

end Rollup
