import Rollup.Proofs.Aggregate.Quotient
import Rollup.Proofs.Aggregate.Refusals

/-!
# Averages lie between the extremes

An average over raw numbers is read by adding them up and dividing by their count. The count is positive, for every
group has taken in a row, so the division never fails (`Accumulator.div?_of_totals`). What is read is the mean rounded
toward zero, and since the extremes of the numbers are integers, rounding does not step over them (`mean_between`).

A minimum, a maximum and an average over one field merge the same rows, those that can be read, because none of them
keeps a total that could overflow (`accepted_of_no_totals`).
-/

namespace Rollup

open Exact

/-- Numbers that can be totalled can be divided by their count. -/
theorem Accumulator.div?_of_totals {values : Array Int64} {s n : Int64} (hne : values ≠ #[])
    (h : totals values = .ok (s, n)) : div? s n ≠ none := by
  obtain ⟨_, -, h⟩ := Outcome.bind_eq_ok_iff.mp h
  obtain ⟨k, hk, h⟩ := Outcome.bind_eq_ok_iff.mp h
  cases h
  have hn : n.toInt = values.size := ofInt?_eq_some_iff.mp (fits_eq_ok_iff.mp hk)
  have hpos : 0 < values.size := Array.size_pos_iff.mpr hne
  rw [ne_eq, div?_eq_none_iff]
  rintro (rfl | ⟨-, rfl⟩)
  · rw [Int64.toInt_zero] at hn
    omega
  · rw [show (-1 : Int64).toInt = -1 by decide] at hn
    omega

/-- An average reads as the mean of its numbers rounded toward zero, unless they cannot be totalled. -/
theorem Accumulator.finalize_average_cases {c : Config} {rows : List Row} {values : Array Int64}
    (hh : (average values).Holds c rows) (hne : values ≠ #[]) (hn : rows.length < 2 ^ 63) :
    (average values).finalize = .error (.overflow .averageSum) ∨
    ∃ q, (average values).finalize = .ok (.single q) ∧
      q.toInt = truncate (((c.numbers rows).sum : ℚ) / (c.numbers rows).length) := by
  rw [finalize]
  rcases totals_of_numbers hh hn with ⟨-, s, k, htotals, hs, hk⟩ | ⟨-, htotals⟩
  · obtain ⟨q, hq⟩ := Option.ne_none_iff_exists'.mp (div?_of_totals hne htotals)
    have hlen : (c.numbers rows).length = rows.length := List.length_map _
    refine .inr ⟨q, ?_, ?_⟩
    · rw [htotals, Outcome.ok_bind]
      dsimp only
      rw [hq]
      rfl
    · rw [(div?_eq_some_iff.mp hq).2, hs, hk, hlen, tdiv_eq_truncate, Int.cast_natCast]
  · rw [htotals]
    exact .inl rfl

namespace Aggregator

open Config

variable {a : Aggregator} {c : Config} {rows : List Row} {key : GroupKey}

/-! ## One group -/

/-- What a group of an average holds, and what is read of it. -/
theorem average_group {merged : List Row} (ht : a.Tabulates merged) (hs : a.Sound) (hconf : a.config = c)
    (hc : c.aggregate = .average) (hlen : merged.length < 2 ^ 63) {g : Group} (hg : g ∈ a.groups) :
    ∃ values, g.accumulator = .average values ∧
      values.toList.map Int64.toInt = c.numbers (merged.filter (c.keyOf · = g.key)) ∧
      (∀ s n, Accumulator.totals values = .ok (s, n) → div? s n ≠ none) ∧ ofInt? values.size ≠ none ∧
      (g.accumulator.finalize = .error (.overflow .averageSum) ∨
        ∃ q, g.accumulator.finalize = .ok (.single q) ∧
          q.toInt = truncate (((c.numbers (merged.filter (c.keyOf · = g.key))).sum : ℚ) /
            (c.numbers (merged.filter (c.keyOf · = g.key))).length)) := by
  subst hconf
  obtain ⟨-, hagg, hh⟩ := ht.holds (Array.mem_toList_iff.mpr hg)
  have hstarted := (hs.fits g hg).started
  have hfew := (List.length_filter_le (a.config.keyOf · = g.key) merged).trans_lt hlen
  rw [hc] at hagg
  cases hacc : g.accumulator with
  | average values =>
    rw [hacc] at hh hstarted
    have hvalues : values.toList.map Int64.toInt = _ := hh
    have hsize := congrArg List.length hvalues
    rw [List.length_map, Array.length_toList, numbers, List.length_map] at hsize
    refine ⟨values, rfl, hvalues, fun _ _ => Accumulator.div?_of_totals hstarted, ?_,
      Accumulator.finalize_average_cases hh hstarted hfew⟩
    rwa [ne_eq, ofInt?_eq_none_iff_not_fits, not_not, fits_natCast_iff, hsize]
  | _ =>
    rw [hacc] at hagg
    cases hagg

/-! ## Minimum and maximum -/

variable {groupBy : Option GroupBy} {field : Nat}

/-- Where no total can overflow, the rows are merged that can be read. -/
theorem accepted_of_no_totals {f : Aggregate} (h : f.keptTotals = []) (rows : List Row) :
    (empty (overField groupBy field f)).accepted rows = (overField groupBy field .average).readables rows :=
  accepted_eq_readables (offers_of_no_totals h rows)

section Extremes

variable (hne : (overField groupBy field .average).readablesAt key rows ≠ [])
include hne

/-- A distributive aggregate that keeps no total reads as the one number that it reports on what can be read. -/
theorem read?_of_no_totals {f f' : Aggregate} (h : f.keptTotals = []) (hf : f.combiner? = some f') :
    ∃ n : Int64, ((empty (overField groupBy field f)).offerAll rows).read? key =
        some (.ok ⟨key.toList ++ [.int n]⟩) ∧
      (overField groupBy field f).report ((overField groupBy field .average).readablesAt key rows) = .ok [n.toInt] := by
  rw [← readablesAt_overField (Aggregate.ne_partialAverage_of_no_totals h)] at hne ⊢
  exact read?_of_combiner hf (keptSums_of_no_totals h _) hne

/-- A minimum reads as the least number that an average over the same field takes in. -/
theorem read?_min :
    ∃ lo : Int64, ((empty (overField groupBy field .min)).offerAll rows).read? key =
        some (.ok ⟨key.toList ++ [.int lo]⟩) ∧
      ((overField groupBy field .average).numbers ((overField groupBy field .average).readablesAt key rows)).min? =
        some lo.toInt := by
  obtain ⟨lo, hread, hreport⟩ := read?_of_no_totals hne (f := .min) rfl rfl
  exact ⟨lo, hread, min?_of_report (c := overField groupBy field .min) rfl hreport⟩

/-- A maximum reads as the greatest number that an average over the same field takes in. -/
theorem read?_max :
    ∃ hi : Int64, ((empty (overField groupBy field .max)).offerAll rows).read? key =
        some (.ok ⟨key.toList ++ [.int hi]⟩) ∧
      ((overField groupBy field .average).numbers ((overField groupBy field .average).readablesAt key rows)).max? =
        some hi.toInt := by
  obtain ⟨hi, hread, hreport⟩ := read?_of_no_totals hne (f := .max) rfl rfl
  exact ⟨hi, hread, max?_of_report (c := overField groupBy field .max) rfl hreport⟩

end Extremes

/-- An average that can be built is taken over integers. -/
theorem Built.eq_overField (h : Built c a) (hc : c.aggregate = .average) :
    c = overField c.groupBy c.field .average := by
  obtain ⟨_, hvalid, -⟩ := Outcome.bind_eq_ok_iff.mp h.ofConfig_eq
  have htype := observedType_of_validate hvalid
  obtain ⟨groupBy, field, type, f⟩ := c
  obtain rfl : f = .average := hc
  obtain rfl : .int = type := htype
  rfl

/-! ## All together -/

/-- **Averages lie between the extremes.** Let an average be built in any way, and let `rows` be any run of offers that
leads to it, with fewer than `2 ^ 63` rows merged. A minimum and a maximum over the field merge the same rows. Every
group either overflows the running sum when it is read, or reads as the mean of its numbers rounded toward zero, and
this is no less than the least of the numbers and no more than the greatest, which are what the minimum and the maximum
read for the group. The numbers can always be counted, and where there is a sum there is a quotient. -/
theorem mean_between (h : Built c a) (hc : c.aggregate = .average) :
    (∃ rows, (empty c).offerAll rows = a ∧ (empty c).accepted rows = rows) ∧
    ∀ rows, (empty c).offerAll rows = a → ((empty c).accepted rows).length < 2 ^ 63 →
      (∀ f ∈ [Aggregate.min, .max], ofConfig { c with aggregate := f } = .ok (empty { c with aggregate := f }) ∧
        (empty { c with aggregate := f }).accepted rows = (empty c).accepted rows) ∧
      ∀ g ∈ a.groups,
        let least := (empty { c with aggregate := .min }).offerAll rows
        let greatest := (empty { c with aggregate := .max }).offerAll rows
        let own := c.numbers (((empty c).accepted rows).filter (c.keyOf · = g.key))
        ∃ values lo hi, g.accumulator = .average values ∧ values.toList.map Int64.toInt = own ∧
          own.min? = some lo.toInt ∧ own.max? = some hi.toInt ∧
          least.read? g.key = some (.ok ⟨g.key.toList ++ [.int lo]⟩) ∧
          greatest.read? g.key = some (.ok ⟨g.key.toList ++ [.int hi]⟩) ∧
          (∀ s n, Accumulator.totals values = .ok (s, n) → div? s n ≠ none) ∧ ofInt? values.size ≠ none ∧
          (g.accumulator.finalize = .error (.overflow .averageSum) ∨
            ∃ q, g.accumulator.finalize = .ok (.single q) ∧ lo ≤ q ∧ q ≤ hi ∧
              q.toInt = truncate ((own.sum : ℚ) / own.length)) := by
  refine ⟨h.exists_rows, ?_⟩
  rintro rows rfl hlen
  have hover := h.eq_overField hc
  generalize c.groupBy = groupBy, c.field = field at hover
  subst hover
  have hmerged : (empty (overField groupBy field .average)).accepted rows = _ := accepted_of_no_totals rfl rows
  rw [hmerged] at hlen ⊢
  refine ⟨?_, ?_⟩
  · simp only [List.forall_mem_cons, List.not_mem_nil, false_imp_iff, implies_true, and_true]
    exact ⟨⟨rfl, accepted_of_no_totals rfl rows⟩, rfl, accepted_of_no_totals rfl rows⟩
  intro g hg least greatest own
  have ht := tabulates_offerAll (overField groupBy field .average) rows
  have hconf := config_offerAll (empty (overField groupBy field .average)) rows
  rw [hmerged] at ht
  obtain ⟨hne, -⟩ := ht.holds (Array.mem_toList_iff.mpr hg)
  rw [hconf] at hne
  have hown : own ≠ [] := mt List.map_eq_nil_iff.mp hne
  obtain ⟨values, hacc, hvalues, hdiv, hcount, hread⟩ := average_group ht (sound_offerAll _ rows) hconf rfl hlen hg
  obtain ⟨lo, hlo, hleast⟩ := read?_min hne
  obtain ⟨hi, hhi, hgreatest⟩ := read?_max hne
  refine ⟨values, lo, hi, hacc, hvalues, hleast, hgreatest, hlo, hhi, hdiv, hcount, hread.imp_right ?_⟩
  rintro ⟨q, hq, hmean⟩
  refine ⟨q, hq, Int64.le_iff_toInt_le.mpr ?_, Int64.le_iff_toInt_le.mpr ?_, hmean⟩
  · rw [hmean]
    exact le_truncate_mean hown (List.min?_eq_some_iff.mp hleast).2
  · rw [hmean]
    exact truncate_mean_le hown (List.max?_eq_some_iff.mp hgreatest).2

/-- The mean of `-3`, `2` and `-4`, between a row that is too short, is `-1` and lies between `-4` and `2`. -/
theorem mean_between_signs :
    let c : Config := ⟨some ⟨0, .text⟩, 1, .int, .average⟩
    let rows : List Row := [⟨[.text "a", .int (-3)]⟩, ⟨[.text "a", .int 2]⟩, ⟨[.text "a"]⟩, ⟨[.text "a", .int (-4)]⟩]
    Built c ((empty c).offerAll rows) ∧ ((empty c).accepted rows).length < 2 ^ 63 ∧
      ∃ q lo hi : Int64, (Accumulator.average #[-3, 2, -4]).finalize = .ok (.single q) ∧ lo ≤ q ∧ q ≤ hi ∧
        q.toInt = -1 ∧ lo.toInt = -4 ∧ hi.toInt = 2 := by
  intro c rows
  have h : Built c ((empty c).offerAll rows) := .merge _ (.merge _ (.merge _ (.merge _ (.new rfl))))
  have hlen : ((empty c).accepted rows).length < 2 ^ 63 := by decide +kernel
  have hg : ⟨some (.text "a"), .average #[-3, 2, -4]⟩ ∈ ((empty c).offerAll rows).groups := by decide +kernel
  have hown : c.numbers (((empty c).accepted rows).filter (c.keyOf · = some (.text "a"))) = [-3, 2, -4] := by
    decide +kernel
  obtain ⟨-, hgroup⟩ := (mean_between h rfl).2 rows rfl hlen
  obtain ⟨values, lo, hi, -, -, hlo, hhi, -, -, -, -, hread⟩ := hgroup _ hg
  rw [hown] at hlo hhi hread
  obtain ⟨q, hq, hloq, hqhi, hmean⟩ := hread.resolve_left (by decide)
  rw [← Int.cast_natCast, ← tdiv_eq_truncate] at hmean
  exact ⟨h, hlen, q, lo, hi, hq, hloq, hqhi, hmean, (Option.some.inj hlo).symm, (Option.some.inj hhi).symm⟩

end Aggregator

end Rollup
