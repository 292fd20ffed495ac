import Rollup.Proofs.Aggregate.Quotient
import Rollup.Proofs.Aggregate.Refusals

/-!
# Sums, counts and averages together

A sum checks every addition when a row arrives and refuses the row. An average, and a sum with its count, keep all
numbers and add them up when they are read. Both find the same overflows: a sum refuses no row of a key exactly if every
sum of the first few numbers fits (`no_overflow_at_iff`), which is when the numbers can be totalled later
(`read?_isRow_iff_sumsFit`). The refusals of a sum leave its groups as they are, for the first row of a key is never
refused (`keys_overField`).
-/

namespace Rollup.Aggregator

open Exact Config

variable {c : Config} {groupBy : Option GroupBy} {field : Nat} {f : Aggregate} {rows : List Row} {key : GroupKey}

theorem length_readablesAt_lt (c : Config) (key : GroupKey) (hlen : rows.length < 2 ^ 63) :
    (c.readablesAt key rows).length < 2 ^ 63 :=
  (List.filter_sublist.trans List.filter_sublist).length_le.trans_lt hlen

/-! ## Which rows are merged -/

/-- A count of fewer than `2 ^ 63` rows refuses the rows that cannot be read, and no others. -/
theorem offers_count (groupBy : Option GroupBy) (field : Nat) (hlen : rows.length < 2 ^ 63) :
    (empty (overField groupBy field .count)).offers rows = (overField groupBy field .average).checks rows := by
  rw [← checks_overField (f := .count) (by decide)]
  exact offers_eq_checks fun key => fits_natCast_iff.mpr (length_readablesAt_lt _ key hlen)

/-- A sum refuses a row that can be read for the overflow of the sum only. -/
theorem offers_sum (groupBy : Option GroupBy) (field : Nat) (rows : List Row) :
    List.Forall₂ (fun x y => x.1 = y.1 ∧ (x.2 = y.2 ∨ (y.2 = .ok () ∧ x.2 = .error (.overflow .sum))))
      ((empty (overField groupBy field .sum)).offers rows) ((overField groupBy field .average).checks rows) := by
  rw [← checks_overField (f := .sum) (by decide), checks, List.forall₂_map_right_iff]
  refine ((sound_empty (overField groupBy field .sum)).offers_fares rfl rows).imp ?_
  rintro x row ⟨hx, ho | ⟨hcheck, quantity, hq, ho⟩⟩
  · exact ⟨hx, .inl ho⟩
  · obtain rfl := List.mem_singleton.mp hq
    exact ⟨hx, .inr ⟨hcheck, ho⟩⟩

/-- The groups of a run do not depend on the aggregate. -/
theorem keys_overField (hf : f ≠ .partialAverage) (rows : List Row) :
    ((empty (overField groupBy field f)).offerAll rows).keys =
      ((empty (overField groupBy field .average)).offerAll rows).keys := by
  rw [keys_offerAll, keys_offerAll, readables_overField hf]
  rfl

/-! ## What is read -/

theorem exists_report_iff (hk : c.aggregate.KeepsNumbers) :
    (∃ ns, c.report rows = .ok ns) ↔ SumsFit (c.numbers rows) := by
  rcases hk with hf | hf <;> rw [report, hf] <;> by_cases hfit : SumsFit (c.numbers rows) <;> simp [hfit]

/-- Numbers that are kept can be read for a key exactly if every sum of the first few of them fits. -/
theorem read?_isRow_iff_sumsFit (hf : f.KeepsNumbers)
    (hne : (overField groupBy field .average).readablesAt key rows ≠ []) (hlen : rows.length < 2 ^ 63) :
    (∃ row, ((empty (overField groupBy field f)).offerAll rows).read? key = some (.ok row)) ↔
      SumsFit ((overField groupBy field .average).numbers
        ((overField groupBy field .average).readablesAt key rows)) := by
  have hkept : f.keptTotals = [] := by
    rcases hf with rfl | rfl <;> rfl
  rw [← readablesAt_overField (Aggregate.ne_partialAverage_of_no_totals hkept)] at hne ⊢
  rw [read?_isRow_iff (keptSums_of_no_totals hkept _) hne fun _ => length_readablesAt_lt _ key hlen]
  exact exists_report_iff hf

section Key

variable (hne : (overField groupBy field .average).readablesAt key rows ≠ []) (hlen : rows.length < 2 ^ 63)
include hne hlen

/-- The numbers that an aggregate over the field reports on a key are read for it. -/
theorem read?_overField (hf : f ≠ .partialAverage) {ns : List Int}
    (hk : (overField groupBy field f).KeptSums ((overField groupBy field .average).readablesAt key rows))
    (hr : (overField groupBy field f).report ((overField groupBy field .average).readablesAt key rows) = .ok ns) :
    ∃ results : List Int64, results.map Int64.toInt = ns ∧
      ((empty (overField groupBy field f)).offerAll rows).read? key =
        some (.ok ⟨key.toList ++ results.map .int⟩) := by
  rw [← readablesAt_overField hf] at hne hk hr
  exact read?_of_report hk hne (fun _ => length_readablesAt_lt _ key hlen) hr

/-- If every sum of the first few numbers of a key fits, then the four aggregates read its sum, its count, both, and
their quotient. -/
theorem reads_of_sumsFit
    (hfit : SumsFit ((overField groupBy field .average).numbers
      ((overField groupBy field .average).readablesAt key rows))) :
    ∃ s n q : Int64,
      ((empty (overField groupBy field .sum)).offerAll rows).read? key = some (.ok ⟨key.toList ++ [.int s]⟩) ∧
      ((empty (overField groupBy field .count)).offerAll rows).read? key = some (.ok ⟨key.toList ++ [.int n]⟩) ∧
      ((empty (overField groupBy field .sumAndCount)).offerAll rows).read? key =
        some (.ok ⟨key.toList ++ [.int s, .int n]⟩) ∧
      ((empty (overField groupBy field .average)).offerAll rows).read? key = some (.ok ⟨key.toList ++ [.int q]⟩) ∧
      q.toInt = truncate ((s.toInt : ℚ) / n.toInt) := by
  have hfew := fits_natCast_iff.mpr (length_readablesAt_lt (overField groupBy field .average) key hlen)
  obtain ⟨sums, hsums, hsum⟩ := read?_overField hne hlen (f := .sum) (by decide) hfit rfl
  obtain ⟨counts, hcounts, hcount⟩ := read?_overField hne hlen (f := .count) (by decide) hfew rfl
  obtain ⟨pairs, hpairs, hpair⟩ := read?_overField hne hlen (f := .sumAndCount) (by decide) trivial (if_pos hfit)
  obtain ⟨means, hmeans, hmean⟩ := read?_overField hne hlen (f := .average) (by decide) trivial (if_pos hfit)
  obtain ⟨s, rfl, hs⟩ := List.map_eq_singleton_iff.mp hsums
  obtain ⟨n, rfl, hn⟩ := List.map_eq_singleton_iff.mp hcounts
  obtain ⟨q, rfl, hq⟩ := List.map_eq_singleton_iff.mp hmeans
  obtain rfl : pairs = [s, n] := by
    refine List.map_injective_iff.mpr (fun _ _ => Int64.toInt_inj.mp) (hpairs.trans ?_)
    rw [List.map_cons, List.map_singleton, hs, hn]
    rfl
  refine ⟨s, n, q, hsum, hcount, hpair, hmean, ?_⟩
  rw [hq, ← tdiv_eq_truncate, hs, hn]
  rfl

end Key

/-! ## All four together -/

/-- **Sums, counts and averages over one field agree.** Fewer than `2 ^ 63` rows are offered to four aggregators. Count,
average, and sum with count merge the same rows; a sum merges them too, unless it overflows. All four have the same
groups in the same order. The rows of a group meet no overflow of the sum exactly if there is a row of its sum and
count, and exactly if there is one of its average; then the pair is the sum and the count that the others read, and the
average is their quotient rounded toward zero. -/
theorem additive_agree (groupBy : Option GroupBy) (field : Nat) (rows : List Row) (hlen : rows.length < 2 ^ 63) :
    let start f := empty (overField groupBy field f)
    let read f key := ((start f).offerAll rows).read? key
    (∀ f ∈ [Aggregate.sum, .count, .average, .sumAndCount], ofConfig (overField groupBy field f) = .ok (start f)) ∧
    (start .count).offers rows = (start .average).offers rows ∧
    (start .sumAndCount).offers rows = (start .average).offers rows ∧
    List.Forall₂ (fun x y => x.1 = y.1 ∧ (x.2 = y.2 ∨ (y.2 = .ok () ∧ x.2 = .error (.overflow .sum))))
      ((start .sum).offers rows) ((start .average).offers rows) ∧
    (∀ f ∈ [Aggregate.sum, .count, .sumAndCount],
      ((start f).offerAll rows).keys = ((start .average).offerAll rows).keys) ∧
    ∀ key ∈ ((start .average).offerAll rows).keys,
      let unrefused := ∀ x ∈ (start .sum).offers rows, (overField groupBy field .sum).keyOf x.1 = key →
        ∀ quantity, x.2 ≠ .error (.overflow quantity)
      (unrefused ↔ ∃ row, read .sumAndCount key = some (.ok row)) ∧
      (unrefused ↔ ∃ row, read .average key = some (.ok row)) ∧
      (unrefused → ∃ s n q : Int64,
        read .sum key = some (.ok ⟨key.toList ++ [.int s]⟩) ∧
        read .count key = some (.ok ⟨key.toList ++ [.int n]⟩) ∧
        read .sumAndCount key = some (.ok ⟨key.toList ++ [.int s, .int n]⟩) ∧
        read .average key = some (.ok ⟨key.toList ++ [.int q]⟩) ∧
        q.toInt = truncate ((s.toInt : ℚ) / n.toInt)) := by
  intro start read
  have haverage : (start .average).offers rows = _ := offers_of_no_totals rfl rows
  refine ⟨?_, ?_, ?_, ?_, ?_, ?_⟩
  · simp only [List.forall_mem_cons, List.not_mem_nil, false_imp_iff, implies_true, and_true]
    exact ⟨rfl, rfl, rfl, rfl⟩
  · exact (offers_count groupBy field hlen).trans haverage.symm
  · exact (offers_of_no_totals rfl rows).trans haverage.symm
  · rw [haverage]
    exact offers_sum groupBy field rows
  · simp only [List.forall_mem_cons, List.not_mem_nil, false_imp_iff, implies_true, and_true]
    exact ⟨keys_overField (by decide) rows, keys_overField (by decide) rows, keys_overField (by decide) rows⟩
  intro key hkey unrefused
  rw [keys_offerAll, mem_eraseDups_map_iff] at hkey
  have hfit : unrefused ↔ SumsFit _ := no_overflow_at_iff (overField groupBy field .sum) rows key
  rw [readablesAt_overField (by decide)] at hfit
  exact ⟨hfit.trans (read?_isRow_iff_sumsFit (.inr rfl) hkey hlen).symm,
    hfit.trans (read?_isRow_iff_sumsFit (.inl rfl) hkey hlen).symm, fun h => reads_of_sumsFit hkey hlen (hfit.mp h)⟩

/-- One group overflows, and its sum refuses a row; the other group, with a row that is too short, has `-5` as its sum
over two rows and `-2` as its average. -/
theorem additive_agree_overflow :
    let rows : List Row := [⟨[.text "b", .int Int64.maxValue]⟩, ⟨[.text "a", .int 3]⟩, ⟨[.text "b", .int 1]⟩,
      ⟨[.text "a"]⟩, ⟨[.text "b", .int (-1)]⟩, ⟨[.text "a", .int (-8)]⟩]
    let read f key := ((empty (overField (some ⟨0, .text⟩) 1 f)).offerAll rows).read? (some (.text key))
    rows.length < 2 ^ 63 ∧
      (¬∃ row, read .sumAndCount "b" = some (.ok row)) ∧ (¬∃ row, read .average "b" = some (.ok row)) ∧
      ∃ s n q : Int64, read .sum "a" = some (.ok ⟨[.text "a", .int s]⟩) ∧
        read .sumAndCount "a" = some (.ok ⟨[.text "a", .int s, .int n]⟩) ∧
        read .average "a" = some (.ok ⟨[.text "a", .int q]⟩) ∧ q = -2 := by
  intro rows read
  have hlen : rows.length < 2 ^ 63 := by decide
  have hkeys : ((empty (overField (some ⟨0, .text⟩) 1 .average)).offerAll rows).keys =
      [some (.text "b"), some (.text "a")] := by decide +kernel
  obtain ⟨-, -, -, -, -, hread⟩ := additive_agree (some ⟨0, .text⟩) 1 rows hlen
  rw [hkeys] at hread
  obtain ⟨hpair, hmean, -⟩ := hread (some (.text "b")) (by simp)
  obtain ⟨-, hmean', hvalues⟩ := hread (some (.text "a")) (by simp)
  have hrefused : (⟨[.text "b", .int 1]⟩, .error (.overflow .sum)) ∈
      (empty (overField (some ⟨0, .text⟩) 1 .sum)).offers rows := by decide +kernel
  have hone : read .average "a" = some (.ok ⟨[.text "a", .int (-2)]⟩) := by decide +kernel
  obtain ⟨s, n, q, hs, -, hsn, hq, -⟩ := hvalues (hmean'.mpr ⟨_, hone⟩)
  refine ⟨hlen, fun h => hpair.mpr h _ hrefused rfl _ rfl, fun h => hmean.mpr h _ hrefused rfl _ rfl, s, n, q, hs, hsn,
    hq, ?_⟩
  cases hone.symm.trans hq
  rfl

end Rollup.Aggregator
