import Rollup.Proofs.Aggregate.TwoPhase

/-!
# Averages of subtotals

Rows are cut into chunks, the numbers of each chunk are summed and counted by groups, and the averages are taken over
these subtotals. `Subtotals` relates the rows of a group to its result rows from all chunks: same sum, same count, and
absolute values that add up to no more. So the two reports agree (`Subtotals.report`), and the subtotals can be merged
whenever the absolute values of the numbers add up within the range (`Subtotals.keptSums`).

`average_of_chunks`: taking the averages in two phases gives what taking them at once gives, and neither way fails if
the absolute values of every group add up within the range.
-/

namespace Rollup

open Exact

variable {c d : Config} {rows results : List Row}

namespace Config

/-- The sums and counts in the result rows are those of the numbers in the rows, taken part by part. -/
structure Subtotals (c d : Config) (rows results : List Row) : Prop where
  sum_eq : (d.numbers results).sum = (c.numbers rows).sum
  count_eq : (d.counts results).sum = rows.length
  sum_abs_le : ((d.numbers results).map (|·|)).sum ≤ ((c.numbers rows).map (|·|)).sum
  count_abs_eq : ((d.counts results).map (|·|)).sum = rows.length

namespace Subtotals

theorem nil (c d : Config) : c.Subtotals d [] [] :=
  ⟨rfl, rfl, le_rfl, rfl⟩

theorem append {rows' results' : List Row} (h : c.Subtotals d rows results) (h' : c.Subtotals d rows' results') :
    c.Subtotals d (rows ++ rows') (results ++ results') := by
  obtain ⟨hsum, hcount, hsle, hcabs⟩ := h
  obtain ⟨hsum', hcount', hsle', hcabs'⟩ := h'
  refine ⟨?_, ?_, ?_, ?_⟩
  all_goals
    simp only [numbers_append, counts_append, List.map_append, List.sum_append, List.length_append, Nat.cast_add]
    omega

/-- Parts with one result row each. -/
theorem flatten {parts : List (List Row)} (h : List.Forall₂ (fun part row => c.Subtotals d part [row]) parts results) :
    c.Subtotals d parts.flatten results := by
  induction h with
  | nil => exact nil c d
  | cons hrow _ ih => exact append hrow ih

/-- The result row of a group holds its subtotals. -/
theorem of_entry {key : GroupKey} {row : Row} (hc : c.aggregate = .sumAndCount)
    (hkey : key.map Value.type = c.groupBy.map GroupBy.type) (h : c.Entry key rows (.ok row)) :
    c.Subtotals (overResults c.groupBy .partialAverage) rows [row] := by
  obtain ⟨ns, rfl, hr⟩ := h.exists_of_ok
  rw [Config.report, hc] at hr
  dsimp only at hr
  split at hr
  · rw [Except.ok.injEq] at hr
    obtain ⟨s, n, rfl⟩ := List.length_eq_two.mp (by simpa using (congrArg List.length hr).symm)
    simp only [List.map_cons, List.map_nil, List.cons.injEq, and_true] at hr
    obtain ⟨hs, hn⟩ := hr
    have hsum : Row.number ⟨key.toList ++ [s, n].map .int⟩ (overResults c.groupBy .partialAverage).field = s.toInt :=
      number_resultRow hkey rfl
    have hcount : Row.number ⟨key.toList ++ [s, n].map .int⟩ (overResults c.groupBy .partialAverage).countColumn =
        n.toInt :=
      count_resultRow hkey rfl
    refine ⟨?_, ?_, ?_, ?_⟩
    · rw [numbers_singleton, hsum, List.sum_singleton, hs]
    · rw [counts_singleton, hcount, List.sum_singleton, hn]
    · rw [numbers_singleton, hsum, List.map_singleton, List.sum_singleton, ← hs]
      exact abs_sum_le (c.numbers rows)
    · rw [counts_singleton, hcount, List.map_singleton, List.sum_singleton, ← hn]
      exact abs_of_nonneg (by omega)
  · cases hr

/-- The quotient of the subtotals is that of the numbers. -/
theorem report (h : c.Subtotals d rows results) (hc : c.aggregate = .average) (hd : d.aggregate = .partialAverage)
    (hne : rows ≠ []) {ns : List Int64} (hr : c.report rows = .ok (ns.map Int64.toInt)) :
    d.report results = .ok (ns.map Int64.toInt) := by
  have hlen := List.length_pos_iff.mpr hne
  rw [Config.report, hc] at hr
  rw [Config.report, hd]
  dsimp only at hr ⊢
  rw [h.sum_eq, h.count_eq, if_neg (by omega)]
  split at hr
  · rw [Except.ok.injEq] at hr
    obtain ⟨q, rfl⟩ := List.length_eq_one_iff.mp (by simpa using (congrArg List.length hr).symm)
    simp only [List.map_cons, List.map_nil, List.cons.injEq, and_true] at hr
    rw [hr, if_pos (fits_toInt q)]
    rfl
  · cases hr

theorem keptSums (h : c.Subtotals d rows results) (hd : d.aggregate = .partialAverage)
    (hfit : Fits ((c.numbers rows).map (|·|)).sum) (hlen : rows.length < 2 ^ 63) : d.KeptSums results := by
  rw [KeptSums, hd]
  exact ⟨sumsFit_of_abs h.sum_abs_le hfit, sumsFit_of_abs h.count_abs_eq.le (fits_natCast_iff.mpr hlen)⟩

end Subtotals

theorem Digests.subtotals {chunks digests : List (List Row)} (h : List.Forall₂ c.Digests chunks digests)
    (hc : c.aggregate = .sumAndCount) (hr : ∀ row ∈ chunks.flatten, c.Readable row) (key : GroupKey) :
    c.Subtotals (overResults c.groupBy .partialAverage) (chunks.flatten.filter (c.keyOf · = key))
      (digests.flatten.filter ((overResults c.groupBy .partialAverage).keyOf · = key)) := by
  rw [← flatten_partsOf]
  exact Subtotals.flatten ((Digests.entries h hr .partialAverage key).imp fun _ _ ⟨_, hkey, hentry⟩ =>
    Subtotals.of_entry hc hkey hentry)

end Config

namespace Aggregator

open Config

variable {groupBy : Option GroupBy} {field : Nat} {chunks : List (List Row)}

/-- A table of subtotals reads like the table of the numbers, as long as this one can be read. -/
theorem results_eq_of_subtotals {a b : Aggregator} (ha : a.Tabulates results) (hb : b.Tabulates rows)
    (had : a.config = d) (hbc : b.config = c) (hd : d.aggregate = .partialAverage) (hc : c.aggregate = .average)
    (hkeys : (results.map d.keyOf).eraseDups = (rows.map c.keyOf).eraseDups)
    (hsub : ∀ key, c.Subtotals d (rows.filter (c.keyOf · = key)) (results.filter (d.keyOf · = key)))
    (hfin : b.Finalizes) : a.results = b.results := by
  subst had hbc
  rw [← ha.keys_eq, ← hb.keys_eq] at hkeys
  refine results_eq_of_outcomes ha.consistent hb.consistent hkeys fun key hkey => ?_
  have hkey' : key ∈ b.keys := hkeys ▸ hkey
  obtain ⟨outcome, -, hea⟩ := ha.consistent.exists_outcome hkey
  obtain ⟨_, hmem, heb⟩ := hb.consistent.exists_outcome hkey'
  obtain ⟨row, rfl⟩ := hfin _ hmem
  have hentry := ha.entry (fun hk => by simp [hd, Aggregate.KeepsNumbers] at hk) hea
  obtain ⟨ns, rfl, hr⟩ := (hb.entry_row heb).exists_of_ok
  have hreport := (hsub key).report hc hd (hb.mem_keys_iff.mp hkey') hr
  rw [hea, heb, hentry.eq_row hreport]

theorem readable_average_iff {row : Row} :
    (overField groupBy field .average).Readable row ↔ (overField groupBy field .sumAndCount).Readable row := by
  rw [readable_overField (by decide), readable_overField (by decide)]

/-- Averages keep nothing that could overflow while rows arrive. -/
theorem mergeAll_average_isOk (h : ∀ row ∈ chunks.flatten, (Config.overField groupBy field .average).Readable row) :
    ((empty (.overField groupBy field .average)).mergeAll chunks.flatten).outcome = .ok () :=
  mergeAll_isOk_iff.mpr ⟨h, fun _ => trivial⟩

/-- If nothing fails, then the averages of the subtotals are the averages of the numbers. -/
theorem results_mergeResults {parts : List (Reply Aggregator Unit)} {direct merged : Reply Aggregator Unit}
    (hparts : parts = perChunk (.overField groupBy field .sumAndCount) chunks)
    (hd : direct = (empty (.overField groupBy field .average)).mergeAll chunks.flatten)
    (hm : merged = (empty (.overResults groupBy .partialAverage)).mergeResults (parts.map Reply.state))
    (hok : ∀ part ∈ parts, part.outcome = .ok ()) (hmerged : merged.outcome = .ok ())
    (hdirect : direct.state.Finalizes) :
    merged.state.results = direct.state.results := by
  subst hparts hd
  have hfin := finalizes_of_mergeResults (hm ▸ hmerged)
  rw [mergeResults_of_finalizes hfin, List.map_map] at hm
  subst hm
  have hrows := readable_of_perChunk hok
  have hdigests := Config.Digests.of_perChunk hok fun part hm => hfin _ (List.mem_map_of_mem hm)
  have hkeys := Config.Digests.keys (f := .partialAverage) hdigests hrows
  have hsub := Config.Digests.subtotals hdigests rfl hrows
  obtain ⟨htm, hcm⟩ := tabulates_mergeAll hmerged
  have hdirect' := mergeAll_average_isOk fun row hm => readable_average_iff.mpr (hrows row hm)
  obtain ⟨htd, hcd⟩ := tabulates_mergeAll hdirect'
  refine results_eq_of_subtotals htm htd hcm hcd (overResults_aggregate _ _) rfl hkeys (fun key => ?_) hdirect
  obtain ⟨hsum, hcount, hsle, hcabs⟩ := hsub key
  exact ⟨hsum, hcount, hsle, hcabs⟩

/-! ### When nothing fails -/

/-- Averages over raw numbers can be read if every sum on the way fits. -/
theorem Tabulates.finalizes_of_sumsFit {a : Aggregator} (ht : a.Tabulates rows) (hk : a.config.aggregate.KeepsNumbers)
    (hlen : rows.length < 2 ^ 63)
    (hfit : ∀ key, SumsFit (a.config.numbers (rows.filter (a.config.keyOf · = key)))) : a.Finalizes := by
  refine ht.finalizes (fun _ key => ?_) fun key _ => ?_
  · have hfilter := List.length_filter_le (a.config.keyOf · = key) rows
    omega
  · rcases hk with hf | hf
    · rw [Config.report, hf]
      exact ⟨_, if_pos (hfit key)⟩
    · rw [Config.report, hf]
      exact ⟨_, if_pos (hfit key)⟩

/-- The sum of the absolute values of every group is a 64-bit integer. -/
def AbsFit (c : Config) (rows : List Row) : Prop :=
  ∀ key, Fits ((c.numbers (rows.filter (c.keyOf · = key))).map (|·|)).sum

theorem finalizes_of_absFit {part : List Row} (hok : ((empty c).mergeAll part).outcome = .ok ())
    (hk : c.aggregate.KeepsNumbers) (hpart : part.Sublist rows) (hlen : rows.length < 2 ^ 63) (habs : AbsFit c rows) :
    ((empty c).mergeAll part).state.Finalizes := by
  obtain ⟨ht, hconf⟩ := tabulates_mergeAll hok
  have hpartlen := hpart.length_le
  refine ht.finalizes_of_sumsFit (by rwa [hconf]) (by omega) fun key => ?_
  rw [hconf]
  exact sumsFit_of_abs (sum_abs_le_of_sublist ((hpart.filter _).map _)) (habs key)

theorem perChunk_isOk (hr : ∀ row ∈ chunks.flatten, (overField groupBy field .sumAndCount).Readable row)
    (hlen : chunks.flatten.length < 2 ^ 63) (habs : AbsFit (overField groupBy field .sumAndCount) chunks.flatten) :
    ∀ part ∈ perChunk (overField groupBy field .sumAndCount) chunks, part.outcome = .ok () ∧ part.state.Finalizes := by
  intro part hm
  obtain ⟨chunk, hchunk, rfl⟩ := List.mem_map.mp hm
  have hsub := List.sublist_flatten_of_mem hchunk
  have hok : ((empty (overField groupBy field .sumAndCount)).mergeAll chunk).outcome = .ok () :=
    mergeAll_isOk_iff.mpr ⟨fun row hrow => hr row (hsub.subset hrow), fun _ => trivial⟩
  exact ⟨hok, finalizes_of_absFit hok (.inr rfl) hsub hlen habs⟩

/-- The subtotals of the chunks can be merged. -/
theorem mergeResults_isOk (hr : ∀ row ∈ chunks.flatten, (overField groupBy field .sumAndCount).Readable row)
    (hlen : chunks.flatten.length < 2 ^ 63) (habs : AbsFit (overField groupBy field .sumAndCount) chunks.flatten) :
    ((empty (overResults groupBy .partialAverage)).mergeResults
      ((perChunk (overField groupBy field .sumAndCount) chunks).map Reply.state)).outcome = .ok () := by
  have hparts := perChunk_isOk hr hlen habs
  have hfin : ∀ part ∈ (perChunk (overField groupBy field .sumAndCount) chunks).map Reply.state, part.Finalizes := by
    intro part hm
    obtain ⟨r, hmem, rfl⟩ := List.mem_map.mp hm
    exact (hparts r hmem).2
  have hdigests := Config.Digests.of_perChunk (fun part hm => (hparts part hm).1) fun part hm => (hparts part hm).2
  rw [mergeResults_of_finalizes hfin, List.map_map]
  refine mergeAll_isOk_iff.mpr ⟨Config.Digests.readable_flatten hdigests hr fun _ => rfl, fun key => ?_⟩
  have hfilter := List.length_filter_le ((overField groupBy field .sumAndCount).keyOf · = key) chunks.flatten
  exact (Config.Digests.subtotals hdigests rfl hr key).keptSums (overResults_aggregate _ _) (habs key) (by omega)

/-- **Averages can be taken in two phases.** Rows are cut into chunks, each chunk is summed and counted by groups, and
the results are averaged in order. If nothing fails, this reads as the averages over all rows, in the same order; and
nothing fails if every row can be read and the absolute values of each group add up to a 64-bit integer. -/
theorem average_of_chunks (groupBy : Option GroupBy) (field : Nat) (chunks : List (List Row)) :
    let direct := (empty (overField groupBy field .average)).mergeAll chunks.flatten
    let parts := perChunk (overField groupBy field .sumAndCount) chunks
    let merged := (empty (overResults groupBy .partialAverage)).mergeResults (parts.map Reply.state)
    (∀ c ∈ [overField groupBy field .average, overField groupBy field .sumAndCount,
      overResults groupBy .partialAverage], ofConfig c = .ok (empty c)) ∧
    ((∀ part ∈ parts, part.outcome = .ok ()) → merged.outcome = .ok () → direct.state.Finalizes →
      direct.outcome = .ok () ∧ merged.state.results = direct.state.results) ∧
    ((∀ row ∈ chunks.flatten, (overField groupBy field .average).Readable row) → chunks.flatten.length < 2 ^ 63 →
      AbsFit (overField groupBy field .average) chunks.flatten →
      (∀ part ∈ parts, part.outcome = .ok () ∧ part.state.Finalizes) ∧ direct.outcome = .ok () ∧
        direct.state.Finalizes ∧ merged.outcome = .ok () ∧ merged.state.Finalizes) := by
  intro direct parts merged
  refine ⟨?_, ?_, ?_⟩
  · simp [ofConfig_overField, ofConfig_overResults]
  · intro hok hmerged hfin
    refine ⟨mergeAll_average_isOk ?_, results_mergeResults rfl rfl rfl hok hmerged hfin⟩
    exact fun row hm => readable_average_iff.mpr (readable_of_perChunk hok row hm)
  · intro hr hlen habs
    have hr' := fun row hm => readable_average_iff.mp (hr row hm)
    have hparts := perChunk_isOk hr' hlen habs
    have hdirect := mergeAll_average_isOk hr
    have hfin := finalizes_of_absFit hdirect (.inl rfl) (List.Sublist.refl _) hlen habs
    have hmerged := mergeResults_isOk hr' hlen habs
    refine ⟨hparts, hdirect, hfin, hmerged, ?_⟩
    unfold Finalizes
    rw [results_mergeResults rfl rfl rfl (fun part hm => (hparts part hm).1) hmerged hfin]
    exact hfin

/-- Three chunks, one of them empty: the groups stay in order of first arrival, and `5` over `2` is truncated. -/
theorem average_of_chunks_text :
    let chunks : List (List Row) := [[⟨[.text "b", .int 7]⟩, ⟨[.text "a", .int (-3)]⟩], [],
      [⟨[.text "a", .int 10]⟩, ⟨[.text "b", .int (-2)]⟩]]
    let parts := perChunk (overField (some ⟨0, .text⟩) 1 .sumAndCount) chunks
    let merged := (empty (overResults (some ⟨0, .text⟩) .partialAverage)).mergeResults (parts.map Reply.state)
    merged.state.results = [.ok ⟨[.text "b", .int 2]⟩, .ok ⟨[.text "a", .int 3]⟩] := by
  intro chunks parts merged
  obtain ⟨-, hsame, hsafe⟩ := average_of_chunks (some ⟨0, .text⟩) 1 chunks
  have hread : ∀ row ∈ chunks.flatten, (overField (some ⟨0, .text⟩) 1 .average).Readable row := by
    simp only [readable_overField (f := .average) (by decide)]
    decide
  have habs : AbsFit (overField (some ⟨0, .text⟩) 1 .average) chunks.flatten := by
    intro key
    by_cases hb : some (.text "b") = key
    · subst hb
      decide +kernel
    · by_cases ha : some (.text "a") = key
      · subst ha
        decide +kernel
      · rw [List.filter_eq_nil_iff.mpr]
        · decide
        · simp [chunks, overField, Config.keyOf, ha, hb]
  obtain ⟨hparts, -, hfin, hmerged, -⟩ := hsafe hread (by decide) habs
  exact (hsame (fun part hm => (hparts part hm).1) hmerged hfin).2

end Aggregator

end Rollup
