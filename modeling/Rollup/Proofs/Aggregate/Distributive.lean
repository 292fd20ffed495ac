import Rollup.Proofs.Aggregate.Conformance
import Rollup.Proofs.Aggregate.TwoPhase

/-!
# Distributive aggregates

The result of a minimum, a maximum, a sum or a count over some rows can be computed from its results over the parts of
the rows: by the same function, except that counts are put together by a sum (`Aggregate.combiner?`).

Rows are cut into chunks, and each chunk is aggregated on its own. The result rows of a key hold the reports on its parts
(`Digests.reports`). Put together, they give the report on all rows of the key (`Reports.report_eq`), and no sum of the
first few of them leaves the range if no sum of the first few rows does (`Reports.keptSums`). So the aggregates can be
taken in two phases (`results_of_chunks`).
-/

namespace Rollup

open Exact

/-- The aggregate function that puts the results of parts together, for the functions whose results suffice for that. -/
def Aggregate.combiner? : Aggregate → Option Aggregate
  | .min => some .min
  | .max => some .max
  | .sum | .count => some .sum
  | .average | .partialAverage | .sumAndCount => none

theorem Aggregate.combiner?_cases {f g : Aggregate} (h : f.combiner? = some g) :
    (f = .min ∧ g = .min) ∨ (f = .max ∧ g = .max) ∨ (f = .sum ∧ g = .sum) ∨ (f = .count ∧ g = .sum) := by
  cases f <;> cases h <;> simp

/-- What puts results together can be put together by itself. -/
theorem Aggregate.combiner?_combiner {f g : Aggregate} (h : f.combiner? = some g) : g.combiner? = some g := by
  cases f <;> cases h <;> rfl

/-! ## Parts of lists -/

section Parts

variable {xs ys ns : List Int} {xss : List (List Int)}

theorem min?_flatten (h : List.Forall₂ (fun xs m => xs.min? = some m) xss ns) : xss.flatten.min? = ns.min? := by
  induction h with
  | nil => rfl
  | cons hm _ ih => rw [List.flatten_cons, min?_append hm, List.min?_cons, List.min?_cons, ih]

theorem max?_flatten (h : List.Forall₂ (fun xs m => xs.max? = some m) xss ns) : xss.flatten.max? = ns.max? := by
  induction h with
  | nil => rfl
  | cons hm _ ih => rw [List.flatten_cons, max?_append hm, List.max?_cons, List.max?_cons, ih]

/-- If every sum of the first few integers fits, then so does the sum of any beginning of the list. -/
theorem SumsFit.sum_of_isPrefix (h : SumsFit ys) (hp : xs <+: ys) : Fits xs.sum := by
  obtain ⟨zs, rfl⟩ := hp
  have hx := h xs.length (by simp)
  rwa [List.take_left] at hx

theorem isPrefix_flatten_take {α : Type} (xss : List (List α)) (k : Nat) : (xss.take k).flatten <+: xss.flatten := by
  refine ⟨(xss.drop k).flatten, ?_⟩
  rw [← List.flatten_append, List.take_append_drop]

end Parts

namespace Config

variable {c d : Config} {f : Aggregate} {key : GroupKey} {rows results part : List Row}
variable {chunks parts digests : List (List Row)}

/-! ## Reports on parts -/

/-- A distributive aggregate reports one number on the rows of a group. -/
theorem exists_report (hc : c.aggregate.combiner? = some f) (hne : rows ≠ []) : ∃ n, c.report rows = .ok [n] := by
  have hnum : c.numbers rows ≠ [] := by simpa [numbers] using hne
  unfold report
  rcases Aggregate.combiner?_cases hc with ⟨hf, -⟩ | ⟨hf, -⟩ | ⟨hf, -⟩ | ⟨hf, -⟩ <;> rw [hf]
  · obtain ⟨m, hm⟩ := Option.ne_none_iff_exists'.mp (mt List.min?_eq_none_iff.mp hnum)
    exact ⟨m, by rw [hm]; rfl⟩
  · obtain ⟨m, hm⟩ := Option.ne_none_iff_exists'.mp (mt List.max?_eq_none_iff.mp hnum)
    exact ⟨m, by rw [hm]; rfl⟩
  · exact ⟨_, rfl⟩
  · exact ⟨_, rfl⟩

/-- One result for every part, as the numbers of the result rows. -/
def Reports (c d : Config) (parts : List (List Row)) (results : List Row) : Prop :=
  List.Forall₂ (fun part n => c.report part = .ok [n]) parts (d.numbers results)

theorem min?_of_report (hf : c.aggregate = .min) {n : Int} (h : c.report part = .ok [n]) :
    (c.numbers part).min? = some n := by
  rw [report, hf, Except.ok.injEq] at h
  exact Option.toList_eq_singleton_iff.mp h

theorem max?_of_report (hf : c.aggregate = .max) {n : Int} (h : c.report part = .ok [n]) :
    (c.numbers part).max? = some n := by
  rw [report, hf, Except.ok.injEq] at h
  exact Option.toList_eq_singleton_iff.mp h

theorem sum_of_report (hf : c.aggregate = .sum) {n : Int} (h : c.report part = .ok [n]) :
    (c.numbers part).sum = n := by
  rw [report, hf, Except.ok.injEq] at h
  exact List.singleton_inj.mp h

theorem length_of_report_count (hf : c.aggregate = .count) {n : Int} (h : c.report part = .ok [n]) :
    (part.length : Int) = n := by
  rw [report, hf, Except.ok.injEq] at h
  exact List.singleton_inj.mp h

namespace Reports

theorem min?_eq (h : Reports c d parts results) (hf : c.aggregate = .min) :
    (c.numbers parts.flatten).min? = (d.numbers results).min? := by
  rw [numbers, List.map_flatten]
  exact min?_flatten (List.forall₂_map_left_iff.mpr (h.imp fun _ _ hr => min?_of_report hf hr))

theorem max?_eq (h : Reports c d parts results) (hf : c.aggregate = .max) :
    (c.numbers parts.flatten).max? = (d.numbers results).max? := by
  rw [numbers, List.map_flatten]
  exact max?_flatten (List.forall₂_map_left_iff.mpr (h.imp fun _ _ hr => max?_of_report hf hr))

theorem sum_eq (h : Reports c d parts results) (hf : c.aggregate = .sum) :
    (c.numbers parts.flatten).sum = (d.numbers results).sum := by
  have hsums : (parts.map fun part => (c.numbers part).sum) = d.numbers results := by
    rw [← List.forall₂_eq_eq_eq, List.forall₂_map_left_iff]
    exact h.imp fun _ _ hr => sum_of_report hf hr
  rw [← hsums, numbers, List.map_flatten, List.sum_flatten, List.map_map]
  rfl

theorem length_eq (h : Reports c d parts results) (hf : c.aggregate = .count) :
    (parts.flatten.length : Int) = (d.numbers results).sum := by
  unfold Reports at h
  generalize d.numbers results = ns at h
  induction h with
  | nil => rfl
  | cons hr _ ih =>
    rw [List.flatten_cons, List.length_append, List.sum_cons, Nat.cast_add, ih, length_of_report_count hf hr]

/-- The report on the results of the parts is the report on the rows. -/
theorem report_eq (h : Reports c d parts results) (hc : c.aggregate.combiner? = some d.aggregate) :
    d.report results = c.report parts.flatten := by
  unfold report
  rcases Aggregate.combiner?_cases hc with ⟨hf, hd⟩ | ⟨hf, hd⟩ | ⟨hf, hd⟩ | ⟨hf, hd⟩ <;> rw [hf, hd]
  · rw [h.min?_eq hf]
  · rw [h.max?_eq hf]
  · rw [h.sum_eq hf]
  · rw [h.length_eq hf]

/-- The results of the first few parts are the first few results. -/
theorem take (h : Reports c d parts results) (k : Nat) : Reports c d (parts.take k) (results.take k) := by
  have hk := List.forall₂_take k h
  rwa [numbers, ← List.map_take] at hk

/-- What is kept while the results arrive fits if it does while the rows arrive. -/
theorem keptSums (h : Reports c d parts results) (hc : c.aggregate.combiner? = some d.aggregate)
    (hk : c.KeptSums parts.flatten) : d.KeptSums results := by
  unfold KeptSums at hk ⊢
  rcases Aggregate.combiner?_cases hc with ⟨hf, hd⟩ | ⟨hf, hd⟩ | ⟨hf, hd⟩ | ⟨hf, hd⟩ <;> rw [hd]
  · trivial
  · trivial
  · rw [hf] at hk
    intro k _
    rw [numbers, ← List.map_take, ← numbers, ← (h.take k).sum_eq hf]
    exact SumsFit.sum_of_isPrefix hk ((isPrefix_flatten_take parts k).map _)
  · rw [hf] at hk
    intro k _
    rw [numbers, ← List.map_take, ← numbers, ← (h.take k).length_eq hf, fits_natCast_iff]
    exact (isPrefix_flatten_take parts k).length_le.trans_lt (fits_natCast_iff.mp hk)

end Reports

/-! ## Result rows of parts -/

/-- The result rows of a key hold the reports on its parts. -/
theorem Digests.reports (h : List.Forall₂ c.Digests chunks digests) (hr : ∀ row ∈ chunks.flatten, c.Readable row)
    (hc : c.aggregate.combiner? = some f) (key : GroupKey) :
    Reports c (overResults c.groupBy f) (c.partsOf key chunks)
      (digests.flatten.filter ((overResults c.groupBy f).keyOf · = key)) := by
  refine List.forall₂_map_right_iff.mpr ((Digests.entries h hr f key).imp ?_)
  rintro part row ⟨hne, hkey, hentry⟩
  obtain ⟨n, hn⟩ := exists_report hc hne
  obtain ⟨ns, rfl, hreport⟩ := hentry.exists_of_ok
  rw [hn, Except.ok.injEq, eq_comm, List.map_eq_singleton_iff] at hreport
  obtain ⟨m, rfl, rfl⟩ := hreport
  rw [number_resultRow hkey rfl]
  exact hn

end Config

namespace Aggregator

open Config

variable {a : Aggregator} {c : Config} {f : Aggregate} {rows : List Row} {chunks : List (List Row)}

/-! ## Runs -/

/-- Rows that can be read are merged, or a total does not fit. -/
theorem Sound.mergeAll_of_readable (hs : a.Sound) (hr : ∀ row ∈ rows, a.config.Readable row) :
    (a.mergeAll rows).outcome = .ok () ∨ ∃ quantity, (a.mergeAll rows).outcome = .error (.overflow quantity) := by
  induction rows generalizing a with
  | nil => exact .inl rfl
  | cons row rows ih =>
    obtain ⟨hrow, hrows⟩ := List.forall_mem_cons.mp hr
    rcases hs.merge_of_readable hrow with ⟨a', hm⟩ | ⟨quantity, -, hm⟩
    · rw [mergeAll_cons_ok rows hm]
      exact ih (hs.merge hm) (by rwa [config_merge hm])
    · exact .inr ⟨quantity, by rw [mergeAll_cons_error rows hm]⟩

/-- A distributive aggregate can be read off every group. -/
theorem Tabulates.finalizes_of_combiner (ht : a.Tabulates rows) (hf : a.config.aggregate.combiner? = some f) :
    a.Finalizes := by
  refine ht.finalizes (fun hk => ?_) fun key hkey => ?_
  · rcases hk with hk | hk <;> rw [hk] at hf <;> cases hf
  · obtain ⟨n, hn⟩ := exists_report hf (ht.mem_keys_iff.mp hkey)
    exact ⟨[n], hn⟩

/-- Readable rows are merged under a distributive aggregate, if they are few enough to be counted and no sum of them
leaves the range. -/
theorem mergeAll_isOk_of_combiner (hf : c.aggregate.combiner? = some f) (hr : ∀ row ∈ rows, c.Readable row)
    (hlen : rows.length < 2 ^ 63)
    (hsum : c.aggregate = .sum → ∀ quantity, ((empty c).mergeAll rows).outcome ≠ .error (.overflow quantity)) :
    ((empty c).mergeAll rows).outcome = .ok () := by
  rcases Aggregate.combiner?_cases hf with ⟨hc, -⟩ | ⟨hc, -⟩ | ⟨hc, -⟩ | ⟨hc, -⟩
  · exact mergeAll_isOk_iff.mpr ⟨hr, fun key => by rw [KeptSums, hc]; trivial⟩
  · exact mergeAll_isOk_iff.mpr ⟨hr, fun key => by rw [KeptSums, hc]; trivial⟩
  · rcases (sound_empty c).mergeAll_of_readable hr with hok | ⟨quantity, he⟩
    · exact hok
    · exact absurd he (hsum hc quantity)
  · refine mergeAll_isOk_iff.mpr ⟨hr, fun key => ?_⟩
    rw [KeptSums, hc]
    exact fits_natCast_iff.mpr ((List.length_filter_le _ _).trans_lt hlen)

/-! ## Two phases -/

theorem perChunk_isOk_of_combiner (hf : c.aggregate.combiner? = some f) (hr : ∀ row ∈ chunks.flatten, c.Readable row)
    (hlen : chunks.flatten.length < 2 ^ 63)
    (hsum : c.aggregate = .sum → ∀ part ∈ perChunk c chunks, ∀ quantity,
      part.outcome ≠ .error (.overflow quantity)) :
    ∀ part ∈ perChunk c chunks, part.outcome = .ok () ∧ part.state.Finalizes := by
  intro part hm
  have hpart := fun h => hsum h part hm
  obtain ⟨chunk, hchunk, rfl⟩ := List.mem_map.mp hm
  have hsub := List.sublist_flatten_of_mem hchunk
  have hok := mergeAll_isOk_of_combiner hf (fun row hrow => hr row (hsub.subset hrow))
    (hsub.length_le.trans_lt hlen) hpart
  obtain ⟨ht, hconf⟩ := tabulates_mergeAll hok
  exact ⟨hok, ht.finalizes_of_combiner (by rwa [hconf])⟩

/-- Result rows of chunks are merged if the rows themselves are. -/
theorem mergeAll_digests_isOk {digests : List (List Row)} (hd : List.Forall₂ c.Digests chunks digests)
    (hf : c.aggregate.combiner? = some f) (hok : ((empty c).mergeAll chunks.flatten).outcome = .ok ()) :
    ((empty (overResults c.groupBy f)).mergeAll digests.flatten).outcome = .ok () := by
  obtain ⟨hr, hkept⟩ := mergeAll_isOk_iff.mp hok
  have hf' : c.aggregate.combiner? = some (overResults c.groupBy f).aggregate := by rwa [overResults_aggregate]
  refine mergeAll_isOk_iff.mpr ⟨Digests.readable_flatten hd hr fun h => ?_, fun key => ?_⟩
  · rcases Aggregate.combiner?_cases hf with ⟨-, hg⟩ | ⟨-, hg⟩ | ⟨-, hg⟩ | ⟨-, hg⟩
    all_goals cases hg.symm.trans h
  · refine (Digests.reports hd hr hf key).keptSums hf' ?_
    rw [flatten_partsOf]
    exact hkept key

/-- The table of the result rows of chunks reads like the table of the rows. -/
theorem results_digests {digests : List (List Row)} (hd : List.Forall₂ c.Digests chunks digests)
    (hf : c.aggregate.combiner? = some f) (hok : ((empty c).mergeAll chunks.flatten).outcome = .ok ()) :
    ((empty (overResults c.groupBy f)).mergeAll digests.flatten).state.results =
      ((empty c).mergeAll chunks.flatten).state.results := by
  have hr := (mergeAll_isOk_iff.mp hok).1
  have hf' : c.aggregate.combiner? = some (overResults c.groupBy f).aggregate := by rwa [overResults_aggregate]
  obtain ⟨ht, hconf⟩ := tabulates_mergeAll hok
  obtain ⟨htm, hconfm⟩ := tabulates_mergeAll (mergeAll_digests_isOk hd hf hok)
  generalize ((empty c).mergeAll chunks.flatten).state = b at ht hconf ⊢
  generalize ((empty (overResults c.groupBy f)).mergeAll digests.flatten).state = a at htm hconfm ⊢
  have hkeys : a.keys = b.keys := by
    rw [htm.keys_eq, ht.keys_eq, hconf, hconfm, Digests.keys hd hr]
  refine results_eq_of_outcomes htm.consistent ht.consistent hkeys fun key _ => ?_
  have hfm : a.Finalizes := htm.finalizes_of_combiner (by rw [hconfm]; exact Aggregate.combiner?_combiner hf')
  have hfin : b.Finalizes := ht.finalizes_of_combiner (by rwa [hconf])
  refine htm.outcome?_eq ht hfm hfin (by rw [hkeys]) fun ns ns' hns hns' => ?_
  rw [hconfm, (Digests.reports hd hr hf key).report_eq hf', flatten_partsOf] at hns
  rw [hconf, hns, Except.ok.injEq] at hns'
  exact hns'

/-- **Minima, maxima, sums and counts can be taken in two phases.** Rows are cut into chunks, each chunk is aggregated,
and the results are fed in order to a second aggregator, which takes their minimum, maximum or sum. If the rows can be
read and are fewer than `2 ^ 63`, and no sum of the rows or of a chunk overflows on the way, then nothing fails, and this
reads as the aggregate over all rows, in the same order. -/
theorem results_of_chunks (hc : ofConfig c = .ok a) (hf : c.aggregate.combiner? = some f) (chunks : List (List Row))
    (hr : ∀ row ∈ chunks.flatten, c.Readable row) (hlen : chunks.flatten.length < 2 ^ 63)
    (hsum : c.aggregate = .sum → ∀ quantity, (a.mergeAll chunks.flatten).outcome ≠ .error (.overflow quantity) ∧
      ∀ part ∈ perChunk c chunks, part.outcome ≠ .error (.overflow quantity)) :
    let direct := a.mergeAll chunks.flatten
    let parts := perChunk c chunks
    let merged := (empty (overResults c.groupBy f)).mergeResults (parts.map Reply.state)
    ofConfig (overResults c.groupBy f) = .ok (empty (overResults c.groupBy f)) ∧
    (∀ part ∈ parts, part.outcome = .ok () ∧ part.state.Finalizes) ∧
    (direct.outcome = .ok () ∧ direct.state.Finalizes) ∧
    merged.outcome = .ok () ∧ merged.state.results = direct.state.results := by
  intro direct parts merged
  obtain rfl := eq_empty_of_ofConfig hc
  have hparts : ∀ part ∈ parts, part.outcome = .ok () ∧ part.state.Finalizes :=
    perChunk_isOk_of_combiner hf hr hlen fun h part hm quantity => (hsum h quantity).2 part hm
  have hdirect : direct.outcome = .ok () :=
    mergeAll_isOk_of_combiner hf hr hlen fun h quantity => (hsum h quantity).1
  obtain ⟨ht, hconf⟩ := tabulates_mergeAll hdirect
  have hfinal : direct.state.Finalizes := ht.finalizes_of_combiner (by rwa [hconf])
  -- what the second aggregator is fed are the result rows of the chunks
  have hdigests := Digests.of_perChunk (fun part hm => (hparts part hm).1) fun part hm => (hparts part hm).2
  have hmerged : merged = (empty (overResults c.groupBy f)).mergeAll
      (parts.map fun part => part.state.resultRows).flatten := by
    refine (mergeResults_of_finalizes fun part hm => ?_).trans (by rw [List.map_map]; rfl)
    obtain ⟨r, hmem, rfl⟩ := List.mem_map.mp hm
    exact (hparts r hmem).2
  rw [hmerged]
  exact ⟨ofConfig_overResults c.groupBy f, hparts, ⟨hdirect, hfinal⟩, mergeAll_digests_isOk hdigests hf hdirect,
    results_digests hdigests hf hdirect⟩

/-- Three chunks, one of them empty: sums and counts are both put together by sums, and the groups stay in order of first
arrival. -/
theorem results_of_chunks_text :
    let c (f : Aggregate) : Config := ⟨some ⟨0, .text⟩, 1, .int, f⟩
    let chunks : List (List Row) := [[⟨[.text "b", .int 7]⟩, ⟨[.text "a", .int (-3)]⟩], [],
      [⟨[.text "a", .int 10]⟩, ⟨[.text "c", .int 4]⟩, ⟨[.text "a", .int (-2)]⟩]]
    let merged (f : Aggregate) :=
      (empty (overResults (some ⟨0, .text⟩) .sum)).mergeResults ((perChunk (c f) chunks).map Reply.state)
    (∀ f ∈ [Aggregate.sum, .count], ofConfig (c f) = .ok (empty (c f)) ∧ ∀ row ∈ chunks.flatten, (c f).Readable row) ∧
      (merged .sum).state.results =
        [.ok ⟨[.text "b", .int 7]⟩, .ok ⟨[.text "a", .int 5]⟩, .ok ⟨[.text "c", .int 4]⟩] ∧
      (merged .count).state.results =
        [.ok ⟨[.text "b", .int 1]⟩, .ok ⟨[.text "a", .int 3]⟩, .ok ⟨[.text "c", .int 1]⟩] := by
  intro c chunks merged
  have hread : ∀ f ∈ [Aggregate.sum, .count], ∀ row ∈ chunks.flatten, (c f).Readable row := by
    unfold Readable
    decide
  have hsum : ((empty (c .sum)).mergeAll chunks.flatten).outcome = .ok () ∧
      ∀ part ∈ perChunk (c .sum) chunks, part.outcome = .ok () := by
    decide +kernel
  have hfits : (c .sum).aggregate = .sum → ∀ quantity,
      ((empty (c .sum)).mergeAll chunks.flatten).outcome ≠ .error (.overflow quantity) ∧
      ∀ part ∈ perChunk (c .sum) chunks, part.outcome ≠ .error (.overflow quantity) :=
    fun _ quantity => ⟨by simp [hsum.1], fun part hm => by simp [hsum.2 part hm]⟩
  obtain ⟨-, -, -, -, hsums⟩ := results_of_chunks (c := c .sum) rfl rfl chunks (hread .sum (by decide)) (by decide) hfits
  obtain ⟨-, -, -, -, hcounts⟩ := results_of_chunks (c := c .count) rfl rfl chunks (hread .count (by decide)) (by decide)
    nofun
  refine ⟨fun f hm => ⟨?_, hread f hm⟩, hsums.trans (by decide +kernel), hcounts.trans (by decide +kernel)⟩
  cases f <;> rfl

end Aggregator

end Rollup
