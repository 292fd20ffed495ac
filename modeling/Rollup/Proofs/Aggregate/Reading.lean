import Rollup.Proofs.Aggregate.Report
import Rollup.Proofs.Sequence.Delivery

/-!
# Reading an aggregator

A pass over an aggregator gives the outcomes of its groups in order, whether it asks for more before every row
(`results_eq`) or calls `next` until the results are exhausted (`trace_results`). Looked up by its key, the outcome of
a group is `outcome?`; the keys and their entries make up the whole pass (`results_eq_of_outcomes`).

- `Tabulates.entry`: in the table of the merged rows every key reads as the entry of its rows;
- `results_offerAll`: after a run of offers the results are the entries of the distinct keys of the merged rows, in the
  order of their first rows.
-/

namespace Rollup

/-- A group cannot be finalized because of an overflow or of a count of zero, and for no other reason. -/
theorem Accumulator.error_of_finalize {acc : Accumulator} {e : Error} (h : acc.finalize = .error e) :
    (∃ quantity, e = .overflow quantity) ∨ e = .argument .zeroPartialCount := by
  have htotals : ∀ {values : Array Int64}, totals values = .error e → ∃ quantity, e = .overflow quantity := by
    intro values h
    rcases Outcome.bind_eq_error_iff.mp h with h | ⟨s, -, h⟩
    · exact ⟨_, (total_eq_error_iff.mp h).2⟩
    · obtain h | ⟨_, _, ⟨⟩⟩ := Outcome.bind_eq_error_iff.mp h
      exact ⟨_, (fits_eq_error_iff.mp h).2⟩
  cases acc with
  | min n | max n | sum n | count n => cases h
  | average values =>
    rcases Outcome.bind_eq_error_iff.mp h with h | ⟨s, -, h⟩
    · exact .inl (htotals h)
    · obtain h | ⟨_, _, ⟨⟩⟩ := Outcome.bind_eq_error_iff.mp h
      exact .inl ⟨_, (fits_eq_error_iff.mp h).2⟩
  | partialAverage s n =>
    simp only [finalize] at h
    by_cases hn : n = 0
    · rw [if_pos hn] at h
      cases h
      exact .inr rfl
    · rw [if_neg hn] at h
      obtain h | ⟨_, _, ⟨⟩⟩ := Outcome.bind_eq_error_iff.mp h
      exact .inl ⟨_, (fits_eq_error_iff.mp h).2⟩
  | sumAndCount values =>
    obtain h | ⟨_, _, ⟨⟩⟩ := Outcome.bind_eq_error_iff.mp h
    exact .inl (htotals h)

theorem Group.error_of_row {g : Group} {e : Error} (h : g.row = .error e) : ∃ fault, e = .argument fault := by
  obtain h | ⟨_, _, ⟨⟩⟩ := Outcome.bind_eq_error_iff.mp h
  obtain ⟨quantity, rfl⟩ | rfl := Accumulator.error_of_finalize h
  · exact ⟨.overflow quantity, rfl⟩
  · exact ⟨.zeroPartialCount, rfl⟩

theorem Group.row_ne_exhausted (g : Group) : g.row ≠ .error .exhausted := by
  intro h
  obtain ⟨fault, h⟩ := Group.error_of_row h
  cases h

namespace Aggregator

variable {a b : Aggregator} {key : GroupKey} {merged : List Row}

/-! ## Passes -/

/-- Fresh results, opened and read to the end, give the outcome of every group in order, and then are exhausted. -/
theorem trace_results (a : Aggregator) :
    (RowSource.trace (Results.ofAggregator a) (.start :: List.replicate (a.groupCount + 1) .next)).1 =
      .ok .done :: a.groups.toList.map (fun g => g.row.map .row) ++ [.error .exhausted] := by
  have h := trace_next_results a 0
  rw [Nat.sub_zero, List.drop_zero] at h
  rw [RowSource.trace]
  exact congrArg (List.cons (.ok .done)) h

theorem outcomes_results (a : Aggregator) (p : Nat) :
    RowSource.outcomes (⟨a, ⟨some p⟩⟩ : Results) (a.groups.size - p + 1) = (a.groups.toList.drop p).map Group.row := by
  by_cases hp : p < a.groups.size
  · have hnext : RowSource.next (⟨a, ⟨some p⟩⟩ : Results) = ⟨a.groups[p].row, ⟨a, ⟨some (p + 1)⟩⟩⟩ :=
      Results.next_of_lt rfl hp
    rw [List.drop_eq_getElem_cons (by simpa using hp), List.map_cons, Array.getElem_toList, RowSource.outcomes, hnext]
    split
    · rename_i h
      exact absurd h (Group.row_ne_exhausted _)
    · have ih := outcomes_results a (p + 1)
      rw [show a.groups.size - (p + 1) + 1 = a.groups.size - p by omega] at ih
      rw [← ih]
  · have hnext : RowSource.next (⟨a, ⟨some p⟩⟩ : Results) = ⟨.error .exhausted, ⟨a, ⟨some p⟩⟩⟩ :=
      Results.next_of_le rfl (Nat.le_of_not_lt hp)
    rw [List.drop_of_length_le (by simpa using hp), RowSource.outcomes, hnext]
    rfl
termination_by a.groups.size - p

/-- A pass gives the outcome of every group in order. -/
theorem results_eq (a : Aggregator) : a.results = a.groups.toList.map Group.row :=
  outcomes_results a 0

/-! ## Entries -/

/-- What a pass reads for a key: the row of its group or the error of finalizing it, and nothing without a group. -/
def outcome? (a : Aggregator) (key : GroupKey) : Option (Except Error Row) :=
  (a.accumulator? key).map fun accumulator => Group.row ⟨key, accumulator⟩

theorem Consistent.outcome?_key (hc : a.Consistent) {g : Group} (hg : g ∈ a.groups.toList) :
    a.outcome? g.key = some g.row := by
  rw [outcome?, hc.accumulator?_key hg]
  rfl

theorem Consistent.outcome?_of_not_mem (hc : a.Consistent) (hk : key ∉ a.keys) : a.outcome? key = none := by
  have hslot : a.slots[key]? = none :=
    Option.eq_none_iff_forall_ne_some.mpr fun slot hs => hk (hc.mem_keys_iff.mpr ⟨slot, hs⟩)
  rw [outcome?, accumulator?_of_no_slot hslot]
  rfl

theorem Consistent.exists_outcome (hc : a.Consistent) (hk : key ∈ a.keys) :
    ∃ outcome ∈ a.results, a.outcome? key = some outcome := by
  obtain ⟨g, hg, rfl⟩ := List.mem_map.mp hk
  refine ⟨g.row, ?_, hc.outcome?_key hg⟩
  rw [results_eq]
  exact List.mem_map_of_mem hg

theorem Consistent.results_eq_outcomes (hc : a.Consistent) : a.results.map some = a.keys.map a.outcome? := by
  rw [results_eq, keys, List.map_map, List.map_map]
  exact List.map_congr_left fun g hg => (hc.outcome?_key hg).symm

/-- What a pass reads at the place of a key, and nothing if the key has no place. -/
def read? (a : Aggregator) (key : GroupKey) : Option (Except Error Row) :=
  (a.keys.zip a.results).lookup key

theorem lookup_zip_map {α β κ : Type} [BEq κ] (f : α → κ) (g : α → β) (xs : List α) (k : κ) :
    ((xs.map f).zip (xs.map g)).lookup k = (xs.find? fun x => k == f x).map g := by
  induction xs with
  | nil => rfl
  | cons x xs ih =>
    rw [List.map_cons, List.map_cons, List.zip_cons_cons, List.lookup_cons, List.find?_cons, ih]
    cases k == f x <;> rfl

/-- A pass reads for a key what the table holds for it. -/
theorem Consistent.read?_eq (hc : a.Consistent) (key : GroupKey) : a.read? key = a.outcome? key := by
  rw [read?, results_eq, keys, lookup_zip_map]
  cases hg : a.groups.toList.find? fun g => key == g.key with
  | some g =>
    obtain rfl : key = g.key := by simpa using List.find?_some hg
    exact (hc.outcome?_key (List.mem_of_find?_eq_some hg)).symm
  | none =>
    refine (hc.outcome?_of_not_mem fun hm => ?_).symm
    obtain ⟨g, hmem, rfl⟩ := List.mem_map.mp hm
    simpa using List.find?_eq_none.mp hg g hmem

/-- Two tables with the same keys and entries read the same. -/
theorem results_eq_of_outcomes (ha : a.Consistent) (hb : b.Consistent) (hkeys : a.keys = b.keys)
    (hentries : ∀ key ∈ a.keys, a.outcome? key = b.outcome? key) : a.results = b.results := by
  refine List.map_injective_iff.mpr (Option.some_injective _) ?_
  rw [ha.results_eq_outcomes, hb.results_eq_outcomes, ← hkeys]
  exact List.map_congr_left hentries

/-- A group holds the rows of its key. -/
theorem Tabulates.holds (ht : a.Tabulates merged) {g : Group} (hg : g ∈ a.groups.toList) :
    merged.filter (a.config.keyOf · = g.key) ≠ [] ∧ g.accumulator.aggregate = a.config.aggregate ∧
      g.accumulator.Holds a.config (merged.filter (a.config.keyOf · = g.key)) := by
  have hgather := ht.gather_eq g.key
  rw [ht.consistent.accumulator?_key hg] at hgather
  obtain ⟨hnone, hall⟩ := holds_of_gather hgather
  exact ⟨fun he => Option.some_ne_none _ (hnone.mpr he), hall _ rfl⟩

/-- There is an entry for the keys of the merged rows and for no other key. -/
theorem Tabulates.mem_keys_iff (ht : a.Tabulates merged) :
    key ∈ a.keys ↔ merged.filter (a.config.keyOf · = key) ≠ [] := by
  rw [ht.keys_eq]
  exact mem_eraseDups_map_iff

/-- In the table of the merged rows, every key reads as the entry of its rows. -/
theorem Tabulates.entry (ht : a.Tabulates merged)
    (hn : a.config.aggregate.KeepsNumbers → (merged.filter (a.config.keyOf · = key)).length < 2 ^ 63)
    {outcome : Except Error Row} (h : a.outcome? key = some outcome) :
    a.config.Entry key (merged.filter (a.config.keyOf · = key)) outcome := by
  obtain ⟨acc, hacc, rfl⟩ := Option.map_eq_some_iff.mp h
  have hgather := ht.gather_eq key
  rw [hacc] at hgather
  obtain ⟨hnone, hall⟩ := holds_of_gather hgather
  obtain ⟨hagg, hh⟩ := hall acc rfl
  refine entry_of_agrees (Accumulator.finalize_of_holds hagg hh ?_ hn)
  intro he
  cases hnone.mpr he

/-- A row that is read is the entry of its key, however many rows there are. -/
theorem Tabulates.entry_row (ht : a.Tabulates merged) {row : Row} (h : a.outcome? key = some (.ok row)) :
    a.config.Entry key (merged.filter (a.config.keyOf · = key)) (.ok row) := by
  refine ht.entry (fun hk => ?_) h
  obtain ⟨acc, hacc, hrow⟩ := Option.map_eq_some_iff.mp h
  have hgather := ht.gather_eq key
  rw [hacc] at hgather
  obtain ⟨hagg, hh⟩ := (holds_of_gather hgather).2 acc rfl
  obtain ⟨summary, hs, -⟩ := Outcome.bind_eq_ok_iff.mp hrow
  exact Accumulator.length_lt_of_finalize hagg hh hs hk

/-! ## Results without failures -/

/-- Every group of an aggregator has a result row. -/
def Finalizes (a : Aggregator) : Prop :=
  ∀ outcome ∈ a.results, ∃ row, outcome = .ok row

/-- The result rows of an aggregator, without the groups that have none. -/
def resultRows (a : Aggregator) : List Row :=
  a.results.filterMap Except.toOption

theorem finalizes_iff : a.Finalizes ↔ a.results = a.resultRows.map .ok := by
  unfold resultRows Finalizes
  induction a.results with
  | nil => simp
  | cons outcome outcomes ih =>
    cases outcome with
    | error e =>
      refine iff_of_false (by simp) ?_
      show Except.error e :: outcomes ≠ (outcomes.filterMap Except.toOption).map .ok
      cases outcomes.filterMap Except.toOption <;> simp
    | ok row => simpa [Except.toOption] using ih

/-- If every key has a report, then every group has a result row. -/
theorem Tabulates.finalizes (ht : a.Tabulates merged)
    (hn : a.config.aggregate.KeepsNumbers → ∀ key, (merged.filter (a.config.keyOf · = key)).length < 2 ^ 63)
    (h : ∀ key ∈ a.keys, ∃ results, a.config.report (merged.filter (a.config.keyOf · = key)) = .ok results) :
    a.Finalizes := by
  intro outcome hm
  rw [results_eq] at hm
  obtain ⟨g, hg, rfl⟩ := List.mem_map.mp hm
  obtain ⟨results, hr⟩ := h g.key (List.mem_map_of_mem hg)
  have hentry := ht.entry (fun hk => hn hk g.key) (ht.consistent.outcome?_key hg)
  cases hrow : g.row with
  | ok row => exact ⟨row, rfl⟩
  | error e =>
    rw [hrow] at hentry
    have he := hentry.report_eq_error
    rw [hr] at he
    cases he

/-- Two tables without failures read the same for a key if the reports on its rows are the same. -/
theorem Tabulates.outcome?_eq {rows rows' : List Row} (ha : a.Tabulates rows) (hb : b.Tabulates rows')
    (hfa : a.Finalizes) (hfb : b.Finalizes) (hkey : key ∈ a.keys ↔ key ∈ b.keys)
    (h : ∀ ns ns', a.config.report (rows.filter (a.config.keyOf · = key)) = .ok ns →
      b.config.report (rows'.filter (b.config.keyOf · = key)) = .ok ns' → ns = ns') :
    a.outcome? key = b.outcome? key := by
  by_cases hk : key ∈ a.keys
  · obtain ⟨_, hmem, hout⟩ := ha.consistent.exists_outcome hk
    obtain ⟨_, hmem', hout'⟩ := hb.consistent.exists_outcome (hkey.mp hk)
    obtain ⟨row, rfl⟩ := hfa _ hmem
    obtain ⟨row', rfl⟩ := hfb _ hmem'
    obtain ⟨ns, -, hr⟩ := (ha.entry_row hout).exists_of_ok
    obtain ⟨ns', rfl, hr'⟩ := (hb.entry_row hout').exists_of_ok
    rw [h _ _ hr hr'] at hr
    rw [hout, hout', (ha.entry_row hout).eq_row hr]
  · rw [ha.consistent.outcome?_of_not_mem hk, hb.consistent.outcome?_of_not_mem (mt hkey.mpr hk)]

/-! ## Results of a run -/

/-- **Grouped aggregation is the report on the merged rows.** After a run of fewer than `2 ^ 63` offers, results that
are opened and read until they are exhausted give one entry for every distinct key of the merged rows, in the order of
their first rows. -/
theorem results_offerAll {c : Config} {a : Aggregator} (hc : ofConfig c = .ok a) (rows : List Row)
    (hn : rows.length < 2 ^ 63) :
    ∃ entries : List (Except Error Row),
      List.Forall₂ (fun key => c.Entry key ((a.accepted rows).filter (c.keyOf · = key)))
        ((a.accepted rows).map c.keyOf).eraseDups entries ∧
      (RowSource.trace (Results.ofAggregator (a.offerAll rows))
          (.start :: List.replicate (entries.length + 1) .next)).1 =
        .ok .done :: entries.map (Except.map .row) ++ [.error .exhausted] ∧
      (a.offerAll rows).groupCount = ((a.accepted rows).map c.keyOf).eraseDups.length := by
  obtain rfl : empty c = a := by
    obtain ⟨_, -, h⟩ := Outcome.bind_eq_ok_iff.mp hc
    cases h
    rfl
  have ht := tabulates_offerAll c rows
  have hconf := config_offerAll (empty c) rows
  have hlen := ((empty c).accepted_sublist rows).length_le
  generalize (empty c).offerAll rows = a at *
  generalize (empty c).accepted rows = merged at *
  have hconf : a.config = c := hconf
  subst hconf
  rw [← ht.keys_eq]
  refine ⟨a.groups.toList.map Group.row, ?_, ?_, ?_⟩
  · rw [keys, List.forall₂_map_left_iff, List.forall₂_map_right_iff, List.forall₂_same]
    intro g hg
    have hfilter := List.length_filter_le (a.config.keyOf · = g.key) merged
    exact ht.entry (fun _ => by omega) (ht.consistent.outcome?_key hg)
  · have h := trace_results a
    rw [List.length_map, Array.length_toList, List.map_map]
    exact h
  · rw [keys, List.length_map, Array.length_toList, groupCount]

/-- One group overflows when it is read, one row is refused, and the other group averages to `-2`. -/
theorem results_offerAll_average :
    let c : Config := ⟨some ⟨0, .text⟩, 1, .int, .average⟩
    let rows : List Row := [⟨[.text "b", .int Int64.maxValue]⟩, ⟨[.text "a", .int 3]⟩, ⟨[.text "a"]⟩,
      ⟨[.text "b", .int 1]⟩, ⟨[.text "a", .int (-8)]⟩]
    (RowSource.trace (Results.ofAggregator ((empty c).offerAll rows)) [.start, .next, .next, .next]).1 =
      [.ok .done, .error (.overflow .averageSum), .ok (.row ⟨[.text "a", .int (-2)]⟩), .error .exhausted] := by
  intro c rows
  obtain ⟨entries, hentries, htrace, -⟩ := results_offerAll (c := c) rfl rows (by decide)
  have hkeys : (((empty c).accepted rows).map c.keyOf).eraseDups = [some (.text "b"), some (.text "a")] := by
    decide +kernel
  rw [hkeys] at hentries
  obtain _ | ⟨hb, hentries⟩ := hentries
  obtain _ | ⟨ha, hentries⟩ := hentries
  cases hentries
  have hb := hb.eq_error (e := .overflow .averageSum) (by decide +kernel)
  have ha := ha.eq_row (show c.report _ = .ok ([-2].map Int64.toInt) by decide +kernel)
  subst hb ha
  exact htrace

end Aggregator

end Rollup
