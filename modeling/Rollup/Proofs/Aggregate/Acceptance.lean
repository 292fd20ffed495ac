import Rollup.Proofs.Aggregate.Report

/-!
# Which rows can be merged

A list of rows can be merged as a whole exactly if each of its groups can be gathered, whatever the other groups hold
(`mergeAll_isOk_iff_gather`). A group can be gathered exactly if every row of it can be observed and what is kept while
its rows arrive fits at every moment: the running sum, the count, or both (`gather_isOk_iff`, `Config.KeptSums`).
Together, `mergeAll_isOk_iff` says without tables or accumulators which lists of rows are merged.
-/

namespace Rollup

open Exact

variable {c : Config} {row : Row} {rows : List Row}

/-! ## One row -/

/-- The type of the value at a position, if there is one. -/
def Row.typeAt (row : Row) (index : Nat) : Option ValueType :=
  row.values[index]?.map Value.type

theorem Row.typeAt_eq_int_iff {index : Nat} :
    row.typeAt index = some .int ↔ ∃ n, row.values[index]? = some (.int n) := by
  rw [typeAt, Option.map_eq_some_iff]
  constructor
  · rintro ⟨v, hv, ht⟩
    obtain ⟨n, rfl⟩ := Value.type_eq_int_iff.mp ht
    exact ⟨n, hv⟩
  · rintro ⟨n, hn⟩
    exact ⟨.int n, hn, rfl⟩

namespace Config

/-- The type that the aggregate field of a row has to have. -/
def observedType (c : Config) : ValueType :=
  match c.aggregate with
  | .count => c.fieldType
  | _ => .int

theorem observedType_of_int (h : c.fieldType = .int) : c.observedType = .int := by
  unfold observedType
  split
  · exact h
  · rfl

/-- A row is wide enough for a configuration and holds the right types where it is read. -/
def Readable (c : Config) (row : Row) : Prop :=
  (∀ g ∈ c.groupBy, row.typeAt g.index = some g.type) ∧
  row.typeAt c.field = some c.observedType ∧
  (c.aggregate = .partialAverage → row.typeAt c.countColumn = some .int)

theorem exists_groupKey_iff :
    (∃ key, c.groupKey row = .ok key) ↔ ∀ g ∈ c.groupBy, row.typeAt g.index = some g.type := by
  unfold groupKey
  cases c.groupBy with
  | none => simp
  | some g =>
    simp [Row.typeAt, Outcome.bind_eq_ok_iff, Row.getTyped_eq_ok_iff]

theorem exists_observation_iff :
    (∃ o, c.observation row = .ok o) ↔
      row.typeAt c.field = some c.observedType ∧
      (c.aggregate = .partialAverage → row.typeAt c.countColumn = some .int) := by
  unfold observation observedType
  cases hf : c.aggregate <;>
    simp [Outcome.bind_eq_ok_iff, Row.getTyped_eq_ok_iff, Row.getInt_eq_ok_iff, Row.typeAt_eq_int_iff]
  case count => simp [Row.typeAt]
  case partialAverage => simp [countField_of_partialAverage hf]

theorem readable_iff : c.Readable row ↔ (∃ key, c.groupKey row = .ok key) ∧ ∃ o, c.observation row = .ok o := by
  rw [exists_groupKey_iff, exists_observation_iff, Readable]

/-! ## One group -/

/-- What is kept while the rows of a group arrive fits at every moment. -/
def KeptSums (c : Config) (rows : List Row) : Prop :=
  match c.aggregate with
  | .min | .max | .average | .sumAndCount => True
  | .sum => SumsFit (c.numbers rows)
  | .count => Fits rows.length
  | .partialAverage => SumsFit (c.numbers rows) ∧ SumsFit (c.counts rows)

theorem keptSums_nil (c : Config) : c.KeptSums [] := by
  unfold KeptSums
  split
  all_goals simp [numbers, counts]
  decide

theorem observation_cases {o : Observation} (h : c.observation row = .ok o) :
    (c.aggregate = .count ∧ o = .row) ∨
    (c.aggregate = .partialAverage ∧ ∃ s n, o = .subtotal s n) ∨
    (c.aggregate ≠ .count ∧ c.aggregate ≠ .partialAverage ∧ ∃ n, o = .number n) := by
  unfold observation at h
  split at h
  · obtain ⟨_, -, h⟩ := Outcome.bind_eq_ok_iff.mp h
    cases h
    exact .inl ⟨‹_›, rfl⟩
  · obtain ⟨_, -, h⟩ := Outcome.bind_eq_ok_iff.mp h
    obtain ⟨s, -, h⟩ := Outcome.bind_eq_ok_iff.mp h
    obtain ⟨n, -, h⟩ := Outcome.bind_eq_ok_iff.mp h
    cases h
    exact .inr (.inl ⟨‹_›, s, n, rfl⟩)
  all_goals
    obtain ⟨n, -, h⟩ := Outcome.bind_eq_ok_iff.mp h
    cases h
    exact .inr (.inr ⟨by simp_all, by simp_all, n, rfl⟩)

/-- What a configuration observes can start a group. -/
theorem exists_seed {o : Observation} (h : c.observation row = .ok o) :
    ∃ acc, Accumulator.seed c.aggregate o = .ok acc := by
  have hcases := observation_cases h
  generalize c.aggregate = f at hcases ⊢
  rcases hcases with ⟨rfl, rfl⟩ | ⟨rfl, s, n, rfl⟩ | ⟨hcount, hpartial, n, rfl⟩
  · exact ⟨_, rfl⟩
  · exact ⟨_, rfl⟩
  · cases f with
    | count => exact absurd rfl hcount
    | partialAverage => exact absurd rfl hpartial
    | min | max | sum | average | sumAndCount => exact ⟨_, rfl⟩

theorem keptSums_singleton (c : Config) (row : Row) : c.KeptSums [row] := by
  have hsum : ∀ index, SumsFit [row.number index] := fun index => by
    rw [← List.nil_append [row.number index], sumsFit_concat, List.sum_nil, zero_add]
    exact ⟨sumsFit_nil, row.fits_number index⟩
  unfold KeptSums
  split
  case h_5 => exact hsum c.field
  case h_6 => exact (by decide : Fits (1 : Nat))
  case h_7 => exact ⟨hsum c.field, hsum c.countColumn⟩
  all_goals trivial

/-- A group takes one more row exactly if what it keeps still fits with it. -/
theorem extend_isOk_iff {acc? : Option Accumulator} {o : Observation} (hg : c.gather rows = .ok acc?)
    (hk : c.KeptSums rows) (ho : c.observation row = .ok o) :
    (∃ acc, Accumulator.extend c.aggregate acc? o = .ok acc) ↔ c.KeptSums (rows ++ [row]) := by
  obtain ⟨hnone, hall⟩ := holds_of_gather hg
  cases acc? with
  | none =>
    rw [hnone.mp rfl, List.nil_append]
    exact iff_of_true (exists_seed ho) (c.keptSums_singleton row)
  | some acc =>
    obtain ⟨hagg, hh⟩ := hall acc rfl
    have hr := reads_of_observation ho
    have hcases := observation_cases ho
    rw [← hagg] at hcases ⊢
    unfold KeptSums at hk ⊢
    rw [← hagg] at hk ⊢
    rw [numbers_append, numbers_singleton, counts_append, counts_singleton, Accumulator.extend]
    cases acc with
    | min m | max m | average values | sumAndCount values =>
      obtain ⟨n, rfl⟩ : ∃ n, o = .number n := by simpa [Accumulator.aggregate] using hcases
      exact iff_of_true ⟨_, rfl⟩ trivial
    | sum s =>
      obtain ⟨n, rfl⟩ : ∃ n, o = .number n := by simpa [Accumulator.aggregate] using hcases
      have hs : s.toInt = (c.numbers rows).sum := hh
      have hn : row.number c.field = n.toInt := hr
      show _ ↔ SumsFit _
      rw [sumsFit_concat, ← hs, hn, ← exists_fits_add_iff .sum]
      constructor
      · rintro ⟨acc, h⟩
        obtain ⟨t, ht, -⟩ := Outcome.bind_eq_ok_iff.mp h
        exact ⟨hk, t, ht⟩
      · rintro ⟨-, t, ht⟩
        exact ⟨.sum t, by rw [Accumulator.update, ht]; rfl⟩
    | count k =>
      obtain rfl : o = .row := by simpa [Accumulator.aggregate] using hcases
      have hlen : k.toInt = rows.length := hh
      have hone : (1 : Int64).toInt = 1 := by decide
      show _ ↔ Fits _
      rw [List.length_append, List.length_singleton, Nat.cast_add, Nat.cast_one, ← hlen, ← hone,
        ← exists_fits_add_iff .count]
      constructor
      · rintro ⟨acc, h⟩
        obtain ⟨t, ht, -⟩ := Outcome.bind_eq_ok_iff.mp h
        exact ⟨t, ht⟩
      · rintro ⟨t, ht⟩
        exact ⟨.count t, by rw [Accumulator.update, ht]; rfl⟩
    | partialAverage s k =>
      obtain ⟨s', k', rfl⟩ : ∃ s' k', o = .subtotal s' k' := by simpa [Accumulator.aggregate] using hcases
      obtain ⟨hs, hlen⟩ := hh
      obtain ⟨hs', hk'⟩ := hr
      show _ ↔ SumsFit _ ∧ SumsFit _
      rw [sumsFit_concat, sumsFit_concat, ← hs, ← hlen, hs', hk', ← exists_fits_add_iff .partialSum,
        ← exists_fits_add_iff .partialCount]
      constructor
      · rintro ⟨acc, h⟩
        obtain ⟨t, ht, h⟩ := Outcome.bind_eq_ok_iff.mp h
        obtain ⟨u, hu, -⟩ := Outcome.bind_eq_ok_iff.mp h
        exact ⟨⟨hk.1, t, ht⟩, hk.2, u, hu⟩
      · rintro ⟨⟨-, t, ht⟩, -, u, hu⟩
        exact ⟨.partialAverage t u, by rw [Accumulator.update, ht, Outcome.ok_bind, hu]; rfl⟩

theorem KeptSums.of_concat (h : c.KeptSums (rows ++ [row])) : c.KeptSums rows := by
  unfold KeptSums at *
  split at h
  case h_1 | h_2 | h_3 | h_4 => trivial
  case h_5 =>
    rw [numbers_append, numbers_singleton, sumsFit_concat] at h
    exact h.1
  case h_6 =>
    rw [fits_natCast_iff] at h ⊢
    rw [List.length_append] at h
    omega
  case h_7 =>
    rw [numbers_append, numbers_singleton, counts_append, counts_singleton, sumsFit_concat, sumsFit_concat] at h
    exact ⟨h.1.1, h.2.1⟩

/-- A group can be gathered exactly if its rows can be observed and what it keeps fits at every moment. -/
theorem gather_isOk_iff :
    (∃ acc?, c.gather rows = .ok acc?) ↔ (∀ row ∈ rows, ∃ o, c.observation row = .ok o) ∧ c.KeptSums rows := by
  induction rows using List.reverseRecOn with
  | nil => exact iff_of_true ⟨none, rfl⟩ ⟨by simp, c.keptSums_nil⟩
  | append_singleton rows row ih =>
    rw [gather_concat]
    constructor
    · rintro ⟨acc?, h⟩
      obtain ⟨before?, hbefore, h⟩ := Outcome.bind_eq_ok_iff.mp h
      obtain ⟨hrows, hk⟩ := ih.mp ⟨before?, hbefore⟩
      obtain ⟨o, ho, h⟩ := Outcome.bind_eq_ok_iff.mp h
      obtain ⟨acc, hacc, -⟩ := Outcome.bind_eq_ok_iff.mp h
      refine ⟨?_, (extend_isOk_iff hbefore hk ho).mp ⟨acc, hacc⟩⟩
      intro row' hm
      simp only [List.mem_append, List.mem_singleton] at hm
      rcases hm with hm | rfl
      · exact hrows row' hm
      · exact ⟨o, ho⟩
    · rintro ⟨hrows, hk⟩
      obtain ⟨before?, hbefore⟩ := ih.mpr ⟨fun row' hm => hrows row' (List.mem_append_left _ hm), hk.of_concat⟩
      obtain ⟨o, ho⟩ := hrows row (by simp)
      obtain ⟨acc, hacc⟩ := (extend_isOk_iff hbefore hk.of_concat ho).mpr hk
      refine ⟨some acc, ?_⟩
      rw [hbefore, Outcome.ok_bind]
      exact extendBy_eq_ok_iff.mpr ⟨o, ho, hacc⟩

end Config

/-! ## A table of groups -/

namespace Aggregator

/-- The table of rows that are all merged. -/
theorem tabulates_mergeAll (h : ((empty c).mergeAll rows).outcome = .ok ()) :
    ((empty c).mergeAll rows).state.Tabulates rows ∧ ((empty c).mergeAll rows).state.config = c := by
  obtain ⟨hstate, haccepted⟩ := of_mergeAll_ok h
  have ht := tabulates_offerAll c rows
  rw [haccepted] at ht
  rw [hstate]
  exact ⟨ht, config_offerAll (empty c) rows⟩

theorem mergeAll_concat_isOk_iff {a : Aggregator} :
    (a.mergeAll (rows ++ [row])).outcome = .ok () ↔
      (a.mergeAll rows).outcome = .ok () ∧ ∃ a', (a.mergeAll rows).state.merge row = .ok a' := by
  rw [mergeAll, absorb_append]
  show _ ↔ (absorb merge a rows).outcome = _ ∧ ∃ a', merge (absorb merge a rows).state row = _
  rcases absorb merge a rows with ⟨⟨e⟩ | ⟨⟩, b⟩
  · simp
  · cases hm : b.merge row with
    | ok a' => simp [absorb_cons_ok [] hm]
    | error e => simp [absorb_cons_error [] hm]

/-- Rows can be merged as a whole exactly if each of their groups can be gathered. -/
theorem mergeAll_isOk_iff_gather :
    ((empty c).mergeAll rows).outcome = .ok () ↔
      (∀ row ∈ rows, ∃ key, c.groupKey row = .ok key) ∧
      ∀ key, ∃ acc?, c.gather (rows.filter (c.keyOf · = key)) = .ok acc? := by
  induction rows using List.reverseRecOn with
  | nil => simp
  | append_singleton rows row ih =>
    constructor
    · intro h
      obtain ⟨ht, hconf⟩ := tabulates_mergeAll h
      obtain ⟨hrows, a', hm⟩ := mergeAll_concat_isOk_iff.mp h
      refine ⟨?_, fun key => ⟨_, hconf ▸ ht.gather_eq key⟩⟩
      obtain ⟨key, o, hkey, -⟩ := merge_eq_ok_iff.mp hm
      rw [(tabulates_mergeAll hrows).2] at hkey
      intro row' hmem
      simp only [List.mem_append, List.mem_singleton] at hmem
      rcases hmem with hmem | rfl
      · exact (ih.mp hrows).1 row' hmem
      · exact ⟨key, hkey⟩
    · rintro ⟨hkeys, hgroups⟩
      -- a group of the first rows is a beginning of a group of all rows
      have hrows : ((empty c).mergeAll rows).outcome = .ok () := by
        refine ih.mpr ⟨fun row' hmem => hkeys row' (List.mem_append_left _ hmem), fun key => ?_⟩
        obtain ⟨acc?, h⟩ := hgroups key
        rw [List.filter_append] at h
        by_cases hk : c.keyOf row = key
        · rw [List.filter_cons_of_pos (by simpa using hk), List.filter_nil, Config.gather_concat] at h
          obtain ⟨before?, hbefore, -⟩ := Outcome.bind_eq_ok_iff.mp h
          exact ⟨before?, hbefore⟩
        · rw [List.filter_cons_of_neg (by simpa using hk), List.filter_nil, List.append_nil] at h
          exact ⟨acc?, h⟩
      refine mergeAll_concat_isOk_iff.mpr ⟨hrows, ?_⟩
      obtain ⟨ht, hconf⟩ := tabulates_mergeAll hrows
      generalize ((empty c).mergeAll rows).state = a at ht hconf ⊢
      obtain ⟨key, hkey⟩ := hkeys row (by simp)
      have hrow := Config.keyOf_of_groupKey hkey
      obtain ⟨acc?, h⟩ := hgroups key
      rw [List.filter_append, List.filter_cons_of_pos (by simpa using hrow), List.filter_nil, Config.gather_concat] at h
      obtain ⟨before?, hbefore, h⟩ := Outcome.bind_eq_ok_iff.mp h
      obtain ⟨o, ho, h⟩ := Outcome.bind_eq_ok_iff.mp h
      obtain ⟨acc, hacc, -⟩ := Outcome.bind_eq_ok_iff.mp h
      have hgather := ht.gather_eq key
      rw [hconf, hbefore, Except.ok.injEq] at hgather
      have hout := outcome_merge ht.consistent row
      rw [hconf, hkey, Outcome.ok_bind, ho, Outcome.ok_bind, ← hgather, hacc] at hout
      cases hm : a.merge row with
      | ok a' => exact ⟨a', rfl⟩
      | error e =>
        rw [hm] at hout
        cases hout

/-- **Which rows can be merged.** -/
theorem mergeAll_isOk_iff :
    ((empty c).mergeAll rows).outcome = .ok () ↔
      (∀ row ∈ rows, c.Readable row) ∧ ∀ key, c.KeptSums (rows.filter (c.keyOf · = key)) := by
  simp only [mergeAll_isOk_iff_gather, Config.gather_isOk_iff, Config.readable_iff, List.mem_filter,
    decide_eq_true_eq]
  constructor
  · rintro ⟨hkey, hgroups⟩
    exact ⟨fun row hm => ⟨hkey row hm, (hgroups (c.keyOf row)).1 row ⟨hm, rfl⟩⟩, fun key => (hgroups key).2⟩
  · rintro ⟨hrows, hk⟩
    exact ⟨fun row hm => (hrows row hm).1, fun key => ⟨fun row hm => (hrows row hm.1).2, hk key⟩⟩

end Aggregator

end Rollup
