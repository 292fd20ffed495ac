import Mathlib
import Rollup.Proofs.Aggregate.Groups
import Rollup.Proofs.Aggregate.Totals

/-!
# What is reported on a group

`Config.report` computes the result of a group from its rows alone, over exact integers: no accumulator, no order of
checks, no width of words. `Config.Entry` is the row or the error that the report becomes.

- `Holds` says what an accumulator has to hold for a list of rows; every observation keeps it (`holds_of_gather`);
- finalizing an accumulator that holds the rows of a group agrees with the report (`finalize_of_holds`), so that the
  group reads as its entry (`entry_of_agrees`); only the averages over raw numbers ask for fewer than `2 ^ 63` rows, and
  they have no more if they can be finalized at all (`length_lt_of_finalize`).
-/

namespace Rollup

open Exact

/-- The integer in a field. -/
def Row.number (row : Row) (index : Nat) : Int :=
  match row.values[index]? with
  | some (.int n) => n.toInt
  | _ => 0

theorem Row.number_of_getInt {row : Row} {index : Nat} {place : Place} {n : Int64}
    (h : row.getInt index place = .ok n) : row.number index = n.toInt := by
  simp [number, getInt_eq_ok_iff.mp h]

theorem Row.fits_number (row : Row) (index : Nat) : Fits (row.number index) := by
  unfold number
  split
  · exact fits_toInt _
  · decide

/-- The aggregate functions that keep all numbers and count them when they are read. -/
def Aggregate.KeepsNumbers (f : Aggregate) : Prop :=
  f = average ∨ f = sumAndCount

namespace Config

/-- The integers that rows hold in the aggregate field. -/
def numbers (c : Config) (rows : List Row) : List Int :=
  rows.map (·.number c.field)

/-- The counts that rows hold beside their subtotals. -/
def counts (c : Config) (rows : List Row) : List Int :=
  rows.map (·.number c.countColumn)

@[simp] theorem numbers_append (c : Config) (xs ys : List Row) : c.numbers (xs ++ ys) = c.numbers xs ++ c.numbers ys :=
  List.map_append

@[simp] theorem numbers_singleton (c : Config) (row : Row) : c.numbers [row] = [row.number c.field] := rfl

@[simp] theorem counts_append (c : Config) (xs ys : List Row) : c.counts (xs ++ ys) = c.counts xs ++ c.counts ys :=
  List.map_append

@[simp] theorem counts_singleton (c : Config) (row : Row) : c.counts [row] = [row.number c.countColumn] := rfl

/-- The result of a group with the given rows, over exact integers. -/
def report (c : Config) (rows : List Row) : Except Error (List Int) :=
  let sum := (c.numbers rows).sum
  let count := (c.counts rows).sum
  match c.aggregate with
  | .min => .ok (c.numbers rows).min?.toList
  | .max => .ok (c.numbers rows).max?.toList
  | .sum => .ok [sum]
  | .count => .ok [rows.length]
  | .average => if SumsFit (c.numbers rows) then .ok [sum.tdiv rows.length] else .error (.overflow .averageSum)
  | .sumAndCount => if SumsFit (c.numbers rows) then .ok [sum, rows.length] else .error (.overflow .averageSum)
  | .partialAverage =>
    if count = 0 then .error (.argument .zeroPartialCount)
    else if Fits (sum.tdiv count) then .ok [sum.tdiv count]
    else .error (.overflow .partialAverage)

/-- A report has as many numbers as its aggregate function fills columns. -/
theorem length_of_report {c : Config} {rows : List Row} {ns : List Int} (hne : rows ≠ []) (h : c.report rows = .ok ns) :
    ns.length = c.aggregate.outputWidth := by
  have hnum : c.numbers rows ≠ [] := by simpa [numbers] using hne
  have hmin := mt List.min?_eq_none_iff.mp hnum
  have hmax := mt List.max?_eq_none_iff.mp hnum
  unfold report at h
  split at h <;> rename_i hf <;> rw [hf]
  case h_1 =>
    obtain ⟨m, hm⟩ := Option.ne_none_iff_exists'.mp hmin
    cases h
    rw [hm]
    rfl
  case h_2 =>
    obtain ⟨m, hm⟩ := Option.ne_none_iff_exists'.mp hmax
    cases h
    rw [hm]
    rfl
  case h_3 | h_4 =>
    cases h
    rfl
  case h_5 | h_6 =>
    split at h <;> cases h
    rfl
  case h_7 =>
    dsimp only at h
    split at h
    · cases h
    · split at h <;> cases h
      rfl

/-- What reading a group gives: the group key, if there is grouping, and the numbers of its report. -/
inductive Entry (c : Config) (key : GroupKey) (rows : List Row) : Except Error Row → Prop
  | row (results : List Int64) (h : c.report rows = .ok (results.map Int64.toInt)) :
      Entry c key rows (.ok ⟨key.toList ++ results.map .int⟩)
  | error (e : Error) (h : c.report rows = .error e) : Entry c key rows (.error e)

namespace Entry

variable {c : Config} {key : GroupKey} {rows : List Row} {entry : Except Error Row}

theorem exists_of_ok {row : Row} (h : c.Entry key rows (.ok row)) :
    ∃ results : List Int64, row = ⟨key.toList ++ results.map .int⟩ ∧ c.report rows = .ok (results.map Int64.toInt) := by
  cases h with
  | row results h => exact ⟨results, rfl, h⟩

theorem report_eq_error {e : Error} (h : c.Entry key rows (.error e)) : c.report rows = .error e := by
  cases h with
  | error e h => exact h

/-- A report in 64-bit integers leaves one row to read. -/
theorem eq_row (h : c.Entry key rows entry) {results : List Int64}
    (hr : c.report rows = .ok (results.map Int64.toInt)) :
    entry = .ok ⟨key.toList ++ results.map .int⟩ := by
  cases h with
  | row results' h' =>
    rw [h', Except.ok.injEq] at hr
    rw [List.map_injective_iff.mpr (fun _ _ => Int64.toInt_inj.mp) hr]
  | error e h' =>
    rw [h'] at hr
    cases hr

theorem eq_error (h : c.Entry key rows entry) {e : Error} (hr : c.report rows = .error e) : entry = .error e := by
  cases h with
  | row results h' =>
    rw [h'] at hr
    cases hr
  | error e' h' =>
    rw [h'] at hr
    cases hr
    rfl

end Entry

end Config

/-! ## What accumulators hold -/

/-- The least member of a list stands for the list. -/
theorem min?_append {ns : List Int} {m : Int} (h : ns.min? = some m) (ms : List Int) :
    (ns ++ ms).min? = (m :: ms).min? := by
  cases ns with
  | nil => cases h
  | cons n ns =>
    rw [List.min?_cons', Option.some.injEq] at h
    rw [List.cons_append, List.min?_cons', List.min?_cons', List.foldl_append, h]

theorem max?_append {ns : List Int} {m : Int} (h : ns.max? = some m) (ms : List Int) :
    (ns ++ ms).max? = (m :: ms).max? := by
  cases ns with
  | nil => cases h
  | cons n ns =>
    rw [List.max?_cons', Option.some.injEq] at h
    rw [List.cons_append, List.max?_cons', List.max?_cons', List.foldl_append, h]

variable {c : Config} {row : Row} {rows : List Row}

/-- What an observation has to say about its row. -/
def Observation.Reads (c : Config) (row : Row) : Observation → Prop
  | .row => True
  | .number n => row.number c.field = n.toInt
  | .subtotal s n => row.number c.field = s.toInt ∧ row.number c.countColumn = n.toInt

theorem Config.reads_of_observation {o : Observation} (h : c.observation row = .ok o) : o.Reads c row := by
  unfold observation at h
  split at h
  · obtain ⟨_, -, h⟩ := Outcome.bind_eq_ok_iff.mp h
    cases h
    trivial
  · rw [Config.countField_of_partialAverage ‹_›, Outcome.ok_bind] at h
    obtain ⟨s, hs, h⟩ := Outcome.bind_eq_ok_iff.mp h
    obtain ⟨n, hn, h⟩ := Outcome.bind_eq_ok_iff.mp h
    cases h
    exact ⟨Row.number_of_getInt hs, Row.number_of_getInt hn⟩
  all_goals
    obtain ⟨n, hn, h⟩ := Outcome.bind_eq_ok_iff.mp h
    cases h
    exact Row.number_of_getInt hn

namespace Accumulator

/-- What an accumulator has to hold when its group has the given rows. -/
def Holds (c : Config) (rows : List Row) : Accumulator → Prop
  | min n => (c.numbers rows).min? = some n.toInt
  | max n => (c.numbers rows).max? = some n.toInt
  | sum s => s.toInt = (c.numbers rows).sum
  | count n => n.toInt = rows.length
  | average values | sumAndCount values => values.toList.map Int64.toInt = c.numbers rows
  | partialAverage s n => s.toInt = (c.numbers rows).sum ∧ n.toInt = (c.counts rows).sum

theorem toInt_min (a b : Int64) : (Min.min a b).toInt = Min.min a.toInt b.toInt := by
  show (if a ≤ b then a else b).toInt = _
  by_cases h : a ≤ b
  · rw [if_pos h, min_eq_left (Int64.le_iff_toInt_le.mp h)]
  · have hlt := mt Int64.le_iff_toInt_le.mpr h
    rw [if_neg h, min_eq_right (by omega)]

theorem toInt_max (a b : Int64) : (Max.max a b).toInt = Max.max a.toInt b.toInt := by
  show (if a ≤ b then b else a).toInt = _
  by_cases h : a ≤ b
  · rw [if_pos h, max_eq_right (Int64.le_iff_toInt_le.mp h)]
  · have hlt := mt Int64.le_iff_toInt_le.mpr h
    rw [if_neg h, max_eq_left (by omega)]

/-- A group starts with an accumulator that holds its first row. -/
theorem holds_of_seed {f : Aggregate} {o : Observation} {acc : Accumulator} (ho : o.Reads c row)
    (h : seed f o = .ok acc) : acc.Holds c [row] := by
  cases f <;> cases o <;> cases h <;> simp_all [Observation.Reads, Holds, Config.numbers, Config.counts]

/-- An accumulator that takes in an observation holds one row more. -/
theorem holds_of_update {o : Observation} {acc acc' : Accumulator} (hh : acc.Holds c rows) (ho : o.Reads c row)
    (h : acc.update o = .ok acc') : acc'.Holds c (rows ++ [row]) := by
  have hnum : c.numbers (rows ++ [row]) = c.numbers rows ++ [row.number c.field] := by simp
  have hcnt : c.counts (rows ++ [row]) = c.counts rows ++ [row.number c.countColumn] := by simp
  cases acc <;> cases o <;> simp only [update, Outcome.bind_eq_ok_iff, fits_eq_ok_iff, reduceCtorEq] at h
  case min.number m n =>
    cases h
    rw [Holds, hnum, min?_append hh, ho, toInt_min]
    rfl
  case max.number m n =>
    cases h
    rw [Holds, hnum, max?_append hh, ho, toInt_max]
    rfl
  case sum.number s n =>
    obtain ⟨t, ht, h⟩ := h
    cases h
    rw [Holds, hnum, List.sum_append, List.sum_singleton, ho, add?_eq_some_iff.mp ht, hh]
  case count.row k =>
    obtain ⟨t, ht, h⟩ := h
    cases h
    rw [Holds, add?_eq_some_iff.mp ht, hh, List.length_append]
    simp
  case average.number values n | sumAndCount.number values n =>
    cases h
    rw [Holds, hnum, Array.toList_push, List.map_append, hh, ho]
    rfl
  case partialAverage.subtotal s k s' k' =>
    obtain ⟨t, ht, u, hu, h⟩ := h
    cases h
    obtain ⟨hs, hk⟩ := hh
    obtain ⟨hos, hok⟩ := ho
    refine ⟨?_, ?_⟩
    · rw [hnum, List.sum_append, List.sum_singleton, hos, add?_eq_some_iff.mp ht, hs]
    · rw [hcnt, List.sum_append, List.sum_singleton, hok, add?_eq_some_iff.mp hu, hk]

end Accumulator

/-- What the rows of a group gather to belongs to the aggregate function and holds the rows. -/
theorem holds_of_gather {acc? : Option Accumulator} (h : c.gather rows = .ok acc?) :
    (acc? = none ↔ rows = []) ∧ ∀ acc ∈ acc?, acc.aggregate = c.aggregate ∧ acc.Holds c rows := by
  induction rows using List.reverseRecOn generalizing acc? with
  | nil =>
    cases h
    simp
  | append_singleton rows row ih =>
    rw [Config.gather_concat] at h
    obtain ⟨before?, hbefore, h⟩ := Outcome.bind_eq_ok_iff.mp h
    obtain ⟨hnone, hall⟩ := ih hbefore
    cases acc? with
    | none => simp [Config.extendBy, Outcome.bind_eq_ok_iff] at h
    | some acc =>
      obtain ⟨o, ho, hacc⟩ := Config.extendBy_eq_ok_iff.mp h
      have hr := Config.reads_of_observation ho
      refine ⟨by simp, ?_⟩
      rintro _ ⟨⟩
      refine ⟨Accumulator.aggregate_of_extend hacc fun acc' hm => (hall acc' hm).1, ?_⟩
      cases before? with
      | none =>
        rw [hnone.mp rfl]
        exact Accumulator.holds_of_seed hr hacc
      | some acc' => exact Accumulator.holds_of_update (hall acc' rfl).2 hr hacc

/-! ## Reading a group -/

/-- A summary shows the numbers of a report, and an error is the one of the report. -/
def Agrees (report : Except Error (List Int)) : Except Error Summary → Prop
  | .ok summary => ∃ results : List Int64, summary.values = results.map .int ∧ report = .ok (results.map Int64.toInt)
  | .error e => report = .error e

theorem entry_of_agrees {key : GroupKey} {acc : Accumulator} (h : Agrees (c.report rows) acc.finalize) :
    c.Entry key rows (Group.row ⟨key, acc⟩) := by
  unfold Group.row
  cases hf : acc.finalize with
  | error e =>
    rw [hf] at h
    exact .error e h
  | ok summary =>
    rw [hf] at h
    obtain ⟨results, hs, hr⟩ := h
    rw [Outcome.ok_bind, hs]
    exact .row results hr

namespace Accumulator

/-- The numbers of a group are totalled exactly if every sum on the way fits. -/
theorem totals_of_numbers {values : Array Int64} (hh : values.toList.map Int64.toInt = c.numbers rows)
    (hn : rows.length < 2 ^ 63) :
    (SumsFit (c.numbers rows) ∧ ∃ s k : Int64, totals values = .ok (s, k) ∧
      s.toInt = (c.numbers rows).sum ∧ k.toInt = rows.length) ∨
    (¬SumsFit (c.numbers rows) ∧ totals values = .error (.overflow .averageSum)) := by
  have hsize : values.size = rows.length := by
    have := congrArg List.length hh
    simpa [Config.numbers] using this
  obtain ⟨k, hk, htot⟩ := totals_eq values (by omega)
  rw [htot, ← hh]
  cases ht : total values.toList with
  | ok s =>
    obtain ⟨hf, hs⟩ := total_eq_ok_iff.mp ht
    exact .inl ⟨hf, s, k, rfl, hs, by rw [hk, hsize]⟩
  | error e =>
    obtain ⟨hnf, rfl⟩ := total_eq_error_iff.mp ht
    exact .inr ⟨hnf, rfl⟩

theorem finalize_sumAndCount {values : Array Int64} (hagg : c.aggregate = .sumAndCount)
    (hh : (sumAndCount values).Holds c rows) (hn : rows.length < 2 ^ 63) :
    Agrees (c.report rows) (sumAndCount values).finalize := by
  simp only [Config.report, hagg, finalize]
  rcases totals_of_numbers hh hn with ⟨hf, s, k, ht, hs, hk⟩ | ⟨hnf, ht⟩
  · rw [ht, if_pos hf, ← hs, ← hk]
    exact ⟨[s, k], rfl, rfl⟩
  · rw [ht, if_neg hnf]
    rfl

theorem finalize_average {values : Array Int64} (hagg : c.aggregate = .average)
    (hh : (average values).Holds c rows) (hne : rows ≠ []) (hn : rows.length < 2 ^ 63) :
    Agrees (c.report rows) (average values).finalize := by
  simp only [Config.report, hagg, finalize]
  rcases totals_of_numbers hh hn with ⟨hf, s, k, ht, hs, hk⟩ | ⟨hnf, ht⟩
  · have hpos : 0 < k.toInt := by
      have := List.length_pos_iff.mpr hne
      omega
    have hk0 : k ≠ 0 := by
      rintro rfl
      simp at hpos
    obtain ⟨q, hq, hqv⟩ := exists_of_fits (fits_tdiv s hpos)
    have hdiv : div? s k = some q := div?_eq_some_iff.mpr ⟨hk0, hqv⟩
    rw [ht, if_pos hf, ← hs, ← hk, ← hqv, Outcome.ok_bind]
    simp only [hdiv]
    exact ⟨[q], rfl, rfl⟩
  · rw [ht, if_neg hnf]
    rfl

theorem finalize_partialAverage {s n : Int64} (hagg : c.aggregate = .partialAverage)
    (hh : (partialAverage s n).Holds c rows) : Agrees (c.report rows) (partialAverage s n).finalize := by
  obtain ⟨hs, hn⟩ := hh
  simp only [Config.report, hagg, finalize, ← hs, ← hn]
  by_cases h0 : n = 0
  · rw [if_pos h0, if_pos (by rw [h0, Int64.toInt_zero])]
    rfl
  · have h0' : n.toInt ≠ 0 := fun h => h0 (Int64.toInt_inj.mp (h.trans Int64.toInt_zero.symm))
    rw [if_neg h0, if_neg h0']
    cases hdiv : div? s n with
    | none =>
      rw [div?, if_neg h0] at hdiv
      rw [if_neg (ofInt?_eq_none_iff_not_fits.mp hdiv)]
      rfl
    | some q =>
      have hq := (div?_eq_some_iff.mp hdiv).2
      rw [← hq, if_pos (fits_toInt q)]
      exact ⟨[q], rfl, rfl⟩

/-- Finalizing an accumulator that holds the rows of a group gives what is to be reported on them. -/
theorem finalize_of_holds {acc : Accumulator} (hagg : acc.aggregate = c.aggregate) (hh : acc.Holds c rows)
    (hne : rows ≠ []) (hn : c.aggregate.KeepsNumbers → rows.length < 2 ^ 63) :
    Agrees (c.report rows) acc.finalize := by
  cases acc with
  | min n =>
    refine ⟨[n], rfl, ?_⟩
    simp only [Config.report, ← hagg, aggregate]
    rw [show (c.numbers rows).min? = some n.toInt from hh]
    rfl
  | max n =>
    refine ⟨[n], rfl, ?_⟩
    simp only [Config.report, ← hagg, aggregate]
    rw [show (c.numbers rows).max? = some n.toInt from hh]
    rfl
  | sum s =>
    rw [Config.report, ← hagg]
    exact ⟨[s], rfl, congrArg (fun m => Except.ok [m]) hh.symm⟩
  | count n =>
    rw [Config.report, ← hagg]
    exact ⟨[n], rfl, congrArg (fun m => Except.ok [m]) hh.symm⟩
  | average values => exact finalize_average hagg.symm hh hne (hn (.inl hagg.symm))
  | partialAverage s n => exact finalize_partialAverage hagg.symm hh
  | sumAndCount values => exact finalize_sumAndCount hagg.symm hh (hn (.inr hagg.symm))

/-- A summary over raw numbers counts them, so there are few enough to be counted. -/
theorem length_lt_of_finalize {acc : Accumulator} {summary : Summary} (hagg : acc.aggregate = c.aggregate)
    (hh : acc.Holds c rows) (hf : acc.finalize = .ok summary) (hk : c.aggregate.KeepsNumbers) :
    rows.length < 2 ^ 63 := by
  obtain ⟨values, s, hvalues, ht⟩ : ∃ (values : Array Int64) (s : Int64 × Int64),
      values.toList.map Int64.toInt = c.numbers rows ∧ totals values = .ok s := by
    rw [← hagg] at hk
    cases acc with
    | average values =>
      obtain ⟨s, hs, -⟩ := Outcome.bind_eq_ok_iff.mp hf
      exact ⟨values, s, hh, hs⟩
    | sumAndCount values =>
      obtain ⟨s, hs, -⟩ := Outcome.bind_eq_ok_iff.mp hf
      exact ⟨values, s, hh, hs⟩
    | _ => simp [aggregate, Aggregate.KeepsNumbers] at hk
  have hlen := congrArg List.length hvalues
  rw [Config.numbers, List.length_map, List.length_map, Array.length_toList] at hlen
  rw [← hlen]
  exact size_lt_of_totals ht

end Accumulator

end Rollup
