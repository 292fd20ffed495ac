import Rollup.Proofs.Aggregate.Distributive
import Rollup.Proofs.Aggregate.Isolation

/-!
# Why rows are refused

A row is refused because it cannot be read, which shows in the row alone (`Config.check`), or because a total that its
group keeps does not fit with it, which depends on the rows before (`Sound.outcome_merge_cases`). So aggregates that
read the same fields refuse the same rows, up to overflows.

- `keys_offerAll`: the groups of a run and their order come from the rows that can be read, merged or not;
- `offers_eq_checks`: if the totals of all groups fit at every moment, then only the rows are refused that cannot be
  read;
- `no_overflow_at_iff`: the rows of a key meet no overflow exactly if the totals of the key fit at every moment;
- `entry_of_keptSums`: and then the key reads as the entry of all its rows that can be read.
-/

namespace Rollup

variable {c : Config} {row : Row} {rows : List Row} {key : GroupKey} {e : Error}

/-! ## Checks -/

theorem Aggregate.ne_partialAverage_of_no_totals {f : Aggregate} (h : f.keptTotals = []) : f ≠ .partialAverage := by
  rintro rfl
  cases h

/-- To ask for a value of integer type is to ask for an integer. -/
theorem Row.getTyped_int (row : Row) (index : Nat) (place : Place) :
    row.getTyped index place .int = (row.getInt index place).map .int := by
  unfold getTyped getInt
  cases row.get index with
  | error e => rfl
  | ok v => cases v <;> rfl

namespace Config

/-- Whether a row can be read, and the first error if it cannot. -/
def check (c : Config) (row : Row) : Except Error Unit := do
  let _ ← c.groupKey row
  let _ ← c.observation row
  return ()

/-- The rows, each with what its check says. -/
def checks (c : Config) (rows : List Row) : List (Row × Except Error Unit) :=
  rows.map fun row => (row, c.check row)

/-- The rows that can be read. -/
def readables (c : Config) (rows : List Row) : List Row :=
  rows.filter (c.check · = .ok ())

/-- The rows of a key that can be read. -/
def readablesAt (c : Config) (key : GroupKey) (rows : List Row) : List Row :=
  (c.readables rows).filter (c.keyOf · = key)

/-- What can come of a row: what its check says, or that a total does not fit with it. -/
def Fares (c : Config) (row : Row) (outcome : Except Error Unit) : Prop :=
  outcome = c.check row ∨
  (c.check row = .ok () ∧ ∃ quantity ∈ c.aggregate.keptTotals, outcome = .error (.overflow quantity))

theorem check_eq_ok_iff : c.check row = .ok () ↔ c.Readable row := by
  rw [readable_iff, check, Outcome.bind_eq_ok_iff]
  simp only [Outcome.bind_eq_ok_iff, Outcome.pure_eq, and_true]
  exact ⟨fun ⟨key, hkey, ho⟩ => ⟨⟨key, hkey⟩, ho⟩, fun ⟨⟨key, hkey⟩, ho⟩ => ⟨key, hkey, ho⟩⟩

theorem ofShape_of_check (h : c.check row = .error e) : e.OfShape := by
  rcases Outcome.bind_eq_error_iff.mp h with h | ⟨key, -, h⟩
  · exact ofShape_of_groupKey h
  · obtain h | ⟨_, _, ⟨⟩⟩ := Outcome.bind_eq_error_iff.mp h
    exact ofShape_of_observation h

theorem readables_cons_ok (rows : List Row) (h : c.check row = .ok ()) :
    c.readables (row :: rows) = row :: c.readables rows :=
  List.filter_cons_of_pos (decide_eq_true h)

theorem readables_cons_error (rows : List Row) (h : c.check row = .error e) :
    c.readables (row :: rows) = c.readables rows :=
  List.filter_cons_of_neg (by simp [h])

theorem readables_concat (c : Config) (rows : List Row) (row : Row) :
    c.readables (rows ++ [row]) = if c.check row = .ok () then c.readables rows ++ [row] else c.readables rows := by
  rw [readables, List.filter_append]
  split <;> rename_i h <;> simp [readables, h]

theorem readable_of_mem_readables (h : row ∈ c.readables rows) : c.Readable row :=
  check_eq_ok_iff.mp (of_decide_eq_true (List.mem_filter.mp h).2)

theorem readables_filter (c : Config) (p : Row → Bool) (rows : List Row) :
    c.readables (rows.filter p) = (c.readables rows).filter p := by
  unfold readables
  rw [List.filter_filter, List.filter_filter]
  exact List.filter_congr fun row _ => Bool.and_comm _ _

theorem filter_readablesAt (c : Config) (key : GroupKey) (rows : List Row) :
    (c.readablesAt key rows).filter (c.keyOf · = key) = c.readablesAt key rows := by
  simp [readablesAt, List.filter_filter]

/-- The rows of a key have the rows of no other key among them. -/
theorem readablesAt_filter (c : Config) (key key' : GroupKey) (rows : List Row) :
    c.readablesAt key' (rows.filter (c.keyOf · = key)) = if key = key' then c.readablesAt key rows else [] := by
  rw [readablesAt, readables_filter]
  split
  · subst_vars
    exact c.filter_readablesAt key' rows
  · rename_i hne
    rw [List.filter_filter, List.filter_eq_nil_iff]
    intro row _ h
    simp only [Bool.and_eq_true, decide_eq_true_eq] at h
    exact hne (h.2.symm.trans h.1)

/-- In a run of the rows of one key the totals of the other keys are empty. -/
theorem keptSums_filter_iff (c : Config) (key : GroupKey) (rows : List Row) :
    (∀ key', c.KeptSums (c.readablesAt key' (rows.filter (c.keyOf · = key)))) ↔
      c.KeptSums (c.readablesAt key rows) := by
  constructor
  · intro h
    simpa [readablesAt_filter] using h key
  · intro h key'
    rw [readablesAt_filter]
    split
    · exact h
    · exact c.keptSums_nil

section OverField

variable {groupBy : Option GroupBy} {field : Nat} {f : Aggregate} (hf : f ≠ .partialAverage)
include hf

/-- Every aggregate over the integers in a field makes the same check of a row, except that a partial average reads its
counts too. -/
theorem check_overField (row : Row) :
    (overField groupBy field f).check row = (overField groupBy field .average).check row := by
  have hkey : (overField groupBy field f).groupKey row = (overField groupBy field .average).groupKey row := rfl
  unfold check observation
  rw [hkey]
  cases (overField groupBy field .average).groupKey row with
  | error e => rfl
  | ok key =>
    cases f with
    | partialAverage => exact absurd rfl hf
    | count =>
      simp only [overField, Row.getTyped_int]
      cases row.getInt field .aggregateField <;> rfl
    | min | max | sum | average | sumAndCount => rfl

theorem checks_overField (rows : List Row) :
    (overField groupBy field f).checks rows = (overField groupBy field .average).checks rows :=
  List.map_congr_left fun row _ => by rw [check_overField hf]

theorem readables_overField (rows : List Row) :
    (overField groupBy field f).readables rows = (overField groupBy field .average).readables rows :=
  List.filter_congr fun row _ => by rw [check_overField hf]

theorem readablesAt_overField (key : GroupKey) (rows : List Row) :
    (overField groupBy field f).readablesAt key rows = (overField groupBy field .average).readablesAt key rows := by
  rw [readablesAt, readables_overField hf]
  rfl

end OverField

/-- An aggregate that keeps no totals has none that could fail to fit. -/
theorem keptSums_of_no_totals (h : c.aggregate.keptTotals = []) (rows : List Row) : c.KeptSums rows := by
  unfold KeptSums
  cases hf : c.aggregate with
  | min | max | average | sumAndCount => trivial
  | sum | count | partialAverage =>
    rw [hf] at h
    cases h

end Config

/-! ## One row -/

namespace Aggregator

variable {a : Aggregator}

theorem merge_of_check_error (h : a.config.check row = .error e) : a.merge row = .error e := by
  unfold merge
  rcases Outcome.bind_eq_error_iff.mp h with h | ⟨key, hkey, h⟩
  · rw [h]
    rfl
  · obtain h | ⟨_, _, ⟨⟩⟩ := Outcome.bind_eq_error_iff.mp h
    rw [hkey, Outcome.ok_bind, h]
    rfl

/-- A merge gives what the check of the row says, unless a total does not fit. -/
theorem Sound.outcome_merge_cases (hs : a.Sound) (row : Row) :
    (a.merge row).map (fun _ => ()) = a.config.check row ∨
    (a.config.check row = .ok () ∧
      ∃ quantity ∈ a.config.aggregate.keptTotals, a.merge row = .error (.overflow quantity)) := by
  cases h : a.config.check row with
  | error e => exact .inl (by rw [merge_of_check_error h]; rfl)
  | ok =>
    rcases hs.merge_of_readable (Config.check_eq_ok_iff.mp h) with ⟨a', hm⟩ | ⟨quantity, hq, hm⟩
    · exact .inl (by rw [hm]; rfl)
    · exact .inr ⟨rfl, quantity, hq, hm⟩

theorem check_of_merge {a' : Aggregator} (h : a.merge row = .ok a') : a.config.check row = .ok () := by
  cases hcheck : a.config.check row with
  | ok => rfl
  | error e =>
    rw [merge_of_check_error hcheck] at h
    cases h

/-- A row that can be read is never refused by a key that is new. -/
theorem Consistent.exists_merge_of_new (hc : a.Consistent) (hr : a.config.Readable row)
    (hnew : a.config.keyOf row ∉ a.keys) : ∃ a', a.merge row = .ok a' := by
  obtain ⟨⟨key, hkey⟩, o, ho⟩ := Config.readable_iff.mp hr
  rw [Config.keyOf_of_groupKey hkey] at hnew
  have hslot : a.slots[key]? = none :=
    Option.eq_none_iff_forall_ne_some.mpr fun slot hs => hnew (hc.mem_keys_iff.mpr ⟨slot, hs⟩)
  obtain ⟨acc, hacc⟩ := Config.exists_seed ho
  rw [Aggregator.merge, hkey, Outcome.ok_bind, ho, Outcome.ok_bind, hslot]
  show ∃ a', a.addGroup key o = .ok a'
  exact ⟨_, by rw [Aggregator.addGroup, hacc]; rfl⟩

/-- A row that can be read brings its key along, even if the row itself is refused. -/
theorem Consistent.keys_offer (hc : a.Consistent) (row : Row) :
    (a.offer row).keys =
      if a.config.check row = .ok () then
        if a.config.keyOf row ∈ a.keys then a.keys else a.keys ++ [a.config.keyOf row]
      else a.keys := by
  cases hm : a.merge row with
  | ok a' =>
    obtain ⟨key, o, acc, hkey, -, -, hkeys, -⟩ := merge_extends hc hm
    rw [offer_of_ok hm, hkeys, Config.keyOf_of_groupKey hkey, if_pos (check_of_merge hm)]
  | error e =>
    rw [offer_of_error hm]
    split
    · rename_i hcheck
      rw [if_pos]
      by_contra hnew
      obtain ⟨a', hm'⟩ := hc.exists_merge_of_new (Config.check_eq_ok_iff.mp hcheck) hnew
      rw [hm] at hm'
      cases hm'
    · rfl

/-! ## Runs -/

theorem sound_offerAll (c : Config) (rows : List Row) : ((empty c).offerAll rows).Sound :=
  offerAll_induction (P := fun a _ => a.Sound) Sound.merge [] (sound_empty c) rows

/-- The groups of a run stand in the order of their first rows that can be read. -/
theorem keys_offerAll (c : Config) (rows : List Row) :
    ((empty c).offerAll rows).keys = ((c.readables rows).map c.keyOf).eraseDups := by
  induction rows using List.reverseRecOn with
  | nil => rfl
  | append_singleton rows row ih =>
    have hkeys := (sound_offerAll c rows).consistent.keys_offer row
    rw [ih, config_offerAll (empty c) rows] at hkeys
    rw [offerAll_concat, hkeys, Config.readables_concat, apply_ite (List.map c.keyOf), apply_ite List.eraseDups,
      List.map_append, List.map_singleton, eraseDups_concat]
    simp only [List.mem_eraseDups]
    rfl

/-- The rows that can be read are all merged exactly if checks decide what comes of every row. -/
theorem offers_eq_checks_iff (hconf : a.config = c) (rows : List Row) :
    a.offers rows = c.checks rows ↔ (a.mergeAll (c.readables rows)).outcome = .ok () := by
  induction rows generalizing a with
  | nil => exact iff_of_true rfl rfl
  | cons row rows ih =>
    rw [offers_cons, Config.checks, List.map_cons, ← Config.checks, List.cons.injEq]
    cases hcheck : c.check row with
    | error e =>
      have hm : a.merge row = .error e := merge_of_check_error (hconf ▸ hcheck)
      rw [Config.readables_cons_error rows hcheck, offer_of_error hm, hm, ← ih hconf]
      exact and_iff_right rfl
    | ok =>
      rw [Config.readables_cons_ok rows hcheck]
      cases hm : a.merge row with
      | ok a' =>
        rw [mergeAll_cons_ok _ hm, offer_of_ok hm, ← ih ((config_merge hm).trans hconf)]
        exact and_iff_right rfl
      | error e =>
        rw [mergeAll_cons_error _ hm]
        exact iff_of_false (by simp) nofun

theorem accepted_eq_offers (a : Aggregator) (rows : List Row) :
    a.accepted rows = ((a.offers rows).filter (·.2 = .ok ())).map Prod.fst := by
  induction rows generalizing a with
  | nil => rfl
  | cons row rows ih =>
    rw [offers_cons]
    cases hm : a.merge row with
    | ok a' =>
      rw [accepted_cons_ok rows hm, offer_of_ok hm, ih, List.filter_cons_of_pos (by simp)]
      rfl
    | error e => rw [accepted_cons_error rows hm, offer_of_error hm, ih, List.filter_cons_of_neg (by simp)]

theorem accepted_eq_readables (h : a.offers rows = c.checks rows) : a.accepted rows = c.readables rows := by
  rw [accepted_eq_offers, h, Config.checks, List.filter_map, List.map_map]
  exact List.map_id _

/-- Every row of a run fares as its check says, or a total does not fit with it. -/
theorem Sound.offers_fares (hs : a.Sound) (hconf : a.config = c) (rows : List Row) :
    List.Forall₂ (fun x row => x.1 = row ∧ c.Fares row x.2) (a.offers rows) rows := by
  induction rows generalizing a with
  | nil => exact .nil
  | cons row rows ih =>
    rw [offers_cons]
    subst hconf
    refine .cons ⟨rfl, ?_⟩ ?_
    · rcases hs.outcome_merge_cases row with h | ⟨hcheck, quantity, hq, hm⟩
      · exact .inl h
      · exact .inr ⟨hcheck, quantity, hq, by rw [hm]; rfl⟩
    · cases hm : a.merge row with
      | ok a' =>
        rw [offer_of_ok hm]
        exact ih (hs.merge hm) (config_merge hm)
      | error e =>
        rw [offer_of_error hm]
        exact ih hs rfl

/-- Checks decide what comes of every row exactly if there is no overflow. -/
theorem Sound.offers_eq_checks_iff_no_overflow (hs : a.Sound) (hconf : a.config = c) (rows : List Row) :
    a.offers rows = c.checks rows ↔ ∀ x ∈ a.offers rows, ∀ quantity, x.2 ≠ .error (.overflow quantity) := by
  constructor
  · intro h x hx quantity hq
    rw [h] at hx
    obtain ⟨row, -, rfl⟩ := List.mem_map.mp hx
    exact (Config.ofShape_of_check hq).ne_overflow quantity rfl
  · intro h
    have hfares := (List.forall₂_and_left _ _).mpr ⟨h, hs.offers_fares hconf rows⟩
    rw [Config.checks, ← List.forall₂_eq_eq_eq, List.forall₂_map_right_iff]
    refine hfares.imp ?_
    rintro ⟨row, outcome⟩ _ ⟨hno, rfl, ho | ⟨-, quantity, -, hq⟩⟩
    · exact Prod.ext rfl ho
    · exact absurd hq (hno quantity)

/-! ## Totals that fit -/

/-- A run meets no overflow exactly if the totals of all keys fit at every moment. -/
theorem no_overflow_iff (c : Config) (rows : List Row) :
    (∀ x ∈ (empty c).offers rows, ∀ quantity, x.2 ≠ .error (.overflow quantity)) ↔
      ∀ key, c.KeptSums (c.readablesAt key rows) := by
  rw [← (sound_empty c).offers_eq_checks_iff_no_overflow rfl, offers_eq_checks_iff rfl, mergeAll_isOk_iff]
  exact and_iff_right fun row => Config.readable_of_mem_readables

/-- If the totals of all keys fit at every moment, then the rows are refused that cannot be read, and no others. -/
theorem offers_eq_checks (h : ∀ key, c.KeptSums (c.readablesAt key rows)) :
    (empty c).offers rows = c.checks rows :=
  ((sound_empty c).offers_eq_checks_iff_no_overflow rfl rows).mpr ((no_overflow_iff c rows).mpr h)

/-- An aggregate over the integers in a field that keeps no totals refuses the rows that cannot be read, and no
others. -/
theorem offers_of_no_totals {groupBy : Option GroupBy} {field : Nat} {f : Aggregate} (h : f.keptTotals = [])
    (rows : List Row) :
    (empty (Config.overField groupBy field f)).offers rows = (Config.overField groupBy field .average).checks rows := by
  rw [← Config.checks_overField (Aggregate.ne_partialAverage_of_no_totals h)]
  exact offers_eq_checks fun _ => Config.keptSums_of_no_totals h _

/-- The rows of a key meet no overflow exactly if the totals of the key fit at every moment, whatever the other keys
do. -/
theorem no_overflow_at_iff (c : Config) (rows : List Row) (key : GroupKey) :
    (∀ x ∈ (empty c).offers rows, c.keyOf x.1 = key → ∀ quantity, x.2 ≠ .error (.overflow quantity)) ↔
      c.KeptSums (c.readablesAt key rows) := by
  obtain ⟨hoffers, -⟩ := (agreeAt_empty key c).offerAll (c := c) rfl rows
  have hown := no_overflow_iff c (rows.filter (c.keyOf · = key))
  rw [← hoffers] at hown
  simp only [List.mem_filter, decide_eq_true_eq, and_imp] at hown
  rw [hown, Config.keptSums_filter_iff]

section ReadBack

variable (hk : c.KeptSums (c.readablesAt key rows)) (hne : c.readablesAt key rows ≠ [])
  (hn : c.aggregate.KeepsNumbers → (c.readablesAt key rows).length < 2 ^ 63)
include hk hne hn

/-- If the totals of a key fit at every moment, then the key reads as the entry of all its rows that can be read. -/
theorem entry_of_keptSums :
    ∃ entry, ((empty c).offerAll rows).read? key = some entry ∧ c.Entry key (c.readablesAt key rows) entry := by
  -- the rows of the key are looked at in a run of their own, which merges all that can be read
  obtain ⟨-, hagree⟩ := (agreeAt_empty key c).offerAll (c := c) rfl rows
  have hoffers := offers_eq_checks ((c.keptSums_filter_iff key rows).mpr hk)
  have haccepted : (empty c).accepted (rows.filter (c.keyOf · = key)) = c.readablesAt key rows :=
    (accepted_eq_readables hoffers).trans (c.readables_filter _ rows)
  have ht := tabulates_offerAll c (rows.filter (c.keyOf · = key))
  have hconf := config_offerAll (empty c) (rows.filter (c.keyOf · = key))
  rw [haccepted] at ht
  rw [hagree.read?_eq, ht.consistent.read?_eq]
  generalize (empty c).offerAll (rows.filter (c.keyOf · = key)) = b at ht hconf ⊢
  obtain rfl : b.config = c := hconf
  have hown := b.config.filter_readablesAt key rows
  obtain ⟨entry, -, hentry⟩ := ht.consistent.exists_outcome (ht.mem_keys_iff.mpr (by rwa [hown]))
  have h := ht.entry (by rwa [hown]) hentry
  rw [hown] at h
  exact ⟨entry, hentry, h⟩

/-- The numbers that are reported on a key are read for it. -/
theorem read?_of_report {ns : List Int} (hr : c.report (c.readablesAt key rows) = .ok ns) :
    ∃ results : List Int64, results.map Int64.toInt = ns ∧
      ((empty c).offerAll rows).read? key = some (.ok ⟨key.toList ++ results.map .int⟩) := by
  obtain ⟨entry, hread, hentry⟩ := entry_of_keptSums hk hne hn
  cases hentry with
  | row results h =>
    rw [hr, Except.ok.injEq] at h
    exact ⟨results, h.symm, hread⟩
  | error e h =>
    rw [hr] at h
    cases h

/-- There is a row for a key exactly if there is a report on it. -/
theorem read?_isRow_iff :
    (∃ row, ((empty c).offerAll rows).read? key = some (.ok row)) ↔
      ∃ ns, c.report (c.readablesAt key rows) = .ok ns := by
  obtain ⟨entry, hread, hentry⟩ := entry_of_keptSums hk hne hn
  rw [hread]
  cases hentry with
  | row results h => exact iff_of_true ⟨_, rfl⟩ ⟨_, h⟩
  | error e h =>
    rw [h]
    exact iff_of_false nofun nofun

end ReadBack

/-- The one number that a distributive aggregate reports on a key is read for it. -/
theorem read?_of_combiner {f : Aggregate} (hc : c.aggregate.combiner? = some f)
    (hk : c.KeptSums (c.readablesAt key rows)) (hne : c.readablesAt key rows ≠ []) :
    ∃ n : Int64, ((empty c).offerAll rows).read? key = some (.ok ⟨key.toList ++ [.int n]⟩) ∧
      c.report (c.readablesAt key rows) = .ok [n.toInt] := by
  have hn : ¬c.aggregate.KeepsNumbers := by
    rintro (h | h) <;> rw [h] at hc <;> cases hc
  obtain ⟨n, hreport⟩ := Config.exists_report hc hne
  obtain ⟨results, hresults, hread⟩ := read?_of_report hk hne (fun h => absurd h hn) hreport
  obtain ⟨m, rfl, rfl⟩ := List.map_eq_singleton_iff.mp hresults
  exact ⟨m, hread, hreport⟩

end Aggregator

end Rollup
