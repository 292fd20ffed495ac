import Rollup.Proofs.Aggregate.Refusals

/-!
# What is asked of a row

A `Requirement` is one thing that a row has to fulfil to be merged, and `Requirement.fault?` is the error of a row that
does not fulfil it. `Config.requirements` lists all of them: first those on the fields that are read, in the order in
which they are read, and then those on the totals of the group, which a row that opens a group does not meet.

- `error?_groupKey`, `error?_observation`: a row is read as far as the first fault of the requirements on its fields;
- `error?_extend`: it is added to its group unless a total is at fault;
- `Tabulates.error?_merge`: so a merge gives the first fault of all of them, and `merged_or_first_fault` says so of every
  aggregator that can be built.
-/

namespace Rollup

open Outcome (error? error?_bind error?_bind_pure)

/-! ## Requirements -/

/-- What is asked of a row that is to be merged. -/
inductive Requirement where
  /-- The row has a field at this position. -/
  | present (index : Nat)
  /-- The field at this position has this type. -/
  | typed (place : Place) (index : Nat) (type : ValueType)
  /-- With the row the total of its group is a number of 64 bits. -/
  | fits (quantity : Quantity) (total : Int)
  deriving DecidableEq

namespace Requirement

/-- The error of a row that does not fulfil a requirement. A field that is not there has no type at fault. -/
def fault? (row : Row) : Requirement → Option Error
  | present index => if index < row.width then none else some (.argument (.fieldOutOfRange index row.width))
  | typed place index type =>
    (row.typeAt index).bind fun got => if got = type then none else some (.mismatch place type got)
  | fits quantity total => if Exact.Fits total then none else some (.overflow quantity)

/-- What is asked of a field that is read. -/
def onField (place : Place) (index : Nat) (type : ValueType) : List Requirement :=
  [present index, typed place index type]

/-- The first fault of a row. -/
def firstFault? (requirements : List Requirement) (row : Row) : Option Error :=
  requirements.findSome? (fault? row)

@[simp] theorem firstFault?_nil (row : Row) : firstFault? [] row = none := rfl

theorem firstFault?_append (xs ys : List Requirement) (row : Row) :
    firstFault? (xs ++ ys) row = (firstFault? xs row).or (firstFault? ys row) :=
  List.findSome?_append

theorem firstFault?_singleton (r : Requirement) (row : Row) : firstFault? [r] row = r.fault? row := by
  rw [firstFault?, List.findSome?_cons]
  cases r.fault? row <;> rfl

end Requirement

open Requirement (onField firstFault? firstFault?_append firstFault?_singleton)

namespace Config

/-- What is asked of the fields that are read, in the order in which they are read. -/
def fieldRequirements (c : Config) : List Requirement :=
  (c.groupBy.toList.flatMap fun g => onField .groupKey g.index g.type) ++
    (onField .aggregateField c.field c.fieldType ++
      if c.aggregate = .partialAverage then onField .partialCountField c.countColumn .int else [])

/-- What is asked of the totals that a group keeps. The first row of a group is its totals and always fits. -/
def totalRequirements (c : Config) (group : List Row) (row : Row) : List Requirement :=
  if group = [] then []
  else match c.aggregate with
    | .sum => [.fits .sum (c.numbers (group ++ [row])).sum]
    | .count => [.fits .count (group ++ [row]).length]
    | .partialAverage =>
      [.fits .partialSum (c.numbers (group ++ [row])).sum, .fits .partialCount (c.counts (group ++ [row])).sum]
    | .min | .max | .average | .sumAndCount => []

/-- All that is asked of a row after other rows were merged, in the order in which it is looked at. -/
def requirements (c : Config) (merged : List Row) (row : Row) : List Requirement :=
  c.fieldRequirements ++ c.totalRequirements (merged.filter (c.keyOf · = c.keyOf row)) row

end Config

/-! ## Reading a row -/

namespace Row

theorem error?_getTyped (row : Row) (index : Nat) (place : Place) (type : ValueType) :
    error? (row.getTyped index place type) = firstFault? (onField place index type) row := by
  rw [onField, ← List.singleton_append, firstFault?_append, firstFault?_singleton, firstFault?_singleton,
    Requirement.fault?, Requirement.fault?, typeAt, getTyped]
  cases hv : row.values[index]? with
  | none =>
    have hle : ¬index < row.width := Nat.not_lt.mpr (List.getElem?_eq_none_iff.mp hv)
    rw [get, hv, if_neg hle]
    rfl
  | some v =>
    have hlt : index < row.width := (List.getElem?_eq_some_iff.mp hv).1
    rw [get_eq_ok_iff.mpr hv, Outcome.ok_bind, if_pos hlt, Option.map_some, Option.bind_some, Option.none_or]
    split <;> rfl

theorem error?_getInt (row : Row) (index : Nat) (place : Place) :
    error? (row.getInt index place) = firstFault? (onField place index .int) row := by
  rw [← error?_getTyped, getTyped_int, Outcome.error?_map]

end Row

namespace Config

variable {c : Config} {row : Row} {group : List Row} {o : Observation} {acc? : Option Accumulator}

theorem error?_groupKey (c : Config) (row : Row) :
    error? (c.groupKey row) =
      firstFault? (c.groupBy.toList.flatMap fun g => onField .groupKey g.index g.type) row := by
  unfold groupKey
  cases c.groupBy with
  | none => rfl
  | some g =>
    rw [Option.toList_some, List.flatMap_singleton]
    exact (error?_bind_pure _ _).trans (row.error?_getTyped _ _ _)

/-- An aggregate that is not refused reads its own field in the type that it is told the field has. -/
theorem error?_observation (hvalid : c.validate = .ok ()) (row : Row) :
    error? (c.observation row) =
      firstFault? (onField .aggregateField c.field c.fieldType ++
        if c.aggregate = .partialAverage then onField .partialCountField c.countColumn .int else []) row := by
  have htype := observedType_of_validate hvalid
  rw [firstFault?_append, ← htype]
  unfold observation observedType
  cases hf : c.aggregate with
  | count =>
    dsimp only
    rw [if_neg (by decide), Requirement.firstFault?_nil, Option.or_none, ← Row.error?_getTyped]
    exact error?_bind_pure _ _
  | partialAverage =>
    dsimp only
    rw [if_pos rfl, countField_of_partialAverage hf, Outcome.ok_bind, ← Row.error?_getInt, ← Row.error?_getInt]
    exact error?_bind fun _ _ => error?_bind_pure _ _
  | min | max | sum | average | sumAndCount =>
    dsimp only
    rw [if_neg (by decide), Requirement.firstFault?_nil, Option.or_none, ← Row.error?_getInt]
    exact error?_bind_pure _ _

/-! ## Adding a row to its group -/

theorem error?_fits_add (quantity : Quantity) (s n : Int64) (row : Row) :
    error? (fits quantity (Exact.add? s n)) = Requirement.fault? row (.fits quantity (s.toInt + n.toInt)) := by
  rw [Requirement.fault?]
  cases h : Exact.add? s n with
  | none => rw [if_neg (Exact.ofInt?_eq_none_iff_not_fits.mp h)]; rfl
  | some t => rw [← Exact.add?_eq_some_iff.mp h, if_pos (Exact.fits_toInt t)]; rfl

/-- A row that can be read is added to its group unless a total that the group keeps is at fault. -/
theorem error?_extend (hg : c.gather group = .ok acc?) (ho : c.observation row = .ok o) :
    error? (Accumulator.extend c.aggregate acc? o) = firstFault? (c.totalRequirements group row) row := by
  obtain ⟨hnone, hall⟩ := holds_of_gather hg
  cases acc? with
  | none =>
    obtain ⟨acc, hacc⟩ := exists_seed ho
    rw [totalRequirements, if_pos (hnone.mp rfl), Accumulator.extend, hacc]
    rfl
  | some acc =>
    have hne : group ≠ [] := fun h => Option.some_ne_none acc (hnone.mpr h)
    obtain ⟨hagg, hh⟩ := hall acc rfl
    have hr := reads_of_observation ho
    have hcases := observation_cases ho
    rw [totalRequirements, if_neg hne, numbers_append, numbers_singleton, counts_append, counts_singleton,
      List.sum_append, List.sum_singleton, List.sum_append, List.sum_singleton, Accumulator.extend]
    rw [← hagg] at hcases ⊢
    cases acc with
    | min m | max m | average values | sumAndCount values =>
      obtain ⟨n, rfl⟩ : ∃ n, o = .number n := by simpa [Accumulator.aggregate] using hcases
      rfl
    | sum s =>
      obtain ⟨n, rfl⟩ : ∃ n, o = .number n := by simpa [Accumulator.aggregate] using hcases
      have hs : s.toInt = (c.numbers group).sum := hh
      have hn : row.number c.field = n.toInt := hr
      show _ = firstFault? [_] row
      rw [firstFault?_singleton, ← hs, hn, ← error?_fits_add]
      exact error?_bind_pure _ _
    | count k =>
      obtain rfl : o = .row := by simpa [Accumulator.aggregate] using hcases
      have hlen : k.toInt = group.length := hh
      have hone : (1 : Int64).toInt = 1 := by decide
      show _ = firstFault? [_] row
      rw [firstFault?_singleton, List.length_append, List.length_singleton, Nat.cast_add, Nat.cast_one, ← hlen, ← hone,
        ← error?_fits_add]
      exact error?_bind_pure _ _
    | partialAverage s k =>
      obtain ⟨s', k', rfl⟩ : ∃ s' k', o = .subtotal s' k' := by simpa [Accumulator.aggregate] using hcases
      obtain ⟨hs, hlen⟩ := hh
      obtain ⟨hs', hk'⟩ := hr
      show _ = firstFault? ([_] ++ [_]) row
      rw [firstFault?_append, firstFault?_singleton, firstFault?_singleton, ← hs, ← hlen, hs', hk', ← error?_fits_add,
        ← error?_fits_add]
      exact error?_bind fun _ _ => error?_bind_pure _ _

end Config

/-! ## Merging a row -/

namespace Aggregator

variable {a : Aggregator} {c : Config} {merged : List Row}

/-- A merge fails with the first fault of a row, if it has one. -/
theorem Tabulates.error?_merge (ht : a.Tabulates merged) (hvalid : a.config.validate = .ok ()) (row : Row) :
    error? (a.merge row) = firstFault? (a.config.requirements merged row) row := by
  rw [← Outcome.error?_map (fun _ => ()), outcome_merge ht.consistent, Config.requirements, Config.fieldRequirements,
    List.append_assoc, firstFault?_append, firstFault?_append, ← Config.error?_groupKey,
    ← Config.error?_observation hvalid]
  refine error?_bind fun key hkey => error?_bind fun o ho => ?_
  rw [Config.keyOf_of_groupKey hkey, ← Config.error?_extend (ht.gather_eq key) ho]
  exact error?_bind_pure _ _

/-- A row that opens a group overflows nothing. -/
theorem Sound.merge_ne_overflow_of_new {row : Row} (hs : a.Sound) (hnew : a.config.keyOf row ∉ a.keys)
    (quantity : Quantity) : a.merge row ≠ .error (.overflow quantity) := by
  intro hm
  cases hcheck : a.config.check row with
  | error e =>
    rw [merge_of_check_error hcheck] at hm
    cases hm
    exact (Config.ofShape_of_check hcheck).ne_overflow quantity rfl
  | ok =>
    obtain ⟨a', hm'⟩ := hs.consistent.exists_merge_of_new (Config.check_eq_ok_iff.mp hcheck) hnew
    rw [hm] at hm'
    cases hm'

theorem Built.validate_eq (h : Built c a) : c.validate = .ok () := by
  obtain ⟨_, hvalid, -⟩ := Outcome.bind_eq_ok_iff.mp h.ofConfig_eq
  exact hvalid

theorem Built.exists_mergeAll (h : Built c a) : ∃ merged, (empty c).mergeAll merged = ⟨.ok (), a⟩ := by
  obtain ⟨merged, hrun, haccepted⟩ := h.exists_rows
  have hall := mergeAll_accepted (empty c) merged
  rw [haccepted, hrun] at hall
  exact ⟨merged, hall⟩

/-- **Why a row is refused.** Every aggregator that can be built comes of rows that were all merged. From then on a row
is merged exactly if it has none of the faults that these rows leave it to have, and otherwise the first of them is the
error. A row that opens a group overflows nothing. -/
theorem merged_or_first_fault (h : Built c a) :
    (∃ merged, (empty c).mergeAll merged = ⟨.ok (), a⟩) ∧
    ∀ merged, (empty c).mergeAll merged = ⟨.ok (), a⟩ → ∀ row : Row,
      let outcome := (InPlace.reply (mergeInPlace row) a).outcome
      (outcome = .ok () ↔ ∀ r ∈ c.requirements merged row, r.fault? row = none) ∧
      (∀ e, outcome = .error e ↔ ∃ before r after, c.requirements merged row = before ++ r :: after ∧
        r.fault? row = some e ∧ ∀ r ∈ before, r.fault? row = none) ∧
      (c.keyOf row ∉ a.keys → ∀ quantity, outcome ≠ .error (.overflow quantity)) := by
  refine ⟨h.exists_mergeAll, fun merged hmerged row => ?_⟩
  intro outcome
  have hall := congrArg Reply.outcome hmerged
  obtain ⟨ht, hconf⟩ := tabulates_mergeAll hall
  rw [hmerged] at ht hconf
  have hmerge : outcome = (a.merge row).map fun _ => () := by
    show (InPlace.reply (mergeInPlace row) a).outcome = _
    rw [reply_mergeInPlace]
    cases a.merge row <;> rfl
  have hfault : error? outcome = firstFault? (c.requirements merged row) row := by
    rw [hmerge, Outcome.error?_map, ← hconf]
    exact ht.error?_merge (hconf ▸ h.validate_eq) row
  refine ⟨?_, fun e => ?_, fun hnew quantity hq => ?_⟩
  · rw [← Outcome.error?_eq_none_iff, hfault, firstFault?, List.findSome?_eq_none_iff]
  · rw [← Outcome.error?_eq_some_iff, hfault, firstFault?, List.findSome?_eq_some_iff]
  · rw [hmerge, ← Outcome.error?_eq_some_iff, Outcome.error?_map, Outcome.error?_eq_some_iff] at hq
    exact h.sound.1.merge_ne_overflow_of_new (hconf.symm ▸ hnew) quantity hq

/-- A subtotal of which neither the sum nor the count fits any more is refused for its sum, and one whose sum is a text
and whose count is missing for the text. -/
theorem merged_or_first_fault_two_at_once :
    let c : Config := ⟨some ⟨0, .text⟩, 1, .int, .partialAverage⟩
    let first : Row := ⟨[.text "b", .int Int64.maxValue, .int Int64.maxValue]⟩
    let a := (empty c).offer first
    Built c a ∧
      (InPlace.reply (mergeInPlace ⟨[.text "b", .int 1, .int 1]⟩) a).outcome = .error (.overflow .partialSum) ∧
      (InPlace.reply (mergeInPlace ⟨[.text "b", .text "1"]⟩) a).outcome =
        .error (.mismatch .aggregateField .int .text) := by
  intro c first a
  have h : Built c a := .merge _ (.new rfl)
  have hfirst : (empty c).mergeAll [first] = ⟨.ok (), a⟩ := rfl
  obtain ⟨-, hfaults⟩ := merged_or_first_fault h
  obtain ⟨-, hsum, -⟩ := hfaults [first] hfirst ⟨[.text "b", .int 1, .int 1]⟩
  obtain ⟨-, htext, -⟩ := hfaults [first] hfirst ⟨[.text "b", .text "1"]⟩
  exact ⟨h, (hsum _).mpr ⟨_, .fits .partialSum _, [.fits .partialCount _], rfl, by decide, by decide⟩,
    (htext _).mpr ⟨[.present 0, .typed .groupKey 0 .text, .present 1], .typed .aggregateField 1 .int, _, rfl, by decide,
      by decide⟩⟩

end Aggregator

end Rollup
