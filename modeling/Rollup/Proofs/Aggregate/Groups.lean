import Rollup.Proofs.Aggregate.Offers
import Rollup.Proofs.Distinct

/-!
# Groups and the rows they have seen

The table of an aggregator is looked at through its keys in order of first arrival (`keys`) and through what it holds
for a key (`accumulator?`); slots do not show. A merge reads the table at one key only (`outcome_merge`), and changes
it there (`merge_extends`).

`Config.gather` takes the rows of one group without any table. `Tabulates` says that a table came from a list of merged
rows: its keys are those of the rows, each once and in order of first arrival, and what it holds for a key is what
gathering the rows of that key gives. Every run of offers builds such a table (`tabulates_offerAll`).
-/

namespace Rollup

/-- What a group holds after one more observation; a group that holds nothing yet starts with it. -/
def Accumulator.extend (f : Aggregate) : Option Accumulator → Observation → Except Error Accumulator
  | none, o => seed f o
  | some acc, o => acc.update o

theorem Accumulator.aggregate_of_extend {f : Aggregate} {acc? : Option Accumulator} {o : Observation}
    {acc : Accumulator} (h : extend f acc? o = .ok acc) (hf : ∀ acc' ∈ acc?, acc'.aggregate = f) :
    acc.aggregate = f := by
  cases acc? with
  | none => exact aggregate_of_seed h
  | some acc' => rw [aggregate_of_update h]; exact hf acc' rfl

namespace Config

variable {c : Config} {row : Row}

/-- The group of a row, read off without any check. -/
def keyOf (c : Config) (row : Row) : GroupKey :=
  c.groupBy.bind fun g => row.values[g.index]?

theorem keyOf_of_groupKey {key : GroupKey} (h : c.groupKey row = .ok key) : c.keyOf row = key := by
  unfold groupKey at h
  unfold keyOf
  cases hg : c.groupBy with
  | none =>
    rw [hg] at h
    cases h
    rfl
  | some g =>
    rw [hg] at h
    obtain ⟨v, hv, h⟩ := Outcome.bind_eq_ok_iff.mp h
    cases h
    exact (Row.getTyped_eq_ok_iff.mp hv).1

/-! ## One group without a table -/

/-- What a group holds after one more row. -/
def extendBy (c : Config) (acc? : Option Accumulator) (row : Row) : Except Error (Option Accumulator) := do
  let o ← c.observation row
  return some (← Accumulator.extend c.aggregate acc? o)

/-- What a group of rows holds, none if there are no rows. -/
def gather (c : Config) (rows : List Row) : Except Error (Option Accumulator) :=
  rows.foldlM c.extendBy none

@[simp] theorem gather_nil (c : Config) : c.gather [] = .ok none := rfl

theorem gather_concat (c : Config) (rows : List Row) (row : Row) :
    c.gather (rows ++ [row]) = c.gather rows >>= fun acc? => c.extendBy acc? row := by
  unfold gather
  rw [List.foldlM_append]
  congr
  funext acc?
  rw [List.foldlM_cons]
  cases c.extendBy acc? row <;> rfl

theorem extendBy_eq_ok_iff {acc? : Option Accumulator} {acc : Accumulator} :
    c.extendBy acc? row = .ok (some acc) ↔
      ∃ o, c.observation row = .ok o ∧ Accumulator.extend c.aggregate acc? o = .ok acc := by
  simp [extendBy, Outcome.bind_eq_ok_iff]

end Config

namespace Aggregator

variable {a a' : Aggregator} {row : Row} {key : GroupKey}

/-! ## Looking at a table -/

/-- The group keys in order of first arrival. -/
def keys (a : Aggregator) : List GroupKey :=
  a.groups.toList.map Group.key

/-- What the table holds for a key. -/
def accumulator? (a : Aggregator) (key : GroupKey) : Option Accumulator :=
  a.slots[key]?.bind fun slot => a.groups[slot]?.map Group.accumulator

@[simp] theorem accumulator?_empty (c : Config) (key : GroupKey) : (empty c).accumulator? key = none := by
  simp [accumulator?, empty]

theorem accumulator?_of_slot {slot : Nat} (hs : a.slots[key]? = some slot) (hlt : slot < a.groups.size) :
    a.accumulator? key = some a.groups[slot].accumulator := by
  simp [accumulator?, hs, hlt]

theorem accumulator?_of_no_slot (hs : a.slots[key]? = none) : a.accumulator? key = none := by
  simp [accumulator?, hs]

theorem Consistent.mem_keys_iff (hc : a.Consistent) : key ∈ a.keys ↔ ∃ slot, a.slots[key]? = some slot := by
  simp only [keys, List.mem_map, Array.mem_toList_iff, Array.mem_iff_getElem?]
  constructor
  · rintro ⟨g, ⟨i, hi⟩, rfl⟩
    exact ⟨i, (hc g.key i).mpr (by rw [hi]; rfl)⟩
  · rintro ⟨i, hi⟩
    obtain ⟨g, hg, hk⟩ := Option.map_eq_some_iff.mp ((hc key i).mp hi)
    exact ⟨g, ⟨i, hg⟩, hk⟩

theorem Consistent.key_of_slot (hc : a.Consistent) {slot : Nat} (hs : a.slots[key]? = some slot)
    (hlt : slot < a.groups.size) : a.groups[slot].key = key := by
  have h := (hc key slot).mp hs
  rw [Array.getElem?_eq_getElem hlt, Option.map_some, Option.some.injEq] at h
  exact h

/-- A group stands in the table under its key. -/
theorem Consistent.accumulator?_key (hc : a.Consistent) {g : Group} (hg : g ∈ a.groups.toList) :
    a.accumulator? g.key = some g.accumulator := by
  obtain ⟨i, hi⟩ := Array.mem_iff_getElem?.mp (Array.mem_toList_iff.mp hg)
  have hs := (hc g.key i).mpr (by rw [hi]; rfl)
  simp [accumulator?, hs, hi]

/-! ## What a merge reads and changes -/

/-- Whether a row is merged or refused, and why, depends on what the table holds for the key of the row only. -/
theorem outcome_merge (hc : a.Consistent) (row : Row) :
    (a.merge row).map (fun _ => ()) = do
      let key ← a.config.groupKey row
      let o ← a.config.observation row
      let _ ← Accumulator.extend a.config.aggregate (a.accumulator? key) o
      return () := by
  unfold merge
  cases a.config.groupKey row with
  | error e => rfl
  | ok key =>
    cases a.config.observation row with
    | error e => rfl
    | ok o =>
      simp only [Outcome.ok_bind]
      cases hs : a.slots[key]? with
      | none =>
        rw [accumulator?_of_no_slot hs]
        simp only [Accumulator.extend, addGroup]
        cases Accumulator.seed a.config.aggregate o <;> rfl
      | some slot =>
        have hlt := hc.slot_lt hs
        rw [accumulator?_of_slot hs hlt]
        simp only [Accumulator.extend, updateGroup, hlt, dite_true]
        cases a.groups[slot].accumulator.update o <;> rfl

/-- A merged row extends what the table holds for its key, and a key that is new comes after all others. -/
theorem merge_extends (hc : a.Consistent) (h : a.merge row = .ok a') :
    ∃ key o acc, a.config.groupKey row = .ok key ∧ a.config.observation row = .ok o ∧
      Accumulator.extend a.config.aggregate (a.accumulator? key) o = .ok acc ∧
      a'.keys = (if key ∈ a.keys then a.keys else a.keys ++ [key]) ∧
      ∀ k, a'.accumulator? k = if k = key then some acc else a.accumulator? k := by
  obtain ⟨key, o, hkey, ho, h⟩ := merge_eq_ok_iff.mp h
  cases hs : a.slots[key]? with
  | some slot =>
    rw [hs] at h
    obtain ⟨hlt, acc, hacc, rfl⟩ := updateGroup_eq_ok h
    refine ⟨key, o, acc, hkey, ho, ?_, ?_, ?_⟩
    · rw [accumulator?_of_slot hs hlt]
      exact hacc
    · rw [if_pos (hc.mem_keys_iff.mpr ⟨slot, hs⟩)]
      apply List.ext_getElem?
      intro i
      simp only [keys, List.getElem?_map, Array.getElem?_toList, Array.getElem?_set]
      by_cases hi : slot = i
      · subst hi
        simp [hlt]
      · simp [hi]
    · intro k
      by_cases hk : k = key
      · subst hk
        simp [accumulator?, hs, hlt]
      · rw [if_neg hk]
        unfold accumulator?
        cases hk' : a.slots[k]? with
        | none => rfl
        | some i =>
          -- two keys never share a slot
          have hi : slot ≠ i := by
            rintro rfl
            exact hk ((hc.key_of_slot hk' hlt).symm.trans (hc.key_of_slot hs hlt))
          simp [Array.getElem?_set, hi]
  | none =>
    rw [hs] at h
    obtain ⟨acc, hacc, rfl⟩ := addGroup_eq_ok h
    have hnew : key ∉ a.keys := fun hm => by
      obtain ⟨slot, hslot⟩ := hc.mem_keys_iff.mp hm
      rw [hs] at hslot
      cases hslot
    refine ⟨key, o, acc, hkey, ho, ?_, ?_, ?_⟩
    · rw [accumulator?_of_no_slot hs]
      exact hacc
    · rw [if_neg hnew]
      simp [keys]
    · intro k
      unfold accumulator?
      by_cases hk : k = key
      · subst hk
        simp
      · have hne : compare key k ≠ .eq := fun he => hk (Std.LawfulEqCmp.eq_of_compare he).symm
        rw [if_neg hk, Std.TreeMap.getElem?_insert, if_neg hne]
        cases hk' : a.slots[k]? with
        | none => rfl
        | some i =>
          have hi := hc.slot_lt hk'
          simp [Array.getElem?_push, Nat.ne_of_lt hi]

/-! ## The table of a run -/

/-- `a` is the table of the rows in `merged`. -/
structure Tabulates (a : Aggregator) (merged : List Row) : Prop where
  consistent : a.Consistent
  keys_eq : a.keys = (merged.map a.config.keyOf).eraseDups
  gather_eq : ∀ key, a.config.gather (merged.filter (a.config.keyOf · = key)) = .ok (a.accumulator? key)

theorem tabulates_empty (c : Config) : (empty c).Tabulates [] where
  consistent := consistent_empty c
  keys_eq := rfl
  gather_eq key := by simp

/-- A new aggregator has no groups. -/
theorem eq_empty_of_ofConfig {c : Config} (h : ofConfig c = .ok a) : a = empty c := by
  obtain ⟨_, -, h⟩ := Outcome.bind_eq_ok_iff.mp h
  cases h
  rfl

/-- A merged row keeps the table one of the merged rows. -/
theorem Tabulates.merge {merged : List Row} (ht : a.Tabulates merged) (h : a.merge row = .ok a') :
    a'.Tabulates (merged ++ [row]) := by
  obtain ⟨key, o, acc, hkey, ho, hacc, hkeys, hget⟩ := merge_extends ht.consistent h
  have hconf := config_merge h
  have hrow : a.config.keyOf row = key := Config.keyOf_of_groupKey hkey
  refine ⟨ht.consistent.merge h, ?_, ?_⟩
  · rw [hkeys, hconf, List.map_append, List.map_singleton, hrow, eraseDups_concat, ht.keys_eq]
    simp only [List.mem_eraseDups]
  · intro k
    rw [hget k, hconf, List.filter_append]
    by_cases hk : k = key
    · subst hk
      rw [List.filter_cons_of_pos (by simp [hrow]), List.filter_nil, Config.gather_concat, ht.gather_eq,
        Outcome.ok_bind, if_pos rfl]
      exact Config.extendBy_eq_ok_iff.mpr ⟨o, ho, hacc⟩
    · rw [List.filter_cons_of_neg (by simp [hrow, Ne.symm hk]), List.filter_nil, List.append_nil, ht.gather_eq,
        if_neg hk]

/-- A run of offers builds the table of its merged rows. -/
theorem tabulates_offerAll (c : Config) (rows : List Row) :
    ((empty c).offerAll rows).Tabulates ((empty c).accepted rows) :=
  offerAll_induction (P := Tabulates) Tabulates.merge [] (tabulates_empty c) rows

theorem config_offerAll (a : Aggregator) (rows : List Row) : (a.offerAll rows).config = a.config :=
  offerAll_induction (P := fun a' _ => a'.config = a.config) (fun hc h => (config_merge h).trans hc) [] rfl rows

end Aggregator

end Rollup
