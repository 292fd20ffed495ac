import Rollup.Aggregate.InPlace

/-!
# Consistency of group tables

A group table is `Consistent` when its slots are the positions of its groups. Merging keeps a table consistent
(`Consistent.merge`); so in every table that merging builds, each key has one group at most and the slot of a key points
at the group of that key.
-/

namespace Rollup.Aggregator

/-! ## What a merge changes -/

/-- An update changes the accumulator of one group and nothing else. -/
theorem updateGroup_eq_ok {a a' : Aggregator} {slot : Nat} {o : Observation} (h : a.updateGroup slot o = .ok a') :
    ∃ (hs : slot < a.groups.size) (acc : Accumulator), a.groups[slot].accumulator.update o = .ok acc ∧
      a' = { a with groups := a.groups.set slot { a.groups[slot] with accumulator := acc } } := by
  unfold updateGroup at h
  split at h
  · obtain ⟨acc, hacc, h⟩ := Outcome.bind_eq_ok_iff.mp h
    cases h
    exact ⟨‹_›, acc, hacc, rfl⟩
  · cases h

/-- A new group stands after all others, with its key in the index. -/
theorem addGroup_eq_ok {a a' : Aggregator} {key : GroupKey} {o : Observation} (h : a.addGroup key o = .ok a') :
    ∃ acc : Accumulator, Accumulator.seed a.config.aggregate o = .ok acc ∧
      a' = { a with slots := a.slots.insert key a.groups.size, groups := a.groups.push ⟨key, acc⟩ } := by
  obtain ⟨acc, hacc, h⟩ := Outcome.bind_eq_ok_iff.mp h
  cases h
  exact ⟨acc, hacc, rfl⟩

/-- A row that is merged has a group key and an observation, and they go to the group of the key if there is one. -/
theorem merge_eq_ok_iff {a a' : Aggregator} {row : Row} :
    a.merge row = .ok a' ↔ ∃ key o, a.config.groupKey row = .ok key ∧ a.config.observation row = .ok o ∧
      match a.slots[key]? with
      | some slot => a.updateGroup slot o = .ok a'
      | none => a.addGroup key o = .ok a' := by
  simp only [merge, Outcome.bind_eq_ok_iff]
  constructor
  · rintro ⟨key, hkey, o, ho, h⟩
    refine ⟨key, o, hkey, ho, ?_⟩
    split at h <;> simp_all
  · rintro ⟨key, o, hkey, ho, h⟩
    refine ⟨key, hkey, o, ho, ?_⟩
    split at h <;> simp_all

/-- Merging keeps the configuration. -/
theorem config_merge {a a' : Aggregator} {row : Row} (h : a.merge row = .ok a') : a'.config = a.config := by
  obtain ⟨key, o, -, -, h⟩ := merge_eq_ok_iff.mp h
  split at h
  · obtain ⟨_, _, _, rfl⟩ := updateGroup_eq_ok h
    rfl
  · obtain ⟨_, _, rfl⟩ := addGroup_eq_ok h
    rfl

/-! ## Consistent tables stay consistent -/

/-- An update keeps a table consistent. -/
theorem Consistent.updateGroup {a a' : Aggregator} {slot : Nat} {o : Observation} (hc : a.Consistent)
    (h : a.updateGroup slot o = .ok a') : a'.Consistent := by
  obtain ⟨hs, acc, -, rfl⟩ := updateGroup_eq_ok h
  intro key i
  rw [hc key i]
  simp only [Array.getElem?_set]
  by_cases hi : slot = i
  · subst hi
    simp [hs]
  · simp [hi]

/-- A group with a key that has no slot keeps a table consistent. -/
theorem Consistent.addGroup {a a' : Aggregator} {key : GroupKey} {o : Observation} (hc : a.Consistent)
    (hk : a.slots[key]? = none) (h : a.addGroup key o = .ok a') : a'.Consistent := by
  obtain ⟨acc, -, rfl⟩ := addGroup_eq_ok h
  intro key' i
  rw [Std.TreeMap.getElem?_insert, Array.getElem?_push]
  by_cases hkey : key = key'
  · subst hkey
    have hi : a.groups[i]?.map Group.key ≠ some key := fun hi => by
      rw [← hc key i, hk] at hi
      cases hi
    by_cases he : i = a.groups.size
    · simp [he]
    · simp [he, hi, eq_comm]
  · have hne : compare key key' ≠ .eq := fun he => hkey (Std.LawfulEqCmp.eq_of_compare he)
    by_cases he : i = a.groups.size
    · subst he
      have h := hc key' a.groups.size
      simp at h
      simp [hne, hkey, h]
    · simp [hne, he, hc key' i]

/-- Merging a row keeps a table consistent. -/
theorem Consistent.merge {a a' : Aggregator} {row : Row} (hc : a.Consistent) (h : a.merge row = .ok a') :
    a'.Consistent := by
  obtain ⟨key, o, -, -, h⟩ := merge_eq_ok_iff.mp h
  split at h
  · exact hc.updateGroup h
  · exact hc.addGroup ‹_› h

/-- The slot of a key is the position of a group. -/
theorem Consistent.slot_lt {a : Aggregator} (hc : a.Consistent) {key : GroupKey} {slot : Nat}
    (h : a.slots[key]? = some slot) : slot < a.groups.size := by
  have hg := (hc key slot).mp h
  by_cases hs : slot < a.groups.size
  · exact hs
  · rw [Array.getElem?_eq_none (Nat.le_of_not_lt hs)] at hg
    cases hg

end Rollup.Aggregator
