import Rollup.Proofs.Aggregate.Reading

/-!
# Groups on their own

What an aggregator does with the rows of one key depends on the rows of that key only. Two tables that hold the same for
a key (`AgreeAt`) still do so after a row of that key was offered to both, and both merge it or refuse it alike
(`AgreeAt.offer`); a row of another key does not count, even if only one of them merges it (`AgreeAt.offer_other`). So
the rows of a key fare in a run as they would fare alone (`AgreeAt.offerAll`, `groups_do_not_interfere`).
-/

namespace Rollup.Aggregator

variable {a a' b b' : Aggregator} {row : Row} {key : GroupKey}

/-- The rows of a run, each with what came of its merge. -/
def offers (a : Aggregator) : List Row → List (Row × Except Error Unit)
  | [] => []
  | row :: rows =>
    let r := InPlace.reply (mergeInPlace row) a
    (row, r.outcome) :: r.state.offers rows

theorem offers_cons (a : Aggregator) (row : Row) (rows : List Row) :
    a.offers (row :: rows) = (row, (a.merge row).map fun _ => ()) :: (a.offer row).offers rows := by
  rw [offers, offer, reply_mergeInPlace]
  cases a.merge row <;> rfl

theorem config_offer (a : Aggregator) (row : Row) : (a.offer row).config = a.config :=
  config_offerAll a [row]

/-- Two tables under one configuration hold the same for a key. -/
structure AgreeAt (key : GroupKey) (a b : Aggregator) : Prop where
  left : a.Consistent
  right : b.Consistent
  config_eq : a.config = b.config
  accumulator?_eq : a.accumulator? key = b.accumulator? key

theorem agreeAt_empty (key : GroupKey) (c : Config) : AgreeAt key (empty c) (empty c) :=
  ⟨consistent_empty c, consistent_empty c, rfl, rfl⟩

namespace AgreeAt

/-- A row is merged or refused by both tables alike if it is one of the key. -/
theorem outcome_merge_eq (h : AgreeAt key a b) (hrow : a.config.keyOf row = key) :
    (a.merge row).map (fun _ => ()) = (b.merge row).map fun _ => () := by
  rw [outcome_merge h.left, outcome_merge h.right, ← h.config_eq]
  cases hkey : a.config.groupKey row with
  | error e => rfl
  | ok k =>
    obtain rfl : k = key := (Config.keyOf_of_groupKey hkey).symm.trans hrow
    simp only [Outcome.ok_bind, h.accumulator?_eq]

/-- If both tables merge a row of the key, they agree at the key afterwards. -/
theorem merge (h : AgreeAt key a b) (hrow : a.config.keyOf row = key) (ha : a.merge row = .ok a')
    (hb : b.merge row = .ok b') : AgreeAt key a' b' := by
  obtain ⟨k, o, acc, hk, ho, hacc, -, hget⟩ := merge_extends h.left ha
  obtain ⟨k', o', acc', hk', ho', hacc', -, hget'⟩ := merge_extends h.right hb
  obtain rfl : k = key := (Config.keyOf_of_groupKey hk).symm.trans hrow
  rw [← h.config_eq] at hk' ho' hacc'
  cases hk.symm.trans hk'
  cases ho.symm.trans ho'
  rw [← h.accumulator?_eq] at hacc'
  cases hacc.symm.trans hacc'
  refine ⟨h.left.merge ha, h.right.merge hb, ?_, ?_⟩
  · rw [config_merge ha, config_merge hb, h.config_eq]
  · rw [hget, hget', if_pos rfl, if_pos rfl]

/-- A row of another key does not change what a table holds for the key. -/
theorem merge_other (h : AgreeAt key a b) (hrow : a.config.keyOf row ≠ key) (ha : a.merge row = .ok a') :
    AgreeAt key a' b := by
  obtain ⟨k, o, acc, hk, -, -, -, hget⟩ := merge_extends h.left ha
  have hne : key ≠ k := fun he => hrow ((Config.keyOf_of_groupKey hk).trans he.symm)
  refine ⟨h.left.merge ha, h.right, (config_merge ha).trans h.config_eq, ?_⟩
  rw [hget, if_neg hne, h.accumulator?_eq]

/-- After a row of the key was offered to both tables, they agree at the key. -/
theorem offer (h : AgreeAt key a b) (hrow : a.config.keyOf row = key) : AgreeAt key (a.offer row) (b.offer row) := by
  have hout := h.outcome_merge_eq hrow
  cases ha : a.merge row with
  | ok a' =>
    cases hb : b.merge row with
    | ok b' =>
      rw [offer_of_ok ha, offer_of_ok hb]
      exact h.merge hrow ha hb
    | error e =>
      rw [ha, hb] at hout
      cases hout
  | error e =>
    cases hb : b.merge row with
    | ok b' =>
      rw [ha, hb] at hout
      cases hout
    | error e' =>
      rw [offer_of_error ha, offer_of_error hb]
      exact h

/-- A row of another key can be offered to one of the tables only. -/
theorem offer_other (h : AgreeAt key a b) (hrow : a.config.keyOf row ≠ key) : AgreeAt key (a.offer row) b := by
  cases ha : a.merge row with
  | ok a' =>
    rw [offer_of_ok ha]
    exact h.merge_other hrow ha
  | error e =>
    rw [offer_of_error ha]
    exact h

/-- The rows of the key fare in a run as they do alone, and the tables agree at the key afterwards. -/
theorem offerAll {c : Config} (h : AgreeAt key a b) (hc : a.config = c) (rows : List Row) :
    (a.offers rows).filter (c.keyOf ·.1 = key) = b.offers (rows.filter (c.keyOf · = key)) ∧
      AgreeAt key (a.offerAll rows) (b.offerAll (rows.filter (c.keyOf · = key))) := by
  induction rows generalizing a b with
  | nil => exact ⟨rfl, h⟩
  | cons row rows ih =>
    have hc' : (a.offer row).config = c := (config_offer a row).trans hc
    rw [offers_cons, offerAll_cons]
    by_cases hrow : a.config.keyOf row = key
    · obtain ⟨hoffers, hagree⟩ := ih (h.offer hrow) hc'
      rw [List.filter_cons_of_pos (by simpa [hc] using hrow), List.filter_cons_of_pos (by simpa [hc] using hrow),
        offers_cons, offerAll_cons, hoffers, h.outcome_merge_eq hrow]
      exact ⟨rfl, hagree⟩
    · rw [List.filter_cons_of_neg (by simpa [hc] using hrow), List.filter_cons_of_neg (by simpa [hc] using hrow)]
      exact ih (h.offer_other hrow) hc'

/-- Tables that hold the same for a key read the same for it. -/
theorem read?_eq (h : AgreeAt key a b) : a.read? key = b.read? key := by
  rw [h.left.read?_eq, h.right.read?_eq, outcome?, outcome?, h.accumulator?_eq]

end AgreeAt

/-- **Groups do not interfere.** In a run of offers the rows of a key have the outcomes that they have without the other
rows, and what is read for the key afterwards is the same: its row, the error of finalizing its group, or nothing. So two
runs with the same rows of a key cannot be told apart by them, whatever the other groups take in, refuse or fail at. -/
theorem groups_do_not_interfere {c : Config} (hc : ofConfig c = .ok a) (rows : List Row) (key : GroupKey) :
    let own := rows.filter (c.keyOf · = key)
    (a.offers rows).filter (c.keyOf ·.1 = key) = a.offers own ∧
      (a.offerAll rows).read? key = (a.offerAll own).read? key ∧
      ∀ rows', rows'.filter (c.keyOf · = key) = own →
        (a.offers rows').filter (c.keyOf ·.1 = key) = (a.offers rows).filter (c.keyOf ·.1 = key) ∧
        (a.offerAll rows').read? key = (a.offerAll rows).read? key := by
  intro own
  obtain rfl := eq_empty_of_ofConfig hc
  obtain ⟨hoffers, hagree⟩ := (agreeAt_empty key c).offerAll (c := c) rfl rows
  refine ⟨hoffers, hagree.read?_eq, ?_⟩
  intro rows' hown
  obtain ⟨hoffers', hagree'⟩ := (agreeAt_empty key c).offerAll (c := c) rfl rows'
  rw [hown] at hoffers' hagree'
  exact ⟨hoffers'.trans hoffers.symm, hagree'.read?_eq.trans hagree.read?_eq.symm⟩

/-- One group overflows and a row of the other one is too short; the rest of that one is summed as if it were alone. -/
theorem groups_do_not_interfere_overflow :
    let c : Config := ⟨some ⟨0, .text⟩, 1, .int, .sum⟩
    let rows : List Row := [⟨[.text "b", .int Int64.maxValue]⟩, ⟨[.text "a", .int 3]⟩, ⟨[.text "b", .int 1]⟩,
      ⟨[.text "a"]⟩, ⟨[.text "a", .int (-8)]⟩]
    let own : List Row := [⟨[.text "a", .int 3]⟩, ⟨[.text "a"]⟩, ⟨[.text "a", .int (-8)]⟩]
    ofConfig c = .ok (empty c) ∧ rows.filter (c.keyOf · = some (.text "a")) = own ∧
      ((empty c).offers rows).filter (c.keyOf ·.1 = some (.text "a")) = (empty c).offers own ∧
      ((empty c).offerAll rows).read? (some (.text "a")) = some (.ok ⟨[.text "a", .int (-5)]⟩) := by
  intro c rows own
  have hown : rows.filter (c.keyOf · = some (.text "a")) = own := by decide
  obtain ⟨hoffers, hread, -⟩ := groups_do_not_interfere (c := c) rfl rows (some (.text "a"))
  rw [hown] at hoffers hread
  exact ⟨rfl, hown, hoffers, hread.trans (by decide +kernel)⟩

end Rollup.Aggregator
