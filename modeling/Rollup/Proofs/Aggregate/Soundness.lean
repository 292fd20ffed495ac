import Rollup.Proofs.Sequence.Tape
import Rollup.Proofs.Aggregate.Acceptance

/-!
# The group table

A table is `Sound` if it is consistent and every group of it belongs there: its key has the type of the group field, its
accumulator is one of the aggregate function, and it has taken in a row. Every way of merging rows keeps a table sound,
whether it succeeds or not, so all tables that can be built are sound (`Built.sound`).

In a sound table a merge fails for what is wrong with the row only (`Sound.error_of_merge`): the faults that the code
calls internal are out of reach (`group_table_invariant`).
-/

namespace Rollup

open RowSource

/-! ## Errors -/

/-- An error that is found in the data: a value has the wrong type, a row is too short, or a number does not fit. -/
def Error.OfData : Error → Prop
  | .typeMismatch _ | .argument _ => True
  | _ => False

theorem Error.OfData.ne_internal {e : Error} (h : e.OfData) (fault : InternalFault) : e ≠ .internal fault := by
  rintro rfl
  exact h

/-- An error of a row that does not have the shape that is asked for: it is too short, or a value has the wrong type. -/
def Error.OfShape : Error → Prop
  | .typeMismatch _ | .argument (.fieldOutOfRange _ _) => True
  | _ => False

theorem Error.OfShape.ofData {e : Error} (h : e.OfShape) : e.OfData := by
  cases e with
  | typeMismatch | argument => trivial
  | _ => exact h

theorem Error.OfShape.ne_overflow {e : Error} (h : e.OfShape) (quantity : Quantity) : e ≠ .overflow quantity := by
  rintro rfl
  exact h

namespace Row

variable {row : Row} {index : Nat} {place : Place} {type : ValueType} {e : Error}

theorem ofShape_of_get (h : row.get index = .error e) : e.OfShape := by
  unfold get at h
  split at h
  · cases h
  · cases h
    trivial

theorem ofShape_of_getTyped (h : row.getTyped index place type = .error e) : e.OfShape := by
  rcases Outcome.bind_eq_error_iff.mp h with h | ⟨v, -, h⟩
  · exact ofShape_of_get h
  · split at h
    · cases h
    · cases h
      trivial

theorem ofShape_of_getInt (h : row.getInt index place = .error e) : e.OfShape := by
  rcases Outcome.bind_eq_error_iff.mp h with h | ⟨v, -, h⟩
  · exact ofShape_of_get h
  · cases v with
    | int n => cases h
    | text s =>
      cases h
      trivial

end Row

theorem Batch.ofData_of_unpack {batch : Batch} {e : Error} (h : batch.unpack = .error e) : e.OfData := by
  obtain h | ⟨_, _, ⟨⟩⟩ := Outcome.bind_eq_error_iff.mp h
  obtain ⟨_, ⟨column, index⟩, _, -, -, h⟩ := Outcome.mapM_eq_error_iff.mp h
  dsimp only [columnValues] at h
  split at h
  · cases h
    trivial
  · split at h <;> cases h
    trivial

namespace Config

variable {c : Config} {row : Row} {key : GroupKey} {e : Error}

theorem ofShape_of_groupKey (h : c.groupKey row = .error e) : e.OfShape := by
  unfold groupKey at h
  split at h
  · cases h
  · obtain h | ⟨_, _, ⟨⟩⟩ := Outcome.bind_eq_error_iff.mp h
    exact Row.ofShape_of_getTyped h

/-- Rows are observed or refused for their data; the column of counts is never missing. -/
theorem ofShape_of_observation (h : c.observation row = .error e) : e.OfShape := by
  unfold observation at h
  split at h
  · obtain h | ⟨_, _, ⟨⟩⟩ := Outcome.bind_eq_error_iff.mp h
    exact Row.ofShape_of_getTyped h
  · rw [countField_of_partialAverage ‹_›, Outcome.ok_bind] at h
    rcases Outcome.bind_eq_error_iff.mp h with h | ⟨s, -, h⟩
    · exact Row.ofShape_of_getInt h
    · obtain h | ⟨_, _, ⟨⟩⟩ := Outcome.bind_eq_error_iff.mp h
      exact Row.ofShape_of_getInt h
  all_goals
    obtain h | ⟨_, _, ⟨⟩⟩ := Outcome.bind_eq_error_iff.mp h
    exact Row.ofShape_of_getInt h

/-- A group key has the type of the group field, or there is neither. -/
theorem type_of_groupKey (h : c.groupKey row = .ok key) : key.map Value.type = c.groupBy.map GroupBy.type := by
  unfold groupKey at h
  cases hg : c.groupBy with
  | none =>
    rw [hg] at h
    cases h
    rfl
  | some g =>
    rw [hg] at h
    obtain ⟨v, hv, h⟩ := Outcome.bind_eq_ok_iff.mp h
    cases h
    exact congrArg some (Row.getTyped_eq_ok_iff.mp hv).2

end Config

/-! ## Accumulators -/

/-- The totals that an aggregate function keeps while rows arrive. -/
def Aggregate.keptTotals : Aggregate → List Quantity
  | .sum => [.sum]
  | .count => [.count]
  | .partialAverage => [.partialSum, .partialCount]
  | .min | .max | .average | .sumAndCount => []

namespace Accumulator

/-- An accumulator that has taken in a row: there is a number to average, and a count is not zero. -/
def Started : Accumulator → Prop
  | average values | sumAndCount values => values ≠ #[]
  | count rows => 1 ≤ rows.toInt
  | min _ | max _ | sum _ | partialAverage _ _ => True

variable {f : Aggregate} {acc acc' : Accumulator} {o : Observation} {e : Error}

theorem started_of_seed (h : seed f o = .ok acc) : acc.Started := by
  cases f <;> cases o <;> cases h <;> simp [Started]

theorem started_of_update (hs : acc.Started) (h : acc.update o = .ok acc') : acc'.Started := by
  have hf := aggregate_of_update h
  cases acc' with
  | min | max | sum | partialAverage => trivial
  | average values =>
    cases acc <;> cases hf
    cases o <;> cases h
    exact Array.push_ne_empty
  | sumAndCount values =>
    cases acc <;> cases hf
    cases o <;> cases h
    exact Array.push_ne_empty
  | count rows' =>
    cases acc with
    | count rows =>
      cases o with
      | row =>
        obtain ⟨n, hn, h⟩ := Outcome.bind_eq_ok_iff.mp h
        cases h
        have hsum := Exact.add?_eq_some_iff.mp (fits_eq_ok_iff.mp hn)
        have hone : Int64.toInt 1 = 1 := rfl
        simp only [Started] at hs ⊢
        omega
      | number | subtotal => cases h
    | min | max | sum | average | partialAverage | sumAndCount => cases hf

/-- What a configuration observes can be added to its accumulators, unless a total that is kept does not fit. -/
theorem overflow_of_update {c : Config} {row : Row} (ho : c.observation row = .ok o) (hf : acc.aggregate = c.aggregate)
    (h : acc.update o = .error e) : ∃ quantity ∈ c.aggregate.keptTotals, e = .overflow quantity := by
  have hfits : ∀ {quantity n?}, fits quantity n? = .error e → quantity ∈ c.aggregate.keptTotals →
      ∃ quantity ∈ c.aggregate.keptTotals, e = .overflow quantity := fun h hm => ⟨_, hm, (fits_eq_error_iff.mp h).2⟩
  rw [← hf] at hfits ⊢
  rcases Config.observation_cases ho with ⟨hc, rfl⟩ | ⟨hc, s, n, rfl⟩ | ⟨hcount, hpartial, n, rfl⟩
  · rw [hc] at hf
    cases acc <;> cases hf
    obtain h | ⟨_, _, ⟨⟩⟩ := Outcome.bind_eq_error_iff.mp h
    exact hfits h (.head _)
  · rw [hc] at hf
    cases acc <;> cases hf
    rcases Outcome.bind_eq_error_iff.mp h with h | ⟨_, -, h⟩
    · exact hfits h (.head _)
    · obtain h | ⟨_, _, ⟨⟩⟩ := Outcome.bind_eq_error_iff.mp h
      exact hfits h (.tail _ (.head _))
  · rw [← hf] at hcount hpartial
    cases acc with
    | count => exact absurd rfl hcount
    | partialAverage => exact absurd rfl hpartial
    | min | max | average | sumAndCount => cases h
    | sum total =>
      obtain h | ⟨_, _, ⟨⟩⟩ := Outcome.bind_eq_error_iff.mp h
      exact hfits h (.head _)

end Accumulator

/-! ## Sound tables -/

/-- A group that belongs into a table of a configuration. -/
structure Group.Fits (c : Config) (g : Group) : Prop where
  key : g.key.map Value.type = c.groupBy.map GroupBy.type
  aggregate : g.accumulator.aggregate = c.aggregate
  started : g.accumulator.Started

namespace Aggregator

/-- A table whose slots and groups are in order. -/
structure Sound (a : Aggregator) : Prop where
  consistent : a.Consistent
  fits : ∀ g ∈ a.groups, g.Fits a.config

variable {a a' : Aggregator} {c : Config} {row : Row} {e : Error}

/-- In a consistent table no key stands twice. -/
theorem Consistent.nodup_keys (hc : a.Consistent) : a.keys.Nodup := by
  rw [List.nodup_iff_getElem?_ne_getElem?]
  intro i j hij hj he
  obtain ⟨key, hkey⟩ : ∃ key, a.keys[j]? = some key := ⟨_, List.getElem?_eq_getElem hj⟩
  have hslot : ∀ k, a.keys[k]? = some key → a.slots[key]? = some k := fun k hk => by
    rw [hc key k]
    simpa [keys] using hk
  have h := (hslot i (he.trans hkey)).symm.trans (hslot j hkey)
  rw [Option.some.injEq] at h
  omega

theorem sound_empty (c : Config) : (empty c).Sound where
  consistent := consistent_empty c
  fits := by simp [empty]

/-- Merging a row keeps a table sound. -/
theorem Sound.merge (hs : a.Sound) (h : a.merge row = .ok a') : a'.Sound := by
  refine ⟨hs.consistent.merge h, ?_⟩
  obtain ⟨key, o, hkey, ho, h⟩ := merge_eq_ok_iff.mp h
  split at h
  · obtain ⟨hlt, acc, hacc, rfl⟩ := updateGroup_eq_ok h
    -- the group keeps its key, and its accumulator stays of one kind
    have hgroup := hs.fits _ (Array.getElem_mem hlt)
    intro g hg
    rcases Array.mem_or_eq_of_mem_set (w := hlt) hg with hg | rfl
    · exact hs.fits g hg
    · exact ⟨hgroup.key, (Accumulator.aggregate_of_update hacc).trans hgroup.aggregate,
        Accumulator.started_of_update hgroup.started hacc⟩
  · obtain ⟨acc, hacc, rfl⟩ := addGroup_eq_ok h
    intro g hg
    rcases Array.mem_push.mp hg with hg | rfl
    · exact hs.fits g hg
    · exact ⟨Config.type_of_groupKey hkey, Accumulator.aggregate_of_seed hacc, Accumulator.started_of_seed hacc⟩

/-- A sound table refuses rows for their data only. -/
theorem Sound.error_of_merge (hs : a.Sound) (h : a.merge row = .error e) : e.OfData := by
  unfold Aggregator.merge at h
  rcases Outcome.bind_eq_error_iff.mp h with h | ⟨key, hkey, h⟩
  · exact (Config.ofShape_of_groupKey h).ofData
  rcases Outcome.bind_eq_error_iff.mp h with h | ⟨o, ho, h⟩
  · exact (Config.ofShape_of_observation h).ofData
  split at h
  · rename_i slot hslot
    have hlt := hs.consistent.slot_lt hslot
    rw [updateGroup, dif_pos hlt] at h
    obtain h | ⟨_, _, ⟨⟩⟩ := Outcome.bind_eq_error_iff.mp h
    obtain ⟨_, -, rfl⟩ := Accumulator.overflow_of_update ho (hs.fits _ (Array.getElem_mem hlt)).aggregate h
    trivial
  · obtain ⟨acc, hacc⟩ := Config.exists_seed ho
    rw [addGroup, hacc] at h
    cases h

theorem Sound.keeps (c : Config) : Keeps (fun a : Aggregator => a.Sound ∧ a.config = c) Error.OfData Aggregator.merge where
  ok := fun ⟨hs, hc⟩ h => ⟨hs.merge h, (config_merge h).trans hc⟩
  error := fun ⟨hs, _⟩ h => hs.error_of_merge h

/-! ## Tables that are built -/

/-- The aggregators that come of a new one by merging rows, row sources and batches, whatever comes of each merge. -/
inductive Built (c : Config) : Aggregator → Prop
  | new {a : Aggregator} : ofConfig c = .ok a → Built c a
  | merge {a : Aggregator} (row : Row) : Built c a → Built c (InPlace.reply (mergeInPlace row) a).state
  | mergeFrom {a : Aggregator} {σ : Type} [RowSource σ] (s : σ) : Built c a → Built c (a.mergeFrom s).state.1
  | mergeBatch {a : Aggregator} (batch : Batch) : Built c a → Built c (a.mergeBatch batch).state

namespace Built

/-- What merging a row keeps, all tables that are built have. -/
theorem of_merge {P : Aggregator → Prop} (hempty : P (empty c))
    (hmerge : ∀ {a a' : Aggregator} {row : Row}, P a → a.merge row = .ok a' → P a') (h : Built c a) : P a := by
  -- whatever a source fails with, the rows before are merged
  have hkeeps : Keeps P (fun _ => True) Aggregator.merge := ⟨hmerge, fun _ _ => trivial⟩
  induction h with
  | new h => exact eq_empty_of_ofConfig h ▸ hempty
  | @merge a row _ ih =>
    rw [reply_mergeInPlace]
    cases h : a.merge row with
    | ok a' => exact hmerge ih h
    | error e => exact ih
  | mergeFrom s _ ih => exact (hkeeps.pass (fun _ _ _ _ => trivial) ih s).1
  | mergeBatch batch _ ih =>
    unfold Aggregator.mergeBatch
    split
    · exact (hkeeps.absorb ih _).1
    · exact ih

/-- Tables are built under configurations that are not refused. -/
theorem ofConfig_eq (h : Built c a) : ofConfig c = .ok (empty c) := by
  induction h with
  | new h => exact eq_empty_of_ofConfig h ▸ h
  | merge _ _ ih | mergeFrom _ _ ih | mergeBatch _ _ ih => exact ih

/-- All tables that are built are sound. -/
theorem sound (h : Built c a) : a.Sound ∧ a.config = c :=
  h.of_merge (P := fun a => a.Sound ∧ a.config = c) ⟨sound_empty c, rfl⟩ fun ⟨hs, hc⟩ hm =>
    ⟨hs.merge hm, (config_merge hm).trans hc⟩

/-- Every table that is built comes of a run that merges all its rows. -/
theorem exists_rows (h : Built c a) : ∃ rows, (empty c).offerAll rows = a ∧ (empty c).accepted rows = rows := by
  obtain ⟨rows, hrows⟩ : ∃ rows, (empty c).mergeAll rows = ⟨.ok (), a⟩ := by
    refine h.of_merge (P := fun a => ∃ rows, (empty c).mergeAll rows = ⟨.ok (), a⟩) ⟨[], rfl⟩ ?_
    rintro a a' row ⟨rows, hrows⟩ hm
    rw [mergeAll] at hrows
    refine ⟨rows ++ [row], ?_⟩
    rw [mergeAll, absorb_append, hrows]
    exact absorb_cons_ok [] hm
  obtain ⟨hstate, haccepted⟩ := of_mergeAll_ok (congrArg Reply.outcome hrows)
  rw [hrows] at hstate
  exact ⟨rows, hstate.symm, haccepted⟩

end Built

/-! ## No internal fault -/

theorem Sound.mergeInPlace_ne_internal (hs : a.Sound) (row : Row) (fault : InternalFault) :
    (InPlace.reply (mergeInPlace row) a).outcome ≠ .error (.internal fault) := by
  rw [reply_mergeInPlace]
  cases h : a.merge row with
  | ok a' => nofun
  | error e =>
    rw [Reply.atomic_error]
    intro he
    cases he
    exact (hs.error_of_merge h).ne_internal fault rfl

theorem Sound.mergeBatch_ne_internal (hs : a.Sound) (batch : Batch) (fault : InternalFault) :
    (a.mergeBatch batch).outcome ≠ .error (.internal fault) := by
  unfold mergeBatch
  split
  · intro h
    exact (((Sound.keeps a.config).absorb ⟨hs, rfl⟩ _).2 _ h).ne_internal fault rfl
  · rename_i e h
    intro he
    cases he
    exact (Batch.ofData_of_unpack h).ne_internal fault rfl

/-- A merge from a source has an internal fault only if the source has one. -/
theorem Sound.mergeFrom_ne_internal {σ : Type} [RowSource σ]
    (hσ : ∀ (s : σ) (call : Call) (fault : InternalFault), (RowSource.call s call).outcome ≠ .error (.internal fault))
    (hs : a.Sound) (s : σ) (fault : InternalFault) : (a.mergeFrom s).outcome ≠ .error (.internal fault) := by
  have hkeeps : Keeps Sound (fun e => ∀ fault, e ≠ .internal fault) Aggregator.merge :=
    ⟨Sound.merge, fun hs h => (hs.error_of_merge h).ne_internal⟩
  intro h
  refine (hkeeps.pass ?_ hs s).2 _ h fault rfl
  rintro s call _ he fault rfl
  exact hσ s call fault he

end Aggregator

/-- No call on a source has an internal fault. -/
theorem Source.call_ne_internal (s : Source) (call : Call) (fault : InternalFault) :
    (RowSource.call s call).outcome ≠ .error (.internal fault) := by
  rw [(s.call_eq call).1]
  intro h
  cases hr : Tape.refuses s.cursor.position.isSome call with
  | true =>
    obtain ⟨_, ht⟩ := Tape.call_of_refuses (t := s.tape) hr
    rw [ht] at h
    cases h
  | false =>
    have hcases := Tape.error_of_call hr h
    cases s with
    | buffer b => simp [tape] at hcases
    | failing s => simp [tape, FailingScan.readError] at hcases
    | results r =>
      rcases hcases with hrow | h
      · obtain ⟨g, -, hg⟩ := List.mem_map.mp hrow
        obtain ⟨_, h⟩ := Group.error_of_row hg
        cases h
      · cases h

namespace Aggregator

/-- **The group table of every aggregator that can be built.** Its keys are distinct, its slots are the positions of its
groups, and every group belongs to the configuration and has taken in a row. So no merge and no reading meets an internal
fault, unless a source of some other type brings one along. -/
theorem group_table_invariant {c : Config} {a : Aggregator} (h : Built c a) :
    a.config = c ∧
    a.keys.Nodup ∧
    (∀ (key : GroupKey) (i : Nat), a.slots[key]? = some i ↔ a.groups[i]?.map Group.key = some key) ∧
    (∀ (key : GroupKey) (slot : Nat), a.slots[key]? = some slot → slot < a.groups.size) ∧
    (∀ g ∈ a.groups, g.key.map Value.type = c.groupBy.map GroupBy.type ∧ g.accumulator.aggregate = c.aggregate ∧
      g.accumulator.Started) ∧
    (∀ row fault, (InPlace.reply (mergeInPlace row) a).outcome ≠ .error (.internal fault)) ∧
    (∀ batch fault, (a.mergeBatch batch).outcome ≠ .error (.internal fault)) ∧
    (∀ (s : Source) fault, (a.mergeFrom s).outcome ≠ .error (.internal fault)) ∧
    (∀ (σ : Type) [RowSource σ], (∀ (s : σ) c fault, (call s c).outcome ≠ .error (.internal fault)) →
      ∀ (s : σ) fault, (a.mergeFrom s).outcome ≠ .error (.internal fault)) ∧
    ∀ (r : Results) fault, r.aggregator = a → r.next.outcome ≠ .error (.internal fault) := by
  obtain ⟨hs, hc⟩ := h.sound
  refine ⟨hc, hs.consistent.nodup_keys, hs.consistent, fun key slot => hs.consistent.slot_lt, ?_,
    hs.mergeInPlace_ne_internal, hs.mergeBatch_ne_internal, ?_, ?_, ?_⟩
  · intro g hg
    obtain ⟨hkey, hf, hstarted⟩ := hs.fits g hg
    rw [hc] at hkey hf
    exact ⟨hkey, hf, hstarted⟩
  · exact hs.mergeFrom_ne_internal Source.call_ne_internal
  · exact fun σ _ hσ => hs.mergeFrom_ne_internal hσ
  · intro r fault _ h
    exact (Source.results r).call_ne_internal .next fault (congrArg (Except.map Answer.row) h)

/-- A row that was merged and one that was too short leave one group, with its slot. -/
theorem group_table_invariant_short_row :
    let c : Config := ⟨some ⟨0, .text⟩, 1, .int, .average⟩
    let a := ((empty c).offer ⟨[.text "b", .int 1]⟩).offer ⟨[.text "a"]⟩
    Built c a ∧ a.groups = #[⟨some (.text "b"), .average #[1]⟩] ∧ a.slots[(some (.text "b") : GroupKey)]? = some 0 ∧
      ∀ row fault, (InPlace.reply (mergeInPlace row) a).outcome ≠ .error (.internal fault) := by
  intro c a
  have h : Built c a := .merge _ (.merge _ (.new rfl))
  obtain ⟨-, -, hslots, -, -, hmerge, -⟩ := group_table_invariant h
  have hgroups : a.groups = #[⟨some (.text "b"), .average #[1]⟩] := by decide +kernel
  exact ⟨h, hgroups, (hslots _ 0).mpr (by rw [hgroups]; rfl), hmerge⟩

end Aggregator

end Rollup
