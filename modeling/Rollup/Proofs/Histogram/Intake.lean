import Rollup.Histogram.Statistics
import Rollup.Proofs.Histogram.Values

/-!
# Runs of counting

Integers are given to a histogram one by one, as lists and as progressions, and a call that is refused does not end a
run. An `Intake` is such a call, and `accepted` are the integers of a list up to the first one out of range.

- `addAll_eq`: what comes of a list, in and out of the range;
- `takeAll_eq`: a run counts the accepted integers of its calls;
- `Tallies.eq_of_perm`: what has been counted makes the histogram, whatever the order;
- `counts_account_for_values`: every accepted integer is in one bucket and among the observations, once.
-/

namespace Rollup.Histogram

variable {h h₀ h' : Histogram} {values values' : List Int64} {v : Int64}

/-! ## Lists in and out of the range -/

/-- The integers up to the first one out of range. -/
def accepted (h : Histogram) (values : List Int64) : List Int64 :=
  values.takeWhile fun v => h.Covers v

/-- What is answered to a list. -/
def verdict (h : Histogram) (values : List Int64) : Except Error Unit :=
  match values.find? fun v => ¬h.Covers v with
  | none => .ok ()
  | some v => .error (.outOfRange v h.lower h.upper)

/-- The histogram with integers counted that all lie in the range. -/
def countAll (h : Histogram) (values : List Int64) : Histogram :=
  values.foldl (fun h v => h.count (h.bucketOf v)) h

theorem add_of_covers (hv : h.Covers v) : h.add v = .ok (h.count (h.bucketOf v)) :=
  if_pos hv

theorem add_of_not_covers (hv : ¬h.Covers v) : h.add v = .error (.outOfRange v h.lower h.upper) :=
  if_neg hv

/-- Of a list the accepted integers are counted, and the next one is refused. -/
theorem addAll_eq (h : Histogram) (values : List Int64) :
    h.addAll values = ⟨h.verdict values, h.countAll (h.accepted values)⟩ := by
  induction values generalizing h with
  | nil => rfl
  | cons v values ih =>
    by_cases hv : h.Covers v
    · have hverdict : h.verdict (v :: values) = h.verdict values := by simp [verdict, hv]
      have haccepted : h.accepted (v :: values) = v :: h.accepted values := by simp [accepted, hv]
      rw [addAll, absorb_cons_ok values (add_of_covers hv), hverdict, haccepted]
      exact ih (h.count (h.bucketOf v))
    · have hverdict : h.verdict (v :: values) = .error (.outOfRange v h.lower h.upper) := by simp [verdict, hv]
      have haccepted : h.accepted (v :: values) = [] := by simp [accepted, hv]
      rw [addAll, absorb_cons_error values (add_of_not_covers hv), hverdict, haccepted]
      rfl

theorem covers_of_mem_accepted (hv : v ∈ h.accepted values) : h.Covers v := by
  simpa using List.all_eq_true.mp List.all_takeWhile v hv

section Covers

variable (hall : ∀ v ∈ values, h.Covers v)

include hall

theorem accepted_append (after : List Int64) : h.accepted (values ++ after) = values ++ h.accepted after :=
  List.takeWhile_append_of_pos fun v hv => decide_eq_true (hall v hv)

theorem verdict_append (after : List Int64) : h.verdict (values ++ after) = h.verdict after := by
  have hnone : values.find? (fun v => ¬h.Covers v) = none := by simpa using hall
  rw [verdict, List.find?_append, hnone, Option.none_or, verdict]

/-- A list in the range is counted as a whole. -/
theorem addAll_of_covers : h.addAll values = ⟨.ok (), h.countAll values⟩ := by
  have haccepted := accepted_append hall []
  have hverdict := verdict_append hall []
  rw [List.append_nil] at haccepted hverdict
  rw [addAll_eq, haccepted, hverdict, accepted, List.takeWhile_nil, List.append_nil]
  rfl

/-- The first integer out of the range ends the counting, and those before it stay counted. -/
theorem addAll_of_refused (hv : ¬h.Covers v) (after : List Int64) :
    h.addAll (values ++ v :: after) = ⟨.error (.outOfRange v h.lower h.upper), h.countAll values⟩ := by
  have haccepted : h.accepted (v :: after) = [] := by simp [accepted, hv]
  have hverdict : h.verdict (v :: after) = .error (.outOfRange v h.lower h.upper) := by simp [verdict, hv]
  rw [addAll_eq, accepted_append hall, verdict_append hall, haccepted, hverdict, List.append_nil]

end Covers

theorem SameShape.symm (hs : h.SameShape h') : h'.SameShape h :=
  ⟨hs.lower.symm, hs.upper.symm, hs.size.symm⟩

theorem sameShape_countAll (h : Histogram) (values : List Int64) : h.SameShape (h.countAll values) := by
  induction values generalizing h with
  | nil => exact ⟨rfl, rfl, rfl⟩
  | cons v values ih => exact (sameShape_count h _).trans (ih _)

theorem countAll_append (h : Histogram) (values values' : List Int64) :
    h.countAll (values ++ values') = (h.countAll values).countAll values' :=
  List.foldl_append

theorem SameShape.covers_iff (hs : h.SameShape h') (v : Int64) : h'.Covers v ↔ h.Covers v := by
  rw [Covers, hs.lower, hs.upper, Covers]

theorem SameShape.accepted_eq (hs : h.SameShape h') (values : List Int64) : h'.accepted values = h.accepted values := by
  simp only [accepted, hs.covers_iff]

/-! ## Runs -/

/-- A call that counts integers. -/
inductive Intake where
  | one (v : Int64)
  | several (values : List Int64)
  | progression (p : Progression)

/-- The integers that a call gives to the histogram. -/
def Intake.integers : Intake → List Int64
  | one v => [v]
  | several values => values
  | progression p => p.toList

/-- Make a call. -/
def take (h : Histogram) : Intake → Reply Histogram Unit
  | .one v => InPlace.reply (addInPlace v) h
  | .several values => InPlace.reply (values.forM addInPlace) h
  | .progression p => h.addProgression p

/-- Make calls one after the other, whatever comes of them. -/
def takeAll (h : Histogram) (calls : List Intake) : Histogram :=
  calls.foldl (fun h call => (h.take call).state) h

/-- The integers of a run that are accepted. -/
def acceptedOf (h : Histogram) (calls : List Intake) : List Int64 :=
  calls.flatMap fun call => h.accepted call.integers

/-- A single integer is counted as a list of one. -/
theorem take_eq (h : Histogram) (call : Intake) : h.take call = h.addAll call.integers := by
  cases call with
  | one v =>
    rw [take, reply_addInPlace, addAll, Intake.integers, absorb]
    cases h.add v <;> rfl
  | several values => exact h.reply_forM_addInPlace values
  | progression p => exact h.addProgression_eq p

/-- A run counts the accepted integers, and nothing else comes of it. -/
theorem takeAll_eq (h : Histogram) (calls : List Intake) : h.takeAll calls = h.countAll (h.acceptedOf calls) := by
  induction calls generalizing h with
  | nil => rfl
  | cons call calls ih =>
    have hstate : (h.take call).state = h.countAll (h.accepted call.integers) := by rw [take_eq, addAll_eq]
    have hrest : (h.take call).state.acceptedOf calls = h.acceptedOf calls := by
      simp only [hstate, acceptedOf, (h.sameShape_countAll _).accepted_eq]
    rw [takeAll, List.foldl_cons]
    show (h.take call).state.takeAll calls = _
    rw [ih, hrest, hstate, ← countAll_append]
    rfl

theorem covers_of_mem_acceptedOf {calls : List Intake} (hv : v ∈ h.acceptedOf calls) : h.Covers v := by
  obtain ⟨call, -, hv⟩ := List.mem_flatMap.mp hv
  exact covers_of_mem_accepted hv

/-- Given in one go, the accepted integers lead to the same histogram without any refusal. -/
theorem addAll_acceptedOf (h : Histogram) (calls : List Intake) :
    h.addAll (h.acceptedOf calls) = ⟨.ok (), h.takeAll calls⟩ := by
  rw [addAll_of_covers fun v hv => covers_of_mem_acceptedOf hv, takeAll_eq]

section Filled

variable {buckets : ℕ} {lower upper : Int64} {calls : List Intake} (hnew : ofBounds buckets lower upper = .ok h₀)
  (hrun : h₀.takeAll calls = h)

include hrun

theorem sameShape_takeAll : h₀.SameShape h := by
  rw [← hrun, takeAll_eq]
  exact h₀.sameShape_countAll _

include hnew

/-- The range and the number of buckets of a histogram after a run. -/
theorem shape_takeAll : h.lower = lower ∧ h.upper = upper ∧ h.counts.size = buckets := by
  have hs := sameShape_takeAll hrun
  obtain ⟨hlower, hupper, hsize⟩ := shape_ofBounds hnew
  exact ⟨hs.lower.trans hlower, hs.upper.trans hupper, hs.size.trans hsize⟩

/-- The accepted integers of a run are what the histogram has counted. -/
theorem tallies_takeAll : h.Tallies (h₀.acceptedOf calls) :=
  tallies_addAll hnew (hrun ▸ h₀.addAll_acceptedOf calls)

theorem sized_takeAll (hbuckets : buckets < 2 ^ 64) (hobservations : h.observations < 2 ^ 64) : h.Sized := by
  have ht := tallies_takeAll hnew hrun
  exact ht.sized ((shape_takeAll hnew hrun).2.2 ▸ hbuckets) (ht.observations ▸ hobservations)

end Filled

/-! ## What has been counted makes the histogram -/

theorem SameShape.width (hs : h.SameShape h') : h'.width = h.width := by
  rw [h'.width_eq, h.width_eq, hs.lower, hs.upper, hs.size]

theorem SameShape.bucketOf_eq (hs : h.SameShape h') (v : Int64) : (h'.bucketOf v : ℕ) = h.bucketOf v := by
  simp only [bucketOf, quotient, hs.lower, hs.width, hs.size]

theorem SameShape.eq_of_counts (hs : h.SameShape h') (hcounts : h'.counts = h.counts)
    (hobservations : h'.observations = h.observations) : h' = h := by
  have hwidth := hs.width
  obtain ⟨hlower, hupper, -⟩ := hs
  cases h
  cases h'
  cases hlower
  cases hupper
  cases hcounts
  cases hobservations
  cases hwidth
  rfl

/-- Two histograms of one shape that have counted the same integers, in whatever order, are one. -/
theorem Tallies.eq_of_perm (ht : h.Tallies values) (ht' : h'.Tallies values') (hs : h.SameShape h')
    (hperm : values'.Perm values) : h' = h := by
  refine hs.eq_of_counts (Array.ext hs.size fun i hi hi' => ?_) ?_
  · rw [ht.counts i hi', ht'.counts i hi, hperm.countP_eq]
    simp only [hs.bucketOf_eq]
  · rw [ht.observations, ht'.observations, hperm.length_eq]

/-- All buckets together hold all that has been counted. -/
theorem Tallies.sum_counts (ht : h.Tallies values) : h.counts.toList.sum = h.observations := by
  have hall : (values.countP fun v => (h.bucketOf v : ℕ) < h.counts.size) = values.length :=
    List.countP_eq_length.mpr fun v _ => decide_eq_true (h.bucketOf v).isLt
  have hbefore := ht.before_eq (Nat.le_refl _)
  rwa [before_eq_sum, List.take_of_length_le (Nat.le_of_eq Array.length_toList), hall, ← ht.observations] at hbefore

theorem Tallies.before_le (ht : h.Tallies values) {i : ℕ} (hi : i ≤ h.counts.size) : h.before i ≤ h.observations := by
  rw [ht.before_eq hi, ht.observations]
  exact List.countP_le_length

/-! ## The account -/

/-- A single integer is counted in its bucket if it lies in the range, and else nothing changes. -/
theorem take_one (h : Histogram) (v : Int64) :
    h.take (.one v) =
      if h.Covers v then ⟨.ok (), h.count (h.bucketOf v)⟩ else ⟨.error (.outOfRange v h.lower h.upper), h⟩ := by
  rw [take, reply_addInPlace, add]
  split <;> rfl

/-- One by one, the integers of the range are accepted. -/
theorem acceptedOf_map_one (h : Histogram) (values : List Int64) :
    h.acceptedOf (values.map .one) = values.filter fun v => h.Covers v := by
  induction values with
  | nil => rfl
  | cons v values ih =>
    rw [List.map_cons, acceptedOf, List.flatMap_cons, ← acceptedOf, ih]
    by_cases hv : h.Covers v <;> simp [accepted, Intake.integers, hv]

theorem takeAll_map_one (hall : ∀ v ∈ values, h.Covers v) : h.takeAll (values.map .one) = h.countAll values := by
  rw [takeAll_eq, acceptedOf_map_one, List.filter_eq_self.mpr fun v hv => decide_eq_true (hall v hv)]

/-- A call in the range does what its integers do one by one. -/
theorem take_of_covers {call : Intake} (hall : ∀ v ∈ call.integers, h.Covers v) :
    h.take call = ⟨.ok (), h.takeAll (call.integers.map .one)⟩ := by
  rw [take_eq, addAll_of_covers hall, takeAll_map_one hall]

/-- A call out of the range does what its integers do one by one, up to the first one that is refused. -/
theorem take_of_refused {call : Intake} {before after : List Int64} (hcall : call.integers = before ++ v :: after)
    (hall : ∀ u ∈ before, h.Covers u) (hv : ¬h.Covers v) :
    h.take call = (h.takeAll (before.map .one)).take (.one v) := by
  have hs := h.sameShape_countAll before
  rw [take_eq, hcall, addAll_of_refused hall hv, takeAll_map_one hall, take_one, if_neg (mt (hs.covers_iff v).mp hv),
    hs.lower, hs.upper]

/-- **The counts account for what was accepted.** After any run of calls, with refusals among them, the shape is the one
that was asked for. Every accepted integer is counted in its bucket and among the observations, once, so neither the
order nor the calls that it came with matter; sums of counts are no more than the observations. Every quotient has a
bucket. An integer is accepted exactly in the range, and else refused without a change; a call is accepted integer by
integer, up to the first one that is refused. -/
theorem counts_account_for_values {buckets : ℕ} {lower upper : Int64} {calls : List Intake}
    (hnew : ofBounds buckets lower upper = .ok h₀) (hrun : h₀.takeAll calls = h) :
    (h.lower = lower ∧ h.upper = upper ∧ h.width = h₀.width ∧ h.counts.size = buckets) ∧
      (∀ (i : ℕ) (hi : i < h.counts.size),
        h.counts[i] = (h₀.acceptedOf calls).countP fun v => (h₀.bucketOf v : ℕ) = i) ∧
      (∀ calls', (h₀.acceptedOf calls').Perm (h₀.acceptedOf calls) → h₀.takeAll calls' = h) ∧
      (h.counts.toList.sum = h.observations ∧ h.observations = (h₀.acceptedOf calls).length ∧
        ∀ i ≤ buckets, h.before i ≤ h.observations) ∧
      (∀ v, (h.bucketOf v : ℕ) = min (h.quotient v).floor.toUnsigned (buckets - 1)) ∧
      (∀ q : Binary64, min q.floor.toUnsigned (buckets - 1) < buckets) ∧
      (∀ v, h.take (.one v) =
        if lower ≤ v ∧ v ≤ upper then ⟨.ok (), h.count (h.bucketOf v)⟩
        else ⟨.error (.outOfRange v lower upper), h⟩) ∧
      (∀ call : Intake,
        ((∀ v ∈ call.integers, lower ≤ v ∧ v ≤ upper) →
          h.take call = ⟨.ok (), h.takeAll (call.integers.map .one)⟩) ∧
        (∀ before v after, call.integers = before ++ v :: after → (∀ u ∈ before, lower ≤ u ∧ u ≤ upper) →
          ¬(lower ≤ v ∧ v ≤ upper) → h.take call = (h.takeAll (before.map .one)).take (.one v))) := by
  have ht := tallies_takeAll hnew hrun
  have hs := sameShape_takeAll hrun
  obtain ⟨rfl, rfl, rfl⟩ := shape_takeAll hnew hrun
  refine ⟨⟨rfl, rfl, hs.width, rfl⟩, fun i hi => ?_, fun calls' hperm => ?_,
    ⟨ht.sum_counts, ht.observations, fun i hi => ht.before_le hi⟩, fun v => rfl, fun q => ?_, h.take_one,
    fun call => ⟨take_of_covers, fun before v after hcall hall hv => take_of_refused hcall hall hv⟩⟩
  · rw [ht.counts i hi]
    simp only [hs.bucketOf_eq]
  · exact ht.eq_of_perm (tallies_takeAll hnew rfl) (hs.symm.trans (sameShape_takeAll rfl)) hperm
  · have := h.counts_pos
    omega

/-- Of these calls, two end with a refusal and one is refused altogether. -/
theorem counts_account_for_values_refusals :
    ∃ h₀ h, ofBounds 3 0 8 = .ok h₀ ∧
      h₀.takeAll [.several [8, 2, 9, 5], .one (-1), .progression ⟨0, 12, 4, by decide⟩] = h ∧
      h.counts.toList.sum = h.observations ∧ h.observations = 5 ∧ h₀.takeAll [.several [0, 2, 4, 8, 8]] = h ∧
      h.take (.one 9) = ⟨.error (.outOfRange 9 0 8), h⟩ := by
  obtain ⟨h₀, h, hnew, hrun, haccepted, hsame⟩ : ∃ h₀ h, ofBounds 3 0 8 = .ok h₀ ∧
      h₀.takeAll [.several [8, 2, 9, 5], .one (-1), .progression ⟨0, 12, 4, by decide⟩] = h ∧
      h₀.acceptedOf [.several [8, 2, 9, 5], .one (-1), .progression ⟨0, 12, 4, by decide⟩] = [8, 2, 0, 4, 8] ∧
      h₀.acceptedOf [.several [0, 2, 4, 8, 8]] = [0, 2, 4, 8, 8] :=
    ⟨_, _, rfl, rfl, by decide +kernel, by decide +kernel⟩
  obtain ⟨-, -, horder, ⟨hsum, hobservations, -⟩, -, -, hone, -⟩ := counts_account_for_values hnew hrun
  rw [haccepted] at horder hobservations
  have hperm : (h₀.acceptedOf [.several [0, 2, 4, 8, 8]]).Perm [8, 2, 0, 4, 8] := by
    rw [hsame]
    decide
  exact ⟨h₀, h, hnew, hrun, hsum, hobservations, horder _ hperm, hone 9⟩

end Rollup.Histogram
