import Mathlib
import Rollup.Aggregate.Accumulator

/-!
# Exact totals

The averages over raw numbers add them up from zero and from the left when they are read. `SumsFit` says that every
sum on the way fits in 64 bits; then, and only then, there is a total, and it is the exact sum (`total_eq_ok_iff`,
`total_eq_error_iff`). The quotient of a total by a positive count always fits (`fits_tdiv`).
-/

namespace Rollup

open Exact

theorem Exact.fits_natCast_iff {n : Nat} : Fits n ↔ n < 2 ^ 63 := by
  unfold Fits
  rw [Int64.toInt_minValue, Int64.toInt_maxValue]
  omega

/-- Every sum of the first few integers fits. -/
def SumsFit (ns : List Int) : Prop :=
  ∀ k ≤ ns.length, Fits (ns.take k).sum

instance (ns : List Int) : Decidable (SumsFit ns) :=
  inferInstanceAs (Decidable (∀ k ≤ ns.length, _))

variable {ns : List Int}

theorem SumsFit.sum (h : SumsFit ns) : Fits ns.sum := by
  have := h ns.length le_rfl
  rwa [List.take_length] at this

@[simp] theorem sumsFit_nil : SumsFit [] := by
  intro k _
  rw [List.take_nil]
  decide

/-- One more integer brings one more sum. -/
theorem sumsFit_concat {n : Int} : SumsFit (ns ++ [n]) ↔ SumsFit ns ∧ Fits (ns.sum + n) := by
  constructor
  · intro h
    refine ⟨fun k hk => ?_, ?_⟩
    · have := h k (by rw [List.length_append]; omega)
      rwa [List.take_append_of_le_length hk] at this
    · have := h.sum
      rwa [List.sum_append, List.sum_singleton] at this
  · rintro ⟨h, hn⟩ k hk
    rw [List.length_append, List.length_singleton] at hk
    rcases Nat.lt_or_ge ns.length k with hlt | hle
    · rw [List.take_of_length_le (by simpa using hlt), List.sum_append, List.sum_singleton]
      exact hn
    · rw [List.take_append_of_le_length hle]
      exact h k hle

theorem abs_sum_le (ns : List Int) : |ns.sum| ≤ (ns.map (|·|)).sum := by
  induction ns with
  | nil => simp
  | cons n ns ih =>
    rw [List.map_cons, List.sum_cons, List.sum_cons]
    exact (abs_add_le n ns.sum).trans (by omega)

theorem sum_abs_le_of_sublist {ms : List Int} (h : ms.Sublist ns) : (ms.map (|·|)).sum ≤ (ns.map (|·|)).sum := by
  refine (h.map _).sum_le_sum fun n hn => ?_
  obtain ⟨m, -, rfl⟩ := List.mem_map.mp hn
  exact abs_nonneg m

/-- If the absolute values add up to no more than a 64-bit integer, no sum on the way leaves the range. -/
theorem sumsFit_of_abs {bound : Int} (h : (ns.map (|·|)).sum ≤ bound) (hb : Fits bound) : SumsFit ns := by
  intro k _
  have hsub := sum_abs_le_of_sublist (List.take_sublist k ns)
  have habs := abs_le.mp ((abs_sum_le (ns.take k)).trans (hsub.trans h))
  unfold Fits at *
  rw [Int64.toInt_minValue, Int64.toInt_maxValue] at *
  omega

theorem exists_fits_add_iff (quantity : Quantity) {s n : Int64} :
    (∃ t, fits quantity (add? s n) = .ok t) ↔ Fits (s.toInt + n.toInt) := by
  simp only [fits_eq_ok_iff, add?_eq_some_iff]
  constructor
  · rintro ⟨t, ht⟩
    rw [← ht]
    exact fits_toInt t
  · intro h
    obtain ⟨t, -, ht⟩ := exists_of_fits h
    exact ⟨t, ht⟩

namespace Accumulator

/-- Adding numbers up from `s` gives the exact sum as long as every sum on the way fits, and an overflow otherwise. -/
theorem foldlM_add (values : List Int64) (s : Int64) :
    match values.foldlM (fun s n => fits .averageSum (add? s n)) s with
    | .ok t => t.toInt = s.toInt + (values.map Int64.toInt).sum ∧
        ∀ k ≤ values.length, Fits (s.toInt + ((values.map Int64.toInt).take k).sum)
    | .error e => e = .overflow .averageSum ∧
        ∃ k ≤ values.length, ¬Fits (s.toInt + ((values.map Int64.toInt).take k).sum) := by
  induction values generalizing s with
  | nil =>
    refine ⟨by simp, fun k _ => ?_⟩
    simpa using fits_toInt s
  | cons n values ih =>
    rw [List.foldlM_cons]
    cases hadd : add? s n with
    | none =>
      refine ⟨rfl, 1, by simp, ?_⟩
      have hn := ofInt?_eq_none_iff_not_fits.mp hadd
      simpa using hn
    | some t =>
      have ht := add?_eq_some_iff.mp hadd
      have ih := ih t
      rw [show fits .averageSum (some t) = .ok t from rfl, Outcome.ok_bind]
      generalize hf : values.foldlM (fun s n => fits .averageSum (add? s n)) t = r at ih
      cases r with
      | ok u =>
        obtain ⟨hu, hk⟩ := ih
        refine ⟨?_, ?_⟩
        · rw [hu, ht, List.map_cons, List.sum_cons]
          omega
        · intro k hle
          cases k with
          | zero => simpa using fits_toInt s
          | succ k =>
            have := hk k (by simpa using hle)
            rwa [List.map_cons, List.take_succ_cons, List.sum_cons, ← add_assoc, ← ht]
      | error e =>
        obtain ⟨he, k, hle, hk⟩ := ih
        refine ⟨he, k + 1, by simpa using hle, ?_⟩
        rwa [List.map_cons, List.take_succ_cons, List.sum_cons, ← add_assoc, ← ht]

/-- There is a total exactly if every sum on the way fits, and then it is the exact sum. -/
theorem total_eq_ok_iff {values : List Int64} {s : Int64} :
    total values = .ok s ↔ SumsFit (values.map Int64.toInt) ∧ s.toInt = (values.map Int64.toInt).sum := by
  have h := foldlM_add values 0
  simp only [Int64.toInt_zero, zero_add] at h
  unfold total SumsFit
  rw [List.length_map]
  cases hf : values.foldlM (fun s n => fits .averageSum (add? s n)) 0 with
  | ok t =>
    rw [hf] at h
    constructor
    · rintro ⟨⟩
      exact ⟨h.2, h.1⟩
    · rintro ⟨-, hs⟩
      rw [Int64.toInt_inj.mp (h.1.trans hs.symm)]
  | error e =>
    rw [hf] at h
    obtain ⟨-, k, hle, hk⟩ := h
    constructor
    · rintro ⟨⟩
    · rintro ⟨hfit, -⟩
      exact absurd (hfit k hle) hk

/-- There is no total exactly if some sum on the way does not fit. -/
theorem total_eq_error_iff {values : List Int64} {e : Error} :
    total values = .error e ↔ ¬SumsFit (values.map Int64.toInt) ∧ e = .overflow .averageSum := by
  have h := foldlM_add values 0
  simp only [Int64.toInt_zero, zero_add] at h
  unfold total SumsFit
  rw [List.length_map]
  cases hf : values.foldlM (fun s n => fits .averageSum (add? s n)) 0 with
  | ok t =>
    rw [hf] at h
    constructor
    · rintro ⟨⟩
    · rintro ⟨hn, -⟩
      exact absurd h.2 hn
  | error e' =>
    rw [hf] at h
    obtain ⟨rfl, k, hle, hk⟩ := h
    constructor
    · rintro ⟨⟩
      exact ⟨fun hfit => hk (hfit k hle), rfl⟩
    · rintro ⟨-, rfl⟩
      rfl

/-- Fewer than `2 ^ 63` numbers can be counted. -/
theorem totals_eq (values : Array Int64) (hn : values.size < 2 ^ 63) :
    ∃ c : Int64, c.toInt = values.size ∧ totals values = (total values.toList).map (·, c) := by
  obtain ⟨c, hc, hcv⟩ := exists_of_fits (fits_natCast_iff.mpr hn)
  refine ⟨c, hcv, ?_⟩
  unfold totals
  rw [hc]
  cases total values.toList <;> rfl

theorem size_lt_of_totals {values : Array Int64} {s : Int64 × Int64} (h : totals values = .ok s) :
    values.size < 2 ^ 63 := by
  obtain ⟨_, -, h⟩ := Outcome.bind_eq_ok_iff.mp h
  obtain ⟨n, hn, -⟩ := Outcome.bind_eq_ok_iff.mp h
  have hn := ofInt?_eq_some_iff.mp (fits_eq_ok_iff.mp hn)
  rw [← fits_natCast_iff, ← hn]
  exact fits_toInt n

end Accumulator

/-- A number divided by a positive one fits if the number does. -/
theorem fits_tdiv (s : Int64) {n : Int} (hn : 0 < n) : Fits (s.toInt.tdiv n) := by
  obtain ⟨hlo, hhi⟩ := fits_toInt s
  unfold Fits
  rcases le_total 0 s.toInt with hs | hs
  · have h0 := Int.tdiv_nonneg hs hn.le
    have h1 := Int.tdiv_le_self n hs
    rw [Int64.toInt_minValue] at *
    omega
  · have h0 := Int.tdiv_nonneg (Int.neg_nonneg_of_nonpos hs) hn.le
    have h1 := Int.tdiv_le_self n (Int.neg_nonneg_of_nonpos hs)
    rw [Int.neg_tdiv] at h0 h1
    rw [Int64.toInt_maxValue] at *
    omega

end Rollup
