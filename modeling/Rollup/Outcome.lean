/-!
# Outcomes of steps that can fail

When a sequence of steps succeeds, and which error it gives: it succeeds when each step does (`bind_eq_ok_iff`), and
its error is that of the first step that fails (`bind_eq_error_iff`, `error?_bind`). The same holds of a step that is
taken for every member of a list (`mapM_eq_ok_iff`, `mapM_eq_error_iff`), also if the step depends on the position of
the member (`mapM_zipIdx_eq_error_iff`).
-/

namespace Rollup.Outcome

variable {ε α β : Type}

@[simp] theorem ok_bind (a : α) (f : α → Except ε β) : (.ok a >>= f) = f a := rfl

@[simp] theorem error_bind (e : ε) (f : α → Except ε β) : ((.error e : Except ε α) >>= f) = .error e := rfl

@[simp] theorem pure_eq (a : α) : (pure a : Except ε α) = .ok a := rfl

@[simp] theorem throw_eq (e : ε) : (throw e : Except ε α) = .error e := rfl

@[simp] theorem map_ok (f : α → β) (a : α) : (.ok a : Except ε α).map f = .ok (f a) := rfl

@[simp] theorem map_error (f : α → β) (e : ε) : (.error e : Except ε α).map f = .error e := rfl

/-- Two steps succeed when the first does and the second does after it. -/
theorem bind_eq_ok_iff {x : Except ε α} {f : α → Except ε β} {b : β} :
    (x >>= f) = .ok b ↔ ∃ a, x = .ok a ∧ f a = .ok b := by
  cases x <;> simp

/-- Two steps fail as the first, or as the second after a first that succeeds. -/
theorem bind_eq_error_iff {x : Except ε α} {f : α → Except ε β} {e : ε} :
    (x >>= f) = .error e ↔ x = .error e ∨ ∃ a, x = .ok a ∧ f a = .error e := by
  cases x <;> simp

/-! ## Errors -/

/-- The error of an outcome, if it is one. -/
def error? : Except ε α → Option ε
  | .ok _ => none
  | .error e => some e

section Error

variable {x : Except ε α}

@[simp] theorem error?_ok (a : α) : error? (.ok a : Except ε α) = none := rfl

@[simp] theorem error?_error (e : ε) : error? (.error e : Except ε α) = some e := rfl

@[simp] theorem error?_map (f : α → β) (x : Except ε α) : error? (x.map f) = error? x := by
  cases x <;> rfl

theorem error?_eq_some_iff {e : ε} : error? x = some e ↔ x = .error e := by
  cases x <;> simp

theorem error?_eq_none_iff {x : Except ε Unit} : error? x = none ↔ x = .ok () := by
  cases x <;> simp

/-- Of two steps the first one that fails gives the error, where that of the second does not depend on the first. -/
theorem error?_bind {f : α → Except ε β} {e? : Option ε} (h : ∀ a, x = .ok a → error? (f a) = e?) :
    error? (x >>= f) = (error? x).or e? := by
  cases x with
  | ok a => exact h a rfl
  | error e => rfl

/-- A last step that cannot fail adds no error. -/
theorem error?_bind_pure (f : α → β) (x : Except ε α) : error? (x >>= fun a => pure (f a)) = error? x := by
  cases x <;> rfl

end Error

/-! ## Traversals of lists -/

/-- A traversal succeeds when each of its steps does. -/
theorem mapM_eq_ok_iff {f : α → Except ε β} {xs : List α} {ys : List β} :
    xs.mapM f = .ok ys ↔ xs.map f = ys.map .ok := by
  induction xs generalizing ys with
  | nil => cases ys <;> simp
  | cons x xs ih =>
    simp only [List.mapM_cons, bind_eq_ok_iff, ih, pure_eq, Except.ok.injEq]
    constructor
    · rintro ⟨y, hy, zs, hzs, rfl⟩
      rw [List.map_cons, List.map_cons, hy, hzs]
    · intro h
      cases ys with
      | nil => cases h
      | cons y ys =>
        rw [List.map_cons, List.map_cons, List.cons.injEq] at h
        exact ⟨y, h.1, ys, h.2, rfl⟩

theorem exists_mapM_eq_ok_iff {f : α → Except ε β} {xs : List α} :
    (∃ ys, xs.mapM f = .ok ys) ↔ ∀ x ∈ xs, ∃ y, f x = .ok y := by
  induction xs with
  | nil => simp
  | cons x xs ih =>
    simp only [List.mapM_cons, bind_eq_ok_iff, pure_eq, Except.ok.injEq, List.forall_mem_cons, ← ih]
    constructor
    · rintro ⟨_, y, hy, ys, hys, -⟩
      exact ⟨⟨y, hy⟩, ys, hys⟩
    · rintro ⟨⟨y, hy⟩, ys, hys⟩
      exact ⟨y :: ys, y, hy, ys, hys, rfl⟩

/-- A traversal fails as the first of its steps that fails. -/
theorem mapM_eq_error_iff {f : α → Except ε β} {xs : List α} {e : ε} :
    xs.mapM f = .error e ↔
      ∃ before x after, xs = before ++ x :: after ∧ (∃ ys, before.mapM f = .ok ys) ∧ f x = .error e := by
  induction xs with
  | nil => simp
  | cons x xs ih =>
    simp only [List.mapM_cons, bind_eq_error_iff, ih, pure_eq, reduceCtorEq, and_false, exists_false, or_false]
    constructor
    · rintro (hx | ⟨y, hy, before, x', after, rfl, ⟨ys, hys⟩, hx'⟩)
      · exact ⟨[], x, xs, rfl, ⟨[], rfl⟩, hx⟩
      · exact ⟨x :: before, x', after, rfl, ⟨y :: ys, by simp [hy, hys]⟩, hx'⟩
    · rintro ⟨before, x', after, h, ⟨ys, hys⟩, hx'⟩
      cases before with
      | nil =>
        cases h
        exact Or.inl hx'
      | cons b before =>
        cases h
        simp only [List.mapM_cons, bind_eq_ok_iff] at hys
        obtain ⟨y, hy, zs, hzs, -⟩ := hys
        exact Or.inr ⟨y, hy, before, x', after, rfl, ⟨zs, hzs⟩, hx'⟩

/-- A traversal fails as the member at the first position where one fails. -/
theorem mapM_eq_error_iff_first {f : α → Except ε β} {xs : List α} {e : ε} :
    xs.mapM f = .error e ↔
      ∃ (i : Nat) (x : α), xs[i]? = some x ∧ f x = .error e ∧
        ∀ (j : Nat) (y : α), j < i → xs[j]? = some y → ∃ z, f y = .ok z := by
  simp only [mapM_eq_error_iff, exists_mapM_eq_ok_iff]
  constructor
  · rintro ⟨before, x, after, rfl, hbefore, hx⟩
    refine ⟨before.length, x, by simp, hx, fun j y hj hy => hbefore y ?_⟩
    rw [List.getElem?_append_left hj] at hy
    exact List.mem_of_getElem? hy
  · rintro ⟨i, x, hi, hx, hbefore⟩
    obtain ⟨hlt, rfl⟩ := List.getElem?_eq_some_iff.mp hi
    refine ⟨xs.take i, xs[i], xs.drop (i + 1), ?_, fun y hy => ?_, hx⟩
    · rw [← List.drop_eq_getElem_cons hlt, List.take_append_drop]
    · obtain ⟨j, hj⟩ := List.mem_iff_getElem?.mp hy
      rw [List.getElem?_take] at hj
      split at hj
      · exact hbefore j y ‹_› hj
      · cases hj

/-- The same for a step that depends on the position. -/
theorem mapM_zipIdx_eq_error_iff {f : Nat → α → Except ε β} {xs : List α} {e : ε} :
    xs.zipIdx.mapM (fun x => f x.2 x.1) = .error e ↔
      ∃ (i : Nat) (x : α), xs[i]? = some x ∧ f i x = .error e ∧
        ∀ (j : Nat) (y : α), j < i → xs[j]? = some y → ∃ z, f j y = .ok z := by
  have hpair : ∀ {i : Nat} {x : α × Nat}, xs.zipIdx[i]? = some x ↔ xs[i]? = some x.1 ∧ x.2 = i := by
    intro i x
    rw [List.getElem?_zipIdx, Nat.zero_add, Option.map_eq_some_iff]
    constructor
    · rintro ⟨_, hx, rfl⟩
      exact ⟨hx, rfl⟩
    · rintro ⟨hx, rfl⟩
      exact ⟨x.1, hx, rfl⟩
  rw [mapM_eq_error_iff_first]
  constructor
  · rintro ⟨i, ⟨x, k⟩, hx, he, hbefore⟩
    obtain ⟨hx, rfl⟩ := hpair.mp hx
    exact ⟨k, x, hx, he, fun j y hj hy => hbefore j (y, j) hj (hpair.mpr ⟨hy, rfl⟩)⟩
  · rintro ⟨i, x, hx, he, hbefore⟩
    refine ⟨i, (x, i), hpair.mpr ⟨hx, rfl⟩, he, fun j y hj hy => ?_⟩
    obtain ⟨hy, hk⟩ := hpair.mp hy
    rw [hk]
    exact hbefore j y.1 hj hy

/-- A traversal gives one result for every member. -/
theorem length_of_mapM {f : α → Except ε β} {xs : List α} {ys : List β} (h : xs.mapM f = .ok ys) :
    ys.length = xs.length := by
  have h := congrArg List.length (mapM_eq_ok_iff.mp h)
  rwa [List.length_map, List.length_map, eq_comm] at h

end Rollup.Outcome
