import Rollup.Proofs.Producers.Runs

/-!
# The end of a build phase

Spending a handle takes the aggregator out exactly if it is the only live handle to a cell that is not poisoned
(`exists_spent`), and then the cell has no live handle ever after (`live_run_of_zero`). If the handles to a cell are
spent one after another, exactly the last one takes the aggregator out (`releases_of_drained`). A cell is poisoned
exactly if a producer has panicked on it (`poisoned_run_iff`), and then nothing changes it any more
(`run_of_poisoned`).
-/

namespace Rollup.Producers

variable {p p' : Producers} {handle cell : Nat} {k : Cell} {s : Step} {r : Reply Producers Answer}
  {steps : List Step} {events : List Event}

/-! ## Spending a handle -/

theorem live_drop_eq_zero_iff :
    (p.drop handle).live cell = 0 ↔ ∀ other, p.cellOf? other = some cell → other = handle := by
  rw [live_eq_zero_iff]
  refine forall_congr' fun other => ?_
  rw [cellOf?_drop]
  by_cases h : other = handle <;> simp [h]

/-- What comes of spending a handle to a cell, and what it changes: the handle is gone, and nothing else. -/
structure Spent (p : Producers) (handle cell : Nat) (k : Cell) (r : Reply Producers Answer) : Prop where
  outcome_shared : (∃ other, other ≠ handle ∧ p.cellOf? other = some cell) →
    r.outcome = .error (.protocol .producersAlive)
  outcome_last : (∀ other, p.cellOf? other = some cell → other = handle) →
    r.outcome = if k.poisoned then .error (.internal .poisoned) else .ok (.aggregator k.aggregator)
  cells : r.state.cells = p.cells
  cellOf : ∀ other, r.state.cellOf? other = if other = handle then none else p.cellOf? other

/-- A handle that is alive can be spent. -/
theorem exists_spent (hp : p.WellFormed) (hc : p.cellOf? handle = some cell) :
    ∃ k r, p.cells[cell]? = some k ∧ p.step (.release handle) = some r ∧ p.Spent handle cell k r := by
  obtain ⟨r, hr⟩ := (exists_step_iff (s := .release handle) hp rfl).mpr ⟨cell, hc⟩
  obtain ⟨k, hk⟩ : ∃ k, p.cells[cell]? = some k := ⟨_, Array.getElem?_eq_getElem (hp _ _ hc)⟩
  refine ⟨k, r, hk, hr, ?_⟩
  cases step_eq_some_iff.mp hr with
  | barred hcall | locked hcall => cases hcall
  | early hc' hk' hl =>
    cases hc.symm.trans hc'
    refine ⟨fun _ => rfl, fun honly => ?_, rfl, cellOf?_drop p handle⟩
    exact absurd (live_drop_eq_zero_iff.mpr honly) hl
  | spoiled hc' hk' hl hpois =>
    cases hc.symm.trans hc'
    cases hk.symm.trans hk'
    refine ⟨?_, fun _ => (if_pos hpois).symm, rfl, cellOf?_drop p handle⟩
    rintro ⟨other, hne, ho⟩
    exact absurd (live_drop_eq_zero_iff.mp hl other ho) hne
  | released hc' hk' hl hpois =>
    cases hc.symm.trans hc'
    cases hk.symm.trans hk'
    refine ⟨?_, fun _ => (if_neg (by simp [hpois])).symm, rfl, cellOf?_drop p handle⟩
    rintro ⟨other, hne, ho⟩
    exact absurd (live_drop_eq_zero_iff.mp hl other ho) hne

/-! ## Calls under a lock -/

theorem outcome_mergeInto_ne (rows : List Row) (k : Cell) {answer : Answer} (h : answer ≠ .done) :
    (mergeInto rows k).outcome ≠ .ok answer := by
  simp only [mergeInto, Reply.outcome_mapState, Reply.map]
  cases (k.aggregator.mergeAll rows).outcome with
  | error e => nofun
  | ok u => exact fun he => h (Except.ok.inj he).symm

theorem Step.outcome_of_call {call : Cell → Reply Cell Answer} (hcall : s.call? = some call) (b : Aggregator) :
    (call k).outcome ≠ .ok (.aggregator b) := by
  cases s with
  | merge handle row | mergeAll handle rows =>
    cases hcall
    exact outcome_mergeInto_ne _ k nofun
  | mergeAllPanicking handle rows =>
    cases hcall
    simp only [panicInto]
    split <;> nofun
  | clone | drop | release | reshare => cases hcall

/-- A call under a lock leaves the cell poisoned exactly if its producer panics. -/
theorem Step.poisoned_of_call {call : Cell → Reply Cell Answer} (hcall : s.call? = some call)
    (hk : k.poisoned = false) : (call k).state.poisoned = true ↔ (call k).outcome = .ok .panicked := by
  cases s with
  | merge handle row | mergeAll handle rows =>
    cases hcall
    refine iff_of_false ?_ (outcome_mergeInto_ne _ k nofun)
    simp [mergeInto, hk]
  | mergeAllPanicking handle rows =>
    cases hcall
    simp only [panicInto]
    split <;> simp [hk]
  | clone | drop | release | reshare => cases hcall

namespace Stepped

/-- No other step than a panicking merge panics. -/
theorem eq_of_panicked (h : p.Stepped s r) (hpanic : r.outcome = .ok .panicked) :
    ∃ handle rows, s = .mergeAllPanicking handle rows := by
  cases h with
  | clone | drop | barred | early | spoiled | released | reshare => cases hpanic
  | locked hcall =>
    cases s with
    | mergeAllPanicking handle rows => exact ⟨handle, rows, rfl⟩
    | merge handle row | mergeAll handle rows =>
      cases hcall
      exact absurd hpanic (outcome_mergeInto_ne _ _ nofun)
    | clone | drop | release | reshare => cases hcall

/-- A step panics exactly if it poisons the cell that it is on. -/
theorem panicked_iff (h : p.Stepped s r) (ht : p.target? s = some cell) (hk : p.cells[cell]? = some k) :
    r.outcome = .ok .panicked ↔ k.poisoned = false ∧ (s.effect k).poisoned = true := by
  cases h with
  | clone | drop | early | spoiled | released => simp [Step.effect, Step.call?]
  | barred hcall hs hc hk' hp =>
    cases (target?_eq hs hc).symm.trans ht
    cases hk'.symm.trans hk
    simp [hp]
  | locked hcall hs hc hk' hp =>
    cases (target?_eq hs hc).symm.trans ht
    cases hk'.symm.trans hk
    rw [Reply.outcome_mapState, ← Step.poisoned_of_call hcall hp]
    simp [Step.effect, hcall, hp]
  | reshare => cases ht

/-- A cell is poisoned after a step exactly if it was before or the step panics on it. -/
theorem poisoned_iff (h : p.Stepped s r) :
    (∃ after, r.state.cells[cell]? = some after ∧ after.poisoned = true) ↔
      (∃ before, p.cells[cell]? = some before ∧ before.poisoned = true) ∨
        (p.target? s = some cell ∧ r.outcome = .ok .panicked) := by
  cases hk : p.cells[cell]? with
  | some k =>
    rw [h.cells hk]
    by_cases ht : p.target? s = some cell
    · simp only [ht, if_true, Option.some.injEq, exists_eq_left', true_and, h.panicked_iff ht hk]
      cases hp : k.poisoned with
      | true => simp [s.effect_of_poisoned hp, hp]
      | false => simp
    · simp [ht]
  | none =>
    refine iff_of_false ?_ ?_
    · rintro ⟨after, ha, hp⟩
      rw [h.poisoned_of_new hk ha] at hp
      cases hp
    · rintro (⟨before, hb, -⟩ | ⟨ht, hpanic⟩)
      · cases hb
      · cases h with
        | clone | drop | barred | early | spoiled | released | reshare => cases hpanic
        | locked _ hs hc hk' =>
          cases (target?_eq hs hc).symm.trans ht
          cases hk'.symm.trans hk

/-- Taking an aggregator out leaves no live handle to its cell. -/
theorem live_of_released {b : Aggregator} (h : p.Stepped s r) (hb : r.outcome = .ok (.aggregator b)) :
    ∃ cell, p.target? s = some cell ∧ cell < r.state.cells.size ∧ r.state.live cell = 0 := by
  cases h with
  | clone | drop | barred | early | spoiled | reshare => cases hb
  | locked hcall => exact absurd hb (Step.outcome_of_call hcall b)
  | released hc hk hl =>
    obtain ⟨hlt, -⟩ := Array.getElem?_eq_some_iff.mp hk
    exact ⟨_, hc, hlt, hl⟩

end Stepped

/-- A producer panics exactly if it can take the lock and none of its rows is refused. -/
theorem exists_step_mergeAllPanicking (hc : p.cellOf? handle = some cell) (hk : p.cells[cell]? = some k)
    (rows : List Row) : ∃ r, p.step (.mergeAllPanicking handle rows) = some r ∧
      (r.outcome = .ok .panicked ↔ k.poisoned = false ∧ (k.aggregator.mergeAll rows).outcome = .ok ()) := by
  cases hp : k.poisoned with
  | true =>
    refine ⟨_, step_eq_some_iff.mpr (.barred rfl rfl hc hk hp), ?_⟩
    simp
  | false =>
    refine ⟨_, step_eq_some_iff.mpr (.locked rfl rfl hc hk hp), ?_⟩
    simp only [Reply.outcome_mapState, panicInto, true_and]
    cases (k.aggregator.mergeAll rows).outcome <;> simp

theorem live_pos_of_target (h : p.target? s = some cell) : 0 < p.live cell := by
  obtain ⟨handle, -, hc⟩ := Option.bind_eq_some_iff.mp h
  exact live_pos_iff.mpr ⟨handle, hc⟩

/-! ## Runs -/

/-- A cell without live handles gets none, and no step is on it. -/
theorem live_run_of_zero (h : p.run steps = some (events, p')) (hlt : cell < p.cells.size) (h0 : p.live cell = 0) :
    p'.live cell = 0 ∧ ∀ e ∈ events, e.cell? ≠ some cell := by
  induction steps generalizing p events with
  | nil =>
    obtain ⟨rfl, rfl⟩ := run_nil_eq_some_iff.mp h
    exact ⟨h0, by simp⟩
  | cons s steps ih =>
    obtain ⟨r, rest, hr, hrest, rfl⟩ := run_cons_eq_some_iff.mp h
    have ht : p.target? s ≠ some cell := fun ht => by
      have := live_pos_of_target ht
      omega
    obtain ⟨hend, hevents⟩ := ih hrest (Nat.lt_of_lt_of_le hlt hr.size_le) ((hr.live_of_ne hlt ht).trans h0)
    exact ⟨hend, List.forall_mem_cons.mpr ⟨ht, hevents⟩⟩

/-- A cell is poisoned exactly if it was before or a producer has panicked on it. -/
theorem poisoned_run_iff (h : p.run steps = some (events, p')) (hk : p'.cells[cell]? = some k) :
    k.poisoned = true ↔ (∃ before, p.cells[cell]? = some before ∧ before.poisoned = true) ∨
      ∃ e ∈ events, e.cell? = some cell ∧ e.outcome = .ok .panicked := by
  induction steps generalizing p events with
  | nil =>
    obtain ⟨rfl, rfl⟩ := run_nil_eq_some_iff.mp h
    simp [hk]
  | cons s steps ih =>
    obtain ⟨r, rest, hr, hrest, rfl⟩ := run_cons_eq_some_iff.mp h
    rw [ih hrest, hr.poisoned_iff, or_assoc]
    simp

/-- A poisoned cell stays as it is, and all merges on it fail. -/
theorem run_of_poisoned (h : p.run steps = some (events, p')) (hk : p.cells[cell]? = some k)
    (hp : k.poisoned = true) :
    p'.cells[cell]? = some k ∧
      ∀ e ∈ events, e.cell? = some cell → e.step.call? ≠ none → e.outcome = .error (.internal .poisoned) := by
  have hkeep : ∀ {steps events p'}, p.run steps = some (events, p') → p'.cells[cell]? = some k := fun h => by
    rw [cells_run h hk, effects_of_poisoned _ hp]
  refine ⟨hkeep h, ?_⟩
  intro e he ht hcall
  obtain ⟨before, after, rfl⟩ := List.append_of_mem he
  obtain ⟨first, q, s, r, rest, hfirst, hr, rfl, -⟩ := run_split h
  have hq := hkeep hfirst
  cases hr with
  | clone | drop | early | spoiled | released | reshare => exact absurd rfl hcall
  | barred => rfl
  | locked _ hs hc hk' hp' =>
    cases (target?_eq hs hc).symm.trans ht
    cases hk'.symm.trans hq
    rw [hp] at hp'
    cases hp'

/-! ## Spending all handles -/

/-- An event spends a handle to a cell. -/
def Event.spends (cell : Nat) (e : Event) : Bool :=
  e.cell? == some cell && e.step matches .release _

/-- What came of spending handles to a cell, in order. -/
def releases (cell : Nat) (events : List Event) : List (Except Error Answer) :=
  (events.filter (·.spends cell)).map Event.outcome

/-- An event makes no handle, drops none and does not panic. -/
structure Event.Quiet (e : Event) : Prop where
  not_clone : ∀ handle, e.step ≠ .clone handle
  not_drop : ∀ handle, e.step ≠ .drop handle
  not_panicked : e.outcome ≠ .ok .panicked

theorem releases_eq_nil (h : ∀ e ∈ events, e.cell? ≠ some cell) : releases cell events = [] := by
  rw [releases, List.map_eq_nil_iff, List.filter_eq_nil_iff]
  intro e he
  simp [Event.spends, h e he]

theorem releases_cons_of_spends {e : Event} (h : e.spends cell = true) :
    releases cell (e :: events) = e.outcome :: releases cell events := by
  simp [releases, h]

theorem releases_cons_of_not_spends {e : Event} (h : e.spends cell = false) :
    releases cell (e :: events) = releases cell events := by
  simp [releases, h]

/-- A quiet step leaves the handles to a cell alone or spends one of them, and takes the aggregator out exactly if
it was the last. -/
theorem Stepped.spends_cases (h : p.Stepped s r) (hk : p.cells[cell]? = some k) (hp : k.poisoned = false)
    (hquiet : p.target? s = some cell → Event.Quiet ⟨s, p.target? s, r.outcome⟩) :
    (Event.spends cell ⟨s, p.target? s, r.outcome⟩ = false ∧ r.state.live cell = p.live cell) ∨
    (Event.spends cell ⟨s, p.target? s, r.outcome⟩ = true ∧ r.state.live cell + 1 = p.live cell ∧
      ((0 < r.state.live cell ∧ r.outcome = .error (.protocol .producersAlive)) ∨
        (r.state.live cell = 0 ∧ ∃ b, r.outcome = .ok (.aggregator b)))) := by
  obtain ⟨hlt, -⟩ := Array.getElem?_eq_some_iff.mp hk
  by_cases ht : p.target? s = some cell
  · have hcalm := hquiet ht
    have hspends : ∀ handle, s = .release handle → Event.spends cell ⟨s, p.target? s, r.outcome⟩ = true := by
      rintro handle rfl
      simp [Event.spends, ht]
    cases h with
    | clone => exact absurd rfl (hcalm.not_clone _)
    | drop => exact absurd rfl (hcalm.not_drop _)
    | barred hcall | locked hcall =>
      refine .inl ⟨?_, rfl⟩
      cases s with
      | clone | drop | release | reshare => cases hcall
      | merge | mergeAll | mergeAllPanicking => simp [Event.spends]
    | early hc hk' hl =>
      cases hc.symm.trans ht
      exact .inr ⟨hspends _ rfl, live_drop hc, .inl ⟨Nat.pos_of_ne_zero hl, rfl⟩⟩
    | spoiled hc hk' hl hp' =>
      cases hc.symm.trans ht
      cases hk'.symm.trans hk
      rw [hp] at hp'
      cases hp'
    | released hc hk' hl =>
      cases hc.symm.trans ht
      exact .inr ⟨hspends _ rfl, live_drop hc, .inr ⟨hl, _, rfl⟩⟩
    | reshare => cases ht
  · exact .inl ⟨by simp [Event.spends, ht], h.live_of_ne hlt ht⟩

/-- If the handles to a cell are spent until none is left, the last one takes the aggregator out and no other does. -/
theorem releases_of_drained (h : p.run steps = some (events, p')) (hk : p.cells[cell]? = some k)
    (hp : k.poisoned = false) (hquiet : ∀ e ∈ events, e.cell? = some cell → e.Quiet) (hend : p'.live cell = 0)
    (hlive : 0 < p.live cell) :
    ∃ b, releases cell events =
      List.replicate (p.live cell - 1) (.error (.protocol .producersAlive)) ++ [.ok (.aggregator b)] := by
  -- the cell is not poisoned and has a live handle before each step, until the last one is spent
  induction steps generalizing p events k with
  | nil =>
    obtain ⟨-, rfl⟩ := run_nil_eq_some_iff.mp h
    omega
  | cons s steps ih =>
    obtain ⟨r, rest, hr, hrest, rfl⟩ := run_cons_eq_some_iff.mp h
    obtain ⟨hhead, hothers⟩ := List.forall_mem_cons.mp hquiet
    obtain ⟨k', hk', hp'⟩ : ∃ k', r.state.cells[cell]? = some k' ∧ k'.poisoned = false := by
      refine ⟨_, hr.cells hk, ?_⟩
      by_cases ht : p.target? s = some cell
      · rw [if_pos ht]
        simpa [hp] using mt (hr.panicked_iff ht hk).mpr (hhead ht).not_panicked
      · rwa [if_neg ht]
    rcases hr.spends_cases hk hp hhead with ⟨hs, hl⟩ | ⟨hs, hl, ⟨hpos, ho⟩ | ⟨hzero, b, ho⟩⟩
    · rw [releases_cons_of_not_spends hs, ← hl]
      exact ih hrest hk' hp' hothers (by omega)
    · obtain ⟨b, hb⟩ := ih hrest hk' hp' hothers hpos
      obtain ⟨n, hn⟩ := Nat.exists_eq_add_one_of_ne_zero (Nat.ne_of_gt hpos)
      refine ⟨b, ?_⟩
      rw [releases_cons_of_spends hs, hb, ho, ← hl, hn]
      rfl
    · obtain ⟨hlt, -⟩ := Array.getElem?_eq_some_iff.mp hk'
      refine ⟨b, ?_⟩
      rw [releases_cons_of_spends hs, releases_eq_nil (live_run_of_zero hrest hlt hzero).2, ho, ← hl, hzero]
      rfl

/-! ## The end of the build phase -/

/-- **The build phase ends once, and no result is read while a producer is left.** A handle that is spent takes the
aggregator out only as the last one to a cell that is not poisoned; nothing is on a cell after that; if all handles to a
cell are spent it happens with the last of them; and a cell is poisoned by a panic under its lock alone, for good. -/
theorem build_ends_once {a : Aggregator} (h : (ofAggregator a).run steps = some (events, p)) :
    (∀ handle cell, p.cellOf? handle = some cell →
      ∃ k r, p.cells[cell]? = some k ∧ p.step (.release handle) = some r ∧ p.Spent handle cell k r) ∧
    (∀ before e after b, events = before ++ e :: after → e.outcome = .ok (.aggregator b) →
      ∃ cell, e.cell? = some cell ∧ (∀ e' ∈ after, e'.cell? ≠ some cell) ∧ ∀ handle, p.cellOf? handle ≠ some cell) ∧
    (∀ later laterEvents q cell k, p.run later = some (laterEvents, q) → p.cells[cell]? = some k →
      k.poisoned = false → (∀ e ∈ laterEvents, e.cell? = some cell → e.Quiet) →
      (∃ handle, p.cellOf? handle = some cell) → (∀ handle, q.cellOf? handle ≠ some cell) →
      ∃ b, releases cell laterEvents =
        List.replicate (p.live cell - 1) (.error (.protocol .producersAlive)) ++ [.ok (.aggregator b)]) ∧
    (∀ cell k, p.cells[cell]? = some k →
      (k.poisoned = true ↔ ∃ e ∈ events, e.cell? = some cell ∧ e.outcome = .ok .panicked)) ∧
    (∀ handle cell k rows, p.cellOf? handle = some cell → p.cells[cell]? = some k →
      ∃ r, p.step (.mergeAllPanicking handle rows) = some r ∧
        (r.outcome = .ok .panicked ↔ k.poisoned = false ∧ (k.aggregator.mergeAll rows).outcome = .ok ())) ∧
    (∀ e ∈ events, e.outcome = .ok .panicked → ∃ handle rows, e.step = .mergeAllPanicking handle rows) ∧
    (∀ later laterEvents q cell k, p.run later = some (laterEvents, q) → p.cells[cell]? = some k →
      k.poisoned = true → q.cells[cell]? = some k ∧
        ∀ e ∈ laterEvents, e.cell? = some cell → e.step.call? ≠ none → e.outcome = .error (.internal .poisoned)) := by
  have hp : p.WellFormed := run_induction (fun hp hr => hr.wellFormed hp) (wellFormed_ofAggregator a) h
  refine ⟨?_, ?_, ?_, ?_, ?_, ?_, ?_⟩
  · exact fun handle cell hc => exists_spent hp hc
  · rintro before e after b rfl hb
    obtain ⟨first, q, s, r, rest, -, hr, rfl, hrest⟩ := run_split h
    obtain ⟨cell, ht, hlt, hzero⟩ := hr.live_of_released hb
    obtain ⟨hend, hafter⟩ := live_run_of_zero hrest hlt hzero
    exact ⟨cell, ht, hafter, live_eq_zero_iff.mp hend⟩
  · intro later laterEvents q cell k hlater hk hpois hquiet hlive hend
    exact releases_of_drained hlater hk hpois hquiet (live_eq_zero_iff.mpr hend) (live_pos_iff.mpr hlive)
  · intro cell k hk
    refine (poisoned_run_iff h hk).trans (or_iff_right ?_)
    rintro ⟨before, hb, hpois⟩
    cases cell with
    | zero =>
      cases hb
      cases hpois
    | succ n => cases hb
  · exact fun handle cell k rows hc hk => exists_step_mergeAllPanicking hc hk rows
  · intro e he hpanic
    obtain ⟨before, after, rfl⟩ := List.append_of_mem he
    obtain ⟨first, q, s, r, rest, -, hr, rfl, -⟩ := run_split h
    exact hr.eq_of_panicked hpanic
  · exact fun later laterEvents q cell k hlater hk hpois => run_of_poisoned hlater hk hpois

/-- Of two handles that are spent, the second takes the aggregator out. -/
theorem build_ends_once_two_handles :
    let a := Aggregator.empty ⟨none, 0, .int, .sum⟩
    ∃ events p r, (ofAggregator a).run [.clone 0, .release 1] = some (events, p) ∧
      events.map Event.outcome = [.ok (.handle 1), .error (.protocol .producersAlive)] ∧
      p.step (.release 0) = some r ∧ r.outcome = .ok (.aggregator a) := by
  intro a
  obtain ⟨events, p, h, hevents, hp⟩ : ∃ events p, (ofAggregator a).run [.clone 0, .release 1] = some (events, p) ∧
      events.map Event.outcome = [.ok (.handle 1), .error (.protocol .producersAlive)] ∧
      p = ⟨#[⟨a, false⟩], #[some 0, none], none⟩ := ⟨_, _, rfl, rfl, rfl⟩
  obtain ⟨hspend, -⟩ := build_ends_once h
  subst hp
  obtain ⟨k, r, hk, hr, hspent⟩ := hspend 0 0 rfl
  cases hk
  refine ⟨events, _, r, h, hevents, hr, hspent.outcome_last ?_⟩
  exact live_drop_eq_zero_iff.mp rfl

end Rollup.Producers
