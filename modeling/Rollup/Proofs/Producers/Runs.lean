import Rollup.Aggregate.Producers

/-!
# Steps and runs of producers

- `Stepped` lists what a step can do, one constructor for each outcome, and `step_eq_some_iff` says that `step` does
  exactly that;
- a step changes no cell but the one that its handle names (`Stepped.cells`), and no other number of live handles
  (`Stepped.live_of_ne`);
- `run` takes steps one after another and records them as events; a fact on cells or handles that a step keeps is kept
  by every run (`run_induction`).
-/

namespace Rollup.Producers

/-! ## Handles -/

/-- The handle that a step uses; sharing again uses none. -/
def Step.handle? : Step → Option Nat
  | .clone handle | .drop handle | .merge handle _ | .mergeAll handle _ | .mergeAllPanicking handle _
  | .release handle => some handle
  | .reshare => none

/-- The cell that the handle of a step names. -/
def target? (p : Producers) (s : Step) : Option Nat :=
  s.handle?.bind p.cellOf?

/-- The handles that are alive name cells that are there. -/
def WellFormed (p : Producers) : Prop :=
  ∀ handle cell, p.cellOf? handle = some cell → cell < p.cells.size

variable {p : Producers} {handle cell : Nat} {k : Cell} {s : Step} {r : Reply Producers Answer}

theorem wellFormed_ofAggregator (a : Aggregator) : (ofAggregator a).WellFormed := by
  intro handle cell h
  rw [cellOf?, Option.join_eq_some_iff] at h
  cases handle with
  | zero =>
    cases h
    exact Nat.zero_lt_one
  | succ n => cases h

theorem cellOf?_eq_some_iff : p.cellOf? handle = some cell ↔ p.handles[handle]? = some (some cell) :=
  Option.join_eq_some_iff

theorem cellOf?_push (p : Producers) (cells : Array Cell) (cell? : Option Nat) (released : Option Aggregator)
    (handle : Nat) :
    cellOf? ⟨cells, p.handles.push cell?, released⟩ handle =
      if handle = p.handles.size then cell? else p.cellOf? handle := by
  simp only [cellOf?, Array.getElem?_push]
  split <;> rfl

/-- A handle that is dropped names no cell any more, and the others name what they named. -/
theorem cellOf?_drop (p : Producers) (handle other : Nat) :
    (p.drop handle).cellOf? other = if other = handle then none else p.cellOf? other := by
  simp only [cellOf?, drop, Array.getElem?_setIfInBounds]
  by_cases h : other = handle
  · subst h
    rw [if_pos rfl, if_pos rfl]
    split <;> rfl
  · rw [if_neg (Ne.symm h), if_neg h]

theorem target?_eq (hs : s.handle? = some handle) (hc : p.cellOf? handle = some cell) : p.target? s = some cell := by
  rw [target?, hs, Option.bind_some, hc]

/-- Live handles are counted as they are named. -/
theorem live_pos_iff : 0 < p.live cell ↔ ∃ handle, p.cellOf? handle = some cell := by
  simp only [live, Array.count_pos_iff, Array.mem_iff_getElem?, cellOf?_eq_some_iff]

theorem live_eq_zero_iff : p.live cell = 0 ↔ ∀ handle, p.cellOf? handle ≠ some cell := by
  rw [← not_exists, ← live_pos_iff]
  omega

theorem live_drop (h : p.cellOf? handle = some cell) : (p.drop handle).live cell + 1 = p.live cell := by
  have hpos := live_pos_iff.mpr ⟨handle, h⟩
  obtain ⟨hlt, hget⟩ := Array.getElem?_eq_some_iff.mp (cellOf?_eq_some_iff.mp h)
  simp only [live, drop, Array.setIfInBounds, hlt, dite_true] at hpos ⊢
  rw [Array.count_set, hget]
  simp
  omega

theorem live_drop_of_ne {other : Nat} (h : p.cellOf? handle = some cell) (hne : cell ≠ other) :
    (p.drop handle).live other = p.live other := by
  obtain ⟨hlt, hget⟩ := Array.getElem?_eq_some_iff.mp (cellOf?_eq_some_iff.mp h)
  simp only [live, drop, Array.setIfInBounds, hlt, dite_true]
  rw [Array.count_set, hget]
  simp [hne]

/-! ## What a step does -/

/-- The call that a step makes under the lock of a cell. -/
def Step.call? : Step → Option (Cell → Reply Cell Answer)
  | .merge _ row => some (mergeInto [row])
  | .mergeAll _ rows => some (mergeInto rows)
  | .mergeAllPanicking _ rows => some (panicInto rows)
  | _ => none

/-- The producers with another cell in the place of one. -/
def setCell (p : Producers) (cell : Nat) (k : Cell) : Producers :=
  { p with cells := p.cells.setIfInBounds cell k }

/-- What a step can do. -/
inductive Stepped (p : Producers) : Step → Reply Producers Answer → Prop
  | clone {handle cell : Nat} : p.cellOf? handle = some cell →
      Stepped p (.clone handle)
        ⟨.ok (.handle p.handles.size), { p with handles := p.handles.push (some cell) }⟩
  | drop {handle cell : Nat} : p.cellOf? handle = some cell → Stepped p (.drop handle) ⟨.ok .done, p.drop handle⟩
  /-- The lock of a poisoned cell cannot be taken. -/
  | barred {s : Step} {call : Cell → Reply Cell Answer} {handle cell : Nat} {k : Cell} : s.call? = some call →
      s.handle? = some handle → p.cellOf? handle = some cell → p.cells[cell]? = some k → k.poisoned = true →
      Stepped p s ⟨.error (.internal .poisoned), p⟩
  | locked {s : Step} {call : Cell → Reply Cell Answer} {handle cell : Nat} {k : Cell} : s.call? = some call →
      s.handle? = some handle → p.cellOf? handle = some cell → p.cells[cell]? = some k → k.poisoned = false →
      Stepped p s ((call k).mapState (p.setCell cell))
  /-- A handle is spent while there are others to its cell. -/
  | early {handle cell : Nat} {k : Cell} : p.cellOf? handle = some cell → p.cells[cell]? = some k →
      (p.drop handle).live cell ≠ 0 →
      Stepped p (.release handle) ⟨.error (.protocol .producersAlive), p.drop handle⟩
  /-- The last handle to a poisoned cell is spent. -/
  | spoiled {handle cell : Nat} {k : Cell} : p.cellOf? handle = some cell → p.cells[cell]? = some k →
      (p.drop handle).live cell = 0 → k.poisoned = true →
      Stepped p (.release handle) ⟨.error (.internal .poisoned), p.drop handle⟩
  | released {handle cell : Nat} {k : Cell} : p.cellOf? handle = some cell → p.cells[cell]? = some k →
      (p.drop handle).live cell = 0 → k.poisoned = false →
      Stepped p (.release handle)
        ⟨.ok (.aggregator k.aggregator), { p.drop handle with released := some k.aggregator }⟩
  | reshare {a : Aggregator} : p.released = some a →
      Stepped p .reshare ⟨.ok (.handle p.handles.size),
        { p with cells := p.cells.push ⟨a, false⟩, handles := p.handles.push (some p.cells.size) }⟩

theorem locked_eq_some_iff {call : Cell → Reply Cell Answer} :
    p.locked cell call = some r ↔ ∃ k, p.cells[cell]? = some k ∧
      ((k.poisoned = true ∧ r = ⟨.error (.internal .poisoned), p⟩) ∨
        (k.poisoned = false ∧ r = (call k).mapState (p.setCell cell))) := by
  rw [locked, Option.map_eq_some_iff]
  refine exists_congr fun k => and_congr_right fun _ => eq_comm.trans ?_
  cases k.poisoned with
  | true => simp
  | false =>
    simp
    rfl

theorem spend_eq_some_iff :
    p.spend handle cell = some r ↔ ∃ k, p.cells[cell]? = some k ∧
      (((p.drop handle).live cell ≠ 0 ∧ r = ⟨.error (.protocol .producersAlive), p.drop handle⟩) ∨
        ((p.drop handle).live cell = 0 ∧ k.poisoned = true ∧ r = ⟨.error (.internal .poisoned), p.drop handle⟩) ∨
        ((p.drop handle).live cell = 0 ∧ k.poisoned = false ∧
          r = ⟨.ok (.aggregator k.aggregator), { p.drop handle with released := some k.aggregator }⟩)) := by
  rw [spend, Option.map_eq_some_iff]
  refine exists_congr fun k => and_congr_right fun _ => eq_comm.trans ?_
  by_cases hl : (p.drop handle).live cell = 0
  · cases k.poisoned <;> simp [hl]
  · simp [hl, Nat.pos_of_ne_zero hl]

theorem step_eq_locked {call : Cell → Reply Cell Answer} (hcall : s.call? = some call) (hs : s.handle? = some handle) :
    p.step s = (p.cellOf? handle).bind fun cell => p.locked cell call := by
  cases s <;> cases hcall <;> cases hs <;> rfl

/-- **What a step does.** -/
theorem step_eq_some_iff : p.step s = some r ↔ p.Stepped s r := by
  constructor
  · intro h
    cases s with
    | clone handle =>
      obtain ⟨cell, hc, h⟩ := Option.bind_eq_some_iff.mp h
      cases h
      exact .clone hc
    | drop handle =>
      obtain ⟨cell, hc, h⟩ := Option.bind_eq_some_iff.mp h
      cases h
      exact .drop hc
    | merge handle row | mergeAll handle rows | mergeAllPanicking handle rows =>
      obtain ⟨cell, hc, h⟩ := Option.bind_eq_some_iff.mp h
      obtain ⟨k, hk, ⟨hp, rfl⟩ | ⟨hp, rfl⟩⟩ := locked_eq_some_iff.mp h
      · exact .barred rfl rfl hc hk hp
      · exact .locked rfl rfl hc hk hp
    | release handle =>
      obtain ⟨cell, hc, h⟩ := Option.bind_eq_some_iff.mp h
      obtain ⟨k, hk, ⟨hl, rfl⟩ | ⟨hl, hp, rfl⟩ | ⟨hl, hp, rfl⟩⟩ := spend_eq_some_iff.mp h
      · exact .early hc hk hl
      · exact .spoiled hc hk hl hp
      · exact .released hc hk hl hp
    | reshare =>
      obtain ⟨a, ha, h⟩ := Option.bind_eq_some_iff.mp h
      cases h
      exact .reshare ha
  · intro h
    cases h with
    | clone hc | drop hc => simp [step, hc]
    | barred hcall hs hc hk hp =>
      rw [step_eq_locked hcall hs, hc]
      exact locked_eq_some_iff.mpr ⟨_, hk, .inl ⟨hp, rfl⟩⟩
    | locked hcall hs hc hk hp =>
      rw [step_eq_locked hcall hs, hc]
      exact locked_eq_some_iff.mpr ⟨_, hk, .inr ⟨hp, rfl⟩⟩
    | early hc hk hl => exact Option.bind_eq_some_iff.mpr ⟨_, hc, spend_eq_some_iff.mpr ⟨_, hk, .inl ⟨hl, rfl⟩⟩⟩
    | spoiled hc hk hl hp =>
      exact Option.bind_eq_some_iff.mpr ⟨_, hc, spend_eq_some_iff.mpr ⟨_, hk, .inr (.inl ⟨hl, hp, rfl⟩)⟩⟩
    | released hc hk hl hp =>
      exact Option.bind_eq_some_iff.mpr ⟨_, hc, spend_eq_some_iff.mpr ⟨_, hk, .inr (.inr ⟨hl, hp, rfl⟩)⟩⟩
    | reshare ha => simp [step, ha]

/-- A step has a reply exactly if its handle is alive. -/
theorem exists_step_iff (hp : p.WellFormed) (hs : s.handle? = some handle) :
    (∃ r, p.step s = some r) ↔ ∃ cell, p.cellOf? handle = some cell := by
  constructor
  · rintro ⟨r, h⟩
    cases step_eq_some_iff.mp h with
    | clone hc | drop hc | early hc | spoiled hc | released hc =>
      cases hs
      exact ⟨_, hc⟩
    | barred hcall hs' hc | locked hcall hs' hc =>
      cases hs'.symm.trans hs
      exact ⟨_, hc⟩
    | reshare => cases hs
  · rintro ⟨cell, hc⟩
    obtain ⟨k, hk⟩ : ∃ k, p.cells[cell]? = some k := ⟨_, Array.getElem?_eq_getElem (hp _ _ hc)⟩
    cases hcall : s.call? with
    | some call =>
      cases hp : k.poisoned with
      | true => exact ⟨_, step_eq_some_iff.mpr (.barred hcall hs hc hk hp)⟩
      | false => exact ⟨_, step_eq_some_iff.mpr (.locked hcall hs hc hk hp)⟩
    | none =>
      cases s with
      | clone | drop | release =>
        cases hs
        simp [step, spend, hc, hk]
      | merge | mergeAll | mergeAllPanicking => cases hcall
      | reshare => cases hs

/-! ## What a step changes -/

/-- What becomes of a cell by a step on it. -/
def Step.effect (s : Step) (k : Cell) : Cell :=
  match s.call? with
  | none => k
  | some call => if k.poisoned then k else (call k).state

/-- What becomes of a cell by steps on it, one after another. -/
def effects (k : Cell) (steps : List Step) : Cell :=
  steps.foldl (fun k s => s.effect k) k

@[simp] theorem effects_cons (k : Cell) (s : Step) (steps : List Step) :
    effects k (s :: steps) = effects (s.effect k) steps := rfl

/-- A poisoned cell is changed by no step. -/
theorem Step.effect_of_poisoned (s : Step) {k : Cell} (hk : k.poisoned = true) : s.effect k = k := by
  unfold effect
  split <;> simp [hk]

theorem effects_of_poisoned (steps : List Step) {k : Cell} (hk : k.poisoned = true) : effects k steps = k := by
  induction steps with
  | nil => rfl
  | cons s steps ih => rw [effects_cons, s.effect_of_poisoned hk, ih]

namespace Stepped

/-- Only a step on a cell changes it. -/
theorem cells (h : p.Stepped s r) (hk : p.cells[cell]? = some k) :
    r.state.cells[cell]? = some (if p.target? s = some cell then s.effect k else k) := by
  cases h with
  | clone | drop | early | spoiled | released =>
    simp only [Step.effect, Step.call?, ite_self]
    exact hk
  | barred hcall hs hc hk' hp =>
    by_cases ht : p.target? s = some cell
    · cases (target?_eq hs hc).symm.trans ht
      cases hk'.symm.trans hk
      simp [Step.effect, hcall, hp, hk']
    · simp [ht, hk]
  | @locked _ call handle cell' k' hcall hs hc hk' hp =>
    have ht := target?_eq hs hc
    obtain ⟨hlt, -⟩ := Array.getElem?_eq_some_iff.mp hk'
    rw [Reply.state_mapState, setCell, Array.getElem?_setIfInBounds]
    by_cases he : cell' = cell
    · subst he
      cases hk'.symm.trans hk
      simp [Step.effect, hcall, hp, hlt, ht]
    · simp [he, hk, ht]
  | reshare =>
    obtain ⟨hlt, -⟩ := Array.getElem?_eq_some_iff.mp hk
    simp [target?, Step.handle?, Array.getElem?_push, Nat.ne_of_lt hlt, hk]

/-- A cell that a step makes is not poisoned. -/
theorem poisoned_of_new (h : p.Stepped s r) (hk : p.cells[cell]? = none) (hk' : r.state.cells[cell]? = some k) :
    k.poisoned = false := by
  cases h with
  | clone | drop | barred | early | spoiled | released => cases hk.symm.trans hk'
  | locked =>
    have hle := Array.getElem?_eq_none_iff.mp hk
    obtain ⟨hlt, -⟩ := Array.getElem?_eq_some_iff.mp hk'
    simp [setCell] at hlt
    omega
  | reshare =>
    rw [Array.getElem?_push, hk] at hk'
    split at hk' <;> cases hk'
    rfl

theorem size_le (h : p.Stepped s r) : p.cells.size ≤ r.state.cells.size := by
  cases h with
  | clone | drop | barred | early | spoiled | released => exact Nat.le_refl _
  | locked => simp [setCell]
  | reshare => simp

/-- A step is on a cell and makes none, or it shares an aggregator again. -/
theorem target?_cases (h : p.Stepped s r) :
    s = .reshare ∨ ∃ cell, p.target? s = some cell ∧ r.state.cells.size = p.cells.size := by
  cases h with
  | clone hc | drop hc | early hc | spoiled hc | released hc => exact .inr ⟨_, hc, rfl⟩
  | barred hcall hs hc => exact .inr ⟨_, target?_eq hs hc, rfl⟩
  | locked hcall hs hc => exact .inr ⟨_, target?_eq hs hc, by simp [setCell]⟩
  | reshare => exact .inl rfl

/-- A handle after a step named the same cell before it, unless the step has made it. -/
theorem cellOf? (h : p.Stepped s r) {other : Nat} (ho : r.state.cellOf? other = some cell) :
    p.cellOf? other = some cell ∨ (p.target? s = some cell ∧ ∃ handle, s = .clone handle) ∨
      (cell = p.cells.size ∧ r.state.cells.size = p.cells.size + 1) := by
  cases h with
  | clone hc =>
    rw [cellOf?_push] at ho
    split at ho
    · cases ho
      exact .inr (.inl ⟨hc, _, rfl⟩)
    · exact .inl ho
  | @drop handle | @early handle | @spoiled handle | @released handle =>
    replace ho : (p.drop handle).cellOf? other = some cell := ho
    rw [cellOf?_drop] at ho
    split at ho
    · cases ho
    · exact .inl ho
  | barred | locked => exact .inl ho
  | reshare =>
    rw [cellOf?_push] at ho
    split at ho
    · cases ho
      exact .inr (.inr ⟨rfl, Array.size_push _⟩)
    · exact .inl ho

/-- Handles keep naming cells that are there. -/
theorem wellFormed (h : p.Stepped s r) (hp : p.WellFormed) : r.state.WellFormed := by
  intro other cell ho
  have hsize := h.size_le
  rcases h.cellOf? ho with ho | ⟨ht, -⟩ | ⟨rfl, hs⟩
  · exact Nat.lt_of_lt_of_le (hp _ _ ho) hsize
  · obtain ⟨handle, -, hc⟩ := Option.bind_eq_some_iff.mp ht
    exact Nat.lt_of_lt_of_le (hp _ _ hc) hsize
  · omega

/-- The live handles of a cell stay as many as they are by a step on another cell. -/
theorem live_of_ne (h : p.Stepped s r) (hlt : cell < p.cells.size) (hne : p.target? s ≠ some cell) :
    r.state.live cell = p.live cell := by
  cases h with
  | @clone handle cell' hc =>
    have hne' : cell' ≠ cell := fun he => hne (he ▸ hc)
    simp [live, hne']
  | @drop handle cell' hc | @early handle cell' k hc | @spoiled handle cell' k hc | @released handle cell' k hc =>
    exact live_drop_of_ne hc fun he => hne (he ▸ hc)
  | barred | locked => rfl
  | reshare => simp [live, Nat.ne_of_gt hlt]

end Stepped

/-! ## Runs -/

/-- A step that was made, the cell that its handle named at the time, and what came of it. -/
structure Event where
  step : Step
  cell? : Option Nat
  outcome : Except Error Answer

/-- Take steps one after another and record them. There is no run if one of the steps has no reply. -/
def run (p : Producers) : List Step → Option (List Event × Producers)
  | [] => some ([], p)
  | s :: steps => do
    let r ← p.step s
    let (events, p') ← r.state.run steps
    return (⟨s, p.target? s, r.outcome⟩ :: events, p')

/-- The steps on a cell among the events of a run. -/
def stepsOn (cell : Nat) (events : List Event) : List Step :=
  (events.filter (·.cell? == some cell)).map Event.step

variable {p' : Producers} {steps : List Step} {events : List Event}

theorem run_nil_eq_some_iff : p.run [] = some (events, p') ↔ events = [] ∧ p' = p := by
  simp [run, eq_comm]

theorem run_cons_eq_some_iff :
    p.run (s :: steps) = some (events, p') ↔ ∃ r rest, p.Stepped s r ∧ r.state.run steps = some (rest, p') ∧
      events = ⟨s, p.target? s, r.outcome⟩ :: rest := by
  simp only [run, bind, Option.bind_eq_some_iff, step_eq_some_iff]
  constructor
  · rintro ⟨r, hr, ⟨rest, q⟩, hrest, h⟩
    cases h
    exact ⟨r, rest, hr, hrest, rfl⟩
  · rintro ⟨r, rest, hr, hrest, rfl⟩
    exact ⟨r, hr, _, hrest, rfl⟩

/-- What steps keep, runs keep. -/
theorem run_induction {P : Producers → Prop}
    (hstep : ∀ {p : Producers} {s : Step} {r : Reply Producers Answer}, P p → p.Stepped s r → P r.state) (hp : P p)
    (h : p.run steps = some (events, p')) : P p' := by
  induction steps generalizing p events with
  | nil =>
    obtain ⟨-, rfl⟩ := run_nil_eq_some_iff.mp h
    exact hp
  | cons s steps ih =>
    obtain ⟨r, rest, hr, hrest, -⟩ := run_cons_eq_some_iff.mp h
    exact ih (hstep hp hr) hrest

/-- A run can be cut at any of its events. -/
theorem run_split {before after : List Event} {e : Event} (h : p.run steps = some (before ++ e :: after, p')) :
    ∃ first q s r rest, p.run first = some (before, q) ∧ q.Stepped s r ∧ e = ⟨s, q.target? s, r.outcome⟩ ∧
      r.state.run rest = some (after, p') := by
  induction before generalizing p steps with
  | nil =>
    cases steps with
    | nil => simp [run_nil_eq_some_iff] at h
    | cons s steps =>
      obtain ⟨r, rest, hr, hrest, he⟩ := run_cons_eq_some_iff.mp h
      cases he
      exact ⟨[], p, s, r, steps, rfl, hr, rfl, hrest⟩
  | cons e' before ih =>
    cases steps with
    | nil => simp [run_nil_eq_some_iff] at h
    | cons s steps =>
      obtain ⟨r, rest, hr, hrest, he⟩ := run_cons_eq_some_iff.mp h
      cases he
      obtain ⟨first, q, s', r', rest, hfirst, hq⟩ := ih hrest
      exact ⟨s :: first, q, s', r', rest, run_cons_eq_some_iff.mpr ⟨r, before, hr, hfirst, rfl⟩, hq⟩

/-- A cell is changed by the steps on it, one after another, and by nothing else. -/
theorem cells_run (h : p.run steps = some (events, p')) (hk : p.cells[cell]? = some k) :
    p'.cells[cell]? = some (effects k (stepsOn cell events)) := by
  induction steps generalizing p events k with
  | nil =>
    obtain ⟨rfl, rfl⟩ := run_nil_eq_some_iff.mp h
    exact hk
  | cons s steps ih =>
    obtain ⟨r, rest, hr, hrest, rfl⟩ := run_cons_eq_some_iff.mp h
    rw [ih hrest (hr.cells hk)]
    by_cases ht : p.target? s = some cell <;> simp [stepsOn, ht]

/-- As long as no aggregator is shared again, there is one cell and every step is on it. -/
theorem stepsOn_of_reshare_not_mem (hp : p.WellFormed) (hsize : p.cells.size = 1)
    (h : p.run steps = some (events, p')) (hs : .reshare ∉ steps) : stepsOn 0 events = steps := by
  induction steps generalizing p events with
  | nil =>
    obtain ⟨rfl, rfl⟩ := run_nil_eq_some_iff.mp h
    rfl
  | cons s steps ih =>
    obtain ⟨r, rest, hr, hrest, rfl⟩ := run_cons_eq_some_iff.mp h
    obtain ⟨hne, hs⟩ := List.ne_and_not_mem_of_not_mem_cons hs
    obtain rfl | ⟨cell, ht, hcells⟩ := hr.target?_cases
    · exact absurd rfl hne
    · obtain ⟨handle, -, hc⟩ := Option.bind_eq_some_iff.mp ht
      have hlt := hp _ _ hc
      obtain rfl : cell = 0 := by omega
      have hrec := ih (hr.wellFormed hp) (hcells.trans hsize) hrest hs
      rw [stepsOn] at hrec ⊢
      simp [ht, hrec]

end Rollup.Producers
