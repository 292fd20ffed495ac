import Rollup.Sequence.Cursor

/-!
# Positions that a cursor hands out

`Cursor.run` makes calls on a cursor, whatever comes of them, and lists each call with its outcome as an `Event`. Some
events take the cursor back to position zero (`Event.restarts`), and some hand out a position (`Event.position?`).

- `Step` lists what can come of a call, and `step_call` says that nothing else does; a call that fails moves nothing
  (`Step.state_of_error`);
- `handedOut_run`: as long as no event takes it back, a cursor hands out its position and those after it one by one, and
  stands right after them;
- `positions_consecutive`: hence the positions between two restarts are all those from zero on, whatever lengths the
  calls name, and none is skipped or repeated.
-/

namespace Rollup.Cursor

/-! ## Runs of calls -/

/-- A call and what came of it. -/
structure Event where
  call : Call
  outcome : Except Error (Option Nat)

/-- Make calls one after the other, whatever comes of them, and list what came of each. -/
def run (c : Cursor) : List Call → List Event × Cursor
  | [] => ([], c)
  | k :: ks =>
    let r := c.call k
    let (events, c') := r.state.run ks
    (⟨k, r.outcome⟩ :: events, c')

/-- Whether an event takes the cursor to position zero, as opening and rewinding do unless they fail. -/
def Event.restarts : Event → Bool
  | ⟨.start, .ok _⟩ | ⟨.rewind, .ok _⟩ => true
  | _ => false

/-- The position that an event hands out, as advancing does unless it fails. -/
def Event.position? : Event → Option Nat
  | ⟨.advance _, .ok p?⟩ => p?
  | _ => none

/-- The positions that events hand out, in order. -/
def handedOut (events : List Event) : List Nat :=
  events.filterMap Event.position?

/-- Why a cursor refuses a call for being open, or for being closed. -/
def Call.refusal? (isOpen : Bool) : Call → Option ProtocolFault
  | .start => if isOpen then some .alreadyOpen else none
  | .position name => if isOpen then none else some (.closed name)
  | .advance _ => if isOpen then none else some (.closed "next")
  | .rewind => if isOpen then none else some (.closed "rewind")
  | .close => none

variable {c c' : Cursor} {k : Call} {ks : List Call} {p length : Nat} {e : Event} {events before since : List Event}

@[simp] theorem Event.restarts_error (k : Call) (error : Error) : Event.restarts ⟨k, .error error⟩ = false := by
  cases k <;> rfl

@[simp] theorem Event.position?_error (k : Call) (error : Error) : Event.position? ⟨k, .error error⟩ = none := by
  cases k <;> rfl

/-! ## One call -/

/-- What can come of a call. -/
inductive Step (c : Cursor) : Call → Reply Cursor (Option Nat) → Prop
  | refused {k : Call} {fault : ProtocolFault} :
      k.refusal? c.isOpen = some fault → Step c k ⟨.error (.protocol fault), c⟩
  | exhausted {p length : Nat} : c.position = some p → length ≤ p → Step c (.advance length) ⟨.error .exhausted, c⟩
  | advanced {p length : Nat} :
      c.position = some p → p < length → Step c (.advance length) ⟨.ok (some p), ⟨some (p + 1)⟩⟩
  | told {p : Nat} (name : String) : c.position = some p → Step c (.position name) ⟨.ok (some p), c⟩
  | started : c.position = none → Step c .start ⟨.ok none, ⟨some 0⟩⟩
  | rewound {p : Nat} : c.position = some p → Step c .rewind ⟨.ok none, ⟨some 0⟩⟩
  | closed : Step c .close ⟨.ok none, ⟨none⟩⟩

theorem step_call (c : Cursor) (k : Call) : Step c k (c.call k) := by
  obtain ⟨_ | p⟩ := c
  · cases k with
    | start => exact .started rfl
    | position name | advance length | rewind => exact .refused rfl
    | close => exact .closed
  · cases k with
    | start => exact .refused rfl
    | position name => exact .told name rfl
    | advance length =>
      rcases Nat.lt_or_ge p length with h | h
      · rw [call, advance_of_lt h]
        exact .advanced rfl h
      · rw [call, advance_of_le h]
        exact .exhausted rfl h
    | rewind => exact .rewound rfl
    | close => exact .closed

namespace Step

variable {r : Reply Cursor (Option Nat)} (h : Step c k r)

include h

/-- A call that fails leaves the cursor where it is. -/
theorem state_of_error {error : Error} (he : r.outcome = .error error) : r.state = c := by
  cases h with
  | refused | exhausted => rfl
  | advanced | told | started | rewound | closed => cases he

/-- A cursor breaks the protocol where it refuses a call. -/
theorem protocol_iff {fault : ProtocolFault} :
    r.outcome = .error (.protocol fault) ↔ k.refusal? c.isOpen = some fault := by
  cases h with
  | refused hk => simp [hk]
  | exhausted hc | advanced hc | told name hc | started hc | rewound hc => simp [Call.refusal?, isOpen, hc]
  | closed => simp [Call.refusal?]

/-- An open cursor advances below the length that the call names, and is exhausted otherwise. -/
theorem eq_of_advance (hk : k = .advance length) (hc : c.position = some p) :
    (p < length → r = ⟨.ok (some p), ⟨some (p + 1)⟩⟩) ∧ (length ≤ p → r = ⟨.error .exhausted, c⟩) := by
  subst hk
  cases h with
  | refused hk => simp [Call.refusal?, isOpen, hc] at hk
  | exhausted hc' hle =>
    cases hc.symm.trans hc'
    exact ⟨fun hlt => absurd hlt (Nat.not_lt.mpr hle), fun _ => rfl⟩
  | advanced hc' hlt =>
    cases hc.symm.trans hc'
    exact ⟨fun _ => rfl, fun hle => absurd hlt (Nat.not_lt.mpr hle)⟩

/-- A restart leads to position zero. -/
theorem state_of_restarts (he : Event.restarts ⟨k, r.outcome⟩ = true) : r.state = ⟨some 0⟩ := by
  cases h with
  | started | rewound => rfl
  | advanced | told | closed | exhausted => cases he
  | refused => simp at he

/-- Only advancing hands out a position, and only one below the length. -/
theorem exists_advance_of_position? (he : Event.position? ⟨k, r.outcome⟩ = some p) :
    ∃ length, k = .advance length ∧ p < length := by
  cases h with
  | advanced hc hlt =>
    cases he
    exact ⟨_, rfl, hlt⟩
  | told | started | rewound | closed | exhausted => cases he
  | refused => simp at he

/-- A closed cursor hands out nothing and stays closed, unless the call takes it to position zero. -/
theorem of_closed (hc : c = ⟨none⟩) (he : Event.restarts ⟨k, r.outcome⟩ = false) :
    Event.position? ⟨k, r.outcome⟩ = none ∧ r.state = ⟨none⟩ := by
  subst hc
  cases h with
  | refused => exact ⟨Event.position?_error k _, rfl⟩
  | closed => exact ⟨rfl, rfl⟩
  | started => cases he
  | exhausted hc | advanced hc | told name hc | rewound hc => cases hc

/-- An open cursor hands out its position and moves to the next one, or it hands out nothing and stays or is closed,
unless the call takes it back. -/
theorem of_open (hc : c = ⟨some p⟩) (he : Event.restarts ⟨k, r.outcome⟩ = false) :
    (Event.position? ⟨k, r.outcome⟩ = some p ∧ r.state = ⟨some (p + 1)⟩) ∨
      Event.position? ⟨k, r.outcome⟩ = none ∧ (r.state = ⟨some p⟩ ∨ r.state = ⟨none⟩) := by
  subst hc
  cases h with
  | refused => exact .inr ⟨Event.position?_error k _, .inl rfl⟩
  | exhausted | told => exact .inr ⟨rfl, .inl rfl⟩
  | advanced hc =>
    cases hc
    exact .inl ⟨rfl, rfl⟩
  | closed => exact .inr ⟨rfl, .inr rfl⟩
  | rewound => cases he
  | started hc => cases hc

end Step

/-! ## Runs -/

theorem run_cons (c : Cursor) (k : Call) (ks : List Call) :
    c.run (k :: ks) =
      (⟨k, (c.call k).outcome⟩ :: ((c.call k).state.run ks).1, ((c.call k).state.run ks).2) := rfl

theorem run_append (c : Cursor) (ks ks' : List Call) :
    c.run (ks ++ ks') = ((c.run ks).1 ++ ((c.run ks).2.run ks').1, ((c.run ks).2.run ks').2) := by
  induction ks generalizing c with
  | nil => rfl
  | cons k ks ih => rw [List.cons_append, run_cons, ih, run_cons, List.cons_append]

/-- A run can be split anywhere into a run and another one from where the first has led. -/
theorem exists_run_of_append (h : (c.run ks).1 = before ++ since) :
    ∃ ks₁ ks₂ : List Call, ks = ks₁ ++ ks₂ ∧ (c.run ks₁).1 = before ∧
      (c.run ks₁).2.run ks₂ = (since, (c.run ks).2) := by
  induction before generalizing c ks with
  | nil => exact ⟨[], ks, rfl, rfl, Prod.ext h rfl⟩
  | cons e before ih =>
    cases ks with
    | nil => cases h
    | cons k ks =>
      obtain ⟨he, h⟩ := List.cons.inj h
      obtain ⟨ks₁, ks₂, rfl, hbefore, hsince⟩ := ih h
      refine ⟨k :: ks₁, ks₂, rfl, ?_, hsince⟩
      rw [run_cons, he, hbefore]

/-- An event of a run is a call on some cursor, and what follows is a run from there. -/
theorem exists_call_of_append (h : (c.run ks).1 = before ++ e :: since) :
    ∃ (c' : Cursor) (ks' : List Call), e.call ∈ ks ∧ e = ⟨e.call, (c'.call e.call).outcome⟩ ∧
      (c'.call e.call).state.run ks' = (since, (c.run ks).2) := by
  obtain ⟨ks₁, ks₂, rfl, -, hrun⟩ := exists_run_of_append h
  cases ks₂ with
  | nil => cases hrun
  | cons k ks₂ =>
    rw [run_cons, Prod.mk.injEq, List.cons.injEq] at hrun
    obtain ⟨⟨rfl, hsince⟩, hstate⟩ := hrun
    exact ⟨_, ks₂, List.mem_append_right _ List.mem_cons_self, rfl, Prod.ext hsince hstate⟩

/-- Calls that fail leave the cursor where it is. -/
theorem run_of_failed (h : ∀ e ∈ (c.run ks).1, ∃ error, e.outcome = .error error) : (c.run ks).2 = c := by
  induction ks generalizing c with
  | nil => rfl
  | cons k ks ih =>
    rw [run_cons, List.forall_mem_cons] at h
    obtain ⟨⟨error, hk⟩, hks⟩ := h
    rw [run_cons, ih hks, (step_call c k).state_of_error hk]

/-! ## What is handed out -/

/-- A closed cursor hands out nothing before a restart. -/
theorem handedOut_run_of_closed (h : ∀ e ∈ (run ⟨none⟩ ks).1, e.restarts = false) :
    handedOut (run ⟨none⟩ ks).1 = [] ∧ (run ⟨none⟩ ks).2 = ⟨none⟩ := by
  induction ks with
  | nil => exact ⟨rfl, rfl⟩
  | cons k ks ih =>
    rw [run_cons, List.forall_mem_cons] at h
    obtain ⟨hk, hks⟩ := h
    obtain ⟨hnone, hstate⟩ := (step_call ⟨none⟩ k).of_closed rfl hk
    rw [hstate] at hks
    rw [run_cons, hstate, handedOut, List.filterMap_cons_none hnone]
    exact ih hks

/-- Before a restart, an open cursor hands out its position and those after it one by one; it stands after them, unless
it has been closed. -/
theorem handedOut_run (h : ∀ e ∈ (run ⟨some p⟩ ks).1, e.restarts = false) :
    ∃ n, handedOut (run ⟨some p⟩ ks).1 = List.range' p n ∧
      ((run ⟨some p⟩ ks).2 = ⟨some (p + n)⟩ ∨ (run ⟨some p⟩ ks).2 = ⟨none⟩) := by
  induction ks generalizing p with
  | nil => exact ⟨0, rfl, .inl rfl⟩
  | cons k ks ih =>
    rw [run_cons, List.forall_mem_cons] at h
    obtain ⟨hk, hks⟩ := h
    rw [run_cons, handedOut]
    rcases (step_call ⟨some p⟩ k).of_open rfl hk with ⟨hsome, hstate⟩ | ⟨hnone, hstate⟩
    · rw [hstate] at hks ⊢
      obtain ⟨n, hrange, hend⟩ := ih hks
      refine ⟨n + 1, ?_, ?_⟩
      · rw [List.filterMap_cons_some hsome, List.range'_succ, ← hrange]
        rfl
      · rwa [Nat.add_comm n, ← Nat.add_assoc]
    · rw [List.filterMap_cons_none hnone]
      rcases hstate with hstate | hstate
      · rw [hstate] at hks ⊢
        exact ih hks
      · rw [hstate] at hks ⊢
        obtain ⟨hnil, hend⟩ := handedOut_run_of_closed hks
        exact ⟨0, hnil, .inr hend⟩

/-- After a restart the positions are handed out from zero on. -/
theorem handedOut_since (h : (c.run ks).1 = before ++ e :: since) (he : e.restarts = true)
    (hsince : ∀ e' ∈ since, e'.restarts = false) :
    handedOut since = List.range (handedOut since).length ∧
      ∀ p, (c.run ks).2.position = some p → p = (handedOut since).length := by
  obtain ⟨c', ks', -, hcall, hrun⟩ := exists_call_of_append h
  rw [hcall] at he
  rw [(step_call c' _).state_of_restarts he] at hrun
  have hopen : ∀ e' ∈ (run ⟨some 0⟩ ks').1, e'.restarts = false := by rwa [hrun]
  obtain ⟨n, hrange, hend⟩ := handedOut_run hopen
  rw [hrun] at hrange hend
  have hlength : (handedOut since).length = n := by rw [hrange, List.length_range']
  rw [hlength]
  refine ⟨hrange.trans List.range_eq_range'.symm, fun p hp => ?_⟩
  rcases hend with hend | hend <;> rw [hend] at hp <;> cases hp
  exact Nat.zero_add n

/-- The position that a cursor tells is the next one that it hands out. -/
theorem position_eq_next {name : String} {between after : List Event} {q : Nat}
    (h : (c.run ks).1 =
      before ++ ⟨.position name, .ok (some p)⟩ :: (between ++ ⟨.advance length, .ok (some q)⟩ :: after))
    (hbetween : ∀ e ∈ between, e.restarts = false) (hnone : handedOut between = []) : q = p := by
  obtain ⟨c', ks', -, hcall, hrun⟩ := exists_call_of_append h
  obtain ⟨_ | p'⟩ := c' <;> cases hcall
  have hsplit : (run ⟨some p⟩ ks').1 = (between ++ [⟨.advance length, .ok (some q)⟩]) ++ after := by
    rw [List.append_assoc]
    exact congrArg Prod.fst hrun
  obtain ⟨ks₁, ks₂, -, hbefore, -⟩ := exists_run_of_append hsplit
  have hopen : ∀ e ∈ (run ⟨some p⟩ ks₁).1, e.restarts = false := by
    rw [hbefore, List.forall_mem_append]
    exact ⟨hbetween, List.forall_mem_singleton.mpr rfl⟩
  obtain ⟨n, hrange, -⟩ := handedOut_run hopen
  rw [hbefore, handedOut, List.filterMap_append, ← handedOut, hnone] at hrange
  cases n with
  | zero => cases hrange
  | succ n => exact (List.cons.inj hrange).1

/-- A position that is handed out is below one of the lengths that the calls name. -/
theorem exists_length_of_mem_handedOut (h : p ∈ handedOut (c.run ks).1) : ∃ length, .advance length ∈ ks ∧ p < length := by
  obtain ⟨e, he, hp⟩ := List.mem_filterMap.mp h
  obtain ⟨before, since, hsplit⟩ := List.append_of_mem he
  obtain ⟨c', -, hmem, hcall, -⟩ := exists_call_of_append hsplit
  rw [hcall] at hp
  obtain ⟨length, hk, hlt⟩ := (step_call c' _).exists_advance_of_position? hp
  exact ⟨length, hk ▸ hmem, hlt⟩

/-- **A cursor hands out consecutive positions.** In every run of calls, failing ones among them and with any lengths, the
positions since the latest restart are zero, one and so on, and the cursor stands at the next one unless it has been
closed. The position that it tells is the next one that it hands out. With lengths of 64 bits, stepping past a position
never overflows. An open cursor hands out its position exactly if the length exceeds it and is exhausted otherwise; calls
that fail move nothing, so a greater length goes on from there. A call breaks the protocol exactly if it opens an open
cursor or asks something of a closed one. -/
theorem positions_consecutive :
    (∀ (c : Cursor) (ks : List Call) (before since : List Event) (e : Event), (c.run ks).1 = before ++ e :: since →
      e.restarts = true → (∀ e' ∈ since, e'.restarts = false) →
      handedOut since = List.range (handedOut since).length ∧
        ∀ p, (c.run ks).2.position = some p → p = (handedOut since).length) ∧
    (∀ (c : Cursor) (ks : List Call) (before between after : List Event) (name : String) (p length q : Nat),
      (c.run ks).1 =
        before ++ ⟨.position name, .ok (some p)⟩ :: (between ++ ⟨.advance length, .ok (some q)⟩ :: after) →
      (∀ e ∈ between, e.restarts = false) → handedOut between = [] → q = p) ∧
    (∀ (c : Cursor) (ks : List Call), (∀ length, .advance length ∈ ks → length < UInt64.size) →
      ∀ p ∈ handedOut (c.run ks).1, (UInt64.ofNat p + 1).toNat = p + 1) ∧
    (∀ (c : Cursor) (p length : Nat), c.position = some p →
      (p < length → c.call (.advance length) = ⟨.ok (some p), ⟨some (p + 1)⟩⟩) ∧
      (length ≤ p → c.call (.advance length) = ⟨.error .exhausted, c⟩)) ∧
    (∀ (c : Cursor) (ks : List Call) (p length : Nat), c.position = some p → p < length →
      (∀ e ∈ (c.run ks).1, ∃ error, e.outcome = .error error) →
      (c.run (ks ++ [.advance length])).1 = (c.run ks).1 ++ [⟨.advance length, .ok (some p)⟩]) ∧
    ∀ (c : Cursor) (k : Call) (fault : ProtocolFault),
      ((c.call k).outcome = .error (.protocol fault) ↔ k.refusal? c.isOpen = some fault) ∧
        ((c.call k).outcome = .error (.protocol fault) → (c.call k).state = c) := by
  refine ⟨fun _ _ _ _ _ => handedOut_since, fun _ _ _ _ _ _ _ _ _ => position_eq_next, ?_, ?_, ?_,
    fun c k _ => ⟨(step_call c k).protocol_iff, (step_call c k).state_of_error⟩⟩
  · intro c ks hlengths p hp
    obtain ⟨length, hmem, hlt⟩ := exists_length_of_mem_handedOut hp
    have hsize : p + 1 < UInt64.size := Nat.lt_of_le_of_lt hlt (hlengths length hmem)
    rw [UInt64.toNat_add, UInt64.toNat_ofNat_of_lt' (Nat.lt_of_succ_lt hsize)]
    exact Nat.mod_eq_of_lt hsize
  · intro c p length hc
    exact (step_call c _).eq_of_advance rfl hc
  · intro c ks p length hc hlt hfailed
    rw [run_append, run_of_failed hfailed, run_cons, ((step_call c _).eq_of_advance rfl hc).1 hlt]
    rfl

/-- A second pass in which the lengths shrink and grow again, up to the greatest one. -/
theorem positions_consecutive_varying_lengths :
    let ks : List Call := [.start, .advance 1, .rewind, .advance 3, .advance 1, .position "has_next", .start, .advance 2]
    let told : Event := ⟨.position "has_next", .ok (some 1)⟩
    let refused : Event := ⟨.start, .error (.protocol .alreadyOpen)⟩
    let since : List Event :=
      [⟨.advance 3, .ok (some 0)⟩, ⟨.advance 1, .error .exhausted⟩, told, refused, ⟨.advance 2, .ok (some 1)⟩]
    (closed.run ks).1 = [⟨.start, .ok none⟩, ⟨.advance 1, .ok (some 0)⟩, ⟨.rewind, .ok none⟩] ++ since ∧
      handedOut since = List.range (handedOut since).length ∧
      (∃ p q, told = ⟨.position "has_next", .ok (some p)⟩ ∧ ⟨.advance 2, .ok (some q)⟩ ∈ since ∧ q = p) ∧
      (∀ p ∈ handedOut (closed.run ks).1, (UInt64.ofNat p + 1).toNat = p + 1) ∧
      call ⟨some 2⟩ (.advance 2) = ⟨.error .exhausted, ⟨some 2⟩⟩ ∧
      (run ⟨some 2⟩ [.advance 2, .start, .advance 18446744073709551615]).1 =
        [⟨.advance 2, .error .exhausted⟩, refused, ⟨.advance 18446744073709551615, .ok (some 2)⟩] := by
  intro ks told refused since
  obtain ⟨hrange, htold, hexact, hadvance, hcontinue, -⟩ := positions_consecutive
  have hrun : (closed.run ks).1 =
      [⟨.start, .ok none⟩, ⟨.advance 1, .ok (some 0)⟩] ++ ⟨.rewind, .ok none⟩ :: since := rfl
  refine ⟨hrun, (hrange closed ks _ since _ hrun rfl (by decide)).1, ⟨1, 1, rfl, by simp [since], ?_⟩,
    hexact closed ks ?_, (hadvance ⟨some 2⟩ 2 2 rfl).2 (Nat.le_refl 2), ?_⟩
  · exact htold closed ks [⟨.start, .ok none⟩, ⟨.advance 1, .ok (some 0)⟩, ⟨.rewind, .ok none⟩,
      ⟨.advance 3, .ok (some 0)⟩, ⟨.advance 1, .error .exhausted⟩] [refused] [] "has_next" 1 2 1 rfl (by decide) rfl
  · intro length hlength
    have hmem : length = 1 ∨ length = 3 ∨ length = 1 ∨ length = 2 := by simpa [ks] using hlength
    have hsize : 3 < UInt64.size := by decide
    omega
  · refine hcontinue ⟨some 2⟩ [.advance 2, .start] 2 18446744073709551615 rfl (by decide) ?_
    rintro e (_ | ⟨_, _ | ⟨_, ⟨⟩⟩⟩)
    · exact ⟨_, rfl⟩
    · exact ⟨_, rfl⟩

end Rollup.Cursor
