import Osvcp.Lib.Transition

/-! # Loops that poll a flag before they wait

A signal handler asks for a flush by setting a flag. The loop tests the flag, resets it, flushes
what it keeps, blocks in a wait, and works on what the wait reports. The handler may run between any
two steps. Everything the loop keeps has an age: the number of times the handler had run when it was
stored.

Whatever the handler does, a request to flush is never forgotten (`Lawful.kept`): nothing older than
the last flag test is used. What the handler asks for between the test and the wait is put off for
an iteration, unless it interrupts the wait: `Lawful.current` says that nothing older than the
return of the wait is used where the wait only reports while the flag is clear.
-/

namespace Osvcp

variable {X P R B : Type*}

/-- Where the loop stands: at its condition, at the flag test, at the reset of the flag, at the
flush, before the wait, in the wait, at work, or behind the loop. `struck` says that a handler has
run since the wait began. -/
inductive PollPc (P : Type*)
  | loop
  | test
  | reset
  | flush
  | prepare
  | blocked (struck : Bool)
  | work (p : P)
  | stopped

/-- A handler that runs during the wait interrupts it. -/
def PollPc.strike : PollPc P → PollPc P
  | .blocked _ => .blocked true
  | pc => pc

/-- The poll of this iteration is over. -/
def PollPc.Polled : PollPc P → Prop
  | .prepare | .blocked _ | .work _ => True
  | _ => False

/-- The actions: the two handlers, the steps up to the wait, the returns of the wait, and a step of
work. -/
inductive PollAction (R B : Type*)
  | raise
  | stop
  | loop
  | test
  | reset
  | flush
  | prepare
  | interrupted
  | failed
  | ready (r : R)
  | work (b : B)

/-- A loop: its data with the flag in it, what the handlers and the poll do to them, where the work
on a report begins, one step of work and where it leads (`none` where the iteration ends), the ages
of all that is kept, and the age of what a step of work uses. Work gets the age that what it stores
has. -/
structure PolledLoop (X P R B : Type*) where
  start : X
  running : X → Bool
  flag : X → Bool
  raise : X → X
  stop : X → X
  lower : X → X
  flush : X → X
  wake : X → R → Option P
  work : ℕ → X → P → B → Option (X × Option P)
  ages : X → List ℕ
  hit : X → P → B → Option ℕ

/-- A use of something kept: its age, and how often the handler had run at the flag test and at the
return of the wait of the iteration. -/
structure PollHit where
  tested : ℕ
  returned : ℕ
  age : ℕ
  deriving DecidableEq

/-- The state of the loop, with how often the handler has run: so far, at the last flag test, at the
last return of the wait, and at the last flush. -/
structure Polling (X P : Type*) where
  data : X
  pc : PollPc P
  signals : ℕ
  tested : ℕ
  returned : ℕ
  flushed : ℕ
  hits : List PollHit

namespace PolledLoop

variable (L : PolledLoop X P R B)

/-- One step of the loop or of a handler. -/
def step (s : Polling X P) (a : PollAction R B) : Option (Polling X P) :=
  match a, s.pc with
  | .raise, pc => some { s with data := L.raise s.data, pc := pc.strike, signals := s.signals + 1 }
  | .stop, pc => some { s with data := L.stop s.data, pc := pc.strike }
  | .loop, .loop => some { s with pc := if L.running s.data then .test else .stopped }
  | .test, .test =>
      some { s with pc := if L.flag s.data then .reset else .prepare, tested := s.signals }
  | .reset, .reset => some { s with data := L.lower s.data, pc := .flush }
  | .flush, .flush => some { s with data := L.flush s.data, pc := .prepare, flushed := s.signals }
  | .prepare, .prepare => some { s with pc := .blocked false }
  | .interrupted, .blocked true => some { s with pc := .loop, returned := s.signals }
  | .failed, .blocked _ => some { s with pc := .stopped, returned := s.signals }
  | .ready r, .blocked _ =>
      (L.wake s.data r).map fun p => { s with pc := .work p, returned := s.signals }
  | .work b, .work p =>
      (L.work s.signals s.data p b).map fun q =>
        { s with
          data := q.1
          pc := q.2.elim .loop .work
          hits := s.hits ++ (L.hit s.data p b).toList.map (⟨s.tested, s.returned, ·⟩) }
  | _, _ => none

/-- The loop as a transition system. -/
def lts : LTS (Polling X P) (PollAction R B) where
  init s := s = ⟨L.start, .loop, 0, 0, 0, 0, []⟩
  step := L.step

/-- What the parts of a loop have to do. -/
structure Lawful (L : PolledLoop X P R B) : Prop where
  ages_start : L.ages L.start = []
  flag_raise : ∀ x, L.flag (L.raise x) = true
  ages_raise : ∀ x, L.ages (L.raise x) = L.ages x
  flag_stop : ∀ x, L.flag (L.stop x) = L.flag x
  ages_stop : ∀ x, L.ages (L.stop x) = L.ages x
  ages_lower : ∀ x, L.ages (L.lower x) = L.ages x
  ages_flush : ∀ x, L.ages (L.flush x) = []
  flag_work : ∀ now x p b q, L.work now x p b = some q → L.flag q.1 = L.flag x
  ages_work : ∀ now x p b q, L.work now x p b = some q → ∀ age ∈ L.ages q.1,
    age ∈ L.ages x ∨ age = now
  ages_hit : ∀ x p b age, L.hit x p b = some age → age ∈ L.ages x

variable {L}

/-- **What a step can do.** -/
inductive Step (L : PolledLoop X P R B) (s : Polling X P) : PollAction R B → Polling X P → Prop
  | raise : Step L s .raise
      { s with data := L.raise s.data, pc := s.pc.strike, signals := s.signals + 1 }
  | stop : Step L s .stop { s with data := L.stop s.data, pc := s.pc.strike }
  | loop (hpc : s.pc = .loop) :
      Step L s .loop { s with pc := if L.running s.data then .test else .stopped }
  | clear (hpc : s.pc = .test) (hflag : L.flag s.data = false) :
      Step L s .test { s with pc := .prepare, tested := s.signals }
  | set (hpc : s.pc = .test) (hflag : L.flag s.data = true) :
      Step L s .test { s with pc := .reset, tested := s.signals }
  | reset (hpc : s.pc = .reset) : Step L s .reset { s with data := L.lower s.data, pc := .flush }
  | flush (hpc : s.pc = .flush) :
      Step L s .flush { s with data := L.flush s.data, pc := .prepare, flushed := s.signals }
  | prepare (hpc : s.pc = .prepare) : Step L s .prepare { s with pc := .blocked false }
  | interrupted (hpc : s.pc = .blocked true) :
      Step L s .interrupted { s with pc := .loop, returned := s.signals }
  | failed {struck : Bool} (hpc : s.pc = .blocked struck) :
      Step L s .failed { s with pc := .stopped, returned := s.signals }
  | ready {struck : Bool} {r : R} {p : P} (hpc : s.pc = .blocked struck)
      (hwake : L.wake s.data r = some p) :
      Step L s (.ready r) { s with pc := .work p, returned := s.signals }
  | work {p : P} {b : B} {q : X × Option P} (hpc : s.pc = .work p)
      (hwork : L.work s.signals s.data p b = some q) :
      Step L s (.work b)
        { s with
          data := q.1
          pc := q.2.elim .loop .work
          hits := s.hits ++ (L.hit s.data p b).toList.map (⟨s.tested, s.returned, ·⟩) }

theorem step_cases {s t : Polling X P} {a : PollAction R B} (h : L.step s a = some t) :
    Step L s a t := by
  unfold step at h
  split at h
  · cases h
    exact .raise
  · cases h
    exact .stop
  · rename_i hpc
    cases h
    exact .loop hpc
  · rename_i hpc
    cases h
    cases hflag : L.flag s.data with
    | false => exact .clear hpc hflag
    | true => exact .set hpc hflag
  · rename_i hpc
    cases h
    exact .reset hpc
  · rename_i hpc
    cases h
    exact .flush hpc
  · rename_i hpc
    cases h
    exact .prepare hpc
  · rename_i hpc
    cases h
    exact .interrupted hpc
  · rename_i hpc
    cases h
    exact .failed hpc
  · rename_i hpc
    obtain ⟨p, hwake, rfl⟩ := Option.map_eq_some_iff.mp h
    exact .ready hpc hwake
  · rename_i hpc
    obtain ⟨q, hwork, rfl⟩ := Option.map_eq_some_iff.mp h
    exact .work hpc hwork
  · cases h

@[simp] theorem strike_eq_flush {pc : PollPc P} : pc.strike = .flush ↔ pc = .flush := by
  cases pc <;> simp [PollPc.strike]

@[simp] theorem strike_eq_work {pc : PollPc P} {p : P} : pc.strike = .work p ↔ pc = .work p := by
  cases pc <;> simp [PollPc.strike]

@[simp] theorem polled_strike {pc : PollPc P} : pc.strike.Polled ↔ pc.Polled := by
  cases pc <;> simp [PollPc.strike, PollPc.Polled]

/-! ## No request is forgotten -/

/-- A flush is still to come. -/
def Pending (L : PolledLoop X P R B) (s : Polling X P) : Prop :=
  L.flag s.data = true ∨ s.pc = .flush

/-- **Requests are kept.** As long as the handler has run since the last flush, or something older
than its last run is kept, a flush is still to come; and what was older at the flag test is not
used. -/
structure Kept (L : PolledLoop X P R B) (s : Polling X P) : Prop where
  stale : ∀ age ∈ L.ages s.data, age < s.signals → Pending L s
  flushed : s.flushed < s.signals → Pending L s
  tested_le : s.tested ≤ s.signals
  polled : s.pc.Polled → ∀ age ∈ L.ages s.data, s.tested ≤ age
  hits : ∀ h ∈ s.hits, h.tested ≤ h.age

/-- The loop moves on, and is not behind the poll. -/
theorem Kept.move {s : Polling X P} (h : Kept L s) {pc : PollPc P} (hflush : s.pc ≠ .flush)
    (hpolled : pc.Polled → s.pc.Polled) (returned : ℕ) :
    Kept L { s with pc := pc, returned := returned } where
  stale age hage hlt := (h.stale age hage hlt).imp_right fun hpc => absurd hpc hflush
  flushed hlt := (h.flushed hlt).imp_right fun hpc => absurd hpc hflush
  tested_le := h.tested_le
  polled hpc := h.polled (hpolled hpc)
  hits := h.hits

/-- **One step** keeps the requests. -/
theorem Lawful.kept_step (hL : L.Lawful) {s t : Polling X P} {a : PollAction R B} (h : Kept L s)
    (hstep : L.step s a = some t) : Kept L t := by
  cases step_cases hstep with
  | raise =>
      refine ⟨fun _ _ _ => .inl (hL.flag_raise _), fun _ => .inl (hL.flag_raise _),
        Nat.le_succ_of_le h.tested_le, fun hpc => ?_, h.hits⟩
      rw [hL.ages_raise]
      exact h.polled (polled_strike.mp hpc)
  | stop =>
      have hpending : Pending L s → Pending L { s with data := L.stop s.data, pc := s.pc.strike } :=
        Or.imp (fun hflag => (hL.flag_stop _).trans hflag) strike_eq_flush.mpr
      refine ⟨fun age hage hlt => ?_, fun hlt => hpending (h.flushed hlt), h.tested_le,
        fun hpc => ?_, h.hits⟩
      · exact hpending (h.stale age (hL.ages_stop _ ▸ hage) hlt)
      · rw [hL.ages_stop]
        exact h.polled (polled_strike.mp hpc)
  | loop hpc =>
      refine h.move (by simp [hpc]) (fun hpolled => ?_) _
      split at hpolled <;> exact hpolled.elim
  | clear hpc hflag =>
      -- the flag is clear, so everything kept is as new as the last run of the handler
      have hnone : ¬ Pending L s := by simp [Pending, hflag, hpc]
      refine ⟨fun age hage hlt => absurd (h.stale age hage hlt) hnone,
        fun hlt => absurd (h.flushed hlt) hnone, Nat.le_refl _, fun _ age hage => ?_, h.hits⟩
      exact Nat.le_of_not_lt fun hlt => hnone (h.stale age hage hlt)
  | set hpc hflag =>
      exact ⟨fun _ _ _ => .inl hflag, fun _ => .inl hflag, Nat.le_refl _, False.elim, h.hits⟩
  | reset hpc =>
      exact ⟨fun _ _ _ => .inr rfl, fun _ => .inr rfl, h.tested_le, False.elim, h.hits⟩
  | flush hpc =>
      refine ⟨fun age hage _ => ?_, fun hlt => absurd hlt (Nat.lt_irrefl _), h.tested_le,
        fun _ age hage => ?_, h.hits⟩
      · exact absurd (hL.ages_flush _ ▸ hage) List.not_mem_nil
      · exact absurd (hL.ages_flush _ ▸ hage) List.not_mem_nil
  | prepare hpc => exact h.move (by simp [hpc]) (fun _ => by simp [hpc, PollPc.Polled]) _
  | interrupted hpc => exact h.move (by simp [hpc]) False.elim _
  | failed hpc => exact h.move (by simp [hpc]) False.elim _
  | ready hpc hwake => exact h.move (by simp [hpc]) (fun _ => by simp [hpc, PollPc.Polled]) _
  | @work p b q hpc hwork =>
      have hpolled : ∀ age ∈ L.ages s.data, s.tested ≤ age :=
        h.polled (by simp [hpc, PollPc.Polled])
      have hpending : Pending L s → L.flag q.1 = true := by
        rintro (hflag | hflush)
        · exact (hL.flag_work _ _ _ _ _ hwork).trans hflag
        · rw [hpc] at hflush
          cases hflush
      refine ⟨fun age hage hlt => .inl ?_, fun hlt => .inl (hpending (h.flushed hlt)), h.tested_le,
        fun _ age hage => ?_, fun hit hmem => ?_⟩
      · rcases hL.ages_work _ _ _ _ _ hwork age hage with hold | rfl
        · exact hpending (h.stale age hold hlt)
        · exact absurd hlt (Nat.lt_irrefl _)
      · rcases hL.ages_work _ _ _ _ _ hwork age hage with hold | rfl
        · exact hpolled age hold
        · exact h.tested_le
      · rcases List.mem_append.mp hmem with hold | hnew
        · exact h.hits hit hold
        · obtain ⟨age, hage, rfl⟩ := List.mem_map.mp hnew
          exact hpolled age (hL.ages_hit _ _ _ _ (Option.mem_toList.mp hage))

/-- **Every run** keeps the requests. -/
theorem Lawful.kept (hL : L.Lawful) {s : Polling X P} (h : L.lts.Reachable s) : Kept L s := by
  refine h.invariant ?_ ?_
  · rintro s rfl
    refine ⟨fun age hage _ => ?_, fun hlt => absurd hlt (Nat.lt_irrefl _), Nat.le_refl _,
      fun hpolled => hpolled.elim, fun _ hmem => absurd hmem List.not_mem_nil⟩
    exact absurd (hL.ages_start ▸ hage) List.not_mem_nil
  · intro s a t hs hstep
    exact hL.kept_step hs hstep

/-! ## Where the wait only reports while the flag is clear -/

/-- The condition on the steps. -/
def ReportsClear (L : PolledLoop X P R B) (s : Polling X P) (a : PollAction R B) : Prop :=
  ∀ r, a = .ready r → L.flag s.data = false

/-- **Nothing outdated is used.** What is used was stored after every run of the handler before the
return of the wait. -/
structure Current (L : PolledLoop X P R B) (s : Polling X P) : Prop where
  returned_le : s.returned ≤ s.signals
  work : ∀ p, s.pc = .work p → ∀ age ∈ L.ages s.data, s.returned ≤ age
  hits : ∀ h ∈ s.hits, h.returned ≤ h.age

/-- The loop moves on to a place other than the work. -/
theorem Current.idle {s : Polling X P} (h : Current L s) {x : X} {pc : PollPc P}
    (hpc : ∀ p, pc ≠ .work p) {returned tested flushed : ℕ} (hle : returned ≤ s.signals) :
    Current L ⟨x, pc, s.signals, tested, returned, flushed, s.hits⟩ where
  returned_le := hle
  work p hwork := absurd hwork (hpc p)
  hits := h.hits

/-- **One step** that meets the condition. -/
theorem Lawful.current_step (hL : L.Lawful) {s t : Polling X P} {a : PollAction R B}
    (hkept : Kept L s) (h : Current L s) (hok : ReportsClear L s a) (hstep : L.step s a = some t) :
    Current L t := by
  cases step_cases hstep with
  | raise =>
      refine ⟨Nat.le_succ_of_le h.returned_le, fun p hpc => ?_, h.hits⟩
      rw [hL.ages_raise]
      exact h.work p (strike_eq_work.mp hpc)
  | stop =>
      refine ⟨h.returned_le, fun p hpc => ?_, h.hits⟩
      rw [hL.ages_stop]
      exact h.work p (strike_eq_work.mp hpc)
  | loop hpc =>
      refine h.idle (fun p => ?_) h.returned_le
      split <;> simp
  | clear hpc hflag => exact h.idle (by simp) h.returned_le
  | set hpc hflag => exact h.idle (by simp) h.returned_le
  | reset hpc => exact h.idle (by simp) h.returned_le
  | flush hpc => exact h.idle (by simp) h.returned_le
  | prepare hpc => exact h.idle (by simp) h.returned_le
  | interrupted hpc => exact h.idle (by simp) (Nat.le_refl _)
  | failed hpc => exact h.idle (by simp) (Nat.le_refl _)
  | @ready struck r p hpc hwake =>
      -- no flush is to come, so nothing kept is older than the last run of the handler
      have hnone : ¬ Pending L s := by simp [Pending, hok r rfl, hpc]
      refine ⟨Nat.le_refl _, fun _ _ age hage => ?_, h.hits⟩
      exact Nat.le_of_not_lt fun hlt => hnone (hkept.stale age hage hlt)
  | @work p b q hpc hwork =>
      refine ⟨h.returned_le, fun _ _ age hage => ?_, fun hit hmem => ?_⟩
      · rcases hL.ages_work _ _ _ _ _ hwork age hage with hold | rfl
        · exact h.work p hpc age hold
        · exact h.returned_le
      · rcases List.mem_append.mp hmem with hold | hnew
        · exact h.hits hit hold
        · obtain ⟨age, hage, rfl⟩ := List.mem_map.mp hnew
          exact h.work p hpc age (hL.ages_hit _ _ _ _ (Option.mem_toList.mp hage))

/-- **Every run** whose steps meet the condition. -/
theorem Lawful.current (hL : L.Lawful) {tr : List (Polling X P × PollAction R B)} {s : Polling X P}
    (h : L.lts.Exec tr s) (hok : ∀ p ∈ tr, ReportsClear L p.1 p.2) :
    ∀ t ∈ LTS.visited tr s, Current L t := by
  have hboth : ∀ t ∈ LTS.visited tr s, Kept L t ∧ Current L t := by
    refine h.invariant_visited (ReportsClear L) ?_ ?_ hok
    · rintro s rfl
      refine ⟨hL.kept ⟨[], .start rfl⟩, Nat.le_refl _, fun p hpc => ?_, fun _ hmem => ?_⟩
      · cases hpc
      · exact absurd hmem List.not_mem_nil
    · intro s a t hs hok hstep
      exact ⟨hL.kept_step hs.1 hstep, hL.current_step hs.1 hs.2 hok hstep⟩
  exact fun t ht => (hboth t ht).2

end PolledLoop

end Osvcp
