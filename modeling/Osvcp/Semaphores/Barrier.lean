import Osvcp.Lib.Threads

/-! # The barrier of `barrier.c`

`n` threads run `child`, each calling `barrier` once. A step is one semaphore operation, one load or
store of `arrived`, or one local branch; `arrived++` is a load and a store. The thread that finds
itself last posts the barrier once for each thread, outside the mutex.
-/

namespace Osvcp.Barrier

open Function (update)

/-- `barrier_t`. -/
structure Shared where
  total : ℤ
  arrived : ℤ
  mutex : ℕ
  barrier : ℕ
  deriving DecidableEq, Repr

/-- `barrier_init`. -/
def barrierInit (numThreads : ℕ) : Shared where
  total := numThreads
  arrived := 0
  mutex := 1
  barrier := 0

/-- What a thread does next. -/
inductive Pc
  /-- `printf` of "before". -/
  | before
  /-- `Sem_wait(&b->mutex)`. -/
  | waitMutex
  /-- The load of `b->arrived++`. -/
  | load
  /-- The store of `b->arrived++`, after loading `n`. -/
  | store (n : ℤ)
  /-- `int last = (b->arrived == b->total)`. -/
  | setLast
  /-- `Sem_post(&b->mutex)`. -/
  | postMutex (last : Bool)
  /-- `if (last)`. -/
  | ifLast (last : Bool)
  /-- The test `i < b->total`. -/
  | forTest (i : ℕ)
  /-- `Sem_post(&b->barrier)` and `i++`. -/
  | post (i : ℕ)
  /-- `usleep(100)`. -/
  | sleep (last : Bool)
  /-- `Sem_wait(&b->barrier)`. -/
  | waitBarrier (last : Bool)
  /-- `barrier` has returned: `printf` of "after". -/
  | after (last : Bool)
  /-- `child` has returned. -/
  | done (last : Bool)
  deriving DecidableEq, Repr

/-- One step of a thread; `none` if it is blocked or has returned. -/
def childStep (m : Shared) : Pc → Option (Shared × Pc)
  | .before => some (m, .waitMutex)
  | .waitMutex => (semWait m.mutex).map fun v => ({ m with mutex := v }, .load)
  | .load => some (m, .store m.arrived)
  | .store n => some ({ m with arrived := n + 1 }, .setLast)
  | .setLast => some (m, .postMutex (m.arrived == m.total))
  | .postMutex last => some ({ m with mutex := m.mutex + 1 }, .ifLast last)
  | .ifLast last => some (m, if last then .forTest 0 else .sleep last)
  | .forTest i => some (m, if (i : ℤ) < m.total then .post i else .sleep true)
  | .post i => some ({ m with barrier := m.barrier + 1 }, .forTest (i + 1))
  | .sleep last => some (m, .waitBarrier last)
  | .waitBarrier last => (semWait m.barrier).map fun v => ({ m with barrier := v }, .after last)
  | .after last => some (m, .done last)
  | .done _ => none

/-- The barrier and the place of each thread. -/
structure State (n : ℕ) where
  shared : Shared
  pc : Fin n → Pc

variable {n : ℕ}

/-- `barrier_init(&b, n)`, with all threads created and none run. -/
def start (n : ℕ) : State n where
  shared := barrierInit n
  pc := fun _ => .before

/-- One step of thread `t`. -/
def step (s : State n) (t : Fin n) : Option (State n) :=
  (childStep s.shared (s.pc t)).map fun p => { shared := p.1, pc := update s.pc t p.2 }

/-- The `n` threads of `main`. -/
def barrierThreads (n : ℕ) : LTS (State n) (Fin n) where
  init s := s = start n
  step := step

/-! ## Places -/

/-- Between `Sem_wait` and `Sem_post` of `mutex`. -/
def Pc.inSection : Pc → Bool
  | .load | .store _ | .setLast | .postMutex _ => true
  | _ => false

/-- Not yet counted in `arrived`. -/
def Pc.uncounted : Pc → Bool
  | .before | .waitMutex | .load | .store _ => true
  | _ => false

/-- Counted in `arrived`. -/
def Pc.counted (p : Pc) : Bool := !p.uncounted

/-- Has not yet set `last`. -/
def Pc.undecided : Pc → Bool
  | .setLast => true
  | p => p.uncounted

/-- Sees itself as the last thread. -/
def Pc.isLast : Pc → Bool
  | .postMutex last | .ifLast last | .sleep last | .waitBarrier last | .after last
  | .done last => last
  | .forTest _ | .post _ => true
  | _ => false

/-- `barrier` has returned. -/
def Pc.returned : Pc → Bool
  | .after _ | .done _ => true
  | _ => false

/-- `child` has returned. -/
def Pc.finished : Pc → Bool
  | .done _ => true
  | _ => false

/-- `child` has returned in thread `t`. -/
def Finished (s : State n) (t : Fin n) : Prop := (s.pc t).finished = true

instance (s : State n) : DecidablePred (Finished s) := fun t =>
  inferInstanceAs (Decidable ((s.pc t).finished = true))

/-- How often the thread has posted the barrier, of `n` times that a last thread does. -/
def Pc.posts (n : ℕ) : Pc → ℕ
  | .forTest i | .post i => i
  | .sleep last | .waitBarrier last | .after last | .done last => if last then n else 0
  | _ => 0

/-! ## What one step can do -/

/-- The transitions of a thread, one constructor for each. -/
inductive Fires (m : Shared) : Pc → Shared → Pc → Prop
  | enter : Fires m .before m .waitMutex
  | waitMutex {v : ℕ} : m.mutex = v + 1 → Fires m .waitMutex { m with mutex := v } .load
  | load : Fires m .load m (.store m.arrived)
  | store {k : ℤ} : Fires m (.store k) { m with arrived := k + 1 } .setLast
  | last : m.arrived = m.total → Fires m .setLast m (.postMutex true)
  | notLast : m.arrived ≠ m.total → Fires m .setLast m (.postMutex false)
  | postMutex {last : Bool} :
      Fires m (.postMutex last) { m with mutex := m.mutex + 1 } (.ifLast last)
  | ifLast : Fires m (.ifLast true) m (.forTest 0)
  | ifNotLast : Fires m (.ifLast false) m (.sleep false)
  | forGo {i : ℕ} : (i : ℤ) < m.total → Fires m (.forTest i) m (.post i)
  | forEnd {i : ℕ} : ¬ (i : ℤ) < m.total → Fires m (.forTest i) m (.sleep true)
  | post {i : ℕ} : Fires m (.post i) { m with barrier := m.barrier + 1 } (.forTest (i + 1))
  | sleep {last : Bool} : Fires m (.sleep last) m (.waitBarrier last)
  | waitBarrier {last : Bool} {v : ℕ} : m.barrier = v + 1 →
      Fires m (.waitBarrier last) { m with barrier := v } (.after last)
  | leave {last : Bool} : Fires m (.after last) m (.done last)

theorem fires_of_childStep {m m' : Shared} {p p' : Pc} (h : childStep m p = some (m', p')) :
    Fires m p m' p' := by
  cases p <;> simp only [childStep, Option.map_eq_some_iff, semWait_eq_some, Option.some.injEq,
    Prod.mk.injEq, reduceCtorEq] at h
  case before => obtain ⟨rfl, rfl⟩ := h; exact .enter
  case waitMutex => obtain ⟨v, hv, rfl, rfl⟩ := h; exact .waitMutex hv
  case load => obtain ⟨rfl, rfl⟩ := h; exact .load
  case store k => obtain ⟨rfl, rfl⟩ := h; exact .store
  case setLast =>
    obtain ⟨rfl, rfl⟩ := h
    by_cases hl : m.arrived = m.total
    · rw [beq_iff_eq.mpr hl]; exact .last hl
    · rw [beq_eq_false_iff_ne.mpr hl]; exact .notLast hl
  case postMutex last => obtain ⟨rfl, rfl⟩ := h; exact .postMutex
  case ifLast last =>
    obtain ⟨rfl, rfl⟩ := h
    cases last with
    | true => exact .ifLast
    | false => exact .ifNotLast
  case forTest i =>
    obtain ⟨rfl, rfl⟩ := h
    by_cases hi : (i : ℤ) < m.total
    · rw [if_pos hi]; exact .forGo hi
    · rw [if_neg hi]; exact .forEnd hi
  case post i => obtain ⟨rfl, rfl⟩ := h; exact .post
  case sleep last => obtain ⟨rfl, rfl⟩ := h; exact .sleep
  case waitBarrier last => obtain ⟨v, hv, rfl, rfl⟩ := h; exact .waitBarrier hv
  case after last => obtain ⟨rfl, rfl⟩ := h; exact .leave

theorem step_cases {s s' : State n} {t : Fin n} (h : step s t = some s') :
    ∃ m' p', Fires s.shared (s.pc t) m' p' ∧ s' = { shared := m', pc := update s.pc t p' } := by
  simp only [step, Option.map_eq_some_iff] at h
  obtain ⟨⟨m', p'⟩, hp, rfl⟩ := h
  exact ⟨m', p', fires_of_childStep hp, rfl⟩

/-! ## The invariant -/

/-- What a thread in the section of `mutex` knows of `arrived`. -/
def Pc.Knows (arrived : ℤ) : Pc → Prop
  | .store k => k = arrived
  | _ => True

/-- The `i` of the loop of a last thread. -/
def Pc.InLoop (n : ℕ) : Pc → Prop
  | .forTest i => i ≤ n
  | .post i => i < n
  | _ => True

/-- The invariant of the barrier. There is a last thread exactly from the point on where every
thread has set `last`, and the posts of the barrier are used up by the threads that have
returned. -/
structure Inv (s : State n) : Prop where
  total : s.shared.total = n
  mutex : s.shared.mutex + count Pc.inSection s.pc = 1
  arrived : s.shared.arrived + count Pc.uncounted s.pc = n
  knows : ∀ t, (s.pc t).Knows s.shared.arrived
  inLoop : ∀ t, (s.pc t).InLoop n
  last : count Pc.isLast s.pc + min 1 (count Pc.undecided s.pc) = 1
  posts : s.shared.barrier + count Pc.returned s.pc = tally (Pc.posts n) s.pc

section Step

variable {m m' : Shared} {p p' : Pc}

theorem Fires.total_eq (h : Fires m p m' p') : m'.total = m.total := by
  cases h <;> rfl

theorem Fires.mutex_balance (h : Fires m p m' p') :
    m'.mutex + p'.inSection.toNat = m.mutex + p.inSection.toNat := by
  cases h <;> simp [Pc.inSection]; omega

theorem Fires.arrived_balance (h : Fires m p m' p') (hp : p.Knows m.arrived) :
    m'.arrived + p'.uncounted.toNat = m.arrived + p.uncounted.toNat := by
  cases h <;> simp only [Pc.Knows] at hp <;> simp [Pc.uncounted, hp]

theorem Fires.knows (h : Fires m p m' p') : p'.Knows m'.arrived := by
  cases h <;> trivial

/-- Only a thread in the section stores `arrived`. -/
theorem Fires.arrived_eq (h : Fires m p m' p') (hp : p.inSection = false) :
    m'.arrived = m.arrived := by
  cases h <;> first | rfl | simp [Pc.inSection] at hp

theorem Fires.inLoop (h : Fires m p m' p') (hp : p.InLoop n) (htotal : m.total = n) :
    p'.InLoop n := by
  cases h <;> simp only [Pc.InLoop] at hp ⊢ <;> omega

theorem Fires.posts_balance (h : Fires m p m' p') (hp : p.InLoop n) (htotal : m.total = n) :
    m'.barrier + p'.returned.toNat + p.posts n = m.barrier + p.returned.toNat + p'.posts n := by
  cases h <;> simp only [Pc.InLoop] at hp <;> simp [Pc.returned, Pc.posts] <;> omega

end Step

theorem Pc.knows_of_not_inSection {p : Pc} (hp : p.inSection = false) (k : ℤ) : p.Knows k := by
  cases p <;> trivial

theorem Pc.uncounted_le (p : Pc) : p.uncounted.toNat ≤ p.undecided.toNat := by
  cases p <;> simp [Pc.uncounted, Pc.undecided]

theorem Pc.undecided_le (p : Pc) : p.undecided.toNat ≤ p.uncounted.toNat + p.inSection.toNat := by
  cases p <;> simp [Pc.uncounted, Pc.undecided, Pc.inSection]

theorem Inv.undecided_le {s : State n} (hI : Inv s) :
    count Pc.undecided s.pc ≤ count Pc.uncounted s.pc + 1 := by
  have hle : count Pc.undecided s.pc ≤
      tally (fun p => p.uncounted.toNat + p.inSection.toNat) s.pc :=
    tally_le_tally fun t => Pc.undecided_le _
  have hmutex := hI.mutex
  rw [tally_add] at hle
  simp only [count] at hle hmutex ⊢
  omega

/-- The threads that have not set `last` decide whether the one that sets it now is the last. -/
theorem Inv.last_step {s : State n} (hI : Inv s) {t : Fin n} {m' : Shared} {p' : Pc}
    (h : Fires s.shared (s.pc t) m' p') :
    count Pc.isLast (update s.pc t p') + min 1 (count Pc.undecided (update s.pc t p')) = 1 := by
  have hold := hI.last
  have harrived := hI.arrived
  have htotal := hI.total
  have hlast := count_update Pc.isLast s.pc t p'
  have hundecided := count_update Pc.undecided s.pc t p'
  generalize hp : s.pc t = p at h hlast hundecided
  cases h
  case last heq =>
    have hle := hI.undecided_le
    have hpos : 0 < count Pc.undecided s.pc := count_pos_of (i := t) (by rw [hp]; rfl)
    simp only [Pc.isLast, Pc.undecided, Pc.uncounted, Bool.toNat_true, Bool.toNat_false]
      at hlast hundecided
    omega
  case notLast hne =>
    have hle : count Pc.uncounted s.pc + 1 ≤ count Pc.undecided s.pc :=
      tally_add_le_tally (i := t) (fun u => Pc.uncounted_le _) (by rw [hp]; rfl)
    simp only [Pc.isLast, Pc.undecided, Pc.uncounted, Bool.toNat_true, Bool.toNat_false]
      at hlast hundecided
    omega
  all_goals
    simp [Pc.isLast, Pc.undecided, Pc.uncounted] at hlast hundecided
    omega

theorem inv_start (hn : 0 < n) : Inv (start n) where
  total := rfl
  mutex := by
    have h : count Pc.inSection (start n).pc = 0 := count_eq_zero fun _ => rfl
    rw [h]; rfl
  arrived := by
    have h : count Pc.uncounted (start n).pc = Fintype.card (Fin n) :=
      count_eq_card_iff.mpr fun _ => rfl
    rw [h, Fintype.card_fin]
    exact zero_add _
  knows _ := trivial
  inLoop _ := trivial
  last := by
    have h : count Pc.undecided (start n).pc = Fintype.card (Fin n) :=
      count_eq_card_iff.mpr fun _ => rfl
    have hlast : count Pc.isLast (start n).pc = 0 := count_eq_zero fun _ => rfl
    rw [h, hlast, Fintype.card_fin]
    omega
  posts := by
    have h : count Pc.returned (start n).pc = 0 := count_eq_zero fun _ => rfl
    have hposts : tally (Pc.posts n) (start n).pc = Fintype.card (Fin n) * 0 :=
      tally_const fun _ => rfl
    rw [h, hposts]; rfl

theorem inv_step {s s' : State n} {t : Fin n} (hI : Inv s) (h : step s t = some s') : Inv s' := by
  obtain ⟨m', p', hf, rfl⟩ := step_cases h
  refine ⟨hf.total_eq.trans hI.total, ?_, ?_, fun u => ?_, fun u => ?_, hI.last_step hf, ?_⟩
  · have hcount := count_update Pc.inSection s.pc t p'
    have hbal := hf.mutex_balance
    have hold := hI.mutex
    simp only
    omega
  · have hcount := count_update Pc.uncounted s.pc t p'
    have hbal := hf.arrived_balance (hI.knows t)
    have hold := hI.arrived
    simp only
    omega
  · by_cases hu : u = t
    · subst hu
      simpa using hf.knows
    · simp only [Function.update_of_ne hu]
      -- two threads are not in the section at once
      cases hsec : (s.pc t).inSection with
      | false =>
          rw [hf.arrived_eq hsec]
          exact hI.knows u
      | true =>
          refine Pc.knows_of_not_inSection ?_ _
          by_contra hus
          have hle : count Pc.inSection s.pc ≤ 1 := by have := hI.mutex; omega
          exact hu (eq_of_count_le_one hle (Bool.eq_true_of_not_eq_false hus) hsec)
  · by_cases hu : u = t
    · subst hu
      simpa using hf.inLoop (hI.inLoop u) hI.total
    · simpa [Function.update_of_ne hu] using hI.inLoop u
  · have hcount := count_update Pc.returned s.pc t p'
    have htally := tally_update (Pc.posts n) s.pc t p'
    have hbal := hf.posts_balance (hI.inLoop t) hI.total
    have hold := hI.posts
    simp only
    omega

theorem inv_of_reachable (hn : 0 < n) {s : State n} (hs : (barrierThreads n).Reachable s) :
    Inv s := by
  refine hs.invariant (I := Inv) ?_ fun s t s' hI h => inv_step hI h
  rintro s rfl
  exact inv_start hn

/-! ## What the invariant says -/

section Conclusions

variable {s : State n}

/-- Only a last thread posts, and it posts `n` times at most. -/
theorem Pc.posts_le {p : Pc} (hp : p.InLoop n) : p.posts n ≤ n * p.isLast.toNat := by
  cases p
  case forTest i => simpa [Pc.posts, Pc.isLast, Pc.InLoop] using hp
  case post i => simpa [Pc.posts, Pc.isLast] using Nat.le_of_lt hp
  case sleep last | waitBarrier last | after last | done last =>
    cases last <;> simp [Pc.posts, Pc.isLast]
  all_goals exact Nat.zero_le _

theorem Inv.posts_le (hI : Inv s) : tally (Pc.posts n) s.pc ≤ n * count Pc.isLast s.pc :=
  tally_le_mul_count fun t => Pc.posts_le (hI.inLoop t)

theorem uncounted_le (s : State n) : count Pc.uncounted s.pc ≤ count Pc.undecided s.pc :=
  tally_le_tally fun _ => Pc.uncounted_le _

/-- No thread returns before every thread is counted. -/
theorem Inv.counted_of_returned (hI : Inv s) {t : Fin n} (ht : (s.pc t).returned = true) :
    s.shared.arrived = n ∧ ∀ u, (s.pc u).counted = true := by
  have hposts := hI.posts
  have hle := hI.posts_le
  have hreturned : 0 < count Pc.returned s.pc := count_pos_of ht
  have hlast : count Pc.isLast s.pc ≠ 0 := by
    intro hzero
    rw [hzero] at hle
    omega
  have huncounted : count Pc.uncounted s.pc = 0 := by
    have h := hI.last
    have hu := uncounted_le s
    omega
  refine ⟨?_, fun u => ?_⟩
  · have h := hI.arrived
    omega
  · simp [Pc.counted, eq_false_of_count huncounted u]

theorem Inv.last_unique (hI : Inv s) {t u : Fin n} (ht : (s.pc t).isLast = true)
    (hu : (s.pc u).isLast = true) : t = u := by
  have h := hI.last
  exact eq_of_count_le_one (by omega) ht hu

/-- When every thread has set `last`, one of them is the last. -/
theorem Inv.exists_last (hI : Inv s) (h : ∀ t, (s.pc t).undecided = false) :
    ∃ t, (s.pc t).isLast = true := by
  have hzero : count Pc.undecided s.pc = 0 := count_eq_zero h
  have hone := hI.last
  exact count_pos_iff.mp (by omega)

theorem Pc.finished_iff {p : Pc} : p.finished = true ↔ ∃ last, p = .done last := by
  cases p <;> simp [Pc.finished]

/-- The places where a thread blocks. -/
theorem childStep_eq_none {m : Shared} {p : Pc} (h : childStep m p = none) :
    (∃ last, p = .done last) ∨ (p = .waitMutex ∧ m.mutex = 0) ∨
      ∃ last, p = .waitBarrier last ∧ m.barrier = 0 := by
  cases p <;> simp [childStep] at h ⊢ <;> exact h

/-- Where no thread can go on, the mutex is free: a thread in its section would not be blocked. -/
theorem Inv.mutex_of_blocked (hI : Inv s) (hb : ∀ u, childStep s.shared (s.pc u) = none) :
    s.shared.mutex = 1 := by
  have hzero : count Pc.inSection s.pc = 0 := by
    refine count_eq_zero fun u => ?_
    obtain ⟨last, h⟩ | ⟨h, -⟩ | ⟨last, h, -⟩ := childStep_eq_none (hb u)
    · rw [h]; rfl
    · rw [h]; rfl
    · rw [h]; rfl
  have h := hI.mutex
  omega

/-- When every thread is at the barrier or past it, and the barrier semaphore is 0, all have
returned: the last one has posted for all. -/
theorem Inv.returned_of_waiting (hI : Inv s)
    (hplace : ∀ u, (∃ last, s.pc u = .done last) ∨ ∃ last, s.pc u = .waitBarrier last)
    (hbarrier : s.shared.barrier = 0) (t : Fin n) : (s.pc t).returned = true := by
  obtain ⟨u, hu⟩ := hI.exists_last fun u => by
    obtain ⟨last, h⟩ | ⟨last, h⟩ := hplace u
    · rw [h]; rfl
    · rw [h]; rfl
  have hall : (s.pc u).posts n = n := by
    obtain ⟨last, h⟩ | ⟨last, h⟩ := hplace u
    · rw [h] at hu ⊢
      exact if_pos hu
    · rw [h] at hu ⊢
      exact if_pos hu
  have hposts := hI.posts
  have hle := le_tally (Pc.posts n) s.pc u
  rw [hall] at hle
  have hsplit := count_add_not Pc.returned s.pc
  rw [Fintype.card_fin] at hsplit
  refine count_eq_card_iff.mp ?_ t
  rw [Fintype.card_fin]
  omega

theorem Inv.not_deadlocked (hI : Inv s) : ¬ (barrierThreads n).Deadlocked Finished s := by
  rintro ⟨⟨t, ht⟩, hall⟩
  have hblocked : ∀ u, childStep s.shared (s.pc u) = none := by
    intro u
    by_cases hu : (s.pc u).finished = true
    · obtain ⟨last, h⟩ := Pc.finished_iff.mp hu
      rw [h]; rfl
    · simpa [barrierThreads, step] using hall u hu
  have hmutex := hI.mutex_of_blocked hblocked
  have hplace : ∀ u, (∃ last, s.pc u = .done last) ∨ ∃ last, s.pc u = .waitBarrier last := by
    intro u
    obtain h | ⟨-, h⟩ | ⟨last, h, -⟩ := childStep_eq_none (hblocked u)
    · exact .inl h
    · omega
    · exact .inr ⟨last, h⟩
  obtain h | ⟨-, h⟩ | ⟨last, h, hbarrier⟩ := childStep_eq_none (hblocked t)
  · exact ht (Pc.finished_iff.mpr h)
  · omega
  · have hreturned := hI.returned_of_waiting hplace hbarrier t
    rw [h] at hreturned
    exact Bool.noConfusion hreturned

/-- When all threads have returned the barrier is closed again and the mutex is free. -/
theorem Inv.at_end (hI : Inv s) (hend : ∀ t, Finished s t) :
    s.shared.barrier = 0 ∧ s.shared.mutex = 1 := by
  have hdone : ∀ t, ∃ last, s.pc t = .done last := fun t => Pc.finished_iff.mp (hend t)
  have hreturned : count Pc.returned s.pc = Fintype.card (Fin n) := by
    refine count_eq_card_iff.mpr fun t => ?_
    obtain ⟨last, h⟩ := hdone t
    rw [h]; rfl
  have hsection : count Pc.inSection s.pc = 0 := by
    refine count_eq_zero fun t => ?_
    obtain ⟨last, h⟩ := hdone t
    rw [h]; rfl
  rw [Fintype.card_fin] at hreturned
  have hle := hI.posts_le
  have hlast : n * count Pc.isLast s.pc ≤ n * 1 := Nat.mul_le_mul_left n (by have := hI.last; omega)
  have hposts := hI.posts
  have hmutex := hI.mutex
  constructor <;> omega

end Conclusions

/-! ## The program -/

/-- In every reachable state of `barrier.c` with `n` threads, a thread has returned only if all are
counted, no two threads see themselves as last and one does once all have looked, and the threads
are not deadlocked. At the end the barrier semaphore is 0 and the mutex is free. -/
theorem barrier_holds_all (hn : 0 < n) {s : State n} (hs : (barrierThreads n).Reachable s) :
    (∀ t, (s.pc t).returned = true → s.shared.arrived = n ∧ ∀ u, (s.pc u).counted = true) ∧
    (∀ t u, (s.pc t).isLast = true → (s.pc u).isLast = true → t = u) ∧
    ((∀ t, (s.pc t).undecided = false) → ∃ t, (s.pc t).isLast = true) ∧
    ¬ (barrierThreads n).Deadlocked Finished s ∧
    ((∀ t, Finished s t) → s.shared.barrier = 0 ∧ s.shared.mutex = 1) := by
  have hI := inv_of_reachable hn hs
  exact ⟨fun t => hI.counted_of_returned, fun t u => hI.last_unique, hI.exists_last,
    hI.not_deadlocked, hI.at_end⟩

/-- Two threads; the second to arrive waits first. -/
theorem barrier_holds_all_run :
    ∃ s, (barrierThreads 2).Reachable s ∧ (∀ t, Finished s t) ∧ s.shared.barrier = 0 := by
  obtain ⟨s, hex, hc⟩ := LTS.exec_of_run_any (barrierThreads 2) (start 2)
    (List.replicate 8 0 ++ List.replicate 15 1 ++ List.replicate 2 0)
    (fun s => decide (∀ t, Finished s t)) rfl (by decide)
  have hend : ∀ t, Finished s t := of_decide_eq_true hc
  exact ⟨s, ⟨_, hex⟩, hend, ((barrier_holds_all (by decide) ⟨_, hex⟩).2.2.2.2 hend).1⟩

end Osvcp.Barrier
