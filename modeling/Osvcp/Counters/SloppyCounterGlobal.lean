import Osvcp.Counters.SloppyCounterGet

/-! # The sloppy counter of `cloppy_counter_only_global_lock.c`

Each thread counts in its own `local_count` and takes only the global lock. The main thread reads
the local counts after it has joined all threads. `local_count` is part of memory from `malloc`, so
it holds anything until `thread_func` sets it to 0.
-/

namespace Osvcp.SloppyCounterGlobal

open Function (update)
open SloppyCounter (wrap Agent wrap_of_lt wrap_wrap_add wrap_wrap)

/-- What the program fixes: the `increments` of each thread and `THRESHOLD`, a positive `int`. -/
structure Setup (n : ℕ) where
  increments : Fin n → ℕ
  threshold : ℕ
  threshold_pos : 0 < threshold
  threshold_lt : threshold < 2 ^ 31

/-- `sloppy_counter_t`, the lock as its owner. -/
structure Counter (n : ℕ) where
  globalCount : ℤ
  globalLock : Option (Agent (Fin n))

/-- What a thread does next in `thread_func` and `sloppy_counter_update`. -/
inductive Pc
  /-- `args->local_count = 0`. -/
  | init
  /-- The test `i < args->increments`. -/
  | loopTest
  /-- `(*local_count)++`. -/
  | inc
  /-- The test `*local_count >= THRESHOLD`. -/
  | test
  /-- `pthread_mutex_lock(&counter->global_lock)`. -/
  | lockGlobal
  /-- The load of `counter->global_count += *local_count`. -/
  | addLoad
  /-- The store of that statement, after loading `n` from `global_count`. -/
  | addStore (n : ℤ)
  /-- `pthread_mutex_unlock(&counter->global_lock)`. -/
  | unlockGlobal
  /-- `*local_count = 0`. -/
  | reset
  /-- `thread_func` has returned. -/
  | done
  deriving DecidableEq, Repr

/-- A thread, the `i` of its loop, and its `local_count`. -/
structure Thread where
  pc : Pc
  i : ℕ
  localCount : ℤ
  deriving DecidableEq, Repr

variable {n : ℕ}

/-- One step of thread `t`; `none` if it is blocked or has returned. -/
def threadStep (P : Setup n) (t : Fin n) (c : Counter n) (x : Thread) :
    Option (Counter n × Thread) :=
  match x.pc with
  | .init => some (c, { x with pc := .loopTest, localCount := 0 })
  | .loopTest => some (c, { x with pc := if x.i < P.increments t then .inc else .done })
  | .inc => some (c, { x with pc := .test, localCount := wrap (x.localCount + 1) })
  | .test =>
      if P.threshold ≤ x.localCount then some (c, { x with pc := .lockGlobal })
      else some (c, { x with pc := .loopTest, i := x.i + 1 })
  | .lockGlobal => (mutexLock (.thread t) c.globalLock).map fun l =>
      ({ c with globalLock := l }, { x with pc := .addLoad })
  | .addLoad => some (c, { x with pc := .addStore c.globalCount })
  | .addStore g => some ({ c with globalCount := wrap (g + x.localCount) },
      { x with pc := .unlockGlobal })
  | .unlockGlobal => some ({ c with globalLock := none }, { x with pc := .reset })
  | .reset => some (c, { x with pc := .loopTest, i := x.i + 1, localCount := 0 })
  | .done => none

/-- What the main thread does next after it has created the threads. `local_counts` is its copy of
the local counts. -/
inductive MainPc (n : ℕ)
  /-- `pthread_join` of all threads. -/
  | join
  /-- The copy of the local counts. -/
  | collect
  /-- `pthread_mutex_lock(&counter->global_lock)` of `sloppy_counter_get`. -/
  | lockGlobal (localCounts : Fin n → ℤ)
  /-- `total = counter->global_count`. -/
  | readGlobal (localCounts : Fin n → ℤ)
  /-- `pthread_mutex_unlock(&counter->global_lock)`. -/
  | unlockGlobal (localCounts : Fin n → ℤ) (total : ℤ)
  /-- The test of the loop and `total += local_counts[i]`. -/
  | forTest (localCounts : Fin n → ℤ) (i : ℕ) (total : ℤ)
  /-- The call has returned `total`. -/
  | returned (total : ℤ)

/-- The counter, the threads that update it and the main thread. -/
structure State (n : ℕ) where
  counter : Counter n
  thread : Fin n → Thread
  main : MainPc n

/-- Every thread has returned. -/
def State.Joined (s : State n) : Prop := ∀ t, (s.thread t).pc = .done

instance (s : State n) : Decidable s.Joined := inferInstanceAs (Decidable (∀ _, _))

/-- One step of the main thread; `none` if it is blocked or has its result. -/
def mainStep (s : State n) : Option (State n) :=
  match s.main with
  | .join => if s.Joined then some { s with main := .collect } else none
  | .collect => some { s with main := .lockGlobal fun t => (s.thread t).localCount }
  | .lockGlobal f => (mutexLock .main s.counter.globalLock).map fun l =>
      { s with counter := { s.counter with globalLock := l }, main := .readGlobal f }
  | .readGlobal f => some { s with main := .unlockGlobal f s.counter.globalCount }
  | .unlockGlobal f total =>
      some { s with counter := { s.counter with globalLock := none }, main := .forTest f 0 total }
  | .forTest f i total =>
      if h : i < n then some { s with main := .forTest f (i + 1) (wrap (total + f ⟨i, h⟩)) }
      else some { s with main := .returned total }
  | .returned _ => none

/-- One step of a thread or of the main thread. -/
def step (P : Setup n) (s : State n) : Agent (Fin n) → Option (State n)
  | .thread t => (threadStep P t s.counter (s.thread t)).map fun p =>
      { s with counter := p.1, thread := update s.thread t p.2 }
  | .main => mainStep s

/-- `sloppy_counter_init`, with all threads created and none run; `memory` is what `malloc` left in
their local counts. -/
def start (memory : Fin n → ℤ) : State n where
  counter := ⟨0, none⟩
  thread := fun t => ⟨.init, 0, memory t⟩
  main := .join

/-- The program, for anything that `malloc` may leave in memory. -/
def sloppyCounter (P : Setup n) : LTS (State n) (Agent (Fin n)) where
  init s := ∃ memory, s = start memory
  step := step P

/-! ## Places -/

/-- Owns the global lock. -/
def Pc.inGlobal : Pc → Bool
  | .addLoad | .addStore _ | .unlockGlobal => true
  | _ => false

/-- The main thread owns the global lock. -/
def MainPc.inGlobal : MainPc n → Bool
  | .readGlobal _ | .unlockGlobal _ _ => true
  | _ => false

/-- The main thread is about to join the threads. -/
def MainPc.isJoin : MainPc n → Bool
  | .join => true
  | _ => false

/-- In the middle of an update. -/
def Pc.inUpdate : Pc → Bool
  | .init | .loopTest | .done => false
  | _ => true

/-- No update is in progress. -/
def State.Quiet (s : State n) : Prop := ∀ t, (s.thread t).pc.inUpdate = false

/-- What a thread holds back: its `local_count`, once it is set. -/
def Thread.held (x : Thread) : ℤ :=
  match x.pc with
  | .init => 0
  | _ => x.localCount

/-- The number of completed updates. -/
def State.completed (s : State n) : ℕ := tally Thread.i s.thread

/-- What the threads hold back. -/
def State.inThreads (s : State n) : ℤ := ∑ t, (s.thread t).held

/-- What a thread has added to the global count. -/
def Thread.added (threshold : ℕ) (x : Thread) : ℤ :=
  match x.pc with
  | .init => 0
  | .loopTest | .inc | .done => x.i - x.localCount
  | .test | .lockGlobal | .addLoad | .addStore _ => x.i + 1 - x.localCount
  | .unlockGlobal | .reset => x.i + 1 + threshold - x.localCount

/-! ## What one step can do -/

/-- The transitions of thread `t` in round `i` with local count `l`. -/
inductive Fires (P : Setup n) (t : Fin n) (c : Counter n) (i : ℕ) (l : ℤ) :
    Pc → Counter n → Thread → Prop
  | init : Fires P t c i l .init c ⟨.loopTest, i, 0⟩
  | enter : i < P.increments t → Fires P t c i l .loopTest c ⟨.inc, i, l⟩
  | finish : ¬ i < P.increments t → Fires P t c i l .loopTest c ⟨.done, i, l⟩
  | inc : Fires P t c i l .inc c ⟨.test, i, wrap (l + 1)⟩
  | reached : P.threshold ≤ l → Fires P t c i l .test c ⟨.lockGlobal, i, l⟩
  | below : l < P.threshold → Fires P t c i l .test c ⟨.loopTest, i + 1, l⟩
  | lockGlobal : c.globalLock = none →
      Fires P t c i l .lockGlobal { c with globalLock := some (.thread t) } ⟨.addLoad, i, l⟩
  | addLoad : Fires P t c i l .addLoad c ⟨.addStore c.globalCount, i, l⟩
  | addStore {g : ℤ} :
      Fires P t c i l (.addStore g) { c with globalCount := wrap (g + l) } ⟨.unlockGlobal, i, l⟩
  | unlockGlobal : Fires P t c i l .unlockGlobal { c with globalLock := none } ⟨.reset, i, l⟩
  | reset : Fires P t c i l .reset c ⟨.loopTest, i + 1, 0⟩

theorem fires_of_threadStep {P : Setup n} {t : Fin n} {c c' : Counter n} {x x' : Thread}
    (h : threadStep P t c x = some (c', x')) : Fires P t c x.i x.localCount x.pc c' x' := by
  obtain ⟨pc, i, l⟩ := x
  cases pc <;> simp only [threadStep, Option.map_eq_some_iff, mutexLock_eq_some, Option.some.injEq,
    Prod.mk.injEq, reduceCtorEq] at h
  case init => obtain ⟨rfl, rfl⟩ := h; exact .init
  case loopTest =>
    obtain ⟨rfl, rfl⟩ := h
    by_cases hi : i < P.increments t
    · rw [if_pos hi]; exact .enter hi
    · rw [if_neg hi]; exact .finish hi
  case inc => obtain ⟨rfl, rfl⟩ := h; exact .inc
  case test =>
    split at h
    · cases h; exact .reached ‹_›
    · cases h; exact .below (lt_of_not_ge ‹_›)
  case lockGlobal => obtain ⟨o, ⟨ho, rfl⟩, rfl, rfl⟩ := h; exact .lockGlobal ho
  case addLoad => obtain ⟨rfl, rfl⟩ := h; exact .addLoad
  case addStore g => obtain ⟨rfl, rfl⟩ := h; exact .addStore
  case unlockGlobal => obtain ⟨rfl, rfl⟩ := h; exact .unlockGlobal
  case reset => obtain ⟨rfl, rfl⟩ := h; exact .reset

/-! ## The invariant -/

/-- What a thread knows of its local count, of its rounds and of the global count `g`. -/
def Thread.Knows (threshold increments : ℕ) (g : ℤ) (x : Thread) : Prop :=
  match x.pc with
  | .init => x.i = 0
  | .loopTest => 0 ≤ x.localCount ∧ x.localCount < threshold ∧ x.i ≤ increments
  | .inc => 0 ≤ x.localCount ∧ x.localCount < threshold ∧ x.i < increments
  | .test => 0 ≤ x.localCount ∧ x.localCount ≤ threshold ∧ x.i < increments
  | .lockGlobal | .addLoad | .unlockGlobal | .reset => x.localCount = threshold ∧ x.i < increments
  | .addStore n => x.localCount = threshold ∧ x.i < increments ∧ n = g
  | .done => 0 ≤ x.localCount ∧ x.localCount < threshold ∧ x.i = increments

section Local

variable {P : Setup n} {t : Fin n} {c c' : Counter n} {i : ℕ} {l : ℤ} {p : Pc} {x' : Thread}

theorem Fires.lockStep (h : Fires P t c i l p c' x') :
    LockStep (.thread t) c.globalLock c'.globalLock (p.inGlobal = true)
      (x'.pc.inGlobal = true) := by
  cases h <;> simp_all [LockStep, Pc.inGlobal]

/-- Only the owner of the global lock stores the global count. -/
theorem Fires.globalCount_eq (h : Fires P t c i l p c' x') (hp : p.inGlobal = false) :
    c'.globalCount = c.globalCount := by
  cases h <;> first | rfl | simp [Pc.inGlobal] at hp

theorem wrap_incr (P : Setup n) {l : ℤ} (h₀ : 0 ≤ l) (h : l < P.threshold) :
    wrap (l + 1) = l + 1 := by
  have hlt := P.threshold_lt
  exact wrap_of_lt (by omega) (by omega)

theorem Fires.knows (h : Fires P t c i l p c' x')
    (hk : Thread.Knows P.threshold (P.increments t) c.globalCount ⟨p, i, l⟩) :
    x'.Knows P.threshold (P.increments t) c'.globalCount := by
  have hpos := P.threshold_pos
  cases h <;> simp only [Thread.Knows, and_true] at hk ⊢
  case inc =>
    rw [wrap_incr P hk.1 hk.2.1]
    omega
  all_goals omega

/-- A step keeps what the thread has added, or adds the threshold to both. -/
theorem Fires.account (h : Fires P t c i l p c' x')
    (hk : Thread.Knows P.threshold (P.increments t) c.globalCount ⟨p, i, l⟩) :
    (c'.globalCount = c.globalCount ∧ x'.added P.threshold = Thread.added P.threshold ⟨p, i, l⟩) ∨
    (c'.globalCount = wrap (c.globalCount + P.threshold) ∧
      x'.added P.threshold = Thread.added P.threshold ⟨p, i, l⟩ + P.threshold) := by
  cases h <;> simp only [Thread.Knows] at hk
  case inc =>
    left
    refine ⟨rfl, ?_⟩
    simp only [Thread.added, wrap_incr P hk.1 hk.2.1]
    omega
  case addStore g =>
    right
    obtain ⟨hl, -, hg⟩ := hk
    refine ⟨by rw [hl, hg], ?_⟩
    simp only [Thread.added]
    omega
  case init | below | reset =>
    left
    refine ⟨rfl, ?_⟩
    simp only [Thread.added]
    omega
  all_goals exact .inl ⟨rfl, rfl⟩

end Local

/-- Outside the global section a thread knows nothing of the global count. -/
theorem Thread.Knows.of_not_inGlobal {threshold increments : ℕ} {g : ℤ} {x : Thread}
    (hx : x.pc.inGlobal = false) (h : x.Knows threshold increments g) (g' : ℤ) :
    x.Knows threshold increments g' := by
  unfold Thread.Knows at h ⊢
  cases hp : x.pc <;> simp only [hp] at h ⊢
  case addStore k => simp [hp, Pc.inGlobal] at hx
  all_goals exact h

/-- Agent `a` is at a place where it owns the global lock. -/
def State.OwnsGlobal (s : State n) : Agent (Fin n) → Prop
  | .thread t => (s.thread t).pc.inGlobal = true
  | .main => s.main.inGlobal = true

/-- The invariant of the counter. -/
structure Inv (P : Setup n) (s : State n) : Prop where
  owner : ∀ a, s.counter.globalLock = some a ↔ s.OwnsGlobal a
  knows : ∀ t, (s.thread t).Knows P.threshold (P.increments t) s.counter.globalCount
  added : ∀ t, 0 ≤ (s.thread t).added P.threshold
  account : s.counter.globalCount = wrap (∑ t, (s.thread t).added P.threshold)

theorem inv_start (P : Setup n) (memory : Fin n → ℤ) : Inv P (start memory) where
  owner a := by cases a <;> simp [start, State.OwnsGlobal, Pc.inGlobal, MainPc.inGlobal]
  knows _ := rfl
  added _ := le_refl _
  account := by
    have hzero : ∑ t, ((start memory).thread t).added P.threshold = 0 :=
      Finset.sum_eq_zero fun _ _ => rfl
    rw [hzero]
    simp [start, wrap]

section Step

variable {P : Setup n} {s s' : State n}

theorem Inv.thread_step (hI : Inv P s) {t : Fin n} {c' : Counter n} {x' : Thread}
    (h : Fires P t s.counter (s.thread t).i (s.thread t).localCount (s.thread t).pc c' x') :
    Inv P { s with counter := c', thread := update s.thread t x' } := by
  have haccount := h.account (hI.knows t)
  refine ⟨?_, fun u => ?_, fun u => ?_, ?_⟩
  · refine LockStep.owner_iff (a := .thread t) ?_ hI.owner fun b hb => ?_
    · simpa [State.OwnsGlobal] using h.lockStep
    · cases b with
      | thread u =>
          have hu : u ≠ t := fun he => hb (congrArg Agent.thread he)
          simp [State.OwnsGlobal, hu]
      | main => rfl
  · by_cases hu : u = t
    · subst hu
      simpa using h.knows (hI.knows u)
    · simp only [Function.update_of_ne hu]
      -- two threads are not in the global section at once
      cases hu' : (s.thread u).pc.inGlobal with
      | false => exact (hI.knows u).of_not_inGlobal hu' _
      | true =>
          have ht : (s.thread t).pc.inGlobal = false := by
            by_contra ht
            have hown := (hI.owner (.thread t)).mpr (Bool.eq_true_of_not_eq_false ht)
            rw [(hI.owner (.thread u)).mpr hu'] at hown
            exact hu (Agent.thread.inj (Option.some.inj hown))
          rw [h.globalCount_eq ht]
          exact hI.knows u
  · by_cases hu : u = t
    · subst hu
      have hold :
          0 ≤ Thread.added P.threshold ⟨(s.thread u).pc, (s.thread u).i, (s.thread u).localCount⟩ :=
        hI.added u
      simp only [Function.update_self]
      omega
    · simpa [Function.update_of_ne hu] using hI.added u
  · have hsum := sum_add_of_eq_off (fun u => (s.thread u).added P.threshold)
      (fun u => (update s.thread t x' u).added P.threshold) (i := t)
      fun u hu => by rw [Function.update_of_ne hu]
    simp only [Function.update_self] at hsum
    have hadded : (s.thread t).added P.threshold =
        Thread.added P.threshold ⟨(s.thread t).pc, (s.thread t).i, (s.thread t).localCount⟩ := rfl
    simp only
    rcases haccount with ⟨hg, ha⟩ | ⟨hg, ha⟩
    · rw [hg, hI.account]
      congr 1
      omega
    · rw [hg, hI.account, wrap_wrap_add]
      congr 1
      omega

/-- The main thread changes only the owner of the global lock. -/
theorem mainStep_cases (h : mainStep s = some s') :
    s'.thread = s.thread ∧ s'.counter.globalCount = s.counter.globalCount ∧
      LockStep .main s.counter.globalLock s'.counter.globalLock (s.main.inGlobal = true)
        (s'.main.inGlobal = true) := by
  unfold mainStep at h
  cases hm : s.main <;> simp only [hm, Option.map_eq_some_iff, mutexLock_eq_some, Option.some.injEq,
    Option.ite_none_right_eq_some, reduceCtorEq] at h
  case join =>
    obtain ⟨-, rfl⟩ := h
    simp [LockStep, MainPc.inGlobal]
  case lockGlobal f =>
    obtain ⟨l, ⟨hl, rfl⟩, rfl⟩ := h
    simp [LockStep, MainPc.inGlobal, hl]
  case forTest f i total =>
    split at h <;> cases h <;> simp [LockStep, MainPc.inGlobal]
  all_goals
    subst h
    simp [LockStep, MainPc.inGlobal]

theorem inv_step {a : Agent (Fin n)} (hI : Inv P s) (h : step P s a = some s') : Inv P s' := by
  cases a with
  | thread t =>
      simp only [step, Option.map_eq_some_iff] at h
      obtain ⟨⟨c', x'⟩, hx, rfl⟩ := h
      exact hI.thread_step (fires_of_threadStep hx)
  | main =>
      obtain ⟨hthread, hcount, hlock⟩ := mainStep_cases h
      refine ⟨?_, ?_, ?_, ?_⟩
      · refine LockStep.owner_iff (a := .main) hlock hI.owner fun b hb => ?_
        cases b with
        | thread u => simp [State.OwnsGlobal, hthread]
        | main => exact absurd rfl hb
      · simpa [hthread, hcount] using hI.knows
      · simpa [hthread] using hI.added
      · simpa [hthread, hcount] using hI.account

theorem inv_of_reachable (hs : (sloppyCounter P).Reachable s) : Inv P s := by
  refine hs.invariant (I := Inv P) ?_ fun s a s' hI h => inv_step hI h
  rintro s ⟨memory, rfl⟩
  exact inv_start P memory

end Step

/-! ## While no update is in progress -/

section Quiet

variable {P : Setup n} {s : State n}

theorem Thread.added_add_held {x : Thread} (hx : x.pc.inUpdate = false) {g : ℤ} {increments : ℕ}
    (hk : x.Knows P.threshold increments g) : x.added P.threshold + x.held = x.i := by
  unfold Thread.Knows at hk
  cases hp : x.pc <;> simp [hp, Pc.inUpdate] at hx <;> simp only [hp] at hk <;>
    simp only [Thread.added, Thread.held, hp] <;> omega

/-- Between updates the local count of a thread that has begun is below the threshold. -/
theorem Inv.local_of_quiet (hI : Inv P s) (hq : s.Quiet) {t : Fin n}
    (ht : (s.thread t).pc ≠ .init) :
    0 ≤ (s.thread t).localCount ∧ (s.thread t).localCount < P.threshold := by
  have hk := hI.knows t
  have hu := hq t
  unfold Thread.Knows at hk
  cases hp : (s.thread t).pc <;> simp [hp, Pc.inUpdate] at hu ht <;> simp only [hp] at hk <;> omega

theorem Inv.held_of_quiet (hI : Inv P s) (hq : s.Quiet) (t : Fin n) :
    0 ≤ (s.thread t).held ∧ (s.thread t).held ≤ P.threshold - 1 := by
  have hpos := P.threshold_pos
  by_cases ht : (s.thread t).pc = .init
  · simp only [Thread.held, ht]
    omega
  · have hl := hI.local_of_quiet hq ht
    unfold Thread.held
    split <;> omega

theorem Inv.sum_added_of_quiet (hI : Inv P s) (hq : s.Quiet) :
    ∑ t, (s.thread t).added P.threshold + s.inThreads = s.completed := by
  unfold State.inThreads State.completed tally
  rw [← Finset.sum_add_distrib, Nat.cast_sum]
  exact Finset.sum_congr rfl fun t _ => Thread.added_add_held (hq t) (hI.knows t)

theorem Inv.inThreads_of_quiet (hI : Inv P s) (hq : s.Quiet) :
    0 ≤ s.inThreads ∧ s.inThreads ≤ n * (P.threshold - 1) ∧ s.inThreads ≤ s.completed := by
  refine ⟨Finset.sum_nonneg fun t _ => (hI.held_of_quiet hq t).1, ?_, ?_⟩
  · have hle : s.inThreads ≤ ∑ _t : Fin n, ((P.threshold : ℤ) - 1) :=
      Finset.sum_le_sum fun t _ => (hI.held_of_quiet hq t).2
    rwa [Finset.sum_const, Finset.card_univ, Fintype.card_fin, nsmul_eq_mul] at hle
  · have hadded : 0 ≤ ∑ t, (s.thread t).added P.threshold := Finset.sum_nonneg fun t _ => hI.added t
    have h := hI.sum_added_of_quiet hq
    omega

/-- The law of the counter between updates, in `int` arithmetic. -/
theorem Inv.sum_of_quiet (hI : Inv P s) (hq : s.Quiet) :
    wrap (s.counter.globalCount + s.inThreads) = wrap s.completed := by
  rw [hI.account, wrap_wrap_add, hI.sum_added_of_quiet hq]

/-- The law of the counter between updates, as long as the count is in the range of `int`. -/
theorem Inv.sum_of_quiet_of_lt (hI : Inv P s) (hq : s.Quiet) (hlt : s.completed < 2 ^ 31) :
    s.counter.globalCount + s.inThreads = s.completed := by
  have hheld := hI.inThreads_of_quiet hq
  have hsum := hI.sum_added_of_quiet hq
  rw [hI.account, wrap_of_lt (by omega) (by omega)]
  exact hsum

end Quiet

/-! ## The result after all threads are joined -/

section Joined

variable {P : Setup n}

/-- The loop of `sloppy_counter_get` from slot `i` on. -/
theorem run_forTest (s : State n) (f : Fin n → ℤ) {m i : ℕ} {total : ℤ} (hm : n - i = m)
    (ht : wrap total = total) :
    ∃ s', (sloppyCounter P).run { s with main := .forTest f i total }
      (List.replicate (m + 1) .main) =
      some s' ∧ s'.main = .returned (wrap (total + ∑ j, if i ≤ j.val then f j else 0)) := by
  induction m generalizing i total with
  | zero =>
      have hi : ¬ i < n := by omega
      refine ⟨{ s with main := .returned total }, ?_, ?_⟩
      · simp [LTS.run, sloppyCounter, step, mainStep, hi]
      · have hzero : (∑ j : Fin n, if i ≤ j.val then f j else 0) = 0 :=
          Finset.sum_eq_zero fun j _ => if_neg (by omega)
        rw [hzero, add_zero, ht]
  | succ m ih =>
      have hi : i < n := by omega
      have hsum : wrap (wrap (total + f ⟨i, hi⟩)) = wrap (total + f ⟨i, hi⟩) := wrap_wrap _
      obtain ⟨s', hrun, hret⟩ := ih (i := i + 1) (by omega) hsum
      refine ⟨s', ?_, ?_⟩
      · rw [List.replicate_succ, LTS.run]
        simpa [sloppyCounter, step, mainStep, hi] using hrun
      · have hsplit := sum_add_of_eq_off (fun j : Fin n => if i ≤ j.val then f j else 0)
          (fun j => if i + 1 ≤ j.val then f j else 0) (i := ⟨i, hi⟩) fun j hj => ?_
        · simp only [le_refl, if_true, Nat.not_succ_le_self, if_false, add_zero] at hsplit
          rw [hret, wrap_wrap_add]
          congr 2
          omega
        · have hne : j.val ≠ i := fun he => hj (Fin.ext he)
          have hiff : i + 1 ≤ j.val ↔ i ≤ j.val := by omega
          simp only [hiff]

theorem State.Joined.quiet {s : State n} (h : s.Joined) : s.Quiet := fun t => by rw [h t]; rfl

theorem Inv.completed_of_joined {s : State n} (hI : Inv P s) (hj : s.Joined) :
    s.completed = ∑ t, P.increments t := by
  unfold State.completed tally
  refine Finset.sum_congr rfl fun t _ => ?_
  have h := hI.knows t
  simp only [Thread.Knows, hj t] at h
  exact h.2.2

/-- After all threads are joined, the main thread gets the number of their updates as an `int`. -/
theorem get_of_joined {s : State n} (hI : Inv P s) (hj : s.Joined) (hmain : s.main = .join) :
    ∃ k s', (sloppyCounter P).run s (List.replicate k .main) = some s' ∧
      s'.main = .returned (wrap (∑ t, P.increments t : ℕ)) := by
  have hfree : s.counter.globalLock = none := by
    cases hl : s.counter.globalLock with
    | none => rfl
    | some a =>
        have hown := (hI.owner a).mp hl
        cases a with
        | thread t => simp [State.OwnsGlobal, hj t, Pc.inGlobal] at hown
        | main => simp [State.OwnsGlobal, hmain, MainPc.inGlobal] at hown
  have hcount : wrap s.counter.globalCount = s.counter.globalCount := by rw [hI.account, wrap_wrap]
  have hheld : (∑ j : Fin n, if 0 ≤ j.val then (s.thread j).localCount else 0) = s.inThreads := by
    refine Finset.sum_congr rfl fun t _ => ?_
    simp [Thread.held, hj t]
  obtain ⟨s', hrun, hret⟩ := run_forTest (P := P) s (fun t => (s.thread t).localCount)
    (m := n) (i := 0) (Nat.sub_zero n) hcount
  refine ⟨5 + (n + 1), s', ?_, ?_⟩
  · -- join, copy, lock, read and unlock come before the loop
    have hclosed : ({ s.counter with globalLock := none } : Counter n) =
      s.counter := by rw [← hfree]
    rw [List.replicate_add, LTS.run_append]
    simpa [LTS.run, sloppyCounter, step, mainStep, hmain, hj, hfree, mutexLock, hclosed] using hrun
  · rw [hret, hheld, hI.sum_of_quiet hj.quiet, hI.completed_of_joined hj]

end Joined

end Osvcp.SloppyCounterGlobal
