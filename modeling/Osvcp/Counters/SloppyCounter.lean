import Osvcp.Lib.Threads
import Mathlib.Algebra.Group.Nat.Defs

/-! # The sloppy counters of `sloppy_counter.c` and `sloppy_counter_cpu_based.c`

Threads add to the count of a slot under the lock of the slot, and move it to the global count when
it reaches the threshold. The two programs differ only in how threads are assigned to slots: one
slot for each thread, or one for each processor. A step is one lock operation, or one load or store
of a count; `++` and `+=` are a load and a store. The thread that calls `sloppy_counter_get` is
`Agent.main`.
-/

namespace Osvcp.SloppyCounter

open Function (update)

/-- The value of an `int` after overflow has wrapped around. -/
def wrap (x : ℤ) : ℤ := x.bmod (2 ^ 32)

/-- What a program fixes: the slot of each thread (its `thread_id` or `cpu_core`), its `increments`,
and `THRESHOLD`, a positive `int`. -/
structure Setup (T : Type*) (slots : ℕ) where
  slot : T → Fin slots
  increments : T → ℕ
  threshold : ℕ
  threshold_pos : 0 < threshold
  threshold_lt : threshold < 2 ^ 31

/-- Who can own a lock. -/
inductive Agent (T : Type*)
  | thread (t : T)
  | main
  deriving DecidableEq, Repr

/-- `sloppy_counter_t`, each lock as its owner. -/
structure Counter (T : Type*) (slots : ℕ) where
  globalCount : ℤ
  globalLock : Option (Agent T)
  localCounts : Fin slots → ℤ
  localLocks : Fin slots → Option (Agent T)

variable {T : Type*} {slots : ℕ}

/-- Store into `local_counts[j]`. -/
def Counter.setLocal (c : Counter T slots) (j : Fin slots) (n : ℤ) : Counter T slots :=
  { c with localCounts := update c.localCounts j n }

/-- Change the owner of `local_locks[j]`. -/
def Counter.setLock (c : Counter T slots) (j : Fin slots) (l : Option (Agent T)) :
    Counter T slots :=
  { c with localLocks := update c.localLocks j l }

/-- What a thread does next in `thread_func` and `sloppy_counter_update`. -/
inductive Pc
  /-- The test `i < args->increments`. -/
  | loopTest
  /-- `pthread_mutex_lock(&counter->local_locks[thread_id])`. -/
  | lockLocal
  /-- The load of `counter->local_counts[thread_id]++`. -/
  | incLoad
  /-- The store of `counter->local_counts[thread_id]++`, after loading `n`. -/
  | incStore (n : ℤ)
  /-- The test `counter->local_counts[thread_id] >= THRESHOLD`. -/
  | test
  /-- `pthread_mutex_lock(&counter->global_lock)`. -/
  | lockGlobal
  /-- The load of `counter->global_count += counter->local_counts[thread_id]`. -/
  | addLoad
  /-- The store of that statement, after loading `n` from `global_count`. -/
  | addStore (n : ℤ)
  /-- `pthread_mutex_unlock(&counter->global_lock)`. -/
  | unlockGlobal
  /-- `counter->local_counts[thread_id] = 0`. -/
  | reset
  /-- `pthread_mutex_unlock(&counter->local_locks[thread_id])`. -/
  | unlockLocal
  /-- `thread_func` has returned. -/
  | done
  deriving DecidableEq, Repr

/-- A thread and the `i` of its loop, which counts its completed updates. -/
structure Thread where
  pc : Pc
  i : ℕ
  deriving DecidableEq, Repr

/-- One step of thread `t`; `none` if it is blocked or has returned. -/
def threadStep (P : Setup T slots) (t : T) (c : Counter T slots) (x : Thread) :
    Option (Counter T slots × Thread) :=
  match x.pc with
  | .loopTest => some (c, ⟨if x.i < P.increments t then .lockLocal else .done, x.i⟩)
  | .lockLocal => (mutexLock (.thread t) (c.localLocks (P.slot t))).map fun l =>
      (c.setLock (P.slot t) l, ⟨.incLoad, x.i⟩)
  | .incLoad => some (c, ⟨.incStore (c.localCounts (P.slot t)), x.i⟩)
  | .incStore n => some (c.setLocal (P.slot t) (wrap (n + 1)), ⟨.test, x.i⟩)
  | .test => some (c,
      ⟨if P.threshold ≤ c.localCounts (P.slot t) then .lockGlobal else .unlockLocal, x.i⟩)
  | .lockGlobal => (mutexLock (.thread t) c.globalLock).map fun l =>
      ({ c with globalLock := l }, ⟨.addLoad, x.i⟩)
  | .addLoad => some (c, ⟨.addStore c.globalCount, x.i⟩)
  | .addStore n => some ({ c with globalCount := wrap (n + c.localCounts (P.slot t)) },
      ⟨.unlockGlobal, x.i⟩)
  | .unlockGlobal => some ({ c with globalLock := none }, ⟨.reset, x.i⟩)
  | .reset => some (c.setLocal (P.slot t) 0, ⟨.unlockLocal, x.i⟩)
  | .unlockLocal => some (c.setLock (P.slot t) none, ⟨.loopTest, x.i + 1⟩)
  | .done => none

/-- What the caller of `sloppy_counter_get` does next. -/
inductive GetPc (slots : ℕ)
  /-- Before the call. -/
  | idle
  /-- `pthread_mutex_lock(&counter->global_lock)`. -/
  | lockGlobal
  /-- `total = counter->global_count`. -/
  | readGlobal
  /-- `pthread_mutex_unlock(&counter->global_lock)`. -/
  | unlockGlobal (total : ℤ)
  /-- The test of the loop over the slots. -/
  | forTest (i : ℕ) (total : ℤ)
  /-- `pthread_mutex_lock(&counter->local_locks[i])`. -/
  | lockLocal (i : Fin slots) (total : ℤ)
  /-- `total += counter->local_counts[i]`. -/
  | addLocal (i : Fin slots) (total : ℤ)
  /-- `pthread_mutex_unlock(&counter->local_locks[i])`. -/
  | unlockLocal (i : Fin slots) (total : ℤ)
  /-- The call has returned `total`. -/
  | returned (total : ℤ)
  deriving DecidableEq, Repr

/-- One step of `sloppy_counter_get`; `none` if it is blocked or has returned. -/
def getStep (c : Counter T slots) : GetPc slots → Option (Counter T slots × GetPc slots)
  | .idle => some (c, .lockGlobal)
  | .lockGlobal => (mutexLock .main c.globalLock).map fun l =>
      ({ c with globalLock := l }, .readGlobal)
  | .readGlobal => some (c, .unlockGlobal c.globalCount)
  | .unlockGlobal total => some ({ c with globalLock := none }, .forTest 0 total)
  | .forTest i total => some (c, if h : i < slots then .lockLocal ⟨i, h⟩ total else .returned total)
  | .lockLocal i total => (mutexLock .main (c.localLocks i)).map fun l =>
      (c.setLock i l, .addLocal i total)
  | .addLocal i total => some (c, .unlockLocal i (wrap (total + c.localCounts i)))
  | .unlockLocal i total => some (c.setLock i none, .forTest (i + 1) total)
  | .returned _ => none

/-- The counter, the threads that update it and one call of `sloppy_counter_get`. -/
structure State (T : Type*) (slots : ℕ) where
  counter : Counter T slots
  thread : T → Thread
  get : GetPc slots

/-- One step of a thread or of the call. -/
def step [DecidableEq T] (P : Setup T slots) (s : State T slots) : Agent T → Option (State T slots)
  | .thread t => (threadStep P t s.counter (s.thread t)).map fun p =>
      { s with counter := p.1, thread := update s.thread t p.2 }
  | .main => (getStep s.counter s.get).map fun p => { s with counter := p.1, get := p.2 }

/-- `sloppy_counter_init`, with all threads created and none run. -/
def sloppyCounterInit : State T slots where
  counter := ⟨0, none, fun _ => 0, fun _ => none⟩
  thread := fun _ => ⟨.loopTest, 0⟩
  get := .idle

/-- The threads on one counter. -/
def sloppyCounter [DecidableEq T] (P : Setup T slots) : LTS (State T slots) (Agent T) where
  init s := s = sloppyCounterInit
  step := step P

/-! ## Places -/

/-- Owns the lock of its slot. -/
def Pc.inLocal : Pc → Bool
  | .incLoad | .incStore _ | .test | .lockGlobal | .addLoad | .addStore _ | .unlockGlobal | .reset
  | .unlockLocal => true
  | _ => false

/-- Owns the global lock. -/
def Pc.inGlobal : Pc → Bool
  | .addLoad | .addStore _ | .unlockGlobal => true
  | _ => false

/-- Has added its count to the global count and not yet reset it. -/
def Pc.moved : Pc → Bool
  | .unlockGlobal | .reset => true
  | _ => false

/-- In the middle of an update, past the store of the increment. -/
def Pc.counted : Pc → Bool
  | .test | .lockGlobal | .addLoad | .addStore _ | .unlockGlobal | .reset | .unlockLocal => true
  | _ => false

/-- In the middle of an update. -/
def Pc.inUpdate : Pc → Bool
  | .loopTest | .done => false
  | _ => true

/-- The caller owns the global lock. -/
def GetPc.inGlobal : GetPc slots → Bool
  | .readGlobal | .unlockGlobal _ => true
  | _ => false

/-- The caller owns the lock of slot `j`. -/
def GetPc.inLocal (j : Fin slots) : GetPc slots → Bool
  | .addLocal i _ | .unlockLocal i _ => i == j
  | _ => false

/-- The updates that a thread has completed, and the one in progress once its increment is
stored. -/
def Thread.counted (x : Thread) : ℕ := x.i + x.pc.counted.toNat

/-- The updates that a thread has started. -/
def Thread.started (x : Thread) : ℕ := x.i + x.pc.inUpdate.toNat

section Counts

variable [Fintype T]

/-- The number of completed updates. -/
def State.completed (s : State T slots) : ℕ := tally Thread.i s.thread

/-- The number of updates started. -/
def State.started (s : State T slots) : ℕ := tally Thread.started s.thread

end Counts

/-- No update is in progress. -/
def State.Quiet (s : State T slots) : Prop := ∀ t, (s.thread t).pc.inUpdate = false

/-! ## What one step can do -/

/-- The transitions of thread `t` in round `i`, one constructor for each. -/
inductive Fires (P : Setup T slots) (t : T) (c : Counter T slots) (i : ℕ) :
    Pc → Counter T slots → Thread → Prop
  | enter : i < P.increments t → Fires P t c i .loopTest c ⟨.lockLocal, i⟩
  | finish : ¬ i < P.increments t → Fires P t c i .loopTest c ⟨.done, i⟩
  | lockLocal : c.localLocks (P.slot t) = none →
      Fires P t c i .lockLocal (c.setLock (P.slot t) (some (.thread t))) ⟨.incLoad, i⟩
  | incLoad : Fires P t c i .incLoad c ⟨.incStore (c.localCounts (P.slot t)), i⟩
  | incStore {n : ℤ} :
      Fires P t c i (.incStore n) (c.setLocal (P.slot t) (wrap (n + 1))) ⟨.test, i⟩
  | reached : P.threshold ≤ c.localCounts (P.slot t) → Fires P t c i .test c ⟨.lockGlobal, i⟩
  | below : c.localCounts (P.slot t) < P.threshold → Fires P t c i .test c ⟨.unlockLocal, i⟩
  | lockGlobal : c.globalLock = none →
      Fires P t c i .lockGlobal { c with globalLock := some (.thread t) } ⟨.addLoad, i⟩
  | addLoad : Fires P t c i .addLoad c ⟨.addStore c.globalCount, i⟩
  | addStore {n : ℤ} : Fires P t c i (.addStore n)
      { c with globalCount := wrap (n + c.localCounts (P.slot t)) } ⟨.unlockGlobal, i⟩
  | unlockGlobal : Fires P t c i .unlockGlobal { c with globalLock := none } ⟨.reset, i⟩
  | reset : Fires P t c i .reset (c.setLocal (P.slot t) 0) ⟨.unlockLocal, i⟩
  | unlockLocal : Fires P t c i .unlockLocal (c.setLock (P.slot t) none) ⟨.loopTest, i + 1⟩

/-- The transitions of `sloppy_counter_get`. -/
inductive GetFires (c : Counter T slots) : GetPc slots → Counter T slots → GetPc slots → Prop
  | call : GetFires c .idle c .lockGlobal
  | lockGlobal : c.globalLock = none →
      GetFires c .lockGlobal { c with globalLock := some .main } .readGlobal
  | readGlobal : GetFires c .readGlobal c (.unlockGlobal c.globalCount)
  | unlockGlobal {total : ℤ} :
      GetFires c (.unlockGlobal total) { c with globalLock := none } (.forTest 0 total)
  | forGo {i : ℕ} {total : ℤ} (h : i < slots) :
      GetFires c (.forTest i total) c (.lockLocal ⟨i, h⟩ total)
  | forEnd {i : ℕ} {total : ℤ} : ¬ i < slots → GetFires c (.forTest i total) c (.returned total)
  | lockLocal {i : Fin slots} {total : ℤ} : c.localLocks i = none →
      GetFires c (.lockLocal i total) (c.setLock i (some .main)) (.addLocal i total)
  | addLocal {i : Fin slots} {total : ℤ} :
      GetFires c (.addLocal i total) c (.unlockLocal i (wrap (total + c.localCounts i)))
  | unlockLocal {i : Fin slots} {total : ℤ} :
      GetFires c (.unlockLocal i total) (c.setLock i none) (.forTest (i + 1) total)

theorem fires_of_threadStep {P : Setup T slots} {t : T} {c c' : Counter T slots} {x x' : Thread}
    (h : threadStep P t c x = some (c', x')) : Fires P t c x.i x.pc c' x' := by
  obtain ⟨pc, i⟩ := x
  cases pc <;> simp only [threadStep, Option.map_eq_some_iff, mutexLock_eq_some, Option.some.injEq,
    Prod.mk.injEq, reduceCtorEq] at h
  case loopTest =>
    obtain ⟨rfl, rfl⟩ := h
    by_cases hi : i < P.increments t
    · rw [if_pos hi]; exact .enter hi
    · rw [if_neg hi]; exact .finish hi
  case lockLocal => obtain ⟨l, ⟨hl, rfl⟩, rfl, rfl⟩ := h; exact .lockLocal hl
  case incLoad => obtain ⟨rfl, rfl⟩ := h; exact .incLoad
  case incStore n => obtain ⟨rfl, rfl⟩ := h; exact .incStore
  case test =>
    obtain ⟨rfl, rfl⟩ := h
    by_cases hn : P.threshold ≤ c.localCounts (P.slot t)
    · rw [if_pos hn]; exact .reached hn
    · rw [if_neg hn]; exact .below (by omega)
  case lockGlobal => obtain ⟨l, ⟨hl, rfl⟩, rfl, rfl⟩ := h; exact .lockGlobal hl
  case addLoad => obtain ⟨rfl, rfl⟩ := h; exact .addLoad
  case addStore n => obtain ⟨rfl, rfl⟩ := h; exact .addStore
  case unlockGlobal => obtain ⟨rfl, rfl⟩ := h; exact .unlockGlobal
  case reset => obtain ⟨rfl, rfl⟩ := h; exact .reset
  case unlockLocal => obtain ⟨rfl, rfl⟩ := h; exact .unlockLocal

theorem getFires_of_getStep {c c' : Counter T slots} {g g' : GetPc slots}
    (h : getStep c g = some (c', g')) : GetFires c g c' g' := by
  cases g <;> simp only [getStep, Option.map_eq_some_iff, mutexLock_eq_some, Option.some.injEq,
    Prod.mk.injEq, reduceCtorEq] at h
  case idle => obtain ⟨rfl, rfl⟩ := h; exact .call
  case lockGlobal => obtain ⟨l, ⟨hl, rfl⟩, rfl, rfl⟩ := h; exact .lockGlobal hl
  case readGlobal => obtain ⟨rfl, rfl⟩ := h; exact .readGlobal
  case unlockGlobal total => obtain ⟨rfl, rfl⟩ := h; exact .unlockGlobal
  case forTest i total =>
    obtain ⟨rfl, rfl⟩ := h
    by_cases hi : i < slots
    · rw [dif_pos hi]; exact .forGo hi
    · rw [dif_neg hi]; exact .forEnd hi
  case lockLocal i total => obtain ⟨l, ⟨hl, rfl⟩, rfl, rfl⟩ := h; exact .lockLocal hl
  case addLocal i total => obtain ⟨rfl, rfl⟩ := h; exact .addLocal
  case unlockLocal i total => obtain ⟨rfl, rfl⟩ := h; exact .unlockLocal

/-- A step moves one thread, or the call. -/
theorem step_cases [DecidableEq T] {P : Setup T slots} {s s' : State T slots} {a : Agent T}
    (h : step P s a = some s') :
    (∃ t c' x', a = .thread t ∧ Fires P t s.counter (s.thread t).i (s.thread t).pc c' x' ∧
      s' = { s with counter := c', thread := update s.thread t x' }) ∨
    (∃ c' g', a = .main ∧ GetFires s.counter s.get c' g' ∧
      s' = { s with counter := c', get := g' }) := by
  cases a with
  | thread t =>
      simp only [step, Option.map_eq_some_iff] at h
      obtain ⟨⟨c', x'⟩, hx, rfl⟩ := h
      exact .inl ⟨t, c', x', rfl, fires_of_threadStep hx, rfl⟩
  | main =>
      simp only [step, Option.map_eq_some_iff] at h
      obtain ⟨⟨c', g'⟩, hg, rfl⟩ := h
      exact .inr ⟨c', g', rfl, getFires_of_getStep hg, rfl⟩

/-! ## Reading the counter after an update -/

section Update

variable (c : Counter T slots) (j k : Fin slots) (n : ℤ) (l : Option (Agent T))

@[simp] theorem setLocal_globalCount : (c.setLocal j n).globalCount = c.globalCount := rfl
@[simp] theorem setLocal_globalLock : (c.setLocal j n).globalLock = c.globalLock := rfl
@[simp] theorem setLocal_localLocks : (c.setLocal j n).localLocks = c.localLocks := rfl
@[simp] theorem setLock_globalCount : (c.setLock j l).globalCount = c.globalCount := rfl
@[simp] theorem setLock_globalLock : (c.setLock j l).globalLock = c.globalLock := rfl
@[simp] theorem setLock_localCounts : (c.setLock j l).localCounts = c.localCounts := rfl

@[simp] theorem setLocal_localCounts :
    (c.setLocal j n).localCounts k = if k = j then n else c.localCounts k := by
  simp [Counter.setLocal, Function.update_apply]

@[simp] theorem setLock_localLocks :
    (c.setLock j l).localLocks k = if k = j then l else c.localLocks k := by
  simp [Counter.setLock, Function.update_apply]

end Update

end Osvcp.SloppyCounter
