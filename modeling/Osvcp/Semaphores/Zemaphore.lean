import Osvcp.Lib.Threads

/-! # The semaphore of `zemaphore.h`

A counting semaphore made of a counter, a mutex and a condition variable. Any number of threads call
`Zem_wait` and `Zem_post` on one of them. `Cond_wait` releases the mutex and falls asleep in one
step; a thread that is woken has to take the mutex again, in competition with all others, before it
tests `value`. A signal wakes at least one sleeper if there is one, and sleepers may wake without a
signal.
-/

namespace Osvcp.Zemaphore

open Function (update)

/-- A call of the interface. -/
inductive Op
  | wait
  | post
  deriving DecidableEq, Repr

/-- What a thread does next. -/
inductive Pc
  /-- Between two calls. -/
  | idle
  /-- `Mutex_lock(&z->lock)` of `Zem_wait`. -/
  | waitLock
  /-- The test `z->value <= 0`. -/
  | whileTest
  /-- `Cond_wait(&z->cond, &z->lock)`. -/
  | condWait
  /-- Asleep in `Cond_wait`. -/
  | asleep
  /-- Woken in `Cond_wait`, about to take the mutex again. -/
  | woken
  /-- The load of `z->value--`. -/
  | decLoad
  /-- The store of `z->value--`, after loading `n`. -/
  | decStore (n : ℤ)
  /-- `Mutex_unlock(&z->lock)` of `Zem_wait`. -/
  | waitUnlock
  /-- `Mutex_lock(&z->lock)` of `Zem_post`. -/
  | postLock
  /-- The load of `z->value++`. -/
  | incLoad
  /-- The store of `z->value++`, after loading `n`. -/
  | incStore (n : ℤ)
  /-- `Cond_signal(&z->cond)`. -/
  | condSignal
  /-- `Mutex_unlock(&z->lock)` of `Zem_post`. -/
  | postUnlock
  deriving DecidableEq, Repr

/-- A thread: where it is, the calls it still makes, and how many calls it has completed. -/
structure Thread where
  pc : Pc
  todo : List Op
  waits : ℕ
  posts : ℕ
  deriving DecidableEq, Repr

/-- `Zem_t`. The mutex is its owner; the sleepers of the condition variable are the threads at
`Pc.asleep`. -/
structure Zem (T : Type*) where
  value : ℤ
  lock : Option T

variable {T : Type*}

/-- One step of thread `t` by itself; `none` if it is blocked, asleep or out of calls. A signal is a
step of its own, since it moves other threads. -/
def threadStep (t : T) (z : Zem T) (x : Thread) : Option (Zem T × Thread) :=
  match x.pc with
  | .idle =>
      match x.todo with
      | [] => none
      | .wait :: ops => some (z, { x with pc := .waitLock, todo := ops })
      | .post :: ops => some (z, { x with pc := .postLock, todo := ops })
  | .waitLock => (mutexLock t z.lock).map fun l =>
      ({ z with lock := l }, { x with pc := .whileTest })
  | .whileTest => some (z, { x with pc := if z.value ≤ 0 then .condWait else .decLoad })
  | .condWait => some ({ z with lock := none }, { x with pc := .asleep })
  | .asleep => none
  | .woken => (mutexLock t z.lock).map fun l => ({ z with lock := l }, { x with pc := .whileTest })
  | .decLoad => some (z, { x with pc := .decStore z.value })
  | .decStore n => some ({ z with value := n - 1 }, { x with pc := .waitUnlock })
  | .waitUnlock => some ({ z with lock := none }, { x with pc := .idle, waits := x.waits + 1 })
  | .postLock => (mutexLock t z.lock).map fun l => ({ z with lock := l }, { x with pc := .incLoad })
  | .incLoad => some (z, { x with pc := .incStore z.value })
  | .incStore n => some ({ z with value := n + 1 }, { x with pc := .condSignal })
  | .condSignal => none
  | .postUnlock => some ({ z with lock := none }, { x with pc := .idle, posts := x.posts + 1 })

/-- The semaphore and its threads. -/
structure State (T : Type*) where
  zem : Zem T
  thread : T → Thread

/-- What the scheduler may choose. -/
inductive Action (T : Type*)
  /-- Thread `t` takes a step by itself. -/
  | run (t : T)
  /-- Thread `t` signals, and the threads chosen by `wakes` are woken. -/
  | signal (t : T) (wakes : T → Bool)
  /-- Thread `t` wakes without a signal. -/
  | spurious (t : T)

/-- A signal wakes only sleepers, and at least one if there is any. -/
def Wakes (s : State T) (wakes : T → Bool) : Prop :=
  (∀ u, wakes u = true → (s.thread u).pc = .asleep) ∧
    ((∃ u, (s.thread u).pc = .asleep) → ∃ u, wakes u = true)

/-- The threads after those chosen by `wakes` are woken. -/
def wakeAll (f : T → Thread) (wakes : T → Bool) (u : T) : Thread :=
  if wakes u then { f u with pc := .woken } else f u

section Step

variable [Fintype T] [DecidableEq T]

instance (s : State T) (wakes : T → Bool) : Decidable (Wakes s wakes) :=
  inferInstanceAs (Decidable (_ ∧ _))

/-- One step of the system. -/
def step (s : State T) : Action T → Option (State T)
  | .run t => (threadStep t s.zem (s.thread t)).map fun p =>
      { zem := p.1, thread := update s.thread t p.2 }
  | .signal t wakes =>
      if (s.thread t).pc = .condSignal ∧ Wakes s wakes then
        some { s with thread := update (wakeAll s.thread wakes) t { s.thread t with
          pc := .postUnlock } }
      else none
  | .spurious t =>
      if (s.thread t).pc = .asleep then
        some { s with thread := update s.thread t { s.thread t with pc := .woken } }
      else none

/-- `Zem_init(z, v)`, with thread `t` about to make the calls `prog t`. -/
def zemInit (v : ℕ) (prog : T → List Op) : State T where
  zem := ⟨v, none⟩
  thread := fun t => ⟨.idle, prog t, 0, 0⟩

/-- Threads that make the calls `prog` on a semaphore initialised with `v`. -/
def zemThreads (v : ℕ) (prog : T → List Op) : LTS (State T) (Action T) where
  init s := s = zemInit v prog
  step := step

end Step

/-- The completed calls of `Zem_wait`. -/
def State.waits [Fintype T] (s : State T) : ℕ := tally Thread.waits s.thread

/-- The completed calls of `Zem_post`. -/
def State.posts [Fintype T] (s : State T) : ℕ := tally Thread.posts s.thread

end Osvcp.Zemaphore
