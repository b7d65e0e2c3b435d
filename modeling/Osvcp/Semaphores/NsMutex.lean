import Osvcp.Lib.LinkedList
import Osvcp.Lib.Transition
import Mathlib.Logic.Function.Basic

/-! # The starvation-free mutex of `mutex-nostarve.c`

`ns_mutex_t` is a flag, a queue of waiting nodes with head and tail pointers, and a guard semaphore.
The model interleaves any number of threads, each looping over `ns_mutex_acquire` and
`ns_mutex_release`. A step of a thread is one semaphore operation or one stretch of code between
two of them, so that a thread can be overtaken at every point where the source can be.

Nodes are numbered in the order in which `malloc` hands them out and a number is never handed out
twice. A store through a pointer to a freed node therefore reaches no live node.
-/

namespace Osvcp.NsMutex

open Function (update)

/-- `node_t`: a private semaphore and the link to the next waiter. -/
structure Node where
  sem : ℕ
  next : Option ℕ
  deriving DecidableEq, Repr

/-- What a thread does next. A number is the node that its current `ns_mutex_acquire` allocated,
except in `relHand`, where it is the node the release is about to post. -/
inductive Pc
  /-- Outside the lock, about to call `ns_mutex_acquire`. -/
  | idle
  /-- `Sem_wait(&m->guard)` of `ns_mutex_acquire`. -/
  | acqGuard (n : ℕ)
  /-- The guarded section of `ns_mutex_acquire`. -/
  | acqBody (n : ℕ)
  /-- `Sem_post(&m->guard)` after taking the flag. -/
  | acqPostFast (n : ℕ)
  /-- `free(n)` after taking the flag. -/
  | freeFast (n : ℕ)
  /-- `Sem_post(&m->guard)` after joining the queue. -/
  | acqPostSlow (n : ℕ)
  /-- `Sem_wait(&n->sem)`. -/
  | acqWait (n : ℕ)
  /-- `free(n)` after being woken. -/
  | freeSlow (n : ℕ)
  /-- `ns_mutex_acquire` has returned. -/
  | critical
  /-- `Sem_wait(&m->guard)` of `ns_mutex_release`. -/
  | relGuard
  /-- The guarded section of `ns_mutex_release`, up to the post of the next waiter. -/
  | relBody
  /-- `Sem_post(&next->sem)`. -/
  | relHand (n : ℕ)
  /-- `Sem_post(&m->guard)` of `ns_mutex_release`. -/
  | relPost
  deriving DecidableEq, Repr

/-- The mutex, the heap of its nodes and the position of every thread. -/
structure State (T : Type*) where
  locked : ℕ
  head : Option ℕ
  tail : Option ℕ
  guard : ℕ
  node : ℕ → Node
  /-- The number `malloc` hands out next. -/
  fresh : ℕ
  pc : T → Pc

variable {T : Type*}

/-- `ns_mutex_init`, with no thread in the lock. -/
def nsMutexInit : State T where
  locked := 0
  head := none
  tail := none
  guard := 1
  node := fun _ => ⟨0, none⟩
  fresh := 0
  pc := fun _ => .idle

/-- Move thread `t` to `p`. -/
def State.goto [DecidableEq T] (s : State T) (t : T) (p : Pc) : State T :=
  { s with pc := update s.pc t p }

/-- Store `v` into `next` of node `n`. -/
def State.setNext (s : State T) (n : ℕ) (v : Option ℕ) : State T :=
  { s with node := update s.node n { s.node n with next := v } }

/-- Store `v` into the semaphore of node `n`. -/
def State.setSem (s : State T) (n v : ℕ) : State T :=
  { s with node := update s.node n { s.node n with sem := v } }

/-- `malloc`, `Sem_init(&n->sem, 0)` and `n->next = NULL` on the next number. -/
def State.allocNode (s : State T) : State T :=
  { s with node := update s.node s.fresh ⟨0, none⟩, fresh := s.fresh + 1 }

/-- The queue part of `ns_mutex_acquire`: link node `n` behind the tail, or make it the head if
there is no tail, and move the tail to it. -/
def State.append (s : State T) (n : ℕ) : State T :=
  match s.tail with
  | some l => { s.setNext l (some n) with tail := some n }
  | none => { s with head := some n, tail := some n }

/-- One step of thread `t`; `none` if it is blocked on a semaphore. -/
def step [DecidableEq T] (s : State T) (t : T) : Option (State T) :=
  match s.pc t with
  | .idle => some (s.allocNode.goto t (.acqGuard s.fresh))
  | .acqGuard n =>
      if 0 < s.guard then some ({ s with guard := s.guard - 1 }.goto t (.acqBody n)) else none
  | .acqBody n =>
      if s.locked = 0 then some ({ s with locked := 1 }.goto t (.acqPostFast n))
      else some ((s.append n).goto t (.acqPostSlow n))
  | .acqPostFast n => some ({ s with guard := s.guard + 1 }.goto t (.freeFast n))
  | .freeFast _ => some (s.goto t .critical)
  | .acqPostSlow n => some ({ s with guard := s.guard + 1 }.goto t (.acqWait n))
  | .acqWait n =>
      if 0 < (s.node n).sem then some ((s.setSem n ((s.node n).sem - 1)).goto t (.freeSlow n))
      else none
  | .freeSlow _ => some (s.goto t .critical)
  | .critical => some (s.goto t .relGuard)
  | .relGuard =>
      if 0 < s.guard then some ({ s with guard := s.guard - 1 }.goto t .relBody) else none
  | .relBody =>
      match s.head with
      | none => some ({ s with locked := 0 }.goto t .relPost)
      | some n => some ({ s with head := (s.node n).next }.goto t (.relHand n))
  | .relHand n => some ((s.setSem n ((s.node n).sem + 1)).goto t .relPost)
  | .relPost => some ({ s with guard := s.guard + 1 }.goto t .idle)

/-- The threads of `T` sharing one mutex. -/
def nsMutex (T : Type*) [DecidableEq T] : LTS (State T) T where
  init s := s = nsMutexInit
  step := step

/-! ## What one step can do -/

/-- The transitions of `step`, one constructor for each. -/
inductive Fired [DecidableEq T] (s : State T) (t : T) : State T → Prop
  | alloc : s.pc t = .idle → Fired s t (s.allocNode.goto t (.acqGuard s.fresh))
  | waitGuard {n : ℕ} : s.pc t = .acqGuard n → 0 < s.guard →
      Fired s t ({ s with guard := s.guard - 1 }.goto t (.acqBody n))
  | take {n : ℕ} : s.pc t = .acqBody n → s.locked = 0 →
      Fired s t ({ s with locked := 1 }.goto t (.acqPostFast n))
  | enqueue {n : ℕ} : s.pc t = .acqBody n → s.locked ≠ 0 →
      Fired s t ((s.append n).goto t (.acqPostSlow n))
  | postFast {n : ℕ} : s.pc t = .acqPostFast n →
      Fired s t ({ s with guard := s.guard + 1 }.goto t (.freeFast n))
  | freeFast {n : ℕ} : s.pc t = .freeFast n → Fired s t (s.goto t .critical)
  | postSlow {n : ℕ} : s.pc t = .acqPostSlow n →
      Fired s t ({ s with guard := s.guard + 1 }.goto t (.acqWait n))
  | wake {n : ℕ} : s.pc t = .acqWait n → 0 < (s.node n).sem →
      Fired s t ((s.setSem n ((s.node n).sem - 1)).goto t (.freeSlow n))
  | freeSlow {n : ℕ} : s.pc t = .freeSlow n → Fired s t (s.goto t .critical)
  | release : s.pc t = .critical → Fired s t (s.goto t .relGuard)
  | relWaitGuard : s.pc t = .relGuard → 0 < s.guard →
      Fired s t ({ s with guard := s.guard - 1 }.goto t .relBody)
  | unlock : s.pc t = .relBody → s.head = none →
      Fired s t ({ s with locked := 0 }.goto t .relPost)
  | pop {n : ℕ} : s.pc t = .relBody → s.head = some n →
      Fired s t ({ s with head := (s.node n).next }.goto t (.relHand n))
  | hand {n : ℕ} : s.pc t = .relHand n →
      Fired s t ((s.setSem n ((s.node n).sem + 1)).goto t .relPost)
  | relPost : s.pc t = .relPost → Fired s t ({ s with guard := s.guard + 1 }.goto t .idle)

/-- `Fired` describes every step. -/
theorem fired_of_step [DecidableEq T] {s s' : State T} {t : T} (h : step s t = some s') :
    Fired s t s' := by
  unfold step at h
  cases hpc : s.pc t <;> simp only [hpc] at h
  case idle => cases h; exact .alloc hpc
  case acqGuard n =>
    split at h
    · cases h; exact .waitGuard hpc ‹_›
    · cases h
  case acqBody n =>
    split at h
    · cases h; exact .take hpc ‹_›
    · cases h; exact .enqueue hpc ‹_›
  case acqPostFast n => cases h; exact .postFast hpc
  case freeFast n => cases h; exact .freeFast hpc
  case acqPostSlow n => cases h; exact .postSlow hpc
  case acqWait n =>
    split at h
    · cases h; exact .wake hpc ‹_›
    · cases h
  case freeSlow n => cases h; exact .freeSlow hpc
  case critical => cases h; exact .release hpc
  case relGuard =>
    split at h
    · cases h; exact .relWaitGuard hpc ‹_›
    · cases h
  case relBody =>
    split at h
    · cases h; exact .unlock hpc ‹_›
    · cases h; exact .pop hpc ‹_›
  case relHand n => cases h; exact .hand hpc
  case relPost => cases h; exact .relPost hpc

/-! ## Reading the state after an update -/

section Update

variable (s : State T) (m n v : ℕ)

@[simp] theorem setSem_pc : (s.setSem n v).pc = s.pc := rfl
@[simp] theorem setSem_locked : (s.setSem n v).locked = s.locked := rfl
@[simp] theorem setSem_head : (s.setSem n v).head = s.head := rfl
@[simp] theorem setSem_tail : (s.setSem n v).tail = s.tail := rfl
@[simp] theorem setSem_guard : (s.setSem n v).guard = s.guard := rfl
@[simp] theorem setSem_fresh : (s.setSem n v).fresh = s.fresh := rfl

@[simp] theorem setSem_sem :
    ((s.setSem n v).node m).sem = if m = n then v else (s.node m).sem := by
  by_cases h : m = n
  · subst h; simp [State.setSem]
  · simp [State.setSem, h]

@[simp] theorem setSem_next : ((s.setSem n v).node m).next = (s.node m).next := by
  by_cases h : m = n
  · subst h; simp [State.setSem]
  · simp [State.setSem, h]

@[simp] theorem alloc_pc : s.allocNode.pc = s.pc := rfl
@[simp] theorem alloc_locked : s.allocNode.locked = s.locked := rfl
@[simp] theorem alloc_head : s.allocNode.head = s.head := rfl
@[simp] theorem alloc_tail : s.allocNode.tail = s.tail := rfl
@[simp] theorem alloc_guard : s.allocNode.guard = s.guard := rfl
@[simp] theorem alloc_fresh : s.allocNode.fresh = s.fresh + 1 := rfl

theorem alloc_node {m : ℕ} (h : m < s.fresh) : s.allocNode.node m = s.node m := by
  simp [State.allocNode, Function.update_of_ne (Nat.ne_of_lt h)]

@[simp] theorem alloc_node_fresh : s.allocNode.node s.fresh = ⟨0, none⟩ := by
  simp [State.allocNode]

@[simp] theorem append_pc : (s.append n).pc = s.pc := by
  unfold State.append; split <;> rfl

@[simp] theorem append_locked : (s.append n).locked = s.locked := by
  unfold State.append; split <;> rfl

@[simp] theorem append_guard : (s.append n).guard = s.guard := by
  unfold State.append; split <;> rfl

@[simp] theorem append_fresh : (s.append n).fresh = s.fresh := by
  unfold State.append; split <;> rfl

@[simp] theorem append_tail : (s.append n).tail = some n := by
  unfold State.append; split <;> rfl

@[simp] theorem append_sem : ((s.append n).node m).sem = (s.node m).sem := by
  unfold State.append
  split
  · rename_i l _
    by_cases h : m = l
    · subst h; simp [State.setNext]
    · simp [State.setNext, h]
  · rfl

/-- Joining the queue stores into the link of the old tail only. -/
theorem append_next_of_ne {m : ℕ} (h : s.tail ≠ some m) :
    ((s.append n).node m).next = (s.node m).next := by
  unfold State.append
  split
  · rename_i l hl
    have hne : m ≠ l := fun heq => h (heq ▸ hl)
    simp [State.setNext, hne]
  · rfl

theorem append_next_tail {l : ℕ} (h : s.tail = some l) :
    ((s.append n).node l).next = some n := by
  simp [State.append, h, State.setNext]

theorem append_head_of_tail {l : ℕ} (h : s.tail = some l) : (s.append n).head = s.head := by
  simp [State.append, h, State.setNext]

theorem append_head_of_no_tail (h : s.tail = none) : (s.append n).head = some n := by
  simp [State.append, h]

variable [DecidableEq T] (t u : T) (p : Pc)

@[simp] theorem goto_pc : (s.goto t p).pc u = if u = t then p else s.pc u := by
  simp [State.goto, Function.update_apply]

@[simp] theorem goto_locked : (s.goto t p).locked = s.locked := rfl
@[simp] theorem goto_head : (s.goto t p).head = s.head := rfl
@[simp] theorem goto_tail : (s.goto t p).tail = s.tail := rfl
@[simp] theorem goto_guard : (s.goto t p).guard = s.guard := rfl
@[simp] theorem goto_node : (s.goto t p).node = s.node := rfl
@[simp] theorem goto_fresh : (s.goto t p).fresh = s.fresh := rfl

end Update

end Osvcp.NsMutex
