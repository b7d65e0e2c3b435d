import Osvcp.Lib.TwoPhase
import Mathlib.Data.List.FinRange
import Mathlib.Order.Defs.LinearOrder
import Mathlib.Order.Fin.Basic

/-! # `vector_add` with locks

Threads add vectors to vectors, and the three programs differ in how `vector_add` takes the two
locks. Each `vector_add` is written out as the list of its instructions; a step of a thread is one
of them, so that other threads can come between any two.
`v_dst->values[i] = v_dst->values[i] + v_src->values[i]` is two reads and a write. Vectors are
compared by their addresses, so the type `V` of vectors is ordered.
-/

namespace Osvcp.VectorAdd

open Function (update)

/-- `VECTOR_SIZE`. -/
def vectorSize : ℕ := 100

/-- The `values` of a `vector_t`. Overflow of an `int` wraps around. -/
abbrev Values := Fin vectorSize → Int32

/-- The mutexes: the `lock` of a vector, `global`, and `print_lock`. -/
inductive Mutex (V : Type*)
  | vec (v : V)
  | global
  | print
  deriving DecidableEq, Repr

/-- Loads and stores, of elements of the two vectors and of `retry`. -/
inductive Act (V : Type*)
  | readDst (v : V) (i : Fin vectorSize)
  | readSrc (v : V) (i : Fin vectorSize)
  | write (v : V) (i : Fin vectorSize)
  | readRetry
  | writeRetry
  deriving DecidableEq, Repr

/-- An instruction. A failed `tryLock` in `vector_add(v_dst, v_src)` has the label
`(v_dst, v_src)`. -/
abbrev Instr (V : Type*) := LockInstr (Mutex V) (Act V) (V × V)

variable {V : Type*} {n : ℕ}

/-! ## The three `vector_add` -/

/-- One pass of the loop over the elements. -/
def addElement (dst src : V) (i : Fin vectorSize) : List (Act V) :=
  [.readDst dst i, .readSrc src i, .write dst i]

/-- The loop over the elements. -/
def addValues {K : Type*} (dst src : V) : List (LockInstr (Mutex V) (Act V) K) :=
  ((List.finRange vectorSize).flatMap (addElement dst src)).map .act

/-- `vector_add` of `vector-global-order.c`. -/
def GlobalOrder.vectorAdd [LinearOrder V] (dst src : V) : List (Instr V) :=
  (if dst < src then [.lock (.vec dst), .lock (.vec src)]
    else if src < dst then [.lock (.vec src), .lock (.vec dst)]
    -- special case: src and dst are the same
    else [.lock (.vec src)]) ++
  addValues dst src ++
  .unlock (.vec src) :: (if dst ≠ src then [.unlock (.vec dst)] else [])

theorem GlobalOrder.vectorAdd_of_lt [LinearOrder V] {dst src : V} (h : dst < src) :
    GlobalOrder.vectorAdd dst src = .lock (.vec dst) :: .lock (.vec src) ::
      (addValues dst src ++ [.unlock (.vec src), .unlock (.vec dst)]) := by
  simp [GlobalOrder.vectorAdd, h, h.ne]

theorem GlobalOrder.vectorAdd_of_gt [LinearOrder V] {dst src : V} (h : src < dst) :
    GlobalOrder.vectorAdd dst src = .lock (.vec src) :: .lock (.vec dst) ::
      (addValues dst src ++ [.unlock (.vec src), .unlock (.vec dst)]) := by
  simp [GlobalOrder.vectorAdd, h, h.ne', h.not_gt]

theorem GlobalOrder.vectorAdd_self [LinearOrder V] (v : V) :
    GlobalOrder.vectorAdd v v = .lock (.vec v) :: (addValues v v ++ [.unlock (.vec v)]) := by
  simp [GlobalOrder.vectorAdd]

/-- `vector_add` of `vector-avoid-hold-and-wait.c`. -/
def AvoidHoldAndWait.vectorAdd (dst src : V) : List (Instr V) :=
  [.lock .global, .lock (.vec dst), .lock (.vec src), .unlock .global] ++
  addValues dst src ++
  [.unlock (.vec dst), .unlock (.vec src)]

/-- `vector_add` of `vector-try-wait.c`, from `top` on. -/
def TryWait.vectorAdd (dst src : V) : List (Instr V) :=
  [.lock (.vec dst), .tryLock (.vec src) (dst, src)] ++
  addValues dst src ++
  [.unlock (.vec dst), .unlock (.vec src)]

/-- What follows a failed `pthread_mutex_trylock`: `retry++`, the unlock, and `goto top`. -/
def TryWait.retry (dst src : V) : List (Instr V) :=
  [.act .readRetry, .act .writeRetry, .unlock (.vec dst)] ++ TryWait.vectorAdd dst src

/-- The three programs. -/
inductive Variant
  | globalOrder
  | avoidHoldAndWait
  | tryWait
  deriving DecidableEq, Repr

def Variant.vectorAdd [LinearOrder V] : Variant → V → V → List (Instr V)
  | .globalOrder => GlobalOrder.vectorAdd
  | .avoidHoldAndWait => AvoidHoldAndWait.vectorAdd
  | .tryWait => TryWait.vectorAdd

/-! ## The threads -/

/-- A program, the flag `verbose`, the calls `vector_add(&v[v0], &v[v1])` each thread makes, and the
values with which it starts. -/
structure Setup (V : Type*) (n : ℕ) where
  variant : Variant
  verbose : Bool
  calls : Fin n → List (V × V)
  values : V → Values

/-- The calls of `worker` in thread `i` of `main`: `loops` times the two vectors of its arguments,
the other way round in every second thread if `cause_deadlock` is set. -/
def workerCalls (enableParallelism causeDeadlock : Bool) (loops i : ℕ) : List (ℕ × ℕ) :=
  let vectors := if enableParallelism then (i * 2, i * 2 + 1) else (0, 1)
  List.replicate loops (if causeDeadlock && i % 2 == 1 then vectors.swap else vectors)

/-- What `main` starts: `num_threads` workers, on vectors that hold their own index in every
element. -/
def mainSetup (variant : Variant) (enableParallelism causeDeadlock verbose : Bool)
    (loops numThreads : ℕ) :
    Setup ℕ numThreads where
  variant := variant
  verbose := verbose
  calls i := workerCalls enableParallelism causeDeadlock loops i
  values v _ := Int32.ofNat v

/-- `main` never adds a vector to itself. -/
theorem ne_of_mem_workerCalls {enableParallelism causeDeadlock : Bool} {loops i : ℕ} {p : ℕ × ℕ}
    (h : p ∈ workerCalls enableParallelism causeDeadlock loops i) : p.1 ≠ p.2 := by
  obtain rfl := List.eq_of_mem_replicate h
  split_ifs <;> simp

/-- The locks of `print_info` of `main-common.c`, where `print` is `print_lock`. -/
def printInfo {M A K : Type*} (print : M) (verbose : Bool) : List (LockInstr M A K) :=
  if verbose then [.lock print, .unlock print] else []

/-- One pass of the loop in `worker` of `main-common.c`, around a `vector_add`. -/
def workerPass {M A K : Type*} (print : M) (verbose : Bool) (vectorAdd : List (LockInstr M A K)) :
    List (LockInstr M A K) :=
  printInfo print verbose ++ (vectorAdd ++ printInfo print verbose)

/-- One pass in one of the three programs. -/
def Setup.pass [LinearOrder V] (P : Setup V n) (p : V × V) : List (Instr V) :=
  workerPass .print P.verbose (P.variant.vectorAdd p.1 p.2)

/-- The rest of the pass after a failed `tryLock`. -/
def Setup.retry (P : Setup V n) (p : V × V) : List (Instr V) :=
  TryWait.retry p.1 p.2 ++ printInfo .print P.verbose

/-- A thread: the calls it has still to begin, what is left of the current pass, the elements it has
read from `v_dst` and `v_src`, and the value it has read from `retry`. -/
structure Thread (V : Type*) where
  todo : List (V × V)
  code : List (Instr V)
  operands : Int32 × Int32
  old : Int32

/-- The threads and what they share. A mutex is its owner. -/
structure State (V : Type*) (n : ℕ) where
  threads : Fin n → Thread V
  owner : Mutex V → Option (Fin n)
  values : V → Values
  retry : Int32

def State.setThread (s : State V n) (t : Fin n) (x : Thread V) : State V n :=
  { s with threads := update s.threads t x }

variable [LinearOrder V]

def State.setOwner (s : State V n) (m : Mutex V) (o : Option (Fin n)) : State V n :=
  { s with owner := update s.owner m o }

/-- Thread `t` loads or stores, and `c` is what it has left to do. -/
def State.perform (s : State V n) (t : Fin n) (c : List (Instr V)) : Act V → State V n
  | .readDst v i => s.setThread t { s.threads t with
      code := c, operands := (s.values v i, (s.threads t).operands.2) }
  | .readSrc v i => s.setThread t { s.threads t with
      code := c, operands := ((s.threads t).operands.1, s.values v i) }
  | .write v i => { s.setThread t { s.threads t with code := c } with
      values := update s.values v
        (update (s.values v) i ((s.threads t).operands.1 + (s.threads t).operands.2)) }
  | .readRetry => s.setThread t { s.threads t with code := c, old := s.retry }
  | .writeRetry =>
      { s.setThread t { s.threads t with code := c } with retry := (s.threads t).old + 1 }

/-- One step of thread `t`; `none` if it is blocked or has returned. -/
def step (P : Setup V n) (s : State V n) (t : Fin n) : Option (State V n) :=
  match (s.threads t).code with
  | [] => match (s.threads t).todo with
    | [] => none
    | p :: rest => some (s.setThread t { s.threads t with todo := rest, code := P.pass p })
  | .lock m :: c => (mutexLock t (s.owner m)).map fun o =>
      (s.setOwner m o).setThread t { s.threads t with code := c }
  | .unlock m :: c => some ((s.setOwner m none).setThread t { s.threads t with code := c })
  | .tryLock m k :: c => match mutexLock t (s.owner m) with
    | some o => some ((s.setOwner m o).setThread t { s.threads t with code := c })
    | none => some (s.setThread t { s.threads t with code := P.retry k })
  | .act a :: c => some (s.perform t c a)

/-- Before any thread has taken a step. -/
def start (P : Setup V n) : State V n where
  threads t := ⟨P.calls t, [], (0, 0), 0⟩
  owner _ := none
  values := P.values
  retry := 0

def vectorThreads (P : Setup V n) : LTS (State V n) (Fin n) where
  init s := s = start P
  step := step P

/-- The thread has returned from `worker`. -/
def Finished (s : State V n) (t : Fin n) : Prop := (s.threads t).code = [] ∧ (s.threads t).todo = []

/-- The thread waits for a mutex that somebody owns. -/
def Blocked (s : State V n) (t : Fin n) : Prop :=
  ∃ m c, (s.threads t).code = .lock m :: c ∧ s.owner m ≠ none

/-! ## What one step does -/

section Step

variable {P : Setup V n} {s s' : State V n} {t : Fin n}

/-- A thread begins its next call, takes a free lock, gives a lock back, finds the second lock
taken, or loads or stores. -/
theorem step_cases (h : step P s t = some s') :
    (∃ p rest, (s.threads t).code = [] ∧ (s.threads t).todo = p :: rest ∧
      s' = s.setThread t { s.threads t with todo := rest, code := P.pass p }) ∨
    (∃ i m c, (s.threads t).code = i :: c ∧ i.Takes m ∧ s.owner m = none ∧
      s' = (s.setOwner m (some t)).setThread t { s.threads t with code := c }) ∨
    (∃ m c, (s.threads t).code = .unlock m :: c ∧
      s' = (s.setOwner m none).setThread t { s.threads t with code := c }) ∨
    (∃ m k c, (s.threads t).code = .tryLock m k :: c ∧
      s' = s.setThread t { s.threads t with code := P.retry k }) ∨
    ∃ a c, (s.threads t).code = .act a :: c ∧ s' = s.perform t c a := by
  unfold step at h
  split at h
  · rename_i hcode
    split at h
    · exact absurd h (by simp)
    · rename_i p rest htodo
      exact Or.inl ⟨p, rest, hcode, htodo, (Option.some.inj h).symm⟩
  · rename_i m c hcode
    obtain ⟨o, ho, rfl⟩ := Option.map_eq_some_iff.mp h
    obtain ⟨hfree, rfl⟩ := mutexLock_eq_some.mp ho
    exact Or.inr (Or.inl ⟨.lock m, m, c, hcode, rfl, hfree, rfl⟩)
  · rename_i m c hcode
    exact Or.inr (Or.inr (Or.inl ⟨m, c, hcode, (Option.some.inj h).symm⟩))
  · rename_i m k c hcode
    split at h
    · rename_i o ho
      obtain ⟨hfree, rfl⟩ := mutexLock_eq_some.mp ho
      exact Or.inr (Or.inl ⟨.tryLock m k, m, c, hcode, rfl, hfree, (Option.some.inj h).symm⟩)
    · exact Or.inr (Or.inr (Or.inr (Or.inl ⟨m, k, c, hcode, (Option.some.inj h).symm⟩)))
  · rename_i a c hcode
    exact Or.inr (Or.inr (Or.inr (Or.inr ⟨a, c, hcode, (Option.some.inj h).symm⟩)))

/-- A thread that has not returned and cannot take a step waits for a mutex. -/
theorem step_eq_none_iff (hfin : ¬ Finished s t) : step P s t = none ↔ Blocked s t := by
  cases hcode : (s.threads t).code with
  | nil =>
      cases htodo : (s.threads t).todo with
      | nil => exact absurd ⟨hcode, htodo⟩ hfin
      | cons p rest => simp [step, Blocked, hcode, htodo]
  | cons i c =>
      cases i with
      | lock m => simp [step, Blocked, hcode]
      | unlock m => simp [step, Blocked, hcode]
      | tryLock m k => cases ho : mutexLock t (s.owner m) <;> simp [step, Blocked, hcode, ho]
      | act a => simp [step, Blocked, hcode]

end Step

end Osvcp.VectorAdd
