import Osvcp.Lib.CallSerial
import Osvcp.Vectors.VectorAddCode

/-! # The locked `vector_add` programs are serializable

A call takes effect when it takes its second lock, and the order in which the calls do so is the
order in which they could have run one after the other. The three programs are programs of two-phase
calls, but for the count of the retries, on which nothing depends.
-/

namespace Osvcp.VectorAdd

open Function (update)
open CallProgram (callsOf)

variable {V : Type*} {n : ℕ} [LinearOrder V]

/-- The values after the calls of a list, one after the other. -/
def serial (P : Setup V n) (order : List (Fin n × (V × V))) : V → Values :=
  order.foldl (fun μ c => addAtomic μ c.2) P.values

/-- The calls are of two different vectors, where the program cannot do without. -/
def Setup.Proper (P : Setup V n) : Prop :=
  ∀ t, ∀ p ∈ P.calls t, P.variant = .globalOrder ∨ p.1 ≠ p.2

/-! ## The programs as calls -/

/-- The program without the count of the retries. -/
def Setup.program (P : Setup V n) :
    CallProgram (Fin n) (V × V) (Mutex V) (Act V) (V × V) V (Int32 × Int32) Values where
  acts := vectorActs
  code := P.pass
  retry := P.retry
  calls := P.calls
  reg := (0, 0)
  mem := P.values

/-- A state of it. -/
abbrev ProgramState (V : Type*) (n : ℕ) :=
  CallState (Fin n) (V × V) (Mutex V) (Act V) (V × V) V (Int32 × Int32) Values

/-- The state without the count of the retries. -/
def State.calls (s : State V n) : ProgramState V n where
  todo t := (s.threads t).todo
  code t := (s.threads t).code
  reg t := (s.threads t).operands
  owner := s.owner
  mem := s.values

section Views

variable (s : State V n) (t : Fin n) (c : List (Instr V))

theorem State.owner_perform (a : Act V) : (s.perform t c a).owner = s.owner := by
  cases a <;> rfl

theorem State.values_perform (a : Act V) : (s.perform t c a).values =
    (vectorActs.act a ((s.threads t).operands, s.values)).2 := by
  cases a <;> rfl

/-- After a load or store the thread has `c` left, and as many calls as before. -/
theorem State.threads_perform (a : Act V) : ∃ r old, (s.perform t c a).threads =
    update s.threads t { s.threads t with code := c, operands := r, old := old } ∧
    r = (vectorActs.act a ((s.threads t).operands, s.values)).1 := by
  cases a with
  | readDst v i => exact ⟨_, _, rfl, rfl⟩
  | readSrc v i => exact ⟨_, _, rfl, rfl⟩
  | write v i => exact ⟨_, _, rfl, rfl⟩
  | readRetry => exact ⟨_, _, rfl, rfl⟩
  | writeRetry => exact ⟨_, _, rfl, rfl⟩

omit [LinearOrder V] in
/-- One thread has moved. -/
theorem State.apply_setThread {β : Type*} (f : Thread V → β) (x : Thread V) :
    (fun u => f ((s.setThread t x).threads u)) = update (fun u => f (s.threads u)) t (f x) := by
  funext u
  exact Function.apply_update (fun _ => f) s.threads t x u

omit [LinearOrder V] in
theorem State.calls_setThread (x : Thread V) : (s.setThread t x).calls = { s.calls with
    todo := update s.calls.todo t x.todo
    code := update s.calls.code t x.code
    reg := update s.calls.reg t x.operands } := by
  simp only [State.calls, State.apply_setThread s t Thread.todo,
    State.apply_setThread s t Thread.code, State.apply_setThread s t Thread.operands]
  rfl

omit [LinearOrder V] in
/-- One thread has gone on to other code. -/
theorem State.calls_setCode : (s.setThread t { s.threads t with code := c }).calls =
    { s.calls with code := update s.calls.code t c } := by
  rw [State.calls_setThread]
  have htodo : update s.calls.todo t (s.threads t).todo = s.calls.todo :=
    Function.update_eq_self t s.calls.todo
  have hreg : update s.calls.reg t (s.threads t).operands = s.calls.reg :=
    Function.update_eq_self t s.calls.reg
  simp only [htodo, hreg]

/-- One thread has acted. -/
theorem State.calls_perform (a : Act V) : (s.perform t c a).calls = { s.calls with
    code := update s.calls.code t c
    reg := update s.calls.reg t (vectorActs.act a (s.calls.reg t, s.calls.mem)).1
    mem := (vectorActs.act a (s.calls.reg t, s.calls.mem)).2 } := by
  obtain ⟨r, old, hthreads, rfl⟩ := s.threads_perform t c a
  have hcalls : (s.perform t c a).calls =
      { (s.setThread t { s.threads t with
          code := c
          operands := (vectorActs.act a ((s.threads t).operands, s.values)).1
          old := old }).calls with mem := (s.perform t c a).values } := by
    simp only [State.calls, hthreads, State.owner_perform, State.setThread]
  have htodo : update s.calls.todo t (s.threads t).todo = s.calls.todo :=
    Function.update_eq_self t s.calls.todo
  rw [hcalls, State.calls_setThread, State.values_perform]
  simp only [htodo]
  rfl

end Views

/-- **The steps of the three programs** are those of the calls. -/
theorem step_calls (P : Setup V n) (s : State V n) (t : Fin n) :
    P.program.step s.calls t = (step P s t).map State.calls := by
  have hview : s.calls.code t = (s.threads t).code := rfl
  have hlocked : ∀ m o c, ((s.setOwner m o).setThread t { s.threads t with code := c }).calls =
      { s.calls with owner := update s.calls.owner m o, code := update s.calls.code t c } :=
    fun m o c => (s.setOwner m o).calls_setCode t c
  cases hcode : (s.threads t).code with
  | nil =>
      have htodo : s.calls.todo t = (s.threads t).todo := rfl
      have hreg : update s.calls.reg t (s.threads t).operands = s.calls.reg :=
        Function.update_eq_self t s.calls.reg
      cases h : (s.threads t).todo with
      | nil => simp only [CallProgram.step, step, hview, hcode, htodo, h, Option.map_none]
      | cons p rest =>
          simp only [CallProgram.step, step, hview, hcode, htodo, h, Option.map_some,
            State.calls_setThread, hreg]
          rfl
  | cons i c =>
      cases i with
      | lock m =>
          simp only [CallProgram.step, step, hview, hcode, Option.map_map,
            Function.comp_def, hlocked]
          rfl
      | unlock m => simp only [CallProgram.step, step, hview, hcode, Option.map_some, hlocked]
      | tryLock m k =>
          have howner : s.calls.owner m = s.owner m := rfl
          simp only [CallProgram.step, step, hview, hcode, howner]
          cases mutexLock t (s.owner m) with
          | some o => simp only [Option.map_some, hlocked]
          | none =>
              simp only [Option.map_some, State.calls_setCode]
              rfl
      | act a =>
          simp only [CallProgram.step, step, hview, hcode, Option.map_some, State.calls_perform]
          rfl

/-- The runs are runs of the calls. -/
theorem projection (P : Setup V n) :
    LTS.Projection (vectorThreads P) P.program.threads State.calls where
  init := by
    rintro s rfl
    rfl
  step := step_calls P

/-! ## The calls are two-phase -/

section TwoPhase

variable {P : Setup V n} {s : State V n} {p : V × V} {c : List (Instr V)}

/-- A call begins with its pass, and in `vector-try-wait.c` anew behind a failed `tryLock`. -/
theorem entry_cases (h : P.program.Entry p c) :
    c = P.pass p ∨ c = P.retry p ∧ P.variant = .tryWait := by
  induction h with
  | code => exact Or.inl rfl
  | @retry c m k hc hk ih =>
      rcases ih with rfl | ⟨rfl, hvariant⟩
      · obtain ⟨rfl, hvariant⟩ := label_of_mem_pass hk
        exact Or.inr ⟨rfl, hvariant⟩
      · obtain rfl := label_of_mem_retry hk
        exact Or.inr ⟨rfl, hvariant⟩

theorem callEffect_eq (μ : V → Values) (p : V × V) : P.program.callEffect μ p = addAtomic μ p :=
  effect_pass (0, 0) μ

theorem twoPhase (hP : P.Proper) : P.program.TwoPhase Mutex.vec where
  wellLocked {t p c} hp he := by
    rcases entry_cases he with rfl | ⟨rfl, hvariant⟩
    · exact wellLocked_pass (hP t p hp)
    · exact wellLocked_retry ((hP t p hp).resolve_left (by simp [hvariant]))
  holds_eq _ _ := holds_pass
  acquires _ := acquires_pass
  effect_eq {t p c} _ he r μ := by
    rw [callEffect_eq]
    rcases entry_cases he with rfl | ⟨rfl, -⟩
    · exact effect_pass r μ
    · exact effect_retry r μ

theorem serial_eq (order : List (Fin n × (V × V))) : P.program.serial order = serial P order := by
  simp only [CallProgram.serial, callEffect_eq]
  rfl

/-- Where all threads have returned, the calls have been made in some order. -/
theorem exists_order_of_finished (hP : P.Proper) (hs : (vectorThreads P).Reachable s)
    (hfin : ∀ t, Finished s t) : (∀ m, s.owner m = none) ∧
      ∃ order, (∀ t, callsOf t order = P.calls t) ∧ s.values = serial P order := by
  obtain ⟨⟨order, hcalls, hmem⟩, hfree⟩ :=
    CallProgram.serializable (twoPhase hP) ((projection P).reachable hs) hfin
  exact ⟨hfree, order, hcalls, hmem.trans (serial_eq order)⟩

end TwoPhase

/-- In every run of one of the three programs in which all threads return, the values of all vectors
are those of the calls done one after the other in some order that keeps the order of each thread,
and every lock is free at the end. -/
theorem vector_add_serializable (P : Setup V n) (hne : ∀ t, ∀ p ∈ P.calls t, p.1 ≠ p.2)
    {s : State V n} (hs : (vectorThreads P).Reachable s) (hfin : ∀ t, Finished s t) :
    (∃ order, (∀ t, callsOf t order = P.calls t) ∧ s.values = serial P order) ∧
    ∀ m, s.owner m = none := by
  obtain ⟨hfree, horder⟩ := exists_order_of_finished (fun t p hp => Or.inr (hne t p hp)) hs hfin
  exact ⟨horder, hfree⟩

/-- Two threads add two vectors to each other, with `vector-try-wait.c`. -/
def crossing : Setup ℕ 2 where
  variant := .tryWait
  verbose := false
  calls t := if t.val = 0 then [(0, 1)] else [(1, 0)]
  values v _ := if v = 0 then 0 else 1

/-- Each thread takes its first lock; the first finds the other lock taken, backs off, and is done
after the second. -/
theorem vector_add_serializable_run :
    ∃ s, (vectorThreads crossing).Reachable s ∧ s.retry = 1 ∧
      (∃ order, (∀ t, callsOf t order = crossing.calls t) ∧ s.values = serial crossing order) ∧
      ∀ m, s.owner m = none := by
  obtain ⟨s, hex, hc⟩ := LTS.exec_of_run_any (vectorThreads crossing) (start crossing)
    ([0, 0, 1, 1] ++ List.replicate 4 0 ++ List.replicate 303 1 ++ List.replicate 304 0)
    (fun s => (List.finRange 2).all (fun t => (s.threads t).code.isEmpty &&
      (s.threads t).todo.isEmpty) && s.retry == 1)
    rfl (by decide +kernel)
  simp only [Bool.and_eq_true, List.all_eq_true, List.mem_finRange, true_implies,
    List.isEmpty_iff, beq_iff_eq] at hc
  exact ⟨s, ⟨_, hex⟩, hc.2, vector_add_serializable crossing (by decide) ⟨_, hex⟩ hc.1⟩

end Osvcp.VectorAdd
