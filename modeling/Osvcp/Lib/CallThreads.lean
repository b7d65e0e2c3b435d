import Osvcp.Lib.TwoPhase
import Osvcp.Lib.Termination
import Mathlib.Algebra.BigOperators.Group.List.Basic
import Mathlib.Data.List.Infix

/-! # Threads that make calls

Each thread makes the calls of a list one after the other, and the code of a call is straight-line
code over mutexes and shared data, with other code to go on with where a `tryLock` fails. A step is
one instruction of one thread. Three results are proved about these programs:

* every step but a failed `tryLock` is one instruction less (`measure_step`);
* if what a thread holds where it waits is of lower rank than what it waits for, there is no
  deadlock (`not_deadlocked_of_rank`);
* threads that wait for each other in a circle do so forever (`exists_deadlocked`).
-/

namespace Osvcp

open Function (update)

/-- What the actions do, the code of each call and of each label of a failed `tryLock`, the calls of
each thread, and the registers and the memory with which the threads start. -/
structure CallProgram (ι C M A K L ρ β : Type*) where
  acts : DataActs A L ρ β
  code : C → List (LockInstr M A K)
  retry : K → List (LockInstr M A K)
  calls : ι → List C
  reg : ρ
  mem : L → β

/-- For each thread the calls it has still to begin, what is left of the current one, and its
registers; and the shared mutexes and memory. -/
structure CallState (ι C M A K L ρ β : Type*) where
  todo : ι → List C
  code : ι → List (LockInstr M A K)
  reg : ι → ρ
  owner : M → Option ι
  mem : L → β

namespace CallProgram

variable {ι C M A K L ρ β : Type*} [DecidableEq ι] [DecidableEq M]

/-- One step of thread `t`; `none` if it is blocked or has returned. -/
def step (P : CallProgram ι C M A K L ρ β) (s : CallState ι C M A K L ρ β) (t : ι) :
    Option (CallState ι C M A K L ρ β) :=
  match s.code t with
  | [] => match s.todo t with
    | [] => none
    | p :: rest => some { s with todo := update s.todo t rest, code := update s.code t (P.code p) }
  | .lock m :: c => (mutexLock t (s.owner m)).map fun o =>
      { s with owner := update s.owner m o, code := update s.code t c }
  | .unlock m :: c => some { s with owner := update s.owner m none, code := update s.code t c }
  | .tryLock m k :: c => match mutexLock t (s.owner m) with
    | some o => some { s with owner := update s.owner m o, code := update s.code t c }
    | none => some { s with code := update s.code t (P.retry k) }
  | .act a :: c => some { s with
      code := update s.code t c
      reg := update s.reg t (P.acts.act a (s.reg t, s.mem)).1
      mem := (P.acts.act a (s.reg t, s.mem)).2 }

/-- Before any thread has taken a step. -/
def start (P : CallProgram ι C M A K L ρ β) : CallState ι C M A K L ρ β where
  todo := P.calls
  code _ := []
  reg _ := P.reg
  owner _ := none
  mem := P.mem

def threads (P : CallProgram ι C M A K L ρ β) : LTS (CallState ι C M A K L ρ β) ι where
  init s := s = P.start
  step := P.step

end CallProgram

namespace CallState

variable {ι C M A K L ρ β : Type*}

/-- The thread has made all its calls. -/
def Finished (s : CallState ι C M A K L ρ β) (t : ι) : Prop := s.code t = [] ∧ s.todo t = []

/-- The thread waits for a mutex that somebody owns. -/
def Blocked (s : CallState ι C M A K L ρ β) (t : ι) : Prop :=
  ∃ m c, s.code t = .lock m :: c ∧ s.owner m ≠ none

/-- A `tryLock` the thread comes to finds the mutex free. -/
def NoFailedTryLock (s : CallState ι C M A K L ρ β) (t : ι) : Prop :=
  ∀ m k c, s.code t = .tryLock m k :: c → s.owner m = none

theorem noFailedTryLock_of_isEmpty [IsEmpty K] (s : CallState ι C M A K L ρ β) (t : ι) :
    s.NoFailedTryLock t :=
  fun _ k => isEmptyElim k

end CallState

namespace CallProgram

variable {ι C M A K L ρ β : Type*} [DecidableEq ι] [DecidableEq M] {P : CallProgram ι C M A K L ρ β}
  {s s' : CallState ι C M A K L ρ β} {t : ι}

/-! ## What one step does -/

/-- A thread begins its next call, takes a free lock, gives a lock back, finds a `tryLock` taken, or
acts on the memory. -/
theorem step_cases (h : P.step s t = some s') :
    (∃ p rest, s.code t = [] ∧ s.todo t = p :: rest ∧
      s' = { s with todo := update s.todo t rest, code := update s.code t (P.code p) }) ∨
    (∃ i m c, s.code t = i :: c ∧ i.Takes m ∧ s.owner m = none ∧
      s' = { s with owner := update s.owner m (some t), code := update s.code t c }) ∨
    (∃ m c, s.code t = .unlock m :: c ∧
      s' = { s with owner := update s.owner m none, code := update s.code t c }) ∨
    (∃ m k c, s.code t = .tryLock m k :: c ∧ s.owner m ≠ none ∧
      s' = { s with code := update s.code t (P.retry k) }) ∨
    ∃ a c, s.code t = .act a :: c ∧
      s' = { s with
        code := update s.code t c
        reg := update s.reg t (P.acts.act a (s.reg t, s.mem)).1
        mem := (P.acts.act a (s.reg t, s.mem)).2 } := by
  unfold step at h
  split at h
  · rename_i hcode
    split at h
    · exact absurd h (by simp)
    · rename_i p rest htodo
      exact Or.inl ⟨p, rest, hcode, htodo, (Option.some.inj h).symm⟩
  · rename_i m c hcode
    obtain ⟨o, ho, rfl⟩ := Option.map_eq_some_iff.mp h
    obtain ⟨hfree, rfl⟩ := mutexLock_eq_some.mp ho
    exact Or.inr (Or.inl ⟨.lock m, m, c, hcode, rfl, hfree, rfl⟩)
  · rename_i m c hcode
    exact Or.inr (Or.inr (Or.inl ⟨m, c, hcode, (Option.some.inj h).symm⟩))
  · rename_i m k c hcode
    split at h
    · rename_i o ho
      obtain ⟨hfree, rfl⟩ := mutexLock_eq_some.mp ho
      exact Or.inr (Or.inl ⟨.tryLock m k, m, c, hcode, rfl, hfree, (Option.some.inj h).symm⟩)
    · rename_i ho
      refine Or.inr (Or.inr (Or.inr (Or.inl ⟨m, k, c, hcode, mutexLock_eq_none.mp ho, ?_⟩)))
      exact (Option.some.inj h).symm
  · rename_i a c hcode
    exact Or.inr (Or.inr (Or.inr (Or.inr ⟨a, c, hcode, (Option.some.inj h).symm⟩)))

/-- Without a `tryLock` a thread begins its next call, takes a free lock, gives a lock back, or acts
on the memory. -/
theorem step_cases_of_isEmpty [IsEmpty K] (h : P.step s t = some s') :
    (∃ p rest, s.code t = [] ∧ s.todo t = p :: rest ∧
      s' = { s with todo := update s.todo t rest, code := update s.code t (P.code p) }) ∨
    (∃ m c, s.code t = .lock m :: c ∧ s.owner m = none ∧
      s' = { s with owner := update s.owner m (some t), code := update s.code t c }) ∨
    (∃ m c, s.code t = .unlock m :: c ∧
      s' = { s with owner := update s.owner m none, code := update s.code t c }) ∨
    ∃ a c, s.code t = .act a :: c ∧
      s' = { s with
        code := update s.code t c
        reg := update s.reg t (P.acts.act a (s.reg t, s.mem)).1
        mem := (P.acts.act a (s.reg t, s.mem)).2 } := by
  rcases step_cases h with hbegin | ⟨i, m, c, hcode, hi, hfree, hs'⟩ | hunlock | ⟨m, k, -⟩ | hact
  · exact Or.inl hbegin
  · cases i with
    | lock m' =>
        obtain rfl : m' = m := hi
        exact Or.inr (Or.inl ⟨m', c, hcode, hfree, hs'⟩)
    | tryLock m' k => exact isEmptyElim k
    | unlock m' => exact hi.elim
    | act a => exact hi.elim
  · exact Or.inr (Or.inr (Or.inl hunlock))
  · exact isEmptyElim k
  · exact Or.inr (Or.inr (Or.inr hact))

/-- A thread that has not returned and cannot take a step waits for a mutex that somebody owns. -/
theorem step_eq_none_iff (hfin : ¬ s.Finished t) : P.step s t = none ↔ s.Blocked t := by
  cases hcode : s.code t with
  | nil =>
      cases htodo : s.todo t with
      | nil => exact absurd ⟨hcode, htodo⟩ hfin
      | cons p rest => simp [step, CallState.Blocked, hcode, htodo]
  | cons i c =>
      cases i with
      | lock m => simp [step, CallState.Blocked, hcode]
      | unlock m => simp [step, CallState.Blocked, hcode]
      | tryLock m k =>
          cases ho : mutexLock t (s.owner m) <;> simp [step, CallState.Blocked, hcode, ho]
      | act a => simp [step, CallState.Blocked, hcode]

/-- Where threads deadlock, each that has not returned waits for a mutex. -/
theorem deadlocked_iff : P.threads.Deadlocked CallState.Finished s ↔
    (∃ t, ¬ s.Finished t) ∧ ∀ t, ¬ s.Finished t → s.Blocked t :=
  and_congr_right fun _ => forall_congr' fun _ => forall_congr' fun ht => step_eq_none_iff ht

/-! ## Where a thread stands -/

/-- The code with which a thread can start in the call `p`: that of the call, or that of a label it
can come to. -/
inductive Entry (P : CallProgram ι C M A K L ρ β) (p : C) : List (LockInstr M A K) → Prop
  | code : Entry P p (P.code p)
  | retry {c : List (LockInstr M A K)} {m : M} {k : K} (hc : Entry P p c) (hk : .tryLock m k ∈ c) :
      Entry P p (P.retry k)

omit [DecidableEq ι] [DecidableEq M] in
/-- Without a `tryLock` there is only the code of the call. -/
theorem Entry.eq_code [IsEmpty K] {p : C} {c : List (LockInstr M A K)} (h : P.Entry p c) :
    c = P.code p := by
  cases h with
  | code => rfl
  | @retry _ _ k _ _ => exact isEmptyElim k

/-- A thread has a rest of one of its calls left, and makes its own calls. -/
structure StandsIn (P : CallProgram ι C M A K L ρ β) (s : CallState ι C M A K L ρ β)
    (t : ι) : Prop where
  rest : s.code t = [] ∨ ∃ p ∈ P.calls t, ∃ e, P.Entry p e ∧ s.code t <:+ e
  subset : s.todo t ⊆ P.calls t

omit [DecidableEq M] in
/-- Only the thread that takes the step has to be looked at. -/
theorem StandsIn.move (h : ∀ u, P.StandsIn s u) {c : List (LockInstr M A K)} {todo : ι → List C}
    {reg : ι → ρ} {owner : M → Option ι} {mem : L → β}
    (hc : c = [] ∨ ∃ p ∈ P.calls t, ∃ e, P.Entry p e ∧ c <:+ e)
    (htodo : ∀ u, todo u ⊆ P.calls u) (u : ι) :
    P.StandsIn ⟨todo, update s.code t c, reg, owner, mem⟩ u := by
  refine ⟨?_, htodo u⟩
  by_cases hu : u = t
  · subst hu
    simp only [Function.update_self]
    exact hc
  · simp only [Function.update_of_ne hu]
    exact (h u).rest

theorem StandsIn.step (hI : ∀ u, P.StandsIn s u) (h : P.step s t = some s') (u : ι) :
    P.StandsIn s' u := by
  have htail : ∀ {i c}, s.code t = i :: c → c = [] ∨ ∃ p ∈ P.calls t, ∃ e, P.Entry p e ∧
      c <:+ e := by
    intro i c hcode
    rcases (hI t).rest with hnil | ⟨p, hp, e, he, hsuffix⟩
    · rw [hcode] at hnil
      exact absurd hnil (List.cons_ne_nil _ _)
    · rw [hcode] at hsuffix
      exact Or.inr ⟨p, hp, e, he, (List.suffix_cons i c).trans hsuffix⟩
  have hsubset := fun u => (hI u).subset
  rcases step_cases h with ⟨p, rest, -, htodo, rfl⟩ | ⟨i, m, c, hcode, -, -, rfl⟩ |
    ⟨m, c, hcode, rfl⟩ | ⟨m, k, c, hcode, -, rfl⟩ | ⟨a, c, hcode, rfl⟩
  · have hp : p ∈ P.calls t := hsubset t (by simp [htodo])
    refine StandsIn.move hI (Or.inr ⟨p, hp, _, .code, List.suffix_refl _⟩) (fun v => ?_) u
    by_cases hv : v = t
    · subst hv
      rw [Function.update_self]
      exact fun q hq => hsubset v (by simp [htodo, hq])
    · rw [Function.update_of_ne hv]
      exact hsubset v
  · exact StandsIn.move hI (htail hcode) hsubset u
  · exact StandsIn.move hI (htail hcode) hsubset u
  · rcases (hI t).rest with hnil | ⟨p, hp, e, he, hsuffix⟩
    · rw [hcode] at hnil
      exact absurd hnil (List.cons_ne_nil _ _)
    · have hk : .tryLock m k ∈ e := hsuffix.subset (hcode ▸ List.mem_cons_self)
      exact StandsIn.move hI (Or.inr ⟨p, hp, _, he.retry hk, List.suffix_refl _⟩) hsubset u
  · exact StandsIn.move hI (htail hcode) hsubset u

theorem standsIn_of_reachable (hs : P.threads.Reachable s) (t : ι) : P.StandsIn s t := by
  refine hs.invariant (I := fun s => ∀ t, P.StandsIn s t) ?_
    (fun s t s' hI h => StandsIn.step hI h) t
  rintro s rfl
  exact fun t => ⟨Or.inl rfl, List.Subset.refl _⟩

/-- **What holds of all code the calls start with, and of what is left of it**, holds of the code of
every thread. -/
theorem code_of_reachable {Q : List (LockInstr M A K) → Prop} (hs : P.threads.Reachable s) (t : ι)
    (hnil : Q []) (htail : ∀ i c, Q (i :: c) → Q c)
    (hentry : ∀ p ∈ P.calls t, ∀ e, P.Entry p e → Q e) :
    Q (s.code t) := by
  rcases (standsIn_of_reachable hs t).rest with hcode | ⟨p, hp, e, he, front, happ⟩
  · rw [hcode]
    exact hnil
  · have hQ := hentry p hp e he
    rw [← happ] at hQ
    clear happ he
    induction front with
    | nil => exact hQ
    | cons i front ih => exact ih (htail i _ hQ)

/-! ## Runs of one thread -/

section Alone

variable {c : List (LockInstr M A K)} {m : M}

theorem step_begin {p : C} {rest : List C} (hcode : s.code t = []) (htodo : s.todo t = p :: rest) :
    P.step s t =
      some { s with todo := update s.todo t rest, code := update s.code t (P.code p) } := by
  simp [step, hcode, htodo]

theorem step_lock (hcode : s.code t = .lock m :: c) (hfree : s.owner m = none) :
    P.step s t = some { s with owner := update s.owner m (some t), code := update s.code t c } := by
  simp [step, hcode, hfree, mutexLock]

theorem step_unlock (hcode : s.code t = .unlock m :: c) :
    P.step s t = some { s with owner := update s.owner m none, code := update s.code t c } := by
  simp [step, hcode]

/-- A thread does a block of actions. -/
theorem run_acts {as : List A} (hcode : s.code t = as.map .act ++ c) :
    P.threads.run s (List.replicate as.length t) = some { s with
      code := update s.code t c
      reg := update s.reg t (as.foldl (fun v a => P.acts.act a v) (s.reg t, s.mem)).1
      mem := (as.foldl (fun v a => P.acts.act a v) (s.reg t, s.mem)).2 } := by
  induction as generalizing s with
  | nil =>
      simp only [List.map_nil, List.nil_append] at hcode
      simp only [List.length_nil, List.replicate_zero, LTS.run, List.foldl_nil,
        Function.update_eq_self]
      rw [← hcode, Function.update_eq_self]
  | cons a as ih =>
      have hstep : P.step s t = some { s with
          code := update s.code t (as.map .act ++ c)
          reg := update s.reg t (P.acts.act a (s.reg t, s.mem)).1
          mem := (P.acts.act a (s.reg t, s.mem)).2 } := by
        simp [step, hcode]
      rw [List.length_cons, List.replicate_succ, LTS.run]
      change (P.step s t).bind _ = _
      rw [hstep, Option.bind_some, ih (Function.update_self ..)]
      simp

end Alone

/-! ## Every step but a failed `tryLock` is one instruction less -/

/-- The instructions of a call, and one step to begin it. -/
def callLength (P : CallProgram ι C M A K L ρ β) (p : C) : ℕ := (P.code p).length + 1

/-- The steps a thread has still to take. -/
def threadMeasure (P : CallProgram ι C M A K L ρ β) (todo : List C)
    (code : List (LockInstr M A K)) : ℕ :=
  code.length + (todo.map P.callLength).sum

section Measure

variable {ι C M A K L ρ β : Type*} [Fintype ι] {P : CallProgram ι C M A K L ρ β}
  {s s' : CallState ι C M A K L ρ β} {t : ι}

/-- The steps all threads have still to take, if no `tryLock` fails. -/
def measure (P : CallProgram ι C M A K L ρ β) (s : CallState ι C M A K L ρ β) : ℕ :=
  ∑ t, P.threadMeasure (s.todo t) (s.code t)

/-- The steps of a whole run. -/
def runLength (P : CallProgram ι C M A K L ρ β) : ℕ := ∑ t, ((P.calls t).map P.callLength).sum

theorem measure_start : P.measure P.start = P.runLength := by
  simp [measure, threadMeasure, runLength, start]

/-- Only the thread that takes the step has to be looked at. -/
theorem measure_of_thread (hother : ∀ u, u ≠ t → s'.todo u = s.todo u ∧ s'.code u = s.code u)
    (ht : P.threadMeasure (s'.todo t) (s'.code t) + 1 = P.threadMeasure (s.todo t) (s.code t)) :
    P.measure s' + 1 = P.measure s := by
  have hsum := sum_add_of_eq_off (fun u => P.threadMeasure (s.todo u) (s.code u))
    (fun u => P.threadMeasure (s'.todo u) (s'.code u)) (i := t) fun u hu => by
      rw [(hother u hu).1, (hother u hu).2]
  rw [← ht] at hsum
  unfold measure
  omega

variable [DecidableEq ι] [DecidableEq M]

/-- **Every step counts**, unless it is a failed `tryLock`. -/
theorem measure_step (hno : s.NoFailedTryLock t) (h : P.step s t = some s') :
    P.measure s' + 1 = P.measure s := by
  rcases step_cases h with ⟨p, rest, hcode, htodo, rfl⟩ | ⟨i, m, c, hcode, -, -, rfl⟩ |
    ⟨m, c, hcode, rfl⟩ | ⟨m, k, c, hcode, howned, -⟩ | ⟨a, c, hcode, rfl⟩
  · refine measure_of_thread (t := t)
      (fun u hu => ⟨Function.update_of_ne hu .., Function.update_of_ne hu ..⟩) ?_
    simp only [threadMeasure, Function.update_self, hcode, htodo, callLength, List.map_cons,
      List.sum_cons, List.length_nil]
    omega
  · refine measure_of_thread (t := t) (fun u hu => ⟨rfl, Function.update_of_ne hu ..⟩) ?_
    simp only [threadMeasure, Function.update_self, hcode, List.length_cons]
    omega
  · refine measure_of_thread (t := t) (fun u hu => ⟨rfl, Function.update_of_ne hu ..⟩) ?_
    simp only [threadMeasure, Function.update_self, hcode, List.length_cons]
    omega
  · exact absurd (hno m k c hcode) howned
  · refine measure_of_thread (t := t) (fun u hu => ⟨rfl, Function.update_of_ne hu ..⟩) ?_
    simp only [threadMeasure, Function.update_self, hcode, List.length_cons]
    omega

/-- If no `tryLock` fails, no run has more steps than the calls have instructions. -/
theorem terminates_of_stuck {Q : CallState ι C M A K L ρ β → Prop}
    (hno : ∀ s, P.threads.Reachable s → ∀ t, s.NoFailedTryLock t)
    (hstuck : ∀ s, P.threads.Reachable s → (∀ t, P.step s t = none) → Q s) :
    P.threads.Terminates P.runLength Q := by
  refine LTS.terminates_of_measure P.measure ?_ ?_ hstuck
  · rintro s rfl
    exact measure_start.le
  · intro s t s' hs h
    have hstep := measure_step (hno s hs t) h
    omega

/-- Where threads without a deadlock cannot go on, they have returned. -/
theorem terminates {Q : CallState ι C M A K L ρ β → Prop}
    (hno : ∀ s, P.threads.Reachable s → ∀ t, s.NoFailedTryLock t)
    (hlive : ∀ s, P.threads.Reachable s → ¬ P.threads.Deadlocked CallState.Finished s)
    (hfin : ∀ s, P.threads.Reachable s → (∀ t, s.Finished t) → Q s) :
    P.threads.Terminates P.runLength Q :=
  terminates_of_stuck hno fun s hs hnone => hfin s hs (LTS.finished_of_stuck (hlive s hs) hnone)

end Measure

/-! ## Who owns what -/

/-- Locks and unlocks alternate, also where a `tryLock` fails. -/
def Alternates (label : K → List (LockInstr M A K)) : List (LockInstr M A K) → Prop
  | [] => True
  | .lock m :: c => holds m c = true ∧ Alternates label c
  | .unlock m :: c => holds m c = false ∧ Alternates label c
  | .tryLock m k :: c => holds m c = true ∧
      (∀ m', holds m' (label k) = (!decide (m = m') && holds m' c)) ∧ Alternates label c
  | .act _ :: c => Alternates label c

omit [DecidableEq ι] in
theorem Alternates.tail {label : K → List (LockInstr M A K)} (i : LockInstr M A K)
    (c : List (LockInstr M A K)) (h : Alternates label (i :: c)) : Alternates label c := by
  cases i with
  | lock m => exact h.2
  | unlock m => exact h.2
  | tryLock m k => exact h.2.2
  | act a => exact h

omit [DecidableEq ι] in
theorem Alternates.holds_of_takes {label : K → List (LockInstr M A K)} {i : LockInstr M A K} {m : M}
    {c : List (LockInstr M A K)} (h : Alternates label (i :: c)) (hi : i.Takes m) :
    holds m c = true := by
  cases i with
  | lock m' =>
      obtain rfl : m' = m := hi
      exact h.1
  | tryLock m' k =>
      obtain rfl : m' = m := hi
      exact h.1
  | unlock m' => exact hi.elim
  | act a => exact hi.elim

omit [DecidableEq ι] in
theorem alternates_acts {label : K → List (LockInstr M A K)} {as : List A}
    {c : List (LockInstr M A K)} (hc : Alternates label c) :
    Alternates label (as.map .act ++ c) := by
  induction as with
  | nil => exact hc
  | cons a as ih => exact ih

/-- The code of the calls that are made gives back what it takes. -/
structure Balanced (P : CallProgram ι C M A K L ρ β) : Prop where
  alternates : ∀ {t p c}, p ∈ P.calls t → P.Entry p c → Alternates P.retry c
  holds_eq : ∀ {t p}, p ∈ P.calls t → ∀ m, holds m (P.code p) = false

theorem alternates_of_reachable (hP : P.Balanced) (hs : P.threads.Reachable s) (t : ι) :
    Alternates P.retry (s.code t) :=
  code_of_reachable hs t trivial Alternates.tail fun _ hp _ he => hP.alternates hp he

/-- The owners after one thread has moved to the code `c`. -/
theorem owner_iff_move (hI : ∀ m u, s.owner m = some u ↔ holds m (s.code u) = true)
    {c : List (LockInstr M A K)} {owner : M → Option ι}
    (hlock : ∀ m, LockStep t (s.owner m) (owner m) (holds m (s.code t) = true) (holds m c = true))
    (m : M) (u : ι) : owner m = some u ↔ holds m (update s.code t c u) = true := by
  have hstep : LockStep t (s.owner m) (owner m) (holds m (s.code t) = true)
      (holds m (update s.code t c t) = true) := by
    rw [Function.update_self]
    exact hlock m
  exact @LockStep.owner_iff _ t _ _ (fun u => holds m (s.code u) = true)
    (fun u => holds m (update s.code t c u) = true) hstep (hI m)
    (fun v hv => by rw [Function.update_of_ne hv]) u

theorem owner_iff_step (hP : P.Balanced) (hs : P.threads.Reachable s)
    (hI : ∀ m u, s.owner m = some u ↔ holds m (s.code u) = true) (h : P.step s t = some s')
    (m : M) (u : ι) :
    s'.owner m = some u ↔ holds m (s'.code u) = true := by
  have halt := alternates_of_reachable hP hs t
  rcases step_cases h with ⟨p, rest, hcode, htodo, rfl⟩ | ⟨i, m₀, c, hcode, hi, hfree, rfl⟩ |
    ⟨m₀, c, hcode, rfl⟩ | ⟨m₀, k, c, hcode, -, rfl⟩ | ⟨a, c, hcode, rfl⟩
  · have hp : p ∈ P.calls t := (standsIn_of_reachable hs t).subset (by simp [htodo])
    refine owner_iff_move hI (fun m' => Or.inl ⟨rfl, ?_⟩) m u
    rw [hP.holds_eq hp, hcode, holds_nil]
  · rw [hcode] at halt
    refine owner_iff_move hI (fun m' => ?_) m u
    by_cases hm : m' = m₀
    · subst hm
      exact Or.inr (Or.inl ⟨hfree, Function.update_self .., halt.holds_of_takes hi⟩)
    · rw [hcode, hi.holds_of_ne hm]
      exact Or.inl ⟨Function.update_of_ne hm .., Iff.rfl⟩
  · rw [hcode] at halt
    refine owner_iff_move hI (fun m' => ?_) m u
    by_cases hm : m' = m₀
    · subst hm
      exact Or.inr (Or.inr ⟨by simp [hcode], Function.update_self .., by simp [halt.1]⟩)
    · exact Or.inl ⟨Function.update_of_ne hm .., by simp [hcode, Ne.symm hm]⟩
  · -- the code of the label holds what the thread holds where the `tryLock` fails
    rw [hcode] at halt
    refine owner_iff_move hI (fun m' => Or.inl ⟨rfl, ?_⟩) m u
    rw [hcode, halt.2.1 m', holds_tryLock]
  · exact owner_iff_move hI (fun m' => Or.inl ⟨rfl, by simp [hcode]⟩) m u

/-- **Owners.** A mutex is with the thread whose code has still to unlock it. -/
theorem owner_iff_of_reachable (hP : P.Balanced) (hs : P.threads.Reachable s) (m : M) (t : ι) :
    s.owner m = some t ↔ holds m (s.code t) = true := by
  have hinv : P.threads.Reachable s ∧ ∀ m u, s.owner m = some u ↔ holds m (s.code u) = true := by
    refine hs.invariant (I := fun s => P.threads.Reachable s ∧ ∀ m u, s.owner m = some u ↔
      holds m (s.code u) = true) ?_ ?_
    · rintro s rfl
      exact ⟨⟨[], .start rfl⟩, fun m u => by simp [start]⟩
    · rintro s t s' ⟨hs, hI⟩ h
      exact ⟨hs.snoc h, owner_iff_step hP hs hI h⟩
  exact hinv.2 m t

/-- A blocked thread waits for a mutex that another thread, which has not returned, holds. -/
theorem holder_of_blocked (hP : P.Balanced) (hs : P.threads.Reachable s) (hb : s.Blocked t) :
    ∃ m c u, s.code t = .lock m :: c ∧ u ≠ t ∧ ¬ s.Finished u ∧ holds m (s.code u) = true := by
  obtain ⟨m, c, hcode, howned⟩ := hb
  obtain ⟨u, hu⟩ := Option.ne_none_iff_exists'.mp howned
  have hholds := (owner_iff_of_reachable hP hs m u).mp hu
  refine ⟨m, c, u, hcode, ?_, ?_, hholds⟩
  · rintro rfl
    rw [hcode] at hholds
    simp at hholds
  · intro hfin
    rw [hfin.1] at hholds
    exact absurd hholds Bool.false_ne_true

/-! ## No deadlock by rank -/

/-- Where a thread waits for `m`, what it holds is of lower rank. -/
def Ascending {α : Type*} [LT α] (rank : M → α) (m : M) (c : List (LockInstr M A K)) : Prop :=
  ∀ m', holds m' (.lock m :: c) = true → rank m' < rank m

omit [DecidableEq ι] in
theorem ascending_of_free {α : Type*} [LT α] {rank : M → α} {m : M} {c : List (LockInstr M A K)}
    (h : ∀ m', holds m' (.lock m :: c) = false) : Ascending rank m c := by
  intro m' hm'
  rw [h m'] at hm'
  exact absurd hm' Bool.false_ne_true

theorem everyWait_of_reachable {R : M → List (LockInstr M A K) → Prop}
    (hwait : ∀ t, ∀ p ∈ P.calls t, ∀ e, P.Entry p e → EveryWait R e)
    (hs : P.threads.Reachable s) (t : ι) :
    EveryWait R (s.code t) :=
  code_of_reachable hs t trivial (fun _ _ => EveryWait.tail) (hwait t)

/-- **No deadlock by rank.** -/
theorem not_deadlocked_of_rank {α : Type*} [Finite ι] [Preorder α] (rank : M → α) (hP : P.Balanced)
    (hwait : ∀ t, ∀ p ∈ P.calls t, ∀ e, P.Entry p e → EveryWait (Ascending rank) e)
    (hs : P.threads.Reachable s) : ¬ P.threads.Deadlocked CallState.Finished s := by
  have hall := everyWait_of_reachable hwait hs
  rw [deadlocked_iff]
  intro hdead
  -- of the threads that have not returned, one waits for a mutex of the highest rank
  have : Nonempty M := by
    obtain ⟨⟨t, ht⟩, hblocked⟩ := hdead
    obtain ⟨m, -⟩ := hblocked t ht
    exact ⟨m⟩
  choose! awaited rest hcode howned using hdead.2
  have hno : ¬ ((∃ t, ¬ s.Finished t) ∧ ∀ t, ¬ s.Finished t → ¬ s.Finished t) := by
    refine not_all_blocked_of_rank (fun t => rank (awaited t)) fun t ht _ => ?_
    obtain ⟨m, c, u, hm, -, hu, hholds⟩ := holder_of_blocked hP hs ⟨_, _, hcode t ht, howned t ht⟩
    obtain rfl : awaited t = m := by
      rw [hcode t ht] at hm
      cases hm
      rfl
    refine ⟨u, hu, fun hfin => ?_⟩
    have hasc : EveryWait (Ascending rank) (s.code u) := hall u
    rw [hcode u hfin] at hasc hholds
    exact hasc.1 _ hholds
  exact hno ⟨hdead.1, fun t ht => ht⟩

/-! ## Circular waits -/

/-- Each of these threads waits for a mutex that one of them owns. -/
def CircularWait (s : CallState ι C M A K L ρ β) (D : Set ι) : Prop :=
  ∀ t ∈ D, ∃ m c u, s.code t = .lock m :: c ∧ s.owner m = some u ∧ u ∈ D

/-- A step is by a thread outside, which gives back none of the mutexes the threads wait for. -/
theorem CircularWait.step {D : Set ι} (h : CircularWait s D) (hP : P.Balanced)
    (hs : P.threads.Reachable s) (hstep : P.step s t = some s') : CircularWait s' D := by
  have ht : t ∉ D := fun hmem => by
    obtain ⟨m, c, u, hcode, howner, -⟩ := h t hmem
    simp [CallProgram.step, hcode, howner, mutexLock] at hstep
  intro v hv
  obtain ⟨m, c, u, hcode, howner, hu⟩ := h v hv
  have hvt : v ≠ t := fun he => ht (he ▸ hv)
  have hut : u ≠ t := fun he => ht (he ▸ hu)
  refine ⟨m, c, u, ?_, ?_, hu⟩
  · rcases step_cases hstep with ⟨p, rest, -, -, rfl⟩ | ⟨i, m', c', -, -, -, rfl⟩ |
      ⟨m', c', -, rfl⟩ | ⟨m', k, c', -, -, rfl⟩ | ⟨a, c', -, rfl⟩
    all_goals exact (Function.update_of_ne hvt ..).trans hcode
  · rcases step_cases hstep with ⟨p, rest, -, -, rfl⟩ | ⟨i, m', c', -, -, hfree, rfl⟩ |
      ⟨m', c', hunlock, rfl⟩ | ⟨m', k, c', -, -, rfl⟩ | ⟨a, c', -, rfl⟩
    · exact howner
    · have hne : m ≠ m' := by
        rintro rfl
        rw [howner] at hfree
        exact absurd hfree (by simp)
      exact (Function.update_of_ne hne ..).trans howner
    · have hne : m ≠ m' := by
        rintro rfl
        have hmine : s.owner m = some t :=
          (owner_iff_of_reachable hP hs m t).mpr (by simp [hunlock])
        rw [howner] at hmine
        exact hut (Option.some.inj hmine)
      exact (Function.update_of_ne hne ..).trans howner
    · exact howner
    · exact howner

/-- **A circular wait ends in a deadlock**, where nothing is tried and given up. -/
theorem exists_deadlocked [Fintype ι] [IsEmpty K] (hP : P.Balanced) {D : Set ι} (hD : D.Nonempty)
    (hs : P.threads.Reachable s) (h : CircularWait s D) :
    ∃ s', P.threads.Reachable s' ∧ P.threads.Deadlocked CallState.Finished s' := by
  obtain ⟨tr, hex⟩ := hs
  -- the circular wait stays while the other threads go on, and they cannot go on forever
  have hstay : ∀ as s s', P.threads.Reachable s → CircularWait s D →
      P.threads.run s as = some s' → CircularWait s' D := by
    intro as
    induction as with
    | nil =>
        intro s s' _ hc hrun
        cases hrun
        exact hc
    | cons t as ih =>
        intro s s' hs hc hrun
        obtain ⟨s₁, hstep, hrun⟩ := Option.bind_eq_some_iff.mp hrun
        exact ih s₁ s' (hs.snoc hstep) (hc.step hP hs hstep) hrun
  have hbound : P.threads.Terminates P.runLength fun _ => True :=
    terminates_of_stuck (fun s _ => s.noFailedTryLock_of_isEmpty) fun _ _ _ => trivial
  obtain ⟨as, s', hrun, hstuck⟩ := hbound.exists_stuck hex
  refine ⟨s', ⟨_, hex.run hrun⟩, ?_, fun t _ => hstuck t⟩
  obtain ⟨t, ht⟩ := hD
  obtain ⟨m, c, u, hcode, -⟩ := hstay as s s' ⟨tr, hex⟩ h hrun t ht
  exact ⟨t, fun hfin => by simp [hfin.1] at hcode⟩

end CallProgram

end Osvcp
