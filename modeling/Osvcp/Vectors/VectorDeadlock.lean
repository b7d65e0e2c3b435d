import Osvcp.Lib.CallSerial
import Osvcp.Vectors.VectorAddCode

/-! # `vector-deadlock.c`: when the locks are taken in the order of the arguments

`vector_add` takes the lock of the destination and then that of the source. It is two-phase like the
others, so a run in which all threads return is serializable, but two threads that add two vectors
to each other can wait for each other. With the threads of `main` this is so exactly if `-d` is
given without `-p`, for two threads or more and one pass or more; in all other cases every run ends,
with all threads returned.
-/

namespace Osvcp.VectorDeadlock

open Function (update)
open VectorAdd

variable {V : Type*} {n : ℕ}

/-- An instruction. There is no `tryLock`. -/
abbrev Instr (V : Type*) := LockInstr (Mutex V) (Act V) Empty

/-! ## The program -/

/-- `vector_add` of `vector-deadlock.c`. -/
def vectorAdd (dst src : V) : List (Instr V) :=
  [.lock (.vec dst), .lock (.vec src)] ++
  addValues dst src ++
  [.unlock (.vec dst), .unlock (.vec src)]

/-- One pass of the loop in `worker`. -/
def pass (verbose : Bool) (p : V × V) : List (Instr V) :=
  workerPass .print verbose (vectorAdd p.1 p.2)

variable [LinearOrder V]

/-- Threads that make the given calls, on vectors with the given values. -/
def program (verbose : Bool) (calls : Fin n → List (V × V)) (values : V → Values) :
    CallProgram (Fin n) (V × V) (Mutex V) (Act V) Empty V (Int32 × Int32) Values where
  acts := vectorActs
  code := pass verbose
  retry := Empty.elim
  calls := calls
  reg := (0, 0)
  mem := values

/-- What `main` starts. -/
def mainProgram (enableParallelism causeDeadlock verbose : Bool) (loops numThreads : ℕ) :
    CallProgram (Fin numThreads) (ℕ × ℕ) (Mutex ℕ) (Act ℕ) Empty ℕ (Int32 × Int32) Values :=
  program verbose (fun i => workerCalls enableParallelism causeDeadlock loops i) fun v _ =>
    Int32.ofNat v

/-! ## The code of a pass -/

section Code

variable {p : V × V} {b : Bool} {m : Mutex V}

theorem holds_vectorAdd : holds m (vectorAdd p.1 p.2 ++ printInfo .print b) = false := by
  simp [vectorAdd]
  tauto

theorem holds_pass : holds m (pass b p) = false :=
  holds_workerPass holds_vectorAdd

theorem wellLocked_pass (hp : p.1 ≠ p.2) :
    WellLocked vectorActs Mutex.vec Empty.elim (pass b p) := by
  refine wellLocked_printInfo_append holds_vectorAdd ?_
  have hbody := wellLocked_addValues_unlock Empty.elim b hp (Or.inl ⟨rfl, rfl⟩)
  simp [vectorAdd, hp.symm, WellLocked, hbody]

omit [LinearOrder V] in
theorem acquires_pass : Acquires Mutex.vec (pass b p) := by
  refine (acquires_printInfo_append print_notMem_range).mpr ?_
  simp [vectorAdd, Acquires]

theorem effect_pass (r : Int32 × Int32) (μ : V → Values) :
    (effect vectorActs (pass b p) (r, μ)).2 = addAtomic μ p := by
  rw [pass, workerPass, effect_printInfo_append]
  simp [vectorAdd, effect, effect_addValues]

/-- A thread waits for `print_lock` with nothing, and for the source with the destination. -/
theorem everyWait_pass {α : Type*} [LT α] {rank : Mutex V → α}
    (hrank : rank (.vec p.1) < rank (.vec p.2)) :
    EveryWait (CallProgram.Ascending rank) (pass b p) := by
  refine everyWait_workerPass (fun c => CallProgram.ascending_of_free) (fun _ => holds_vectorAdd)
    fun hend => ?_
  simp only [vectorAdd, addValues, List.append_assoc, List.cons_append, List.nil_append, EveryWait,
    everyWait_acts]
  refine ⟨CallProgram.ascending_of_free fun m' => ?_, fun m' hm' => ?_, hend⟩
  · simp
    tauto
  · -- of the two locks, only that of the destination is held here
    have hdst : m' = .vec p.1 := by
      simp at hm'
      exact (hm'.2.resolve_right hm'.1).symm
    exact hdst ▸ hrank

end Code

theorem twoPhase {verbose : Bool} {calls : Fin n → List (V × V)} {values : V → Values}
    (hne : ∀ t, ∀ p ∈ calls t, p.1 ≠ p.2) :
    (program verbose calls values).TwoPhase Mutex.vec where
  wellLocked hp he := he.eq_code ▸ wellLocked_pass (hne _ _ hp)
  holds_eq _ _ := holds_pass
  acquires _ := acquires_pass
  effect_eq _ he r μ := he.eq_code ▸ (effect_pass r μ).trans (effect_pass (0, 0) μ).symm

/-! ## The threads of `main` -/

section Main

variable {enableParallelism causeDeadlock verbose : Bool} {loops : ℕ}

/-- The threads of `main` can wait for each other. -/
def CanDeadlock (enableParallelism causeDeadlock : Bool) (loops numThreads : ℕ) : Prop :=
  causeDeadlock = true ∧ enableParallelism = false ∧ 1 ≤ loops ∧ 2 ≤ numThreads

/-- Of the two vectors of a thread, the one it locks first comes first. With `-p` the odd threads
have their own pairs, with `-d` in the other order. -/
def mainRank (enableParallelism causeDeadlock : Bool) : Mutex ℕ → ℕ
  | .vec v => if (enableParallelism && causeDeadlock) = true ∧ v / 2 % 2 = 1 then 2 *
      (v / 2) + (1 - v % 2)
      else v
  | _ => 0

theorem mainRank_lt {i : Fin n} (hsafe : ¬ CanDeadlock enableParallelism causeDeadlock loops n)
    {p : ℕ × ℕ} (hp : p ∈ workerCalls enableParallelism causeDeadlock loops i) :
    mainRank enableParallelism causeDeadlock (.vec p.1) <
      mainRank enableParallelism causeDeadlock (.vec p.2) := by
  have hloops : 1 ≤ loops := by
    have hlen := List.length_pos_of_mem hp
    rwa [workerCalls, List.length_replicate] at hlen
  have hi := i.isLt
  obtain rfl := List.eq_of_mem_replicate hp
  simp only [CanDeadlock, hloops, true_and] at hsafe
  cases enableParallelism with
  | true =>
      cases causeDeadlock with
      | true =>
          by_cases hodd : (i : ℕ) % 2 = 1
          · simp only [mainRank, hodd, Bool.and_self, beq_self_eq_true, if_true,
              Prod.fst_swap, Prod.snd_swap, true_and]
            split_ifs <;> omega
          · simp only [mainRank, hodd, Bool.and_self, Bool.true_and, beq_iff_eq, if_true,
              if_false, true_and]
            split_ifs <;> omega
      | false => simp [mainRank]
  | false =>
      -- both vectors are shared, so no thread may have them the other way round
      have hnot : (causeDeadlock && (i : ℕ) % 2 == 1) = false := by
        cases causeDeadlock with
        | false => rfl
        | true =>
            simp only [true_and, not_le] at hsafe
            have hzero : (i : ℕ) = 0 := by omega
            simp [hzero]
      simp [mainRank, hnot]

end Main

/-! ## Two threads that wait for each other -/

section Reach

variable {verbose : Bool} {calls : Fin n → List (V × V)} {values : V → Values}

/-- The state the first lock of a call leads to. -/
def firstLock (verbose : Bool)
    (s : CallState (Fin n) (V × V) (Mutex V) (Act V) Empty V (Int32 × Int32) Values)
    (t : Fin n) (p : V × V)
    (rest : List (V × V)) :
    CallState (Fin n) (V × V) (Mutex V) (Act V) Empty V (Int32 × Int32) Values :=
  { s with
    todo := update s.todo t rest
    code := update s.code t (.lock (.vec p.2) ::
      (addValues p.1 p.2 ++ .unlock (.vec p.1) :: .unlock (.vec p.2) :: printInfo .print verbose))
    owner := update s.owner (.vec p.1) (some t) }

/-- A thread that begins a call gets as far as the second lock, if `print_lock` and the first lock
are free. -/
theorem exists_run_firstLock (verbose : Bool) (calls : Fin n → List (V × V)) (values : V → Values)
    {s : CallState (Fin n) (V × V) (Mutex V) (Act V) Empty V (Int32 × Int32) Values} {t : Fin n}
    {p : V × V} {rest : List (V × V)} (hcode : s.code t = []) (htodo : s.todo t = p :: rest)
    (hprint : s.owner .print = none) (hfree : s.owner (.vec p.1) = none) :
    ∃ as, (program verbose calls values).threads.run s as =
      some (firstLock verbose s t p rest) := by
  cases verbose with
  | false =>
      refine ⟨[t, t], ?_⟩
      simp [LTS.run, CallProgram.threads, CallProgram.step, program, pass, workerPass,
        vectorAdd, printInfo, hcode, htodo,
        hfree, mutexLock, firstLock]
  | true =>
      have hsame : update (update s.owner .print (some t)) .print none = s.owner := by
        rw [Function.update_idem, ← hprint, Function.update_eq_self]
      refine ⟨[t, t, t, t], ?_⟩
      simp [LTS.run, CallProgram.threads, CallProgram.step, program, pass, workerPass,
        vectorAdd, printInfo, hcode, htodo,
        hprint, hfree, mutexLock, firstLock, hsame]

/-- Two threads that begin with adding two vectors to each other can deadlock. -/
theorem exists_deadlocked_of_crossing (hne : ∀ t, ∀ p ∈ calls t, p.1 ≠ p.2) {t u : Fin n}
    (htu : t ≠ u) {a b : V} {rest rest' : List (V × V)} (ht : calls t = (a, b) :: rest)
    (hu : calls u = (b, a) :: rest') :
    ∃ s, (program verbose calls values).threads.Reachable s ∧
      (program verbose calls values).threads.Deadlocked CallState.Finished s := by
  have hab : a ≠ b := hne t (a, b) (by simp [ht])
  have hstart : (program verbose calls values).threads.Exec []
      (program verbose calls values).start :=
    .start rfl
  obtain ⟨as, has⟩ := exists_run_firstLock verbose calls values
    (s := (program verbose calls values).start) (t := t) (p := (a, b)) rfl ht rfl rfl
  have hex := hstart.run has
  -- the other thread finds its first lock free, too
  have hfree :
      (firstLock verbose (program verbose calls values).start t (a, b) rest).owner (.vec b) =
      none := by
    simp [firstLock, CallProgram.start, hab.symm]
  have htodo : (firstLock verbose (program verbose calls values).start t (a, b) rest).todo u =
      (b, a) :: rest' := by
    simp [firstLock, CallProgram.start, program, htu.symm, hu]
  obtain ⟨bs, hbs⟩ := exists_run_firstLock verbose calls values
    (s := firstLock verbose (program verbose calls values).start t (a, b) rest) (t := u)
    (p := (b, a))
    (by simp [firstLock, CallProgram.start, htu.symm]) htodo
    (by simp [firstLock, CallProgram.start]) hfree
  refine CallProgram.exists_deadlocked (twoPhase hne).balanced (D := {t, u}) ⟨t, by simp⟩
    ⟨_, hex.run hbs⟩ ?_
  rintro v (rfl | rfl)
  · exact ⟨.vec b, _, u, by simp [firstLock, htu]; rfl, by simp [firstLock], by simp⟩
  · exact ⟨.vec a, _, t, by simp [firstLock]; rfl, by simp [firstLock, hab], by simp⟩

end Reach

/-- **When `vector-deadlock.c` deadlocks.** With the threads of `main`, some run ends with threads
that all wait for a mutex if and only if `-d` is given without `-p`, with at least two threads and
one pass. Otherwise no run is longer than the code of all passes together, and at its end all
threads have returned. And however the threads are scheduled, if they all return, every lock is free
and the values are those of the calls done one after the other, in some order that keeps the order
of each thread. -/
theorem vector_deadlock_iff (enableParallelism causeDeadlock verbose : Bool)
    (loops numThreads : ℕ) :
    ((∃ s,
      (mainProgram enableParallelism causeDeadlock verbose loops numThreads).threads.Reachable s ∧
        (mainProgram enableParallelism causeDeadlock verbose loops numThreads).threads.Deadlocked
          CallState.Finished s) ↔
      CanDeadlock enableParallelism causeDeadlock loops numThreads) ∧
    (¬ CanDeadlock enableParallelism causeDeadlock loops numThreads →
      (mainProgram enableParallelism causeDeadlock verbose loops numThreads).threads.Terminates
        (mainProgram enableParallelism causeDeadlock verbose loops numThreads).runLength
        fun s => ∀ t, s.Finished t) ∧
    ∀ s,
      (mainProgram enableParallelism causeDeadlock verbose loops numThreads).threads.Reachable s →
      (∀ t, s.Finished t) → (∀ m, s.owner m = none) ∧ ∃ order : List (Fin numThreads × (ℕ × ℕ)),
        (∀ t, CallProgram.callsOf t order = workerCalls enableParallelism causeDeadlock loops t) ∧
        s.mem = order.foldl (fun μ c => addAtomic μ c.2) fun v _ => Int32.ofNat v := by
  have hne : ∀ t : Fin numThreads, ∀ p ∈ workerCalls enableParallelism causeDeadlock loops t,
      p.1 ≠ p.2 :=
    fun t p => ne_of_mem_workerCalls
  have hphase : (mainProgram enableParallelism causeDeadlock verbose loops numThreads).TwoPhase
      Mutex.vec :=
    twoPhase hne
  have hlive : ¬ CanDeadlock enableParallelism causeDeadlock loops numThreads → ∀ s,
      (mainProgram enableParallelism causeDeadlock verbose loops numThreads).threads.Reachable s →
      ¬ (mainProgram enableParallelism causeDeadlock verbose loops numThreads).threads.Deadlocked
        CallState.Finished s := fun hsafe s hs =>
    CallProgram.not_deadlocked_of_rank (mainRank enableParallelism causeDeadlock) hphase.balanced
      (fun t p hp e he => he.eq_code ▸ everyWait_pass (mainRank_lt hsafe hp)) hs
  refine ⟨⟨?_, ?_⟩, fun hsafe => ?_, fun s hs hfin => ?_⟩
  · rintro ⟨s, hs, hdead⟩
    by_contra hsafe
    exact hlive hsafe s hs hdead
  · rintro ⟨rfl, rfl, hloops, hthreads⟩
    -- the first two threads begin with the same two vectors, the other way round
    obtain ⟨k, rfl⟩ := Nat.exists_eq_add_of_le' hloops
    exact exists_deadlocked_of_crossing hne (t := ⟨0, by omega⟩) (u := ⟨1, by omega⟩) (by simp)
      (a := 0) (b := 1) rfl rfl
  · exact CallProgram.terminates (fun s _ => s.noFailedTryLock_of_isEmpty) (hlive hsafe)
      fun s _ hfin => hfin
  · obtain ⟨⟨order, hcalls, hmem⟩, hfree⟩ := CallProgram.serializable hphase hs hfin
    refine ⟨hfree, order, hcalls, hmem.trans ?_⟩
    have heffect : ∀ μ p, (mainProgram enableParallelism causeDeadlock verbose loops
        numThreads).callEffect μ p = addAtomic μ p := fun μ p => effect_pass (0, 0) μ
    simp only [CallProgram.serial, heffect]
    rfl

end Osvcp.VectorDeadlock
