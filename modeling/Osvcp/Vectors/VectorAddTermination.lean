import Osvcp.Lib.Termination
import Osvcp.Vectors.VectorAddDeadlock

/-! # Which of the locked `vector_add` programs always end

Every step of a thread is one instruction less, but for a failed `tryLock`, after which the call
begins anew. So the two programs without `tryLock` always end. `vector-try-wait.c` never deadlocks,
and ends if no two threads share a vector; otherwise a thread can find its second lock taken any
number of times, also without `-d`, because the lock of the destination is given back before that of
the source.
-/

namespace Osvcp.VectorAdd

open Function (update)
open CallProgram (callsOf)

variable {V : Type*} {n : ℕ} [LinearOrder V]

/-- The steps of a run in which no `tryLock` fails. -/
def Setup.runLength (P : Setup V n) : ℕ := P.program.runLength

/-! ## Blocked threads of `vector-try-wait.c` hold nothing -/

section TryWait

variable {P : Setup V n} {s : ProgramState V n} {t : Fin n}

/-- Where a thread waits, it holds nothing. -/
def EmptyHanded (m : Mutex V) (c : List (Instr V)) : Prop := ∀ m', holds m' (.lock m :: c) = false

theorem everyWait_tryWait (dst src : V) {c : List (Instr V)} (hc : EveryWait EmptyHanded c)
    (hholds : ∀ m, holds m c = false) : EveryWait EmptyHanded (TryWait.vectorAdd dst src ++ c) := by
  simp only [TryWait.vectorAdd, List.cons_append, List.append_assoc, List.nil_append,
    EveryWait, addValues, everyWait_acts]
  refine ⟨fun m => ?_, hc⟩
  simp [hholds]
  tauto

theorem everyWait_printInfo {b : Bool} :
    EveryWait EmptyHanded (printInfo .print b : List (Instr V)) := by
  have h : EveryWait EmptyHanded (printInfo .print b ++ [] : List (Instr V)) :=
    everyWait_printInfo_append (fun _ hm => hm) (fun _ => rfl) trivial
  rwa [List.append_nil] at h

theorem everyWait_retry (p : V × V) : EveryWait EmptyHanded (P.retry p) := by
  rw [retry_eq]
  exact everyWait_tryWait p.1 p.2 everyWait_printInfo fun _ => holds_printInfo

theorem emptyHanded_of_reachable (hP : P.variant = .tryWait) (hs : P.program.threads.Reachable s)
    (t : Fin n) : EveryWait EmptyHanded (s.code t) := by
  refine CallProgram.everyWait_of_reachable (fun t p _ e he => ?_) hs t
  rcases entry_cases he with rfl | ⟨rfl, -⟩
  · refine everyWait_pass (fun _ => id) fun c hc hholds => ?_
    rw [hP]
    exact everyWait_tryWait p.1 p.2 hc hholds
  · exact everyWait_retry p

/-- A blocked thread holds nothing, so the one it waits for can go on. -/
theorem tryWait_not_deadlocked (hP : P.variant = .tryWait) (hne : ∀ t, ∀ p ∈ P.calls t, p.1 ≠ p.2)
    (hs : P.program.threads.Reachable s) : ¬ P.program.threads.Deadlocked CallState.Finished s := by
  have hbalanced := (twoPhase fun t p hp => Or.inr (hne t p hp)).balanced
  rw [CallProgram.deadlocked_iff]
  rintro ⟨⟨t, ht⟩, hall⟩
  obtain ⟨m, c, u, -, -, hu, hholds⟩ := CallProgram.holder_of_blocked hbalanced hs (hall t ht)
  obtain ⟨m', c', hcode', -⟩ := hall u hu
  have hwait : EveryWait EmptyHanded (.lock m' :: c') := hcode' ▸ emptyHanded_of_reachable hP hs u
  rw [hcode', hwait.1 m] at hholds
  exact absurd hholds Bool.false_ne_true

/-- The code of a thread of `vector-try-wait.c` is about the vectors of its calls. -/
def OwnInstr (calls : List (V × V)) : Instr V → Prop
  | .unlock (.vec v) => ∃ p ∈ calls, v = p.1 ∨ v = p.2
  | .tryLock m k => k ∈ calls ∧ m = .vec k.2
  | _ => True

omit [LinearOrder V] in
theorem ownInstr_addValues {calls : List (V × V)} {dst src : V} {i : Instr V}
    (hi : i ∈ addValues dst src) :
    OwnInstr calls i := by
  obtain ⟨a, -, rfl⟩ := List.mem_map.mp hi
  trivial

omit [LinearOrder V] in
theorem ownInstr_printInfo {calls : List (V × V)} {b : Bool} {i : Instr V}
    (hi : i ∈ printInfo .print b) :
    OwnInstr calls i := by
  cases b with
  | false => exact absurd hi List.not_mem_nil
  | true =>
      simp only [printInfo, if_true, List.mem_cons, List.not_mem_nil, or_false] at hi
      rcases hi with rfl | rfl
      · trivial
      · trivial

omit [LinearOrder V] in
theorem ownInstr_tryWait {calls : List (V × V)} {p : V × V} (hp : p ∈ calls) {i : Instr V}
    (hi : i ∈ TryWait.vectorAdd p.1 p.2) : OwnInstr calls i := by
  simp only [TryWait.vectorAdd, List.mem_append, List.mem_cons, List.not_mem_nil, or_false] at hi
  rcases hi with ((rfl | rfl) | hi) | rfl | rfl
  · trivial
  · exact ⟨hp, rfl⟩
  · exact ownInstr_addValues hi
  · exact ⟨p, hp, Or.inl rfl⟩
  · exact ⟨p, hp, Or.inr rfl⟩

theorem ownInstr_pass (hP : P.variant = .tryWait) {calls : List (V × V)} {p : V × V}
    (hp : p ∈ calls) {i : Instr V} (hi : i ∈ P.pass p) : OwnInstr calls i := by
  rw [Setup.pass, workerPass, hP, List.mem_append, List.mem_append] at hi
  rcases hi with hi | hi | hi
  · exact ownInstr_printInfo hi
  · exact ownInstr_tryWait hp hi
  · exact ownInstr_printInfo hi

theorem ownInstr_retry {calls : List (V × V)} {p : V × V} (hp : p ∈ calls) {i : Instr V}
    (hi : i ∈ P.retry p) : OwnInstr calls i := by
  rw [retry_eq, List.mem_cons, List.mem_cons, List.mem_cons, List.mem_append] at hi
  rcases hi with rfl | rfl | rfl | hi | hi
  · trivial
  · trivial
  · exact ⟨p, hp, Or.inl rfl⟩
  · exact ownInstr_tryWait hp hi
  · exact ownInstr_printInfo hi

theorem ownInstr_of_reachable (hP : P.variant = .tryWait) (hs : P.program.threads.Reachable s)
    (t : Fin n) : ∀ i ∈ s.code t, OwnInstr (P.calls t) i := by
  refine CallProgram.code_of_reachable (Q := fun c => ∀ i ∈ c, OwnInstr (P.calls t) i) hs t
    (fun i hi => absurd hi List.not_mem_nil) (fun i c h j hj => h j (List.mem_cons_of_mem i hj)) ?_
  intro p hp e he
  rcases entry_cases he with rfl | ⟨rfl, -⟩
  · exact fun i => ownInstr_pass hP hp
  · exact fun i => ownInstr_retry hp

/-- If no two threads share a vector, no `tryLock` fails. -/
theorem noFailedTryLock_of_private (hP : P.variant = .tryWait)
    (hne : ∀ t, ∀ p ∈ P.calls t, p.1 ≠ p.2)
    (hprivate : ∀ t u, t ≠ u → ∀ p ∈ P.calls t, ∀ q ∈ P.calls u, p.2 ≠ q.1 ∧ p.2 ≠ q.2)
    (hs : P.program.threads.Reachable s) (t : Fin n) : s.NoFailedTryLock t := by
  have hbalanced := (twoPhase fun t p hp => Or.inr (hne t p hp)).balanced
  have hown := ownInstr_of_reachable hP hs
  intro m k c htry
  obtain ⟨hk, rfl⟩ := hown t (.tryLock m k) (by simp [htry])
  cases howner : s.owner (.vec k.2) with
  | none => rfl
  | some u =>
      exfalso
      have hholds := (CallProgram.owner_iff_of_reachable hbalanced hs _ u).mp howner
      by_cases hut : t = u
      · subst hut
        rw [htry] at hholds
        simp at hholds
      · obtain ⟨q, hq, hmem⟩ := hown u _ (unlock_mem_of_holds hholds)
        obtain ⟨h₁, h₂⟩ := hprivate t u hut k hk q hq
        exact hmem.elim h₁ h₂

end TryWait

/-- The other two programs have no `tryLock`. -/
theorem noFailedTryLock_of_ne {P : Setup V n} {s : ProgramState V n}
    (hvariant : P.variant ≠ .tryWait) (hs : P.program.threads.Reachable s) (t : Fin n) :
    s.NoFailedTryLock t := by
  have hno := CallProgram.code_of_reachable (Q := fun c => ∀ m k, .tryLock m k ∉ c) hs t
    (fun _ _ => List.not_mem_nil) (fun i c h m k hmem => h m k (List.mem_cons_of_mem i hmem))
    fun p hp e he m k hmem => ?_
  · intro m k c hcode
    exact absurd (hcode ▸ List.mem_cons_self) (hno m k)
  · rcases entry_cases he with rfl | ⟨-, htry⟩
    · exact hvariant (label_of_mem_pass hmem).2
    · exact hvariant htry

/-! ## A thread that retries forever -/

/-- The step is a `pthread_mutex_trylock` of thread `u` that fails. -/
def failsTryLock (u : Fin n) (p : State V n × Fin n) : Bool :=
  decide (p.2 = u) && match (p.1.threads u).code with
    | .tryLock m _ :: _ => (p.1.owner m).isSome
    | _ => false

section Retry

variable {P : Setup V n} {s s' : State V n} {t u : Fin n} {p : V × V} {c : List (Instr V)}

/-- Thread `t` can get to the code `c` with these owners, while the others stay where they are. -/
def Gets (P : Setup V n) (s : State V n) (t : Fin n) (c : List (Instr V))
    (owner : Mutex V → Option (Fin n)) : Prop :=
  ∃ as s', (vectorThreads P).run s as = some s' ∧ (s'.threads t).code = c ∧ s'.owner = owner ∧
    ∀ u, u ≠ t → s'.threads u = s.threads u

theorem Gets.refl (s : State V n) (t : Fin n) : Gets P s t (s.threads t).code s.owner :=
  ⟨[], s, rfl, rfl, rfl, fun _ _ => rfl⟩

/-- One more step. -/
theorem Gets.step {c' : List (Instr V)} {owner owner' : Mutex V → Option (Fin n)}
    (h : Gets P s t c owner)
    (hstep : ∀ s₁, (s₁.threads t).code = c → s₁.owner = owner →
      ∃ s₂, VectorAdd.step P s₁ t = some s₂ ∧
      (s₂.threads t).code = c' ∧ s₂.owner = owner' ∧ ∀ u, u ≠ t → s₂.threads u = s₁.threads u) :
    Gets P s t c' owner' := by
  obtain ⟨as, s₁, hrun, hcode, howner, hother⟩ := h
  obtain ⟨s₂, hs₂, hcode', howner', hother'⟩ := hstep s₁ hcode howner
  refine ⟨as ++ [t], s₂, ?_, hcode', howner', fun u hu => (hother' u hu).trans (hother u hu)⟩
  rw [LTS.run_append, hrun]
  change (VectorAdd.step P s₁ t).bind _ = _
  rw [hs₂]
  rfl

theorem Gets.lock {m : Mutex V} {owner : Mutex V → Option (Fin n)}
    (h : Gets P s t (.lock m :: c) owner) (hfree : owner m = none) :
    Gets P s t c (update owner m (some t)) :=
  h.step fun s₁ hcode howner => ⟨_, by simp [VectorAdd.step, hcode, howner, hfree, mutexLock]; rfl,
    by simp [State.setThread], by simp [State.setThread, State.setOwner, howner],
    fun u hu => Function.update_of_ne hu ..⟩

theorem Gets.tryLock {m : Mutex V} {k : V × V} {owner : Mutex V → Option (Fin n)}
    (h : Gets P s t (.tryLock m k :: c) owner) (hfree : owner m = none) :
    Gets P s t c (update owner m (some t)) :=
  h.step fun s₁ hcode howner => ⟨_, by simp [VectorAdd.step, hcode, howner, hfree, mutexLock]; rfl,
    by simp [State.setThread], by simp [State.setThread, State.setOwner, howner],
    fun u hu => Function.update_of_ne hu ..⟩

theorem Gets.unlock {m : Mutex V} {owner : Mutex V → Option (Fin n)}
    (h : Gets P s t (.unlock m :: c) owner) : Gets P s t c (update owner m none) :=
  h.step fun s₁ hcode howner => ⟨_, by simp [VectorAdd.step, hcode]; rfl,
    by simp [State.setThread], by simp [State.setThread, State.setOwner, howner],
    fun u hu => Function.update_of_ne hu ..⟩

theorem Gets.act {a : Act V} {owner : Mutex V → Option (Fin n)}
    (h : Gets P s t (.act a :: c) owner) :
    Gets P s t c owner :=
  h.step fun s₁ hcode howner => by
    obtain ⟨r, old, hthreads, -⟩ := s₁.threads_perform t c a
    refine ⟨s₁.perform t c a, by simp [VectorAdd.step, hcode], ?_, ?_, fun u hu => ?_⟩
    · rw [hthreads, Function.update_self]
    · rw [State.owner_perform, howner]
    · rw [hthreads, Function.update_of_ne hu]

theorem Gets.acts {as : List (Act V)} {owner : Mutex V → Option (Fin n)}
    (h : Gets P s t (as.map .act ++ c) owner) : Gets P s t c owner := by
  induction as with
  | nil => exact h
  | cons a as ih => exact ih h.act

theorem Gets.printInfo {b : Bool} {owner : Mutex V → Option (Fin n)}
    (h : Gets P s t (VectorAdd.printInfo .print b ++ c) owner) (hfree : owner .print = none) :
    Gets P s t c owner := by
  cases b with
  | false => exact h
  | true =>
      have hnext := (h.lock hfree).unlock
      rwa [Function.update_idem, ← hfree, Function.update_eq_self] at hnext

/-- A thread begins a call of `vector-try-wait.c` and takes its first lock. -/
theorem gets_firstLock (hP : P.variant = .tryWait) (hcode : (s.threads t).code = [])
    {rest : List (V × V)} (htodo : (s.threads t).todo = p :: rest) (hprint : s.owner .print = none)
    (hfree : s.owner (.vec p.1) = none) :
    Gets P s t (.tryLock (.vec p.2) p :: (addValues p.1 p.2 ++
      .unlock (.vec p.1) :: .unlock (.vec p.2) :: printInfo .print P.verbose))
      (update s.owner (.vec p.1) (some t)) := by
  have hbegin : Gets P s t (P.pass p) s.owner := by
    refine ⟨[t], s.setThread t { s.threads t with todo := rest, code := P.pass p }, ?_, ?_, rfl, ?_⟩
    · simp [LTS.run, vectorThreads, VectorAdd.step, hcode, htodo]
    · simp [State.setThread]
    · exact fun u hu => Function.update_of_ne hu ..
  rw [Setup.pass, workerPass, hP] at hbegin
  have hcall := hbegin.printInfo hprint
  simp only [Variant.vectorAdd, TryWait.vectorAdd, List.append_assoc, List.cons_append,
    List.nil_append] at hcall
  exact hcall.lock hfree

/-- Thread `u` has its first lock and comes to the second, which another thread has. -/
def Retrying (s : State V n) (u : Fin n) (p : V × V) : Prop :=
  (∃ c, (s.threads u).code = .tryLock (.vec p.2) p :: c) ∧ s.owner (.vec p.1) = some u ∧
    s.owner (.vec p.2) ≠ none

/-- While the other thread does nothing, it will find itself there again. -/
theorem Retrying.again (h : Retrying s u p) (hp : p.1 ≠ p.2) :
    ∃ as s', (vectorThreads P).run s (u :: as) = some s' ∧ Retrying s' u p := by
  obtain ⟨⟨c, hcode⟩, hdst, hsrc⟩ := h
  obtain ⟨t, ht⟩ := Option.ne_none_iff_exists'.mp hsrc
  obtain ⟨s₁, hs₁⟩ : ∃ s₁, s₁ = s.setThread u { s.threads u with code := P.retry p } := ⟨_, rfl⟩
  have hfailed : VectorAdd.step P s u = some s₁ := by
    simp [VectorAdd.step, hcode, ht, mutexLock, hs₁]
  have hretry : Gets P s₁ u (P.retry p) s.owner := by
    have hrefl := Gets.refl (P := P) s₁ u
    simpa [hs₁, State.setThread] using hrefl
  rw [retry_eq] at hretry
  have htop := hretry.act.act.unlock
  simp only [Variant.vectorAdd, TryWait.vectorAdd, List.append_assoc, List.cons_append,
    List.nil_append] at htop
  obtain ⟨as, s', hrun, hcode', howner', -⟩ := htop.lock (Function.update_self ..)
  refine ⟨as, s', ?_, ⟨_, hcode'⟩, ?_, ?_⟩
  · rw [LTS.run]
    change (VectorAdd.step P s u).bind _ = _
    rw [hfailed, Option.bind_some]
    exact hrun
  · simp [howner']
  · simp [howner', hp.symm, ht]

/-- Such a thread can retry any number of times. -/
theorem Retrying.forever (h : Retrying s u p) (hp : p.1 ≠ p.2)
    (hs : (vectorThreads P).Reachable s) (k : ℕ) :
    ∃ tr s', (vectorThreads P).Exec tr s' ∧ k ≤ tr.countP (failsTryLock u) ∧ Retrying s' u p := by
  induction k with
  | zero =>
      obtain ⟨tr, hex⟩ := hs
      exact ⟨tr, s, hex, Nat.zero_le _, h⟩
  | succ k ih =>
      obtain ⟨tr, s₁, hex, hk, h₁⟩ := ih
      obtain ⟨as, s₂, hrun, h₂⟩ := h₁.again (P := P) hp
      have hfails : failsTryLock u (s₁, u) = true := by
        obtain ⟨⟨c, hcode⟩, -, howned⟩ := h₁
        simp [failsTryLock, hcode, Option.isSome_iff_ne_none, howned]
      refine ⟨_, s₂, hex.run hrun, ?_, h₂⟩
      rw [List.countP_append, LTS.trace, List.countP_cons_of_pos hfails]
      omega

end Retry

/-- Two threads with a vector in common can get one of them to retry. The second thread starts with
the same call as the first, or with the same vectors the other way round. -/
theorem exists_retrying {P : Setup V n} (hP : P.variant = .tryWait) {t u : Fin n}
    (htu : t ≠ u) {a b : V} (hab : a ≠ b) {rest rest' : List (V × V)}
    (ht : P.calls t = (a, b) :: rest) {q : V × V}
    (hu : P.calls u = q :: rest') (hq : q = (a, b) ∨ q = (b, a)) :
    ∃ s, (vectorThreads P).Reachable s ∧ Retrying s u q := by
  have hstart : (vectorThreads P).Reachable (start P) := ⟨[], .start rfl⟩
  have hfirst := gets_firstLock (P := P) (s := start P) (t := t) hP rfl ht rfl rfl
  -- what the second thread does, once the first holds the source of its call only
  have hsecond : ∀ {c owner}, Gets P (start P) t c owner → owner .print = none →
      owner (.vec q.1) = none →
      owner (.vec q.2) = some t → q.1 ≠ q.2 → ∃ s, (vectorThreads P).Reachable s ∧
      Retrying s u q := by
    rintro c owner ⟨as, s, hrun, -, rfl, hother⟩ hprint hdst hsrc hne
    have hthread : s.threads u = (start P).threads u := hother u htu.symm
    obtain ⟨bs, s', hrun', hcode, howner, -⟩ := gets_firstLock (P := P) (s := s)
      (t := u) (p := q) hP (by rw [hthread]; rfl) (by rw [hthread]; exact hu) hprint hdst
    refine ⟨s', (hstart.run hrun).run hrun', ⟨_, hcode⟩, ?_, ?_⟩
    · simp [howner]
    · simp [howner, hne.symm, hsrc]
  rcases hq with rfl | rfl
  · -- the first thread has given its destination back, but not yet its source
    have hgiven := (hfirst.tryLock (by simp [start, hab.symm])).acts.unlock
    exact hsecond hgiven (by simp [start]) (by simp) (by simp [hab.symm]) hab
  · -- the first thread has its destination, which is the source of the second
    exact hsecond hfirst (by simp [start]) (by simp [start, hab.symm]) (by simp) hab.symm

/-! ## The threads of `main` -/

/-- Threads that neither deadlock nor find a second lock taken all return. -/
theorem terminates_of_noFailedTryLock {P : Setup V n} (hP : P.Proper)
    (hlive : ∀ s, P.program.threads.Reachable s →
      ¬ P.program.threads.Deadlocked CallState.Finished s)
    (hno : ∀ s, P.program.threads.Reachable s → ∀ t, s.NoFailedTryLock t) :
    (vectorThreads P).Terminates P.runLength fun s => (∀ t, Finished s t) ∧
      (∀ m, s.owner m = none) ∧
      ∃ order, (∀ t, callsOf t order = P.calls t) ∧ s.values = serial P order := by
  have hall := (projection P).terminates (CallProgram.terminates_serial (twoPhase hP) hno hlive)
  refine ⟨hall.length_le, fun hs hstuck => ?_⟩
  obtain ⟨hfin, hfree, order, hcalls, hmem⟩ := hall.stuck hs hstuck
  exact ⟨hfin, hfree, order, hcalls, hmem.trans (serial_eq order)⟩

/-- In different threads of `main -p`, or in one thread alone, no vector is shared. -/
theorem workerCalls_private {enableParallelism : Bool} (causeDeadlock : Bool) {loops numThreads : ℕ}
    (h : enableParallelism = true ∨ loops = 0 ∨ numThreads ≤ 1) (t u : Fin numThreads)
    (htu : t ≠ u) : ∀ p ∈ workerCalls enableParallelism causeDeadlock loops t,
      ∀ q ∈ workerCalls enableParallelism causeDeadlock loops u, p.2 ≠ q.1 ∧ p.2 ≠ q.2 := by
  intro p hp q hq
  have hne : t.val ≠ u.val := fun he => htu (Fin.ext he)
  have ht := t.isLt
  have hu := u.isLt
  rcases h with rfl | rfl | h
  · obtain rfl := List.eq_of_mem_replicate hp
    obtain rfl := List.eq_of_mem_replicate hq
    simp only [if_true]
    split_ifs
    all_goals
      simp only [Prod.fst_swap, Prod.snd_swap]
      omega
  · exact absurd hp List.not_mem_nil
  · omega

/-- **Which programs always end.** With the threads of `main`, none of the three programs ever
deadlocks. `vector-global-order.c` and `vector-avoid-hold-and-wait.c` always end, and
`vector-try-wait.c` does if and only if `-p` is given, there is no pass to do, or there is at most
one thread: no run is then longer than the code of all passes, and at its end all threads have
returned, all locks are free, and the values are those of the calls done one after the other. In all
other cases `vector-try-wait.c` has runs in which one thread finds its second lock taken any number
of times, so that no bound holds for their length. -/
theorem vector_add_ends_iff (variant : Variant) (enableParallelism causeDeadlock verbose : Bool)
    (loops numThreads : ℕ) :
    (∀ s, (vectorThreads (mainSetup variant enableParallelism causeDeadlock verbose loops
        numThreads)).Reachable s →
      ¬ (vectorThreads (mainSetup variant enableParallelism causeDeadlock verbose loops
        numThreads)).Deadlocked Finished s) ∧
    ((variant ≠ .tryWait ∨ enableParallelism = true ∨ loops = 0 ∨ numThreads ≤ 1) →
      (vectorThreads (mainSetup variant enableParallelism causeDeadlock verbose loops
          numThreads)).Terminates
        (mainSetup variant enableParallelism causeDeadlock verbose loops numThreads).runLength
        fun s => (∀ t, Finished s t) ∧ (∀ m, s.owner m = none) ∧
          ∃ order : List (Fin numThreads × (ℕ × ℕ)),
            (∀ t, callsOf t order = workerCalls enableParallelism causeDeadlock loops t) ∧
            s.values = serial
              (mainSetup variant enableParallelism causeDeadlock verbose loops numThreads) order) ∧
    (¬ (variant ≠ .tryWait ∨ enableParallelism = true ∨ loops = 0 ∨ numThreads ≤ 1) →
      ∃ u : Fin numThreads, ∀ k, ∃ tr s,
        (vectorThreads (mainSetup variant enableParallelism causeDeadlock verbose loops
          numThreads)).Exec tr s ∧ k ≤ tr.countP (failsTryLock u)) := by
  have hne : ∀ t : Fin numThreads, ∀ p ∈ workerCalls enableParallelism causeDeadlock loops t,
      p.1 ≠ p.2 :=
    fun t p => ne_of_mem_workerCalls
  have hproper :
      (mainSetup variant enableParallelism causeDeadlock verbose loops numThreads).Proper :=
    fun t p hp => Or.inr (hne t p hp)
  have hlive : ∀ s, (mainSetup variant enableParallelism causeDeadlock verbose loops
      numThreads).program.threads.Reachable s →
      ¬ (mainSetup variant enableParallelism causeDeadlock verbose
        loops numThreads).program.threads.Deadlocked CallState.Finished s := fun s hs => by
    by_cases hv : variant = .tryWait
    · exact tryWait_not_deadlocked hv hne hs
    · exact main_not_deadlocked hv hs
  refine ⟨fun s hs hdead => ?_, fun hends => ?_, fun hnot => ?_⟩
  · exact hlive s.calls ((projection _).reachable hs)
      ⟨hdead.1, fun t ht => (projection _).step_eq_none_iff.mpr (hdead.2 t ht)⟩
  · refine terminates_of_noFailedTryLock hproper hlive fun s hs t => ?_
    by_cases hv : variant = .tryWait
    · have hprivate := workerCalls_private causeDeadlock (hends.resolve_left (not_not.mpr hv))
      exact noFailedTryLock_of_private hv hne hprivate hs t
    · exact noFailedTryLock_of_ne hv hs t
  · push Not at hnot
    obtain ⟨rfl, hpar, hloops, hthreads⟩ := hnot
    obtain rfl : enableParallelism = false := by simpa using hpar
    obtain ⟨j, rfl⟩ := Nat.exists_eq_succ_of_ne_zero hloops
    -- the first thread adds the second vector to the first, and the second thread does so or the
    -- reverse
    obtain ⟨q, hcalls, hq⟩ : ∃ q, workerCalls false causeDeadlock (j + 1) 1 =
        q :: workerCalls false causeDeadlock j 1 ∧ (q = (0, 1) ∨ q = (1, 0)) := by
      refine ⟨_, rfl, ?_⟩
      cases causeDeadlock with
      | false => exact Or.inl rfl
      | true => exact Or.inr rfl
    have hfirst : workerCalls false causeDeadlock (j + 1) 0 =
        (0, 1) :: workerCalls false causeDeadlock j 0 := by
      cases causeDeadlock <;> rfl
    obtain ⟨s, hs, hretrying⟩ := exists_retrying
      (P := mainSetup .tryWait false causeDeadlock verbose (j + 1) numThreads) rfl
      (t := ⟨0, by omega⟩) (u := ⟨1, by omega⟩) (by simp) (a := 0) (b := 1)
      (by simp) hfirst hcalls hq
    have hqne : q.1 ≠ q.2 := by
      rcases hq with rfl | rfl
      · simp
      · simp
    refine ⟨⟨1, by omega⟩, fun k => ?_⟩
    obtain ⟨tr, s', hex, hk, -⟩ := hretrying.forever hqne hs k
    exact ⟨tr, s', hex, hk⟩

end Osvcp.VectorAdd
