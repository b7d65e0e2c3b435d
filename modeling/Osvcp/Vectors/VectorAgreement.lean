import Osvcp.Vectors.VectorAddTermination
import Osvcp.Vectors.VectorDeadlock
import Osvcp.Vectors.VectorNolock

/-! # Where all `vector_add` programs agree, and where `vector-nolock.c` does not

If no vector is both a destination and a source, the order of the calls does not matter, and the
four programs with locks and the one without all end with the same values. With the threads of
`main` that is the case unless `-d` is given without `-p`. There `vector-nolock.c` can end with
values that no order of the calls gives: the threads can pass each other between two elements.
-/

namespace Osvcp.VectorNolock

open Function (update)
open VectorAdd (Values vectorSize workerCalls addAtomic Setup vectorThreads)

/-! ## Calls that can be made in any order -/

section Order

variable {V : Type*} {n : ℕ} [LinearOrder V]

theorem addAtomic_apply (μ : V → Values) (p : V × V) (v : V) (i : Fin vectorSize) :
    addAtomic μ p v i = μ v i + callAdds μ p v i := by
  by_cases hv : p.1 = v
  · subst hv
    simp [addAtomic, callAdds]
  · simp [addAtomic, callAdds, hv, Ne.symm hv]

/-- One after the other, separate calls do what they do each from the start. -/
theorem foldl_addAtomic_of_separate {μ : V → Values} (order : List (Fin n × (V × V)))
    (hsep : ∀ c ∈ order, ∀ d ∈ order, c.2.1 ≠ d.2.2) (v : V) (i : Fin vectorSize) :
    order.foldl (fun μ c => addAtomic μ c.2) μ v i =
      μ v i + (order.map fun c => callAdds μ c.2 v i).sum := by
  induction order using List.reverseRecOn generalizing v with
  | nil => simp
  | append_singleton order c ih =>
      have hsep' : ∀ a ∈ order, ∀ b ∈ order, a.2.1 ≠ b.2.2 := fun a ha b hb =>
        hsep a (List.mem_append_left _ ha) b (List.mem_append_left _ hb)
      -- nothing has been added to the source
      have hsrc : order.foldl (fun μ c => addAtomic μ c.2) μ c.2.2 i = μ c.2.2 i := by
        rw [ih hsep', List.sum_eq_zero, add_zero]
        intro x hx
        obtain ⟨a, ha, rfl⟩ := List.mem_map.mp hx
        exact if_neg (hsep a (List.mem_append_left _ ha) c (by simp))
      have hlast : callAdds (order.foldl (fun μ c => addAtomic μ c.2) μ) c.2 v i =
          callAdds μ c.2 v i := by
        rw [callAdds, hsrc, callAdds]
      rw [List.foldl_append, List.foldl_cons, List.foldl_nil, addAtomic_apply, hlast, ih hsep',
        List.map_append, List.sum_append, add_assoc]
      simp

/-- The values after separate calls, in whatever order. -/
theorem serial_of_separate {calls : Fin n → List (V × V)} (hsep : Separate calls)
    (values : V → Values) {order : List (Fin n × (V × V))}
    (hcalls : ∀ t, CallProgram.callsOf t order = calls t) :
    order.foldl (fun μ c => addAtomic μ c.2) values = fun v i =>
      values v i + allAdds calls values v i := by
  have hmem : ∀ c ∈ order, c.2 ∈ calls c.1 := fun c hc => by
    rw [← hcalls]
    exact List.mem_map.mpr ⟨c, by simpa using hc, rfl⟩
  funext v i
  rw [foldl_addAtomic_of_separate order
    fun c hc d hd => hsep c.1 d.1 c.2 (hmem c hc) d.2 (hmem d hd)]
  rw [CallProgram.sum_map_callsOf (fun p => callAdds values p v i)]
  simp only [hcalls, allAdds]

/-- **All five programs agree on separate calls.** If no vector is both a destination and a source,
then in every run of `vector-global-order.c`, `vector-avoid-hold-and-wait.c`, `vector-try-wait.c` or
`vector-deadlock.c` in which all threads return, and in every run of `vector-nolock.c`, which always
ends with all threads returned, each vector ends with its value at the start and those of the
sources that are added to it. -/
theorem vector_programs_agree (P : Setup V n) (hsep : Separate P.calls) :
    (∀ s, (vectorThreads P).Reachable s → (∀ t, VectorAdd.Finished s t) →
      s.values = fun v i => P.values v i + allAdds P.calls P.values v i) ∧
    (∀ s, (VectorDeadlock.program P.verbose P.calls P.values).threads.Reachable s →
      (∀ t, s.Finished t) → s.mem = fun v i => P.values v i + allAdds P.calls P.values v i) ∧
    (program P.verbose P.calls P.values).threads.Terminates
      (program P.verbose P.calls P.values).runLength fun s => (∀ t, s.Finished t) ∧
        s.mem = fun v i => P.values v i + allAdds P.calls P.values v i := by
  have hne : ∀ t, ∀ p ∈ P.calls t, p.1 ≠ p.2 := fun t p hp => hsep t t p hp p hp
  refine ⟨fun s hs hfin => ?_, fun s hs hfin => ?_, ?_⟩
  · obtain ⟨-, order, hcalls, hvalues⟩ :=
      VectorAdd.exists_order_of_finished (fun t p hp => Or.inr (hne t p hp)) hs hfin
    exact hvalues.trans (serial_of_separate hsep P.values hcalls)
  · obtain ⟨⟨order, hcalls, hmem⟩, -⟩ :=
      CallProgram.serializable (VectorDeadlock.twoPhase hne) hs hfin
    rw [← serial_of_separate hsep P.values hcalls, hmem]
    have heffect : ∀ μ p, (VectorDeadlock.program P.verbose P.calls P.values).callEffect μ p =
        addAtomic μ p := fun μ p => VectorDeadlock.effect_pass (0, 0) μ
    simp only [CallProgram.serial, heffect]
    rfl
  · refine CallProgram.terminates (fun s _ => s.noFailedTryLock_of_isEmpty) (fun s hs => ?_)
      fun s hs hfin => ⟨hfin, mem_of_finished hsep hs hfin⟩
    exact not_deadlocked hs

end Order

/-- What `main -d -p` starts: the second thread adds the other way round, on vectors of its own. -/
theorem vector_programs_agree_pairs :
    ∃ s, (mainProgram true true false 1 2).threads.Reachable s ∧ (∀ t, s.Finished t) ∧
      s.mem 0 ⟨0, by decide⟩ = 1 ∧ s.mem 3 ⟨0, by decide⟩ = 5 := by
  have hagree := (vector_programs_agree (VectorAdd.mainSetup .globalOrder true true false 1 2) (by
    unfold Separate
    decide)).2.2
  obtain ⟨as, s, hrun, hstuck⟩ := hagree.exists_stuck (.start rfl)
  have hs := (LTS.Exec.start rfl).run hrun
  obtain ⟨hfin, hmem⟩ := hagree.stuck ⟨_, hs⟩ hstuck
  refine ⟨s, ⟨_, hs⟩, hfin, ?_, ?_⟩
  · rw [hmem]
    decide
  · rw [hmem]
    decide

/-! ## The threads of `main` -/

section Main

variable {enableParallelism causeDeadlock verbose : Bool} {loops n : ℕ}

/-- The threads of `main` that cannot deadlock with locks have separate destinations and sources. -/
theorem separate_workerCalls
    (hsafe : ¬ VectorDeadlock.CanDeadlock enableParallelism causeDeadlock loops n) :
    Separate fun i : Fin n => workerCalls enableParallelism causeDeadlock loops i := by
  intro t u p hp q hq
  have hloops : 0 < loops := by
    have hlen := List.length_pos_of_mem hp
    simpa [workerCalls] using hlen
  have ht := t.isLt
  have hu := u.isLt
  simp only [VectorDeadlock.CanDeadlock, Nat.succ_le_of_lt hloops, true_and] at hsafe
  obtain rfl := List.eq_of_mem_replicate hp
  obtain rfl := List.eq_of_mem_replicate hq
  cases enableParallelism with
  | true =>
      -- every thread has its own pair, so only the order within a pair could clash
      cases causeDeadlock with
      | false =>
          simp only [Bool.false_and, Bool.false_eq_true, if_false, if_true]
          omega
      | true =>
          simp only [Bool.true_and, beq_iff_eq, if_true]
          split_ifs
          all_goals
            simp only [Prod.fst_swap, Prod.snd_swap]
            omega
  | false =>
      have hnot : ∀ i : ℕ, i < n → (causeDeadlock && i % 2 == 1) = false := fun i hi => by
        cases causeDeadlock with
        | false => rfl
        | true =>
            simp only [true_and, not_le] at hsafe
            have hzero : i = 0 := by omega
            simp [hzero]
      simp [hnot t ht, hnot u hu]

end Main

/-! ## Threads that pass each other -/

section Uneven

variable {n : ℕ} {verbose : Bool} {calls : Fin n → List (ℕ × ℕ)} {values : ℕ → Values}
  {s : CallState (Fin n) (ℕ × ℕ) Unit (Act ℕ) Empty ℕ Int32 Values} {t : Fin n} {p : ℕ × ℕ}

/-- The first two elements of some vector differ. -/
def Uneven (μ : ℕ → Values) : Prop := ∃ v, μ v ⟨0, by decide⟩ ≠ μ v ⟨1, by decide⟩

/-- A call done at once neither makes even vectors uneven nor the other way round. -/
theorem uneven_addAtomic (μ : ℕ → Values) (hp : p.1 ≠ p.2) : Uneven (addAtomic μ p) ↔ Uneven μ := by
  rw [← not_iff_not]
  simp only [Uneven, not_exists, not_not]
  constructor
  · intro h v
    have hsrc := h p.2
    simp only [addAtomic, Function.update_of_ne hp.symm] at hsrc
    by_cases hv : v = p.1
    · subst hv
      have hdst := h p.1
      simp only [addAtomic, Function.update_self, hsrc] at hdst
      exact add_right_cancel hdst
    · have hv' := h v
      simpa only [addAtomic, Function.update_of_ne hv] using hv'
  · intro h v
    by_cases hv : v = p.1
    · subst hv
      simp only [addAtomic, Function.update_self, h p.1, h p.2]
    · simp only [addAtomic, Function.update_of_ne hv, h v]

theorem not_uneven_serial (order : List (Fin n × (ℕ × ℕ))) (hne : ∀ c ∈ order, c.2.1 ≠ c.2.2)
    {μ : ℕ → Values} (hμ : ¬ Uneven μ) : ¬ Uneven (order.foldl (fun μ c => addAtomic μ c.2) μ) := by
  induction order generalizing μ with
  | nil => exact hμ
  | cons c order ih =>
      rw [List.foldl_cons]
      refine ih (fun d hd => hne d (List.mem_cons_of_mem c hd)) ?_
      rwa [uneven_addAtomic μ (hne c List.mem_cons_self)]

/-- A thread goes through `print_info` if `print_lock` is free. -/
theorem reachable_printInfo {c : List (Instr ℕ)}
    (hs : (program verbose calls values).threads.Reachable s)
    (hcode : s.code t = VectorAdd.printInfo () verbose ++ c) (hfree : s.owner () = none) :
    (program verbose calls values).threads.Reachable { s with code := update s.code t c } := by
  cases verbose with
  | false =>
      have hsame : update s.code t c = s.code := by
        rw [show c = s.code t from hcode.symm, Function.update_eq_self]
      rwa [hsame]
  | true =>
      have hsame : update (update s.owner () (some t)) () none = s.owner := by
        rw [Function.update_idem, ← hfree, Function.update_eq_self]
      have hlock := hs.snoc (CallProgram.step_lock hcode hfree)
      have hunlock := hlock.snoc (CallProgram.step_unlock (Function.update_self ..))
      simpa [hsame] using hunlock

/-- A thread begins a call. -/
theorem reachable_begin {rest : List (ℕ × ℕ)}
    (hs : (program verbose calls values).threads.Reachable s) (hcode : s.code t = [])
    (htodo : s.todo t = p :: rest) (hfree : s.owner () = none) :
    (program verbose calls values).threads.Reachable { s with
      todo := update s.todo t rest
      code := update s.code t (vectorAdd p.1 p.2 ++ VectorAdd.printInfo () verbose) } := by
  have hbegin := hs.snoc (CallProgram.step_begin hcode htodo)
  have hprint := reachable_printInfo hbegin (t := t)
    (c := vectorAdd p.1 p.2 ++ VectorAdd.printInfo () verbose) (Function.update_self ..) hfree
  simpa using hprint

/-- A thread goes through the loop for some of the elements. -/
theorem reachable_elements {l : List (Fin vectorSize)} {c : List (Instr ℕ)} (hl : l.Nodup)
    (hs : (program verbose calls values).threads.Reachable s)
    (hcode : s.code t = (l.flatMap (addElement p.1 p.2)).map .act ++ c) :
    ∃ r, (program verbose calls values).threads.Reachable { s with
      code := update s.code t c
      reg := update s.reg t r
      mem := update s.mem p.1 fun i =>
        if i ∈ l then s.mem p.1 i + s.mem p.2 i else s.mem p.1 i } := by
  have hrun := hs.run (CallProgram.run_acts hcode)
  have hmem : ((l.flatMap (addElement p.1 p.2)).foldl
      (fun v a => (program verbose calls values).acts.act a v) (s.reg t, s.mem)).2 = _ :=
    VectorAdd.foldl_elements (fun i r μ => rfl) hl (s.reg t) s.mem
  rw [hmem] at hrun
  exact ⟨_, hrun⟩

/-- No thread is in a call. -/
def Quiet (s : CallState (Fin n) (ℕ × ℕ) Unit (Act ℕ) Empty ℕ Int32 Values) : Prop :=
  (∀ t, s.code t = []) ∧ s.owner () = none

/-- A call with nothing in between. -/
theorem reachable_call {rest : List (ℕ × ℕ)}
    (hs : (program verbose calls values).threads.Reachable s) (hquiet : Quiet s)
    (htodo : s.todo t = p :: rest) :
    ∃ s', (program verbose calls values).threads.Reachable s' ∧ Quiet s' ∧
      s'.todo = update s.todo t rest ∧ s'.mem = addAtomic s.mem p := by
  have hbegin := reachable_begin hs (hquiet.1 t) htodo hquiet.2
  obtain ⟨r, hloop⟩ := reachable_elements (t := t) (p := p) (List.nodup_finRange vectorSize) hbegin
    (Function.update_self ..)
  have hend := reachable_printInfo hloop (t := t) (c := []) (by simp) hquiet.2
  refine ⟨_, hend, ⟨fun u => ?_, hquiet.2⟩, rfl, ?_⟩
  · by_cases hu : u = t
    · subst hu
      simp
    · simp [hu, hquiet.1 u]
  · simp [addAtomic]

/-- From where no thread is in a call, the threads can make their calls one after the other. -/
theorem reachable_finished (hne : ∀ t, ∀ q ∈ calls t, q.1 ≠ q.2)
    (hs : (program verbose calls values).threads.Reachable s) (hquiet : Quiet s)
    (huneven : Uneven s.mem) :
    ∃ s', (program verbose calls values).threads.Reachable s' ∧ (∀ t, s'.Finished t) ∧
      Uneven s'.mem := by
  obtain ⟨k, hk⟩ : ∃ k, ∑ t, (s.todo t).length = k := ⟨_, rfl⟩
  induction k generalizing s with
  | zero =>
      refine ⟨s, hs, fun t => ⟨hquiet.1 t, List.eq_nil_of_length_eq_zero ?_⟩, huneven⟩
      exact Finset.sum_eq_zero_iff.mp hk t (Finset.mem_univ t)
  | succ k ih =>
      obtain ⟨t, -, ht⟩ := Finset.exists_ne_zero_of_sum_ne_zero (hk.trans_ne k.succ_ne_zero)
      obtain ⟨q, rest, htodo⟩ := List.exists_cons_of_length_pos (Nat.pos_of_ne_zero ht)
      have hq : q ∈ calls t :=
        (CallProgram.standsIn_of_reachable hs t).subset (htodo ▸ List.mem_cons_self)
      obtain ⟨s', hs', hquiet', htodo', hmem'⟩ := reachable_call hs hquiet htodo
      refine ih hs' hquiet' ?_ ?_
      · rw [hmem', uneven_addAtomic _ (hne t q hq)]
        exact huneven
      · have hsum := sum_add_of_eq_off (fun u => (s.todo u).length)
          (fun u => (s'.todo u).length) (i := t)
          fun u hu => by rw [htodo', Function.update_of_ne hu]
        simp only [htodo', Function.update_self, htodo, List.length_cons] at hsum
        rw [htodo']
        omega

/-- The loop over the elements, cut in two. -/
theorem vectorAdd_append {l l' : List (Fin vectorSize)} (h : List.finRange vectorSize = l ++ l')
    (dst src : ℕ) (c : List (Instr ℕ)) :
    vectorAdd dst src ++ c = (l.flatMap (addElement dst src)).map .act ++
      ((l'.flatMap (addElement dst src)).map .act ++ c) := by
  rw [vectorAdd, h, List.flatMap_append, List.map_append, List.append_assoc]

/-- Some run leads to `t` with the code `c` and `u` with the code `d` left, all others between two
calls, and `μ` in the memory. -/
def Stands (verbose : Bool) (calls : Fin n → List (ℕ × ℕ)) (values : ℕ → Values) (t u : Fin n)
    (c d : List (Instr ℕ)) (μ : ℕ → Values) : Prop :=
  ∃ s, (program verbose calls values).threads.Reachable s ∧ s.code t = c ∧ s.code u = d ∧
    (∀ w, w ≠ t → w ≠ u → s.code w = []) ∧ s.owner () = none ∧ s.mem = μ

section Stands

variable {u : Fin n} {c d : List (Instr ℕ)} {μ : ℕ → Values}

theorem Stands.swap (h : Stands verbose calls values t u c d μ) :
    Stands verbose calls values u t d c μ := by
  obtain ⟨s, hs, hc, hd, hother, hfree, hmem⟩ := h
  exact ⟨s, hs, hd, hc, fun w hu ht => hother w ht hu, hfree, hmem⟩

/-- Both threads have begun their first calls. -/
theorem stands_begin (verbose : Bool) (values : ℕ → Values) (htu : t ≠ u) {q : ℕ × ℕ}
    {rest rest' : List (ℕ × ℕ)} (ht : calls t = p :: rest) (hu : calls u = q :: rest') :
    Stands verbose calls values t u (vectorAdd p.1 p.2 ++ VectorAdd.printInfo () verbose)
      (vectorAdd q.1 q.2 ++ VectorAdd.printInfo () verbose) values := by
  have hstart : (program verbose calls values).threads.Reachable
      (program verbose calls values).start :=
    ⟨[], .start rfl⟩
  have hfirst := reachable_begin hstart (t := t) rfl ht rfl
  have hsecond := reachable_begin hfirst (t := u) (Function.update_of_ne htu.symm ..)
    ((Function.update_of_ne htu.symm ..).trans hu) rfl
  refine ⟨_, hsecond, ?_, Function.update_self .., fun w hwt hwu => ?_, rfl, rfl⟩
  · exact (Function.update_of_ne htu ..).trans (Function.update_self ..)
  · exact (Function.update_of_ne hwu ..).trans (Function.update_of_ne hwt ..)

theorem Stands.elements (htu : t ≠ u) {l : List (Fin vectorSize)} (hl : l.Nodup)
    (h : Stands verbose calls values t u ((l.flatMap (addElement p.1 p.2)).map .act ++ c) d μ) :
    Stands verbose calls values t u c d
      (update μ p.1 fun i => if i ∈ l then μ p.1 i + μ p.2 i else μ p.1 i) := by
  obtain ⟨s, hs, hc, hd, hother, hfree, rfl⟩ := h
  obtain ⟨r, hnext⟩ := reachable_elements hl hs hc
  refine ⟨_, hnext, Function.update_self .., ?_, fun w hwt hwu => ?_, hfree, rfl⟩
  · exact (Function.update_of_ne htu.symm ..).trans hd
  · exact (Function.update_of_ne hwt ..).trans (hother w hwt hwu)

theorem Stands.return (htu : t ≠ u)
    (h : Stands verbose calls values t u (VectorAdd.printInfo () verbose) d μ) :
    Stands verbose calls values t u [] d μ := by
  obtain ⟨s, hs, hc, hd, hother, hfree, rfl⟩ := h
  have hnext := reachable_printInfo hs (c := []) (by rw [hc, List.append_nil]) hfree
  refine ⟨_, hnext, Function.update_self .., ?_, fun w hwt hwu => ?_, hfree, rfl⟩
  · exact (Function.update_of_ne htu.symm ..).trans hd
  · exact (Function.update_of_ne hwt ..).trans (hother w hwt hwu)

/-- Two threads that add two vectors to each other can pass each other after the first element: the
first thread is ahead there, and the second one at the next element. -/
theorem reachable_uneven (verbose : Bool) (calls : Fin n → List (ℕ × ℕ)) (htu : t ≠ u)
    {rest rest' : List (ℕ × ℕ)} (ht : calls t = (0, 1) :: rest) (hu : calls u = (1, 0) :: rest')
    (hvalues : values = fun v _ => Int32.ofNat v) :
    ∃ s, (program verbose calls values).threads.Reachable s ∧ Quiet s ∧ Uneven s.mem := by
  have hone : List.finRange vectorSize = [⟨0, by decide⟩] ++ (List.finRange vectorSize).drop 1 :=
    rfl
  have htwo : List.finRange vectorSize =
      [⟨0, by decide⟩, ⟨1, by decide⟩] ++ (List.finRange vectorSize).drop 2 := rfl
  have hnodup : ∀ k, ((List.finRange vectorSize).drop k).Nodup := fun k =>
    (List.nodup_finRange _).sublist (List.drop_sublist ..)
  have hbegin := stands_begin verbose values htu ht hu
  rw [vectorAdd_append hone, vectorAdd_append htwo] at hbegin
  -- the first element of `t`, the first two of `u`, the rest of `t`, and the rest of `u`
  have hpassed := (((hbegin.elements (p := (0, 1)) htu (by simp)).swap.elements
    (p := (1, 0)) htu.symm
    (by simp)).swap.elements (p := (0, 1)) htu (hnodup 1)).swap.elements
    (p := (1, 0)) htu.symm (hnodup 2)
  obtain ⟨s, hs, hcu, hct, hother, hfree, hmem⟩ := ((hpassed.return htu.symm).swap.return htu).swap
  refine ⟨s, hs, ⟨fun w => ?_, hfree⟩, 1, ?_⟩
  · by_cases hwu : w = u
    · exact hwu ▸ hcu
    · by_cases hwt : w = t
      · exact hwt ▸ hct
      · exact hother w hwu hwt
  · have hzero : (⟨0, by decide⟩ : Fin vectorSize) ∉ (List.finRange vectorSize).drop 2 := by decide
    have hone' : (⟨1, by decide⟩ : Fin vectorSize) ∉ (List.finRange vectorSize).drop 2 := by decide
    rw [hmem, hvalues]
    simp [hzero, hone']

end Stands

end Uneven

/-- **When `vector-nolock.c` is serializable.** With the threads of `main`, every run ends with all
threads returned. Whether its values are always those of the calls done one after the other, in some
order that keeps the order of each thread, depends on the arguments: it is so unless `-d` is given
without `-p`, with at least two threads and one pass. -/
theorem nolock_serializable_iff (enableParallelism causeDeadlock verbose : Bool)
    (loops numThreads : ℕ) :
    (mainProgram enableParallelism causeDeadlock verbose loops numThreads).threads.Terminates
      (mainProgram enableParallelism causeDeadlock verbose loops numThreads).runLength
      (fun s => ∀ t, s.Finished t) ∧
    ((∀ s,
      (mainProgram enableParallelism causeDeadlock verbose loops numThreads).threads.Reachable s →
        (∀ t, s.Finished t) → ∃ order : List (Fin numThreads × (ℕ × ℕ)),
          (∀ t, CallProgram.callsOf t order = workerCalls enableParallelism causeDeadlock loops t) ∧
          s.mem = order.foldl (fun μ c => addAtomic μ c.2) fun v _ => Int32.ofNat v) ↔
      ¬ VectorDeadlock.CanDeadlock enableParallelism causeDeadlock loops numThreads) := by
  refine ⟨CallProgram.terminates (fun s _ => s.noFailedTryLock_of_isEmpty)
    (fun s hs => not_deadlocked hs) fun s _ hfin => hfin, fun h hcan => ?_, ?_⟩
  · obtain ⟨rfl, rfl, hloops, hthreads⟩ := hcan
    obtain ⟨k, rfl⟩ := Nat.exists_eq_add_of_le' hloops
    have hne : ∀ t : Fin numThreads, ∀ p ∈ workerCalls false true (k + 1) t, p.1 ≠ p.2 := fun t p =>
      VectorAdd.ne_of_mem_workerCalls
    obtain ⟨s, hs, hquiet, huneven⟩ := reachable_uneven verbose
      (fun i : Fin numThreads => workerCalls false true (k + 1) i) (t := ⟨0, by omega⟩)
      (u := ⟨1, by omega⟩) (by simp) rfl rfl rfl
    obtain ⟨s', hs', hfin, huneven'⟩ := reachable_finished hne hs hquiet huneven
    obtain ⟨order, hcalls, hmem⟩ := h s' hs' hfin
    -- one after the other, the calls keep the elements of each vector equal
    rw [hmem] at huneven'
    refine not_uneven_serial order (fun c hc => ?_) (fun ⟨v, hv⟩ => hv rfl) huneven'
    refine hne c.1 c.2 ?_
    rw [← hcalls]
    exact List.mem_map.mpr ⟨c, by simpa using hc, rfl⟩
  · intro hsafe s hs hfin
    have hsep := separate_workerCalls (n := numThreads) hsafe
    have hcalls : ∀ t : Fin numThreads,
        CallProgram.callsOf t ((List.finRange numThreads).flatMap fun u =>
        (workerCalls enableParallelism causeDeadlock loops u.val).map (Prod.mk u)) =
        workerCalls enableParallelism causeDeadlock loops t := fun t => by
      rw [CallProgram.callsOf_flatMap (fun u : Fin numThreads =>
        workerCalls enableParallelism causeDeadlock loops u) (List.nodup_finRange _)]
      simp
    exact ⟨_, hcalls, (mem_of_finished hsep hs hfin).trans (serial_of_separate hsep _ hcalls).symm⟩

end Osvcp.VectorNolock
