import Osvcp.Vectors.VectorAddSerial
import Mathlib.Order.WithBot

/-! # No deadlock in `vector-global-order.c` and `vector-avoid-hold-and-wait.c`

In the first program a thread that waits for the lock of a vector holds only locks of vectors at
lower addresses, so the highest address waited for belongs to a lock whose owner can go on. In the
second a thread that waits for the lock of a vector holds `global`, and the owner of that lock, not
holding it, has all the locks it needs.
-/

namespace Osvcp.VectorAdd

open Function (update)

variable {V : Type*} {n : ℕ} [LinearOrder V]

/-- The locks of the vectors in the order of the addresses, and the others before them. -/
def addressRank : Mutex V → WithBot V
  | .vec v => v
  | _ => ⊥

/-- Where a thread waits in `vector-avoid-hold-and-wait.c`: it waits for the lock of a vector with
`global`, and for anything else with nothing. -/
def UnderGlobal (m : Mutex V) (c : List (Instr V)) : Prop :=
  (∃ v, m = .vec v ∧ holds .global c = true) ∨
    ((∀ v, m ≠ .vec v) ∧ ∀ m', holds m' (.lock m :: c) = false)

/-! ## The code -/

section Code

variable {P : Setup V n} {p : V × V} {b : Bool} {R : Mutex V → List (Instr V) → Prop}

/-- In a pass of the loop in `worker`, only the waits of `vector_add` matter. -/
theorem everyWait_pass (hprint : ∀ c, (∀ m, holds m (.lock .print :: c) = false) → R .print c)
    (hcall : ∀ c, EveryWait R c → (∀ m, holds m c = false) →
      EveryWait R (P.variant.vectorAdd p.1 p.2 ++ c)) :
    EveryWait R (P.pass p) :=
  everyWait_workerPass hprint (fun _ => holds_vectorAdd) fun hend => hcall _ hend fun _ =>
    holds_printInfo

/-- The locks of `vector-global-order.c` are taken in the order of the addresses. -/
theorem everyWait_globalOrder (dst src : V) {c : List (Instr V)}
    (hc : EveryWait (CallProgram.Ascending addressRank) c) (hholds : ∀ m, holds m c = false) :
    EveryWait (CallProgram.Ascending addressRank) (GlobalOrder.vectorAdd dst src ++ c) := by
  rcases lt_trichotomy dst src with hlt | rfl | hgt
  · simp only [GlobalOrder.vectorAdd_of_lt hlt, List.cons_append, List.append_assoc,
      List.nil_append, EveryWait, addValues, everyWait_acts]
    refine ⟨CallProgram.ascending_of_free fun m => ?_, fun m hm => ?_, hc⟩
    · simp [hholds]
      tauto
    · simp [hholds] at hm
      rw [← hm.2.resolve_left hm.1]
      exact WithBot.coe_lt_coe.mpr hlt
  · simp only [GlobalOrder.vectorAdd_self, List.cons_append, List.append_assoc, List.nil_append,
      EveryWait, addValues, everyWait_acts]
    exact ⟨CallProgram.ascending_of_free fun m => by simp [hholds], hc⟩
  · simp only [GlobalOrder.vectorAdd_of_gt hgt, List.cons_append, List.append_assoc,
      List.nil_append, EveryWait, addValues, everyWait_acts]
    refine ⟨CallProgram.ascending_of_free fun m => ?_, fun m hm => ?_, hc⟩
    · simp [hholds]
      tauto
    · simp [hholds] at hm
      rw [← hm.2.resolve_right hm.1]
      exact WithBot.coe_lt_coe.mpr hgt

/-- The locks of the vectors in `vector-avoid-hold-and-wait.c` are taken under `global`. -/
theorem everyWait_avoidHoldAndWait (dst src : V) {c : List (Instr V)} (hc : EveryWait UnderGlobal c)
    (hholds : ∀ m, holds m c = false) :
    EveryWait UnderGlobal (AvoidHoldAndWait.vectorAdd dst src ++ c) := by
  simp only [AvoidHoldAndWait.vectorAdd, List.cons_append, List.append_assoc, List.nil_append,
    EveryWait, addValues, everyWait_acts]
  refine ⟨Or.inr ⟨by simp, fun m => ?_⟩, Or.inl ⟨dst, rfl, by simp⟩, Or.inl ⟨src, rfl, by simp⟩, hc⟩
  simp [hholds]
  tauto

/-- The calls of the two programs start with their pass only. -/
theorem everyWait_entry (hvariant : P.variant ≠ .tryWait) (hpass : EveryWait R (P.pass p))
    {c : List (Instr V)} (he : P.program.Entry p c) : EveryWait R c := by
  rcases entry_cases he with rfl | ⟨-, htry⟩
  · exact hpass
  · exact absurd htry hvariant

end Code

/-! ## Whole runs -/

section Runs

variable {P : Setup V n} {s : ProgramState V n} {t : Fin n}

/-- How far a waiting thread is in `vector-avoid-hold-and-wait.c`. -/
def underGlobal : List (Instr V) → ℕ
  | .lock (.vec _) :: _ => 1
  | _ => 0

theorem globalOrder_not_deadlocked (hP : P.variant = .globalOrder)
    (hs : P.program.threads.Reachable s) :
    ¬ P.program.threads.Deadlocked CallState.Finished s := by
  have hpass : ∀ p, EveryWait (CallProgram.Ascending addressRank) (P.pass p) := fun p =>
    everyWait_pass (fun c => CallProgram.ascending_of_free) fun c hc hholds => by
      rw [hP]
      exact everyWait_globalOrder p.1 p.2 hc hholds
  exact CallProgram.not_deadlocked_of_rank addressRank (twoPhase fun t p _ => Or.inl hP).balanced
    (fun t p _ e he => everyWait_entry (by simp [hP]) (hpass p) he) hs

theorem avoidHoldAndWait_not_deadlocked (hP : P.variant = .avoidHoldAndWait)
    (hne : ∀ t, ∀ p ∈ P.calls t, p.1 ≠ p.2) (hs : P.program.threads.Reachable s) :
    ¬ P.program.threads.Deadlocked CallState.Finished s := by
  have hpass : ∀ p, EveryWait UnderGlobal (P.pass p) := fun p =>
    everyWait_pass (fun c hc => Or.inr ⟨by simp, hc⟩) fun c hc hholds => by
      rw [hP]
      exact everyWait_avoidHoldAndWait p.1 p.2 hc hholds
  have hbalanced := (twoPhase fun t p hp => Or.inr (hne t p hp)).balanced
  have hwait : ∀ t, EveryWait UnderGlobal (s.code t) := CallProgram.everyWait_of_reachable
    (fun t p _ e he => everyWait_entry (by simp [hP]) (hpass p) he) hs
  rw [CallProgram.deadlocked_iff]
  refine not_all_blocked_of_rank (fun t => underGlobal (s.code t)) fun t _ hb => ?_
  obtain ⟨m, c, u, hcode, hut, hu, hholds⟩ := CallProgram.holder_of_blocked hbalanced hs hb
  refine ⟨u, hu, ?_⟩
  rintro ⟨m', c', hcode', -⟩
  -- the owner waits too and holds something, so it waits for the lock of a vector, with `global`
  have hwaitu : EveryWait UnderGlobal (.lock m' :: c') := hcode' ▸ hwait u
  rcases hwaitu.1 with ⟨w, rfl, hglobal⟩ | ⟨-, hnone⟩
  · have hwaitt : EveryWait UnderGlobal (.lock m :: c) := hcode ▸ hwait t
    rcases hwaitt.1 with ⟨v, rfl, hglobal'⟩ | ⟨hm, -⟩
    · exfalso
      have hown : ∀ {i v c}, s.code i = .lock (.vec v) :: c → holds .global c = true →
          s.owner .global = some i := by
        intro i v c hi hg
        rw [CallProgram.owner_iff_of_reachable hbalanced hs, hi]
        simpa using hg
      have hsame := (hown hcode' hglobal).symm.trans (hown hcode hglobal')
      exact hut (Option.some.inj hsame)
    · rw [hcode, hcode']
      cases m with
      | vec v => exact absurd rfl (hm v)
      | global => exact Nat.zero_lt_one
      | print => exact Nat.zero_lt_one
  · rw [hcode', hnone m] at hholds
    exact absurd hholds Bool.false_ne_true

end Runs

/-- In no reachable state of `vector-global-order.c`, for any calls, or of
`vector-avoid-hold-and-wait.c`, for calls of two different vectors, is a thread unfinished while all
unfinished threads wait for a mutex. -/
theorem vector_add_not_deadlocked (P : Setup V n) (hP : P.variant = .globalOrder ∨
      (P.variant = .avoidHoldAndWait ∧ ∀ t, ∀ p ∈ P.calls t, p.1 ≠ p.2))
    {s : State V n} (hs : (vectorThreads P).Reachable s) :
    ¬ ((∃ t, ¬ Finished s t) ∧ ∀ t, ¬ Finished s t → Blocked s t) := by
  have hcalls := (projection P).reachable hs
  have hlive : ¬ P.program.threads.Deadlocked CallState.Finished s.calls := by
    rcases hP with hP | ⟨hP, hne⟩
    · exact globalOrder_not_deadlocked hP hcalls
    · exact avoidHoldAndWait_not_deadlocked hP hne hcalls
  rwa [CallProgram.deadlocked_iff] at hlive

/-- Two threads add two vectors to each other, and the second then one of them to itself. -/
def opposed (variant : Variant) : Setup ℕ 2 where
  variant := variant
  verbose := false
  calls t :=
    if t.val = 0 then [(0, 1)] else [(1, 0)] ++ if variant = .globalOrder then [(1, 1)] else []
  values v _ := if v = 0 then 0 else 1

/-- In both programs the second thread can have to wait for the first, which then goes on. -/
theorem vector_add_not_deadlocked_run :
    (∃ s, (vectorThreads (opposed .globalOrder)).Reachable s ∧ Blocked s 1 ∧
      ¬ ((∃ t, ¬ Finished s t) ∧ ∀ t, ¬ Finished s t → Blocked s t)) ∧
    ∃ s, (vectorThreads (opposed .avoidHoldAndWait)).Reachable s ∧ Blocked s 1 ∧
      ¬ ((∃ t, ¬ Finished s t) ∧ ∀ t, ¬ Finished s t → Blocked s t) := by
  refine ⟨?_, ?_⟩
  · obtain ⟨s, hex, hc⟩ := LTS.exec_of_run_any (vectorThreads (opposed .globalOrder)) (start _)
      [0, 0, 0, 1] (fun s => (step (opposed .globalOrder) s 1).isNone &&
        !(s.threads 1).code.isEmpty) rfl (by decide +kernel)
    simp only [Bool.and_eq_true, Option.isNone_iff_eq_none, Bool.not_eq_true',
      List.isEmpty_eq_false_iff] at hc
    refine ⟨s, ⟨_, hex⟩, (step_eq_none_iff fun h => hc.2 h.1).mp hc.1, ?_⟩
    exact vector_add_not_deadlocked (opposed .globalOrder) (Or.inl rfl) ⟨_, hex⟩
  · obtain ⟨s, hex, hc⟩ := LTS.exec_of_run_any (vectorThreads (opposed .avoidHoldAndWait)) (start _)
      [0, 0, 0, 1] (fun s => (step (opposed .avoidHoldAndWait) s 1).isNone &&
        !(s.threads 1).code.isEmpty) rfl (by decide +kernel)
    simp only [Bool.and_eq_true, Option.isNone_iff_eq_none, Bool.not_eq_true',
      List.isEmpty_eq_false_iff] at hc
    refine ⟨s, ⟨_, hex⟩, (step_eq_none_iff fun h => hc.2 h.1).mp hc.1, ?_⟩
    exact vector_add_not_deadlocked (opposed .avoidHoldAndWait) (Or.inr ⟨rfl, by decide⟩) ⟨_, hex⟩

/-! ## The program of `main` -/

/-- With the calls that `main` gives its threads, neither program deadlocks. -/
theorem main_not_deadlocked {variant : Variant} (hv : variant ≠ .tryWait)
    {enableParallelism causeDeadlock verbose : Bool} {loops : ℕ} {s : ProgramState ℕ n}
    (hs : (mainSetup variant enableParallelism causeDeadlock verbose loops
      n).program.threads.Reachable s) :
    ¬ (mainSetup variant enableParallelism causeDeadlock verbose loops n).program.threads.Deadlocked
      CallState.Finished s := by
  cases variant with
  | globalOrder => exact globalOrder_not_deadlocked rfl hs
  | avoidHoldAndWait =>
      exact avoidHoldAndWait_not_deadlocked rfl (fun t p => ne_of_mem_workerCalls) hs
  | tryWait => exact absurd rfl hv

end Osvcp.VectorAdd
