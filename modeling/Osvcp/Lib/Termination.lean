import Osvcp.Lib.Threads

/-! # Termination of transition systems

`Terminates` is total correctness under every order of the steps: no execution is longer than a
bound, and one that cannot go on ends where it should. It follows from a measure that every step
decreases, and for threads from that and the absence of deadlock.
-/

namespace Osvcp

namespace LTS

variable {σ ι : Type*} {M : LTS σ ι}

/-- No execution has more than `bound` steps, and where an execution cannot go on, `Q` holds. -/
structure Terminates (M : LTS σ ι) (bound : ℕ) (Q : σ → Prop) : Prop where
  length_le : ∀ {tr : List (σ × ι)} {s : σ}, M.Exec tr s → tr.length ≤ bound
  stuck : ∀ {s : σ}, M.Reachable s → (∀ a, M.step s a = none) → Q s

/-- A step leads from a reachable state to another one. -/
theorem Reachable.snoc {s t : σ} {a : ι} (h : M.Reachable s) (hs : M.step s a = some t) :
    M.Reachable t := by
  obtain ⟨tr, hex⟩ := h
  exact ⟨_, hex.snoc hs⟩

/-- So does a run. -/
theorem Reachable.run {s t : σ} {as : List ι} (h : M.Reachable s) (hr : M.run s as = some t) :
    M.Reachable t := by
  obtain ⟨tr, hex⟩ := h
  exact ⟨_, hex.run hr⟩

/-- The steps taken and the measure that is left do not exceed the bound. -/
theorem Exec.measure_le {μ : σ → ℕ} {bound : ℕ} (hinit : ∀ s, M.init s → μ s ≤ bound)
    (hstep : ∀ s a t, M.Reachable s → M.step s a = some t → μ t < μ s) {tr : List (σ × ι)} {s : σ}
    (h : M.Exec tr s) : tr.length + μ s ≤ bound := by
  induction h with
  | start hs =>
      rw [List.length_nil, Nat.zero_add]
      exact hinit _ hs
  | @snoc tr s t a hex hs ih =>
      have hlt := hstep s a t ⟨tr, hex⟩ hs
      rw [List.length_append, List.length_singleton]
      omega

/-- **Termination rule.** A measure that every step from a reachable state decreases bounds the
length of every execution. -/
theorem terminates_of_measure {Q : σ → Prop} (μ : σ → ℕ) {bound : ℕ}
    (hinit : ∀ s, M.init s → μ s ≤ bound)
    (hstep : ∀ s a t, M.Reachable s → M.step s a = some t → μ t < μ s)
    (hstuck : ∀ s, M.Reachable s → (∀ a, M.step s a = none) → Q s) : M.Terminates bound Q := by
  refine ⟨fun {tr s} hex => ?_, fun hs hnone => hstuck _ hs hnone⟩
  have hle := hex.measure_le hinit hstep
  omega

/-- A system ends with its projection. -/
theorem Projection.terminates {τ : Type*} {N : LTS τ ι} {f : σ → τ}
    (hf : Projection M N f) {bound : ℕ} {Q : τ → Prop} (h : N.Terminates bound Q) :
    M.Terminates bound fun s => Q (f s) := by
  refine ⟨fun {tr s} hex => ?_, fun {s} hs hnone => ?_⟩
  · have hle := h.length_le (hf.exec hex)
    rwa [List.length_map] at hle
  · exact h.stuck (hf.reachable hs) fun a => hf.step_eq_none_iff.mpr (hnone a)

/-- **Termination up to rare steps.** A measure that every other step decreases, and a rare one
increases by at most `k`, bounds the length of an execution by the number of its rare steps. -/
theorem Exec.length_le_of_rare {μ : σ → ℕ} {bound k : ℕ} (rare : ι → Bool)
    (hinit : ∀ s, M.init s → μ s ≤ bound)
    (hstep : ∀ s a t, M.Reachable s → M.step s a = some t → rare a = false → μ t < μ s)
    (hrare : ∀ s a t, M.Reachable s → M.step s a = some t → rare a = true → μ t ≤ μ s + k)
    {tr : List (σ × ι)} {s : σ} (h : M.Exec tr s) :
    tr.length + μ s ≤ bound + (k + 1) * tr.countP (fun p => rare p.2) := by
  induction h with
  | start hs =>
      rw [List.length_nil, Nat.zero_add, List.countP_nil, Nat.mul_zero, Nat.add_zero]
      exact hinit _ hs
  | @snoc tr s t a hex hs ih =>
      rw [List.length_append, List.length_singleton, List.countP_append, List.countP_singleton]
      cases ha : rare a with
      | false =>
          have hlt := hstep s a t ⟨tr, hex⟩ hs ha
          simp only [Bool.false_eq_true, if_false, Nat.add_zero]
          omega
      | true =>
          have hle := hrare s a t ⟨tr, hex⟩ hs ha
          simp only [if_true, Nat.mul_add, Nat.mul_one]
          omega

/-- From every reachable state steps that are not rare lead to one where only rare ones are left;
they keep what such steps keep. -/
theorem Reachable.exists_settled {μ : σ → ℕ} (rare : ι → Bool)
    (hstep : ∀ s a t, M.Reachable s → M.step s a = some t → rare a = false → μ t < μ s)
    {I : σ → Prop} (hkeep : ∀ s a t, M.Reachable s → M.step s a = some t → I s → I t)
    {s : σ} (h : M.Reachable s) (hI : I s) :
    ∃ t, M.Reachable t ∧ I t ∧ ∀ a, rare a = false → M.step t a = none := by
  induction hm : μ s using Nat.strong_induction_on generalizing s with
  | _ m ih =>
      by_cases hnone : ∀ a, rare a = false → M.step s a = none
      · exact ⟨s, h, hI, hnone⟩
      · push Not at hnone
        obtain ⟨a, ha, hsome⟩ := hnone
        obtain ⟨t, ht⟩ := Option.ne_none_iff_exists'.mp hsome
        exact ih (μ t) (hm ▸ hstep s a t h ht ha) (h.snoc ht) (hkeep s a t h ht hI) rfl

/-- Threads that never deadlock have all finished where they cannot go on. -/
theorem finished_of_stuck {finished : σ → ι → Prop} {s : σ} (hlive : ¬ M.Deadlocked finished s)
    (hnone : ∀ t, M.step s t = none) (t : ι) : finished s t := by
  by_contra ht
  exact hlive ⟨⟨t, ht⟩, fun u _ => hnone u⟩

/-- **No deadlock and a measure.** Threads that never deadlock, and of which every step decreases a
measure, all finish in every run. -/
theorem terminates_of_not_deadlocked {finished : σ → ι → Prop} {Q : σ → Prop}
    (μ : σ → ℕ) {bound : ℕ} (hinit : ∀ s, M.init s → μ s ≤ bound)
    (hstep : ∀ s a t, M.Reachable s → M.step s a = some t → μ t < μ s)
    (hlive : ∀ s, M.Reachable s → ¬ M.Deadlocked finished s)
    (hfin : ∀ s, M.Reachable s → (∀ t, finished s t) → Q s) : M.Terminates bound Q :=
  terminates_of_measure μ hinit hstep fun s hs hnone =>
    hfin s hs (finished_of_stuck (hlive s hs) hnone)

/-- Every execution can be continued to where it cannot go on. -/
theorem Terminates.exists_stuck {bound : ℕ} {Q : σ → Prop} (h : M.Terminates bound Q)
    {tr : List (σ × ι)} {s : σ} (hex : M.Exec tr s) :
    ∃ as t, M.run s as = some t ∧ ∀ a, M.step t a = none := by
  -- the steps left before the bound decrease with each step taken
  obtain ⟨k, hk⟩ : ∃ k, bound - tr.length = k := ⟨_, rfl⟩
  induction k generalizing tr s with
  | zero =>
      refine ⟨[], s, rfl, fun a => ?_⟩
      by_contra hsome
      obtain ⟨t, ht⟩ := Option.ne_none_iff_exists'.mp hsome
      have hle := h.length_le (hex.snoc ht)
      rw [List.length_append, List.length_singleton] at hle
      omega
  | succ k ih =>
      by_cases hnone : ∀ a, M.step s a = none
      · exact ⟨[], s, rfl, hnone⟩
      · push Not at hnone
        obtain ⟨a, ha⟩ := hnone
        obtain ⟨t, ht⟩ := Option.ne_none_iff_exists'.mp ha
        obtain ⟨as, u, hrun, hu⟩ := ih (hex.snoc ht) (by
          rw [List.length_append, List.length_singleton]
          omega)
        refine ⟨a :: as, u, ?_, hu⟩
        rw [LTS.run, ht]
        exact hrun

end LTS

/-! ## Threads -/

section Threads

variable {ι α : Type*} [Fintype ι] [DecidableEq ι]

/-- A thread that moves to a place of less weight takes the total down; each thread has its own
weights. -/
theorem sum_update_lt {w : ι → α → ℕ} {f : ι → α} {i : ι} {a : α} (h : w i a < w i (f i)) :
    ∑ j, w j (Function.update f i a j) < ∑ j, w j (f j) := by
  refine Finset.sum_lt_sum (fun j _ => ?_) ⟨i, Finset.mem_univ i, ?_⟩
  · by_cases hj : j = i
    · subst hj
      simpa using h.le
    · simp [hj]
  · simpa using h

theorem tally_update_lt {w : α → ℕ} {f : ι → α} {i : ι} {a : α} (h : w a < w (f i)) :
    tally w (Function.update f i a) < tally w f :=
  sum_update_lt h

end Threads

end Osvcp
