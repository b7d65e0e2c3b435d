import Osvcp.Counters.SloppyCounterGlobal

/-! # The law of the three sloppy counters

`sloppy_counter.c` gives each thread a slot of its own and `sloppy_counter_cpu_based.c` gives thread
`i` the slot `i % num_cpus`; both are `SloppyCounter` with their own assignment of slots. In
`cloppy_counter_only_global_lock.c` the slots are the private counts of the threads.
-/

namespace Osvcp.SloppyCounter

/-- `sloppy_counter.c`: thread `i` counts in slot `i`. -/
def perThread (n : ℕ) (increments : Fin n → ℕ) (threshold : ℕ) (hpos : 0 < threshold)
    (hlt : threshold < 2 ^ 31) : Setup (Fin n) n where
  slot := id
  increments := increments
  threshold := threshold
  threshold_pos := hpos
  threshold_lt := hlt

/-- `sloppy_counter_cpu_based.c`: thread `i` counts in slot `i % num_cpus`. -/
def perCpu (n numCpus : ℕ) (hcpus : 0 < numCpus) (increments : Fin n → ℕ) (threshold : ℕ)
    (hpos : 0 < threshold) (hlt : threshold < 2 ^ 31) : Setup (Fin n) numCpus where
  slot t := ⟨t % numCpus, Nat.mod_lt _ hcpus⟩
  increments := increments
  threshold := threshold
  threshold_pos := hpos
  threshold_lt := hlt

/-- The law of a sloppy counter while no update is in progress, with `held` in its slots. The counts
are of type `int`, so it is an equation of `int`; below the overflow it is one of numbers. -/
def Law (slots threshold : ℕ) (globalCount held : ℤ) (completed : ℕ) : Prop :=
  wrap (globalCount + held) = wrap completed ∧
  (∃ lag : ℤ, 0 ≤ lag ∧ lag ≤ slots * (threshold - 1) ∧ globalCount = wrap (completed - lag)) ∧
  (completed < 2 ^ 31 → globalCount + held = completed ∧ globalCount ≤ completed ∧
    completed - globalCount ≤ slots * (threshold - 1))

theorem Inv.law {T : Type*} [Fintype T] {slots : ℕ} {P : Setup T slots} {s : State T slots}
    (hI : Inv P s) (hq : s.Quiet) :
    Law slots P.threshold s.counter.globalCount s.inSlots s.completed := by
  obtain ⟨hnonneg, hle, -⟩ := hI.inSlots_of_quiet hq
  refine ⟨hI.sum_of_quiet hq, ⟨s.inSlots, hnonneg, hle, ?_⟩, fun hlt => ?_⟩
  · rw [hI.account, weight_of_quiet hq]
  · have hsum := hI.sum_of_quiet_of_lt hq hlt
    refine ⟨hsum, by omega, ?_⟩
    rw [← hsum, add_sub_cancel_left]
    exact hle

end Osvcp.SloppyCounter

namespace Osvcp.SloppyCounterGlobal

open SloppyCounter (wrap Law)

theorem Inv.law {n : ℕ} {P : Setup n} {s : State n} (hI : Inv P s) (hq : s.Quiet) :
    Law n P.threshold s.counter.globalCount s.inThreads s.completed := by
  obtain ⟨hnonneg, hle, -⟩ := hI.inThreads_of_quiet hq
  refine ⟨hI.sum_of_quiet hq, ⟨s.inThreads, hnonneg, hle, ?_⟩, fun hlt => ?_⟩
  · have hadded : ∑ t, (s.thread t).added P.threshold = s.completed - s.inThreads := by
      have h := hI.sum_added_of_quiet hq
      omega
    rw [hI.account, hadded]
  · have hsum := hI.sum_of_quiet_of_lt hq hlt
    refine ⟨hsum, by omega, ?_⟩
    rw [← hsum, add_sub_cancel_left]
    exact hle

end Osvcp.SloppyCounterGlobal

namespace Osvcp.SloppyCounter

/-- The result for `increments` updates by each of `n` threads. -/
theorem wrap_mul_of_lt {n increments : ℕ} (h : n * increments < 2 ^ 31) :
    wrap (n * increments : ℕ) = n * increments := by
  rw [wrap_of_lt (Int.natCast_nonneg _) (by exact_mod_cast h)]
  push_cast
  rfl

/-- No sloppy counter loses or duplicates an increment. For the two counters with slots, for any
assignment of threads to slots, and for the counter with private counts: while no update is in
progress the local counts are in `[0, THRESHOLD)` and the law holds; and after all threads are
joined `sloppy_counter_get` returns `num_threads * increments` as an `int`. -/
theorem sloppy_counters_law :
    (∀ (n slots : ℕ) (P : Setup (Fin n) slots) (s : State (Fin n) slots),
      (sloppyCounter P).Reachable s →
      (s.Quiet → (∀ j, 0 ≤ s.counter.localCounts j ∧ s.counter.localCounts j < P.threshold) ∧
        Law slots P.threshold s.counter.globalCount (∑ j, s.counter.localCounts j) s.completed) ∧
      ∀ increments, (∀ t, P.increments t = increments) → s.Joined → s.get = .idle →
        ∃ k s', (sloppyCounter P).run s (List.replicate k .main) = some s' ∧
          s'.get = .returned (wrap (n * increments : ℕ)) ∧
          (n * increments < 2 ^ 31 → s'.get = .returned (n * increments))) ∧
    ∀ (n : ℕ) (P : SloppyCounterGlobal.Setup n) (s : SloppyCounterGlobal.State n),
      (SloppyCounterGlobal.sloppyCounter P).Reachable s →
      (s.Quiet → (∀ t, (s.thread t).pc ≠ .init →
          0 ≤ (s.thread t).localCount ∧ (s.thread t).localCount < P.threshold) ∧
        Law n P.threshold s.counter.globalCount (∑ t, (s.thread t).held) s.completed) ∧
      ∀ increments, (∀ t, P.increments t = increments) → s.Joined → s.main = .join →
        ∃ k s', (SloppyCounterGlobal.sloppyCounter P).run s (List.replicate k .main) = some s' ∧
          s'.main = .returned (wrap (n * increments : ℕ)) ∧
          (n * increments < 2 ^ 31 → s'.main = .returned (n * increments)) := by
  refine ⟨fun n slots P s hs => ⟨fun hq => ?_, fun increments hinc hj hidle => ?_⟩,
    fun n P s hs => ⟨fun hq => ?_, fun increments hinc hj hmain => ?_⟩⟩
  · have hI := inv_of_reachable hs
    exact ⟨hI.local_of_quiet hq, hI.law hq⟩
  · obtain ⟨k, s', hrun, hret⟩ := get_of_joined (inv_of_reachable hs) hj hidle
    rw [show ∑ t, P.increments t = n * increments by simp [hinc]] at hret
    exact ⟨k, s', hrun, hret, fun hlt => by rw [hret, wrap_mul_of_lt hlt]⟩
  · have hI := SloppyCounterGlobal.inv_of_reachable hs
    exact ⟨fun t ht => hI.local_of_quiet hq ht, hI.law hq⟩
  · obtain ⟨k, s', hrun, hret⟩ :=
      SloppyCounterGlobal.get_of_joined (SloppyCounterGlobal.inv_of_reachable hs) hj hmain
    rw [show ∑ t, P.increments t = n * increments by simp [hinc]] at hret
    exact ⟨k, s', hrun, hret, fun hlt => by rw [hret, wrap_mul_of_lt hlt]⟩

/-- Two threads on one processor, and one thread with a private count; the second update reaches the
threshold. -/
theorem sloppy_counters_law_run :
    (∃ k s s',
      (sloppyCounter (perCpu 2 1 (by decide) (fun _ => 1) 2 (by decide) (by decide))).Reachable s ∧
      (sloppyCounter (perCpu 2 1 (by decide) (fun _ => 1) 2 (by decide) (by decide))).run s
        (List.replicate k .main) = some s' ∧ s'.get = .returned 2) ∧
    ∃ k s s',
      (SloppyCounterGlobal.sloppyCounter
        ⟨fun _ : Fin 1 => 2, 2, by decide, by decide⟩).Reachable s ∧
      (SloppyCounterGlobal.sloppyCounter ⟨fun _ : Fin 1 => 2, 2, by decide, by decide⟩).run s
        (List.replicate k .main) = some s' ∧ s'.main = .returned 2 := by
  constructor
  · obtain ⟨s, hex, hc⟩ := LTS.exec_of_run_any
      (sloppyCounter (perCpu 2 1 (by decide) (fun _ => 1) 2 (by decide) (by decide)))
      sloppyCounterInit (List.replicate 7 (.thread 0) ++ List.replicate 12 (.thread 1))
      (fun s => decide (s.Joined ∧ s.get = .idle)) rfl (by decide)
    obtain ⟨hj, hidle⟩ := of_decide_eq_true hc
    obtain ⟨k, s', hrun, -, hret⟩ :=
      (sloppy_counters_law.1 _ _ _ s ⟨_, hex⟩).2 1 (fun _ => rfl) hj hidle
    exact ⟨k, s, s', ⟨_, hex⟩, hrun, hret (by decide)⟩
  · obtain ⟨s, hex, hc⟩ := LTS.exec_of_run_any
      (SloppyCounterGlobal.sloppyCounter ⟨fun _ : Fin 1 => 2, 2, by decide, by decide⟩)
      (SloppyCounterGlobal.start fun _ => 7) (List.replicate 13 (.thread 0))
      (fun s => decide s.Joined && s.main.isJoin) ⟨_, rfl⟩ (by decide)
    rw [Bool.and_eq_true] at hc
    have hmain : s.main = .join := by
      cases hm : s.main <;> simp [hm, SloppyCounterGlobal.MainPc.isJoin] at hc
      rfl
    obtain ⟨k, s', hrun, -, hret⟩ :=
      (sloppy_counters_law.2 _ _ s ⟨_, hex⟩).2 2 (fun _ => rfl) (of_decide_eq_true hc.1) hmain
    exact ⟨k, s, s', ⟨_, hex⟩, hrun, hret (by decide)⟩

end Osvcp.SloppyCounter
