import Osvcp.Lib.Termination
import Osvcp.Counters.SloppyCounterLaw

/-! # The sloppy counters always end

A thread that waits for a lock waits for one further on: who holds the lock of a slot waits at most
for the global lock, and who holds that waits for nothing. So the agents never deadlock, and as each
of their steps brings them nearer to their end, every run ends with all threads returned, and with
the exact count.
-/

namespace Osvcp

open Function (update)

instance SloppyCounter.Agent.finite {T : Type*} [Finite T] : Finite (SloppyCounter.Agent T) := by
  refine Finite.of_surjective (fun o : Option T => o.elim .main .thread) fun a => ?_
  cases a with
  | thread t => exact ⟨some t, rfl⟩
  | main => exact ⟨none, rfl⟩

/-! ## The counters with slots -/

namespace SloppyCounter

variable {T : Type*} {slots : ℕ} {P : Setup T slots} {s s' : State T slots}

/-- The agent has returned. -/
def State.Finished (s : State T slots) : Agent T → Prop
  | .thread t => (s.thread t).pc = .done
  | .main => ∃ total, s.get = .returned total

/-- How far on what an agent waits for is. -/
def Pc.rank : Pc → ℕ
  | .lockLocal => 1
  | .lockGlobal => 2
  | _ => 3

/-- The call is also at the start of the order, where it may wait for the threads. -/
def GetPc.rank : GetPc slots → ℕ
  | .idle => 0
  | .lockLocal _ _ => 1
  | .lockGlobal => 2
  | _ => 3

def State.rank (s : State T slots) : Agent T → ℕ
  | .thread t => (s.thread t).pc.rank
  | .main => s.get.rank

theorem State.ownsLocal_rank {j : Fin slots} {a : Agent T} (h : s.OwnsLocal P j a) :
    ¬ s.Finished a ∧ 1 < s.rank a := by
  cases a with
  | thread t =>
      have hin : (s.thread t).pc.inLocal = true := h.2
      simp only [State.Finished, State.rank]
      cases hp : (s.thread t).pc <;> simp_all [Pc.inLocal, Pc.rank]
  | main =>
      have hin : s.get.inLocal j = true := h
      simp only [State.Finished, State.rank]
      cases hg : s.get <;> simp_all [GetPc.inLocal, GetPc.rank]

theorem State.ownsGlobal_rank {a : Agent T} (h : s.OwnsGlobal a) :
    ¬ s.Finished a ∧ 2 < s.rank a := by
  cases a with
  | thread t =>
      have hin : (s.thread t).pc.inGlobal = true := h
      simp only [State.Finished, State.rank]
      cases hp : (s.thread t).pc <;> simp_all [Pc.inGlobal, Pc.rank]
  | main =>
      have hin : s.get.inGlobal = true := h
      simp only [State.Finished, State.rank]
      cases hg : s.get <;> simp_all [GetPc.inGlobal, GetPc.rank]

/-- A lock that is not free belongs to an agent further on. -/
theorem Owned.exists_of_local (ho : Owned P s) {j : Fin slots} (h : s.counter.localLocks j ≠ none) :
    ∃ b, ¬ s.Finished b ∧ 1 < s.rank b := by
  obtain ⟨b, hb⟩ := Option.ne_none_iff_exists'.mp h
  exact ⟨b, State.ownsLocal_rank ((ho.local_iff j b).mp hb)⟩

theorem Owned.exists_of_global (ho : Owned P s) (h : s.counter.globalLock ≠ none) :
    ∃ b, ¬ s.Finished b ∧ 2 < s.rank b := by
  obtain ⟨b, hb⟩ := Option.ne_none_iff_exists'.mp h
  exact ⟨b, State.ownsGlobal_rank ((ho.global_iff b).mp hb)⟩

variable [DecidableEq T]

/-- A blocked agent waits for one further on. -/
theorem Owned.waits (ho : Owned P s) {a : Agent T} (hfin : ¬ s.Finished a) (h : step P s a = none) :
    ∃ b, ¬ s.Finished b ∧ s.rank a < s.rank b := by
  cases a with
  | thread t =>
      have hnone : threadStep P t s.counter (s.thread t) = none := by simpa [step] using h
      change ∃ b, ¬ s.Finished b ∧ (s.thread t).pc.rank < s.rank b
      unfold threadStep at hnone
      cases hp : (s.thread t).pc <;> simp only [hp, Option.map_eq_none_iff, reduceCtorEq] at hnone
      case lockLocal => exact ho.exists_of_local (mutexLock_eq_none.mp hnone)
      case lockGlobal => exact ho.exists_of_global (mutexLock_eq_none.mp hnone)
      case done => exact absurd hp hfin
  | main =>
      have hnone : getStep s.counter s.get = none := by simpa [step] using h
      change ∃ b, ¬ s.Finished b ∧ s.get.rank < s.rank b
      cases hg : s.get <;> simp only [hg, getStep, Option.map_eq_none_iff, reduceCtorEq] at hnone
      case lockLocal j total => exact ho.exists_of_local (mutexLock_eq_none.mp hnone)
      case lockGlobal => exact ho.exists_of_global (mutexLock_eq_none.mp hnone)
      case returned total => exact absurd ⟨total, hg⟩ hfin

/-! ## Progress -/

/-- The steps to the next test of `i < args->increments`, at most. -/
def Pc.toTest : Pc → ℕ
  | .loopTest | .done => 0
  | .lockLocal => 10
  | .incLoad => 9
  | .incStore _ => 8
  | .test => 7
  | .lockGlobal => 6
  | .addLoad => 5
  | .addStore _ => 4
  | .unlockGlobal => 3
  | .reset => 2
  | .unlockLocal => 1

/-- The steps a thread has still to take, at most. -/
def Thread.left (increments : ℕ) (x : Thread) : ℕ :=
  match x.pc with
  | .done => 0
  | .loopTest => (increments - x.i) * 11 + 1
  | pc => (increments - (x.i + 1)) * 11 + pc.toTest + 1

omit [DecidableEq T] in
theorem Fires.left_lt {t : T} {c c' : Counter T slots} {i : ℕ} {p : Pc} {x' : Thread}
    (h : Fires P t c i p c' x') :
    x'.left (P.increments t) < Thread.left (P.increments t) ⟨p, i⟩ := by
  cases h <;> simp only [Thread.left, Pc.toTest] <;> omega

variable [Fintype T]

/-- The steps all agents have still to take, at most. -/
def measure (P : Setup T slots) (s : State T slots) : ℕ :=
  ∑ t, (s.thread t).left (P.increments t) + s.get.fuel

theorem measure_lt {a : Agent T} (h : step P s a = some s') : measure P s' < measure P s := by
  rcases step_cases h with ⟨t, c', x', -, hfires, rfl⟩ | ⟨c', g', -, hfires, rfl⟩
  · exact Nat.add_lt_add_right (sum_update_lt hfires.left_lt) _
  · exact Nat.add_lt_add_left hfires.fuel_lt _

omit [DecidableEq T] in
theorem measure_init : measure P (sloppyCounterInit : State T slots) =
    (∑ t, (P.increments t * 11 + 1)) + (4 * slots + 5) := rfl

/-! ## The agents together -/

omit [DecidableEq T] in
/-- With all agents finished the locks are free and the counts are those of all updates. -/
theorem Inv.at_end (hI : Inv P s) (hfin : ∀ a, s.Finished a) :
    s.counter.globalLock = none ∧ (∀ j, s.counter.localLocks j = none) ∧
      wrap (s.counter.globalCount + ∑ j, s.counter.localCounts j) =
        wrap (∑ t, P.increments t : ℕ) := by
  have hj : s.Joined := fun t => hfin (.thread t)
  refine ⟨?_, fun j => ?_, ?_⟩
  · by_contra hlock
    obtain ⟨b, hb, -⟩ := hI.owned.exists_of_global hlock
    exact hb (hfin b)
  · by_contra hlock
    obtain ⟨b, hb, -⟩ := hI.owned.exists_of_local hlock
    exact hb (hfin b)
  · rw [← hI.completed_of_joined hj]
    exact hI.sum_of_quiet hj.quiet

theorem Owned.not_deadlocked (ho : Owned P s) :
    ¬ (sloppyCounter P).Deadlocked State.Finished s := by
  refine not_all_blocked_of_rank s.rank fun a hfin hnone => ?_
  obtain ⟨b, hb, hlt⟩ := ho.waits hfin hnone
  exact ⟨b, hb, fun _ => hlt⟩

/-! ## The program -/

/-- `main` calls `sloppy_counter_get` after it has joined all threads. -/
def program (P : Setup T slots) : LTS (State T slots) (Agent T) where
  init s := s = sloppyCounterInit
  step s a := match a with
    | .thread t => step P s (.thread t)
    | .main => if s.Joined then step P s .main else none

theorem step_of_program {a : Agent T} (h : (program P).step s a = some s') :
    step P s a = some s' ∧ (a = .main → s.Joined) := by
  cases a with
  | thread t => exact ⟨h, nofun⟩
  | main =>
      obtain ⟨hj, hstep⟩ := Option.ite_none_right_eq_some.mp h
      exact ⟨hstep, fun _ => hj⟩

/-- What the program keeps: `main` has not called before all threads are joined, and is then on the
way to the number of all updates. -/
structure ProgramInv (P : Setup T slots) (s : State T slots) : Prop where
  inv : Inv P s
  get : s.get = .idle ∨ s.Joined ∧ Collects (wrap (∑ t, P.increments t : ℕ)) s

theorem programInv_step {a : Agent T} (hI : ProgramInv P s) (h : (program P).step s a = some s') :
    ProgramInv P s' := by
  obtain ⟨hstep, hjoined⟩ := step_of_program h
  refine ⟨inv_step hI.inv hstep, ?_⟩
  rcases step_cases hstep with ⟨t, c', x', -, hfires, rfl⟩ | ⟨c', g', rfl, hfires, rfl⟩
  · -- a thread that moves has not been joined
    refine hI.get.imp id fun hj => ?_
    have hdone := hj.1 t
    rw [hdone] at hfires
    cases hfires
  · have hj := hjoined rfl
    have hcollects : Collects (wrap (∑ t, P.increments t : ℕ)) s := by
      rcases hI.get with hidle | ⟨-, hcollects⟩
      · unfold Collects
        rw [hidle, ← hI.inv.completed_of_joined hj]
        exact hI.inv.sum_of_quiet hj.quiet
      · exact hcollects
    exact .inr ⟨hj, hcollects.step hI.inv hfires⟩

theorem programInv_of_reachable (hs : (program P).Reachable s) : ProgramInv P s := by
  refine hs.invariant (I := ProgramInv P) ?_ fun s a s' hI h => programInv_step hI h
  rintro s rfl
  exact ⟨inv_init, .inl rfl⟩

theorem ProgramInv.not_deadlocked (hI : ProgramInv P s) :
    ¬ (program P).Deadlocked State.Finished s := by
  refine not_all_blocked_of_rank s.rank fun a hfin hnone => ?_
  by_cases hj : a = .main → s.Joined
  · have hblocked : step P s a = none := by
      cases a with
      | thread t => exact hnone
      | main => simpa [program, hj rfl] using hnone
    obtain ⟨b, hb, hlt⟩ := hI.inv.owned.waits hfin hblocked
    exact ⟨b, hb, fun _ => hlt⟩
  · -- `main` waits for a thread
    push Not at hj
    obtain ⟨rfl, hj⟩ := hj
    obtain ⟨t, ht⟩ := not_forall.mp hj
    have hidle : s.get = .idle := hI.get.resolve_right fun h => hj h.1
    refine ⟨.thread t, ht, fun _ => ?_⟩
    change s.get.rank < (s.thread t).pc.rank
    rw [hidle]
    cases (s.thread t).pc <;> simp [GetPc.rank, Pc.rank]

omit [DecidableEq T] in
/-- What `main` gets. -/
theorem ProgramInv.get_eq (hI : ProgramInv P s) (hfin : ∀ a, s.Finished a) :
    s.get = .returned (wrap (∑ t, P.increments t : ℕ)) := by
  obtain ⟨total, hget⟩ := hfin .main
  rcases hI.get with hidle | ⟨-, hcollects⟩
  · rw [hidle] at hget
    cases hget
  · unfold Collects at hcollects
    rw [hget, GetPc.awaited_returned, add_zero] at hcollects
    obtain ⟨hwrap, hval⟩ : wrap total = total ∧ wrap total = _ := hcollects
    rw [hget, ← hval, hwrap]

end SloppyCounter

/-! ## The counter with private counts -/

namespace SloppyCounterGlobal

open SloppyCounter (wrap Agent wrap_wrap_add wrap_wrap)

variable {n : ℕ} {P : Setup n} {s s' : State n}

/-- The agent has returned, or has its result. -/
def State.Finished (s : State n) : Agent (Fin n) → Prop
  | .thread t => (s.thread t).pc = .done
  | .main => ∃ total, s.main = .returned total

/-- How far on what an agent waits for is: `main` waits for the threads first. -/
def Pc.rank : Pc → ℕ
  | .lockGlobal => 1
  | _ => 2

def MainPc.rank : MainPc n → ℕ
  | .join => 0
  | .lockGlobal _ => 1
  | _ => 2

def State.rank (s : State n) : Agent (Fin n) → ℕ
  | .thread t => (s.thread t).pc.rank
  | .main => s.main.rank

theorem State.ownsGlobal_rank {a : Agent (Fin n)} (h : s.OwnsGlobal a) :
    ¬ s.Finished a ∧ 1 < s.rank a := by
  cases a with
  | thread t =>
      have hin : (s.thread t).pc.inGlobal = true := h
      simp only [State.Finished, State.rank]
      cases hp : (s.thread t).pc <;> simp_all [Pc.inGlobal, Pc.rank]
  | main =>
      have hin : s.main.inGlobal = true := h
      simp only [State.Finished, State.rank]
      cases hm : s.main <;> simp_all [MainPc.inGlobal, MainPc.rank]

theorem Inv.exists_of_global (hI : Inv P s) (h : s.counter.globalLock ≠ none) :
    ∃ b, ¬ s.Finished b ∧ 1 < s.rank b := by
  obtain ⟨b, hb⟩ := Option.ne_none_iff_exists'.mp h
  exact ⟨b, State.ownsGlobal_rank ((hI.owner b).mp hb)⟩

/-- A blocked agent waits for one further on. -/
theorem Inv.waits (hI : Inv P s) {a : Agent (Fin n)} (hfin : ¬ s.Finished a)
    (h : step P s a = none) :
    ∃ b, ¬ s.Finished b ∧ s.rank a < s.rank b := by
  cases a with
  | thread t =>
      have hnone : threadStep P t s.counter (s.thread t) = none := by simpa [step] using h
      change ∃ b, ¬ s.Finished b ∧ (s.thread t).pc.rank < s.rank b
      unfold threadStep at hnone
      cases hp : (s.thread t).pc <;> simp only [hp, Option.map_eq_none_iff, reduceCtorEq] at hnone
      case test => split at hnone <;> cases hnone
      case lockGlobal => exact hI.exists_of_global (mutexLock_eq_none.mp hnone)
      case done => exact absurd hp hfin
  | main =>
      have hnone : mainStep s = none := h
      change ∃ b, ¬ s.Finished b ∧ s.main.rank < s.rank b
      unfold mainStep at hnone
      cases hm : s.main <;> simp only [hm, Option.map_eq_none_iff, reduceCtorEq] at hnone
      case join =>
        have hj : ¬ s.Joined := fun hj => by rw [if_pos hj] at hnone; cases hnone
        obtain ⟨t, ht⟩ := not_forall.mp hj
        refine ⟨.thread t, ht, ?_⟩
        change 0 < (s.thread t).pc.rank
        cases (s.thread t).pc <;> simp [Pc.rank]
      case lockGlobal f => exact hI.exists_of_global (mutexLock_eq_none.mp hnone)
      case forTest f i total => split at hnone <;> cases hnone
      case returned total => exact absurd ⟨total, hm⟩ hfin

theorem Inv.not_deadlocked (hI : Inv P s) : ¬ (sloppyCounter P).Deadlocked State.Finished s := by
  refine not_all_blocked_of_rank s.rank fun a hfin hnone => ?_
  obtain ⟨b, hb, hlt⟩ := hI.waits hfin hnone
  exact ⟨b, hb, fun _ => hlt⟩

/-! ## Progress -/

/-- The steps to the next test of `i < args->increments`, at most. -/
def Pc.toTest : Pc → ℕ
  | .init | .loopTest | .done => 0
  | .inc => 7
  | .test => 6
  | .lockGlobal => 5
  | .addLoad => 4
  | .addStore _ => 3
  | .unlockGlobal => 2
  | .reset => 1

/-- The steps a thread has still to take, at most. -/
def Thread.left (increments : ℕ) (x : Thread) : ℕ :=
  match x.pc with
  | .done => 0
  | .init => (increments - x.i) * 8 + 2
  | .loopTest => (increments - x.i) * 8 + 1
  | pc => (increments - (x.i + 1)) * 8 + pc.toTest + 1

/-- The steps `main` has still to take. -/
def MainPc.left : MainPc n → ℕ
  | .join => n + 6
  | .collect => n + 5
  | .lockGlobal _ => n + 4
  | .readGlobal _ => n + 3
  | .unlockGlobal _ _ => n + 2
  | .forTest _ i _ => n - i + 1
  | .returned _ => 0

theorem Fires.left_lt {t : Fin n} {c c' : Counter n} {i : ℕ} {l : ℤ} {p : Pc} {x' : Thread}
    (h : Fires P t c i l p c' x') :
    x'.left (P.increments t) < Thread.left (P.increments t) ⟨p, i, l⟩ := by
  cases h <;> simp only [Thread.left, Pc.toTest] <;> omega

theorem mainStep_left_lt (h : mainStep s = some s') : s'.main.left < s.main.left := by
  unfold mainStep at h
  cases hm : s.main <;> simp only [hm, Option.map_eq_some_iff, mutexLock_eq_some, Option.some.injEq,
    Option.ite_none_right_eq_some, reduceCtorEq] at h
  case join =>
    obtain ⟨-, rfl⟩ := h
    simp [MainPc.left]
  case lockGlobal f =>
    obtain ⟨l, -, rfl⟩ := h
    simp [MainPc.left]
  case forTest f i total =>
    split at h <;> cases h <;> simp only [MainPc.left] <;> omega
  all_goals
    subst h
    simp [MainPc.left]

/-- The steps all agents have still to take, at most. -/
def measure (P : Setup n) (s : State n) : ℕ := ∑ t, (s.thread t).left (P.increments t) + s.main.left

theorem measure_lt {a : Agent (Fin n)} (h : step P s a = some s') : measure P s' < measure P s := by
  cases a with
  | thread t =>
      simp only [step, Option.map_eq_some_iff] at h
      obtain ⟨⟨c', x'⟩, hx, rfl⟩ := h
      exact Nat.add_lt_add_right (sum_update_lt (fires_of_threadStep hx).left_lt) _
  | main =>
      have hthread := (mainStep_cases h).1
      rw [measure, measure, hthread]
      exact Nat.add_lt_add_left (mainStep_left_lt h) _

theorem measure_start (memory : Fin n → ℤ) :
    measure P (start memory) = (∑ t, (P.increments t * 8 + 2)) + (n + 6) := rfl

/-! ## The result -/

/-- What is still to be added in the loop of `sloppy_counter_get` from slot `i` on. -/
def awaited (f : Fin n → ℤ) (i : ℕ) : ℤ := ∑ j, if i ≤ j.val then f j else 0

theorem awaited_zero (f : Fin n → ℤ) : awaited f 0 = ∑ j, f j := by simp [awaited]

theorem awaited_succ (f : Fin n → ℤ) {i : ℕ} (h : i < n) :
    awaited f i = f ⟨i, h⟩ + awaited f (i + 1) := by
  have hsplit := sum_add_of_eq_off (fun j : Fin n => if i ≤ j.val then f j else 0)
    (fun j => if i + 1 ≤ j.val then f j else 0) (i := ⟨i, h⟩) fun j hj => ?_
  · simp only [le_refl, if_true, Nat.not_succ_le_self, if_false, add_zero] at hsplit
    rw [awaited, awaited]
    omega
  · have hne : j.val ≠ i := fun he => hj (Fin.ext he)
    have hiff : i + 1 ≤ j.val ↔ i ≤ j.val := by omega
    simp only [hiff]

theorem awaited_of_le (f : Fin n → ℤ) {i : ℕ} (h : n ≤ i) : awaited f i = 0 :=
  Finset.sum_eq_zero fun j _ => if_neg (by omega)

/-- `main` has joined the threads and is on the way to get `v`. -/
def Collects (v : ℤ) (s : State n) : Prop :=
  match s.main with
  | .join => True
  | .collect => s.Joined
  | .lockGlobal f | .readGlobal f => s.Joined ∧ wrap (s.counter.globalCount + ∑ t, f t) = v
  | .unlockGlobal f total => s.Joined ∧ wrap total = total ∧ wrap (total + ∑ t, f t) = v
  | .forTest f i total => s.Joined ∧ wrap total = total ∧ wrap (total + awaited f i) = v
  | .returned total => s.Joined ∧ total = v

theorem Inv.sum_of_joined (hI : Inv P s) (hj : s.Joined) :
    wrap (s.counter.globalCount + ∑ t, (s.thread t).localCount) =
      wrap (∑ t, P.increments t : ℕ) := by
  have hheld : ∑ t, (s.thread t).localCount = s.inThreads :=
    Finset.sum_congr rfl fun t _ => by simp [Thread.held, hj t]
  rw [hheld, hI.sum_of_quiet hj.quiet, hI.completed_of_joined hj]

theorem Inv.collects_main (hI : Inv P s) (hv : Collects (wrap (∑ t, P.increments t : ℕ)) s)
    (h : mainStep s = some s') : Collects (wrap (∑ t, P.increments t : ℕ)) s' := by
  unfold mainStep at h
  unfold Collects at hv
  cases hm : s.main <;> simp only [hm, Option.map_eq_some_iff, mutexLock_eq_some, Option.some.injEq,
    Option.ite_none_right_eq_some, reduceCtorEq] at h hv
  case join =>
    obtain ⟨hj, rfl⟩ := h
    exact hj
  case collect =>
    subst h
    exact ⟨hv, hI.sum_of_joined hv⟩
  case lockGlobal f =>
    obtain ⟨l, -, rfl⟩ := h
    exact hv
  case readGlobal f =>
    subst h
    refine ⟨hv.1, ?_, hv.2⟩
    rw [hI.account, wrap_wrap]
  case unlockGlobal f total =>
    subst h
    refine ⟨hv.1, hv.2.1, ?_⟩
    rw [awaited_zero]
    exact hv.2.2
  case forTest f i total =>
    split at h
    case isTrue hi =>
      cases h
      refine ⟨hv.1, wrap_wrap _, ?_⟩
      rw [wrap_wrap_add, add_assoc, ← awaited_succ f hi]
      exact hv.2.2
    case isFalse hi =>
      cases h
      refine ⟨hv.1, ?_⟩
      rw [← hv.2.2, awaited_of_le f (Nat.le_of_not_lt hi), add_zero, hv.2.1]

theorem Collects.thread_step {v : ℤ} (hv : Collects v s) {t : Fin n} {c' : Counter n} {x' : Thread}
    (h : Fires P t s.counter (s.thread t).i (s.thread t).localCount (s.thread t).pc c' x') :
    Collects v { s with counter := c', thread := update s.thread t x' } := by
  -- a thread that moves has not been joined
  have hj : ¬ s.Joined := fun hj => by
    rw [hj t] at h
    cases h
  unfold Collects at hv ⊢
  cases hm : s.main <;> simp only [hm] at hv ⊢
  case collect => exact absurd hv hj
  all_goals exact absurd hv.1 hj

theorem collects_of_reachable (hs : (sloppyCounter P).Reachable s) :
    Collects (wrap (∑ t, P.increments t : ℕ)) s := by
  refine (hs.invariant (I := fun s => Inv P s ∧ Collects (wrap (∑ t, P.increments t : ℕ)) s) ?_
    fun s a s' hI h => ⟨inv_step hI.1 h, ?_⟩).2
  · rintro s ⟨memory, rfl⟩
    exact ⟨inv_start P memory, trivial⟩
  · cases a with
    | thread t =>
        simp only [sloppyCounter, step, Option.map_eq_some_iff] at h
        obtain ⟨⟨c', x'⟩, hx, rfl⟩ := h
        exact hI.2.thread_step (fires_of_threadStep hx)
    | main => exact hI.1.collects_main hI.2 h

end SloppyCounterGlobal

/-- **The sloppy counters always end, with the exact count.** For any assignment of threads to
slots, increments and threshold, whatever the order of the steps, no run is longer than a bound, and
it ends with all threads returned and all locks free:
* with a call of `sloppy_counter_get` at any time, and then the counts are those of all updates;
* in the programs with slots, with the number of all updates as the final count;
* in the program with private counts too. -/
theorem sloppy_counters_end :
    (∀ (n slots : ℕ) (P : SloppyCounter.Setup (Fin n) slots),
      (SloppyCounter.sloppyCounter P).Terminates
        ((∑ t, (P.increments t * 11 + 1)) + (4 * slots + 5))
        (fun s => (∀ a, s.Finished a) ∧ s.counter.globalLock = none ∧
          (∀ j, s.counter.localLocks j = none) ∧
          SloppyCounter.wrap (s.counter.globalCount + ∑ j, s.counter.localCounts j) =
            SloppyCounter.wrap (∑ t, P.increments t : ℕ)) ∧
      (SloppyCounter.program P).Terminates ((∑ t, (P.increments t * 11 + 1)) + (4 * slots + 5))
        (fun s => (∀ a, s.Finished a) ∧ s.counter.globalLock = none ∧
          (∀ j, s.counter.localLocks j = none) ∧
          s.get = .returned (SloppyCounter.wrap (∑ t, P.increments t : ℕ)))) ∧
    ∀ (n : ℕ) (P : SloppyCounterGlobal.Setup n),
      (SloppyCounterGlobal.sloppyCounter P).Terminates ((∑ t, (P.increments t * 8 + 2)) + (n + 6))
        fun s => (∀ a, s.Finished a) ∧ s.counter.globalLock = none ∧
          s.main = .returned (SloppyCounter.wrap (∑ t, P.increments t : ℕ)) := by
  refine ⟨fun n slots P => ⟨?_, ?_⟩, fun n P => ?_⟩
  · refine LTS.terminates_of_not_deadlocked (SloppyCounter.measure P) ?_
      (fun s a s' _ h => SloppyCounter.measure_lt h)
      (fun s hs => (SloppyCounter.inv_of_reachable hs).owned.not_deadlocked)
      fun s hs hfin => ⟨hfin, (SloppyCounter.inv_of_reachable hs).at_end hfin⟩
    rintro s rfl
    exact SloppyCounter.measure_init.le
  · refine LTS.terminates_of_not_deadlocked (SloppyCounter.measure P) ?_
      (fun s a s' _ h => SloppyCounter.measure_lt (SloppyCounter.step_of_program h).1)
      (fun s hs => (SloppyCounter.programInv_of_reachable hs).not_deadlocked) fun s hs hfin => ?_
    · rintro s rfl
      exact SloppyCounter.measure_init.le
    · have hI := SloppyCounter.programInv_of_reachable hs
      obtain ⟨hglobal, hlocal, -⟩ := hI.inv.at_end hfin
      exact ⟨hfin, hglobal, hlocal, hI.get_eq hfin⟩
  · refine LTS.terminates_of_not_deadlocked (SloppyCounterGlobal.measure P) ?_
      (fun s a s' _ h => SloppyCounterGlobal.measure_lt h)
      (fun s hs => (SloppyCounterGlobal.inv_of_reachable hs).not_deadlocked)
      fun s hs hfin => ⟨hfin, ?_, ?_⟩
    · rintro s ⟨memory, rfl⟩
      exact (SloppyCounterGlobal.measure_start memory).le
    · by_contra hlock
      obtain ⟨b, hb, -⟩ := (SloppyCounterGlobal.inv_of_reachable hs).exists_of_global hlock
      exact hb (hfin b)
    · obtain ⟨total, hmain⟩ := hfin .main
      have hcollects := SloppyCounterGlobal.collects_of_reachable hs
      unfold SloppyCounterGlobal.Collects at hcollects
      rw [hmain] at hcollects ⊢
      rw [hcollects.2]

end Osvcp
