import Osvcp.Lib.Termination
import Osvcp.Semaphores.ZemaphoreSafety

/-! # `zemaphore.h` implements the atomic semaphore

On Apple systems `Sem_wait` and `Sem_post` are `Zem_wait` and `Zem_post`. To the threads that call
them they are what the atomic operations are: the stores of `value` are the atomic steps, and
everything in between, the sleeping and waking included, is invisible. In particular they block
where the atomic semaphore blocks and nowhere else.
-/

namespace Osvcp.Zemaphore

open Function (update)

variable {T : Type*}

/-! ## The atomic semaphore -/

/-- The value of a semaphore, and the calls the threads have still to make. -/
structure Sem (T : Type*) where
  value : ℕ
  todo : T → List Op

/-- The next call of thread `t` in one step; `none` if it blocks or there is none. -/
def semStep [DecidableEq T] (s : Sem T) (t : T) : Option (Sem T) :=
  match s.todo t with
  | [] => none
  | .wait :: ops => (semWait s.value).map fun v => ⟨v, update s.todo t ops⟩
  | .post :: ops => some ⟨s.value + 1, update s.todo t ops⟩

/-- Threads that make the calls `prog` on a semaphore with value `v`. -/
def semaphore [DecidableEq T] (v : ℕ) (prog : T → List Op) : LTS (Sem T) T where
  init s := s = ⟨v, prog⟩
  step := semStep

/-- The calls whose store of `value` is still to come. -/
def Thread.pending (x : Thread) : List Op :=
  match x.pc with
  | .idle | .waitUnlock | .condSignal | .postUnlock => x.todo
  | .waitLock | .whileTest | .condWait | .asleep | .woken | .decLoad | .decStore _ =>
      .wait :: x.todo
  | .postLock | .incLoad | .incStore _ => .post :: x.todo

/-- What a `Zem_t` stands for. -/
def State.sem (s : State T) : Sem T := ⟨s.zem.value.toNat, fun t => (s.thread t).pending⟩

/-! ## Every step is one of the atomic semaphore, or none -/

theorem threadStep_pending {t : T} {z z' : Zem T} {x x' : Thread}
    (h : threadStep t z x = some (z', x')) (hk : x.pc.Knows z.value) :
    (z'.value = z.value ∧ x'.pending = x.pending) ∨
      (0 < z.value ∧ z'.value = z.value - 1 ∧ x.pending = .wait :: x'.pending) ∨
      (z'.value = z.value + 1 ∧ x.pending = .post :: x'.pending) := by
  unfold threadStep at h
  cases hp : x.pc <;> simp only [hp, Option.map_eq_some_iff, mutexLock_eq_some, Option.some.injEq,
    Prod.mk.injEq, reduceCtorEq] at h
  case idle =>
    split at h
    case h_1 htodo => cases h
    case h_2 ops htodo => cases h; simp [Thread.pending, hp, htodo]
    case h_3 ops htodo => cases h; simp [Thread.pending, hp, htodo]
  case waitLock | woken | postLock =>
    obtain ⟨l, ⟨hl, rfl⟩, rfl, rfl⟩ := h
    simp [Thread.pending, hp]
  case whileTest =>
    obtain ⟨rfl, rfl⟩ := h
    by_cases hv : z.value ≤ 0 <;> simp [Thread.pending, hp, hv]
  case decStore n =>
    obtain ⟨rfl, rfl⟩ := h
    rw [hp] at hk
    obtain ⟨rfl, hpos⟩ := hk
    exact .inr (.inl ⟨hpos, rfl, by simp [Thread.pending, hp]⟩)
  case incStore n =>
    obtain ⟨rfl, rfl⟩ := h
    rw [hp] at hk
    obtain rfl : n = z.value := hk
    exact .inr (.inr ⟨rfl, by simp [Thread.pending, hp]⟩)
  all_goals
    obtain ⟨rfl, rfl⟩ := h
    simp [Thread.pending, hp]

theorem Thread.Roused.pending_eq {x x' : Thread} (h : x.Roused x') : x'.pending = x.pending := by
  cases h with
  | same => rfl
  | woken hp => simp [Thread.pending, hp]
  | signalled hp => simp [Thread.pending, hp]

section Steps

variable [DecidableEq T]

theorem pending_update (f : T → Thread) (t : T) (x : Thread) :
    (fun u => (update f t x u).pending) = update (fun u => (f u).pending) t x.pending := by
  funext u
  by_cases hu : u = t
  · subst hu
    simp
  · simp [hu]

variable [Fintype T] {v : ℕ} {s s' : State T}

/-- What a signal or a wakeup without one does. -/
theorem step_roused {a : Action T} (h : step s a = some s') (ha : ∀ t, a ≠ .run t) :
    s'.zem = s.zem ∧ ∀ u, (s.thread u).Roused (s'.thread u) := by
  cases a with
  | run t => exact absurd rfl (ha t)
  | signal t wakes =>
      simp only [step, Option.ite_none_right_eq_some, Option.some.injEq] at h
      obtain ⟨⟨ht, hw⟩, rfl⟩ := h
      refine ⟨rfl, fun u => ?_⟩
      dsimp only
      by_cases hu : u = t
      · rw [hu, Function.update_self]
        exact .signalled ht
      · rw [Function.update_of_ne hu]
        rcases wakeAll_cases hw u with h | ⟨h, h'⟩
        · rw [h]
          exact .same
        · rw [h']
          exact .woken h
  | spurious t =>
      simp only [step, Option.ite_none_right_eq_some, Option.some.injEq] at h
      obtain ⟨ht, rfl⟩ := h
      refine ⟨rfl, fun u => ?_⟩
      dsimp only
      by_cases hu : u = t
      · rw [hu, Function.update_self]
        exact .woken ht
      · rw [Function.update_of_ne hu]
        exact .same

/-- The stores of `value` are the steps of the atomic semaphore, and no other step is seen there. -/
theorem Inv.sem_step (hI : Inv v s) {a : Action T} (h : step s a = some s') :
    s'.sem = s.sem ∨ ∃ t, semStep s.sem t = some s'.sem := by
  by_cases hrun : ∃ t, a = .run t
  · obtain ⟨t, rfl⟩ := hrun
    simp only [step, Option.map_eq_some_iff] at h
    obtain ⟨⟨z', x'⟩, hx, rfl⟩ := h
    have hnonneg := hI.nonneg
    rcases threadStep_pending hx (hI.knows t) with ⟨hv, hp⟩ | ⟨hpos, hv, hp⟩ | ⟨hv, hp⟩
    · refine .inl ?_
      simp only [State.sem, hv, pending_update, hp]
      rw [Function.update_eq_self]
    · refine .inr ⟨t, ?_⟩
      obtain ⟨n, hn⟩ : ∃ n : ℕ, s.zem.value.toNat = n + 1 := ⟨s.zem.value.toNat - 1, by omega⟩
      have hn' : z'.value.toNat = n := by omega
      simp only [semStep, State.sem, hp, hn, hn', semWait, Option.map_some, pending_update]
    · refine .inr ⟨t, ?_⟩
      have hn : z'.value.toNat = s.zem.value.toNat + 1 := by omega
      simp only [semStep, State.sem, hp, hn, pending_update]
  · push Not at hrun
    obtain ⟨hzem, hroused⟩ := step_roused h hrun
    refine .inl ?_
    simp only [State.sem, hzem, (hroused _).pending_eq]

theorem reachable_sem {prog : T → List Op} (hs : (zemThreads v prog).Reachable s) :
    (semaphore v prog).Reachable s.sem := by
  refine (hs.invariant (I := fun s => Inv v s ∧ (semaphore v prog).Reachable s.sem) ?_
    fun s a s' hI h => ⟨inv_step hI.1 h, ?_⟩).2
  · rintro s rfl
    refine ⟨inv_zemInit v prog, [], .start ?_⟩
    simp [semaphore, State.sem, zemInit, Thread.pending]
  · rcases hI.1.sem_step h with heq | ⟨t, ht⟩
    · rw [heq]
      exact hI.2
    · exact hI.2.snoc ht

/-! ## Where the threads cannot go on -/

/-- The wakeup of a thread that nobody has signalled. -/
def Action.isSpurious : Action T → Bool
  | .spurious _ => true
  | _ => false

/-- Only a wakeup without a signal could make a thread go on. -/
def State.Settled (s : State T) : Prop := ∀ a : Action T, a.isSpurious = false → step s a = none

theorem State.Settled.threadStep_eq_none (h : s.Settled) (t : T) :
    threadStep t s.zem (s.thread t) = none := by
  simpa [step] using h (.run t) rfl

/-- A thread can signal: it wakes all that sleep. -/
theorem State.Settled.not_condSignal (h : s.Settled) (t : T) : (s.thread t).pc ≠ .condSignal := by
  intro ht
  have hwakes : Wakes s fun u => decide ((s.thread u).pc = .asleep) := by
    refine ⟨fun u hu => of_decide_eq_true hu, ?_⟩
    rintro ⟨u, hu⟩
    exact ⟨u, decide_eq_true hu⟩
  have hnone := h (.signal t fun u => decide ((s.thread u).pc = .asleep)) rfl
  simp [step, ht, hwakes] at hnone

theorem Inv.lock_of_settled (hI : Inv v s) (h : s.Settled) : s.zem.lock = none := by
  cases hl : s.zem.lock with
  | none => rfl
  | some t =>
      have hholds := (hI.held t).mpr hl
      have hnone := h.threadStep_eq_none t
      have hsignal := h.not_condSignal t
      unfold threadStep at hnone
      cases hp : (s.thread t).pc <;> simp_all [Pc.holds]

/-- Every thread has made its calls or sleeps. -/
theorem Inv.asleep_of_settled (hI : Inv v s) (h : s.Settled) (t : T) :
    ((s.thread t).pc = .idle ∧ (s.thread t).todo = []) ∨ (s.thread t).pc = .asleep := by
  have hfree := hI.lock_of_settled h
  have hnone := h.threadStep_eq_none t
  have hsignal := h.not_condSignal t
  unfold threadStep at hnone
  cases hp : (s.thread t).pc <;>
    simp only [hp, hfree, mutexLock, Option.map_some, reduceCtorEq] at hnone
  case idle =>
    refine .inl ⟨rfl, ?_⟩
    split at hnone
    case h_1 htodo => exact htodo
    all_goals cases hnone
  case asleep => exact .inr rfl
  case condSignal => exact absurd hp hsignal

/-- **They block where the atomic semaphore blocks.** No wakeup is lost: whoever sleeps finds
nothing. -/
theorem Inv.semStep_of_settled (hI : Inv v s) (h : s.Settled) (t : T) : semStep s.sem t = none := by
  rcases hI.asleep_of_settled h t with ⟨hpc, htodo⟩ | hpc
  · simp [semStep, State.sem, Thread.pending, hpc, htodo]
  · have hle := hI.value_le_woken (hI.lock_of_settled h) hpc
    have hzero : count (fun x => x.pc.isWoken) s.thread = 0 := by
      refine count_eq_zero fun u => ?_
      rcases hI.asleep_of_settled h u with ⟨hu, -⟩ | hu <;> rw [hu] <;> rfl
    have hvalue : s.zem.value.toNat = 0 := by omega
    simp [semStep, State.sem, Thread.pending, hpc, hvalue, semWait]

/-! ## Every run ends, apart from wakeups without a signal -/

/-- The steps of a call, at most. A signal wakes at most `n` threads, each of which takes four steps
back to its sleep. -/
def Op.cost (n : ℕ) : Op → ℕ
  | .wait => 6
  | .post => 4 * n + 6

/-- The steps to the end of the current call. -/
def Pc.left (n : ℕ) : Pc → ℕ
  | .idle => 0
  | .waitLock => 5
  | .whileTest => 4
  | .condWait => 2
  | .asleep => 1
  | .woken => 5
  | .decLoad => 3
  | .decStore _ => 2
  | .waitUnlock => 1
  | .postLock => 4 * n + 5
  | .incLoad => 4 * n + 4
  | .incStore _ => 4 * n + 3
  | .condSignal => 4 * n + 2
  | .postUnlock => 1

def Thread.left (n : ℕ) (x : Thread) : ℕ := x.pc.left n + (x.todo.map (Op.cost n)).sum

omit [DecidableEq T] [Fintype T] in
theorem threadStep_left_lt {n : ℕ} {t : T} {z z' : Zem T} {x x' : Thread}
    (h : threadStep t z x = some (z', x')) : x'.left n < x.left n := by
  unfold threadStep at h
  cases hp : x.pc <;> simp only [hp, Option.map_eq_some_iff, mutexLock_eq_some, Option.some.injEq,
    Prod.mk.injEq, reduceCtorEq] at h
  case idle =>
    split at h
    case h_1 htodo => cases h
    case h_2 ops htodo => cases h; simp [Thread.left, Pc.left, Op.cost, hp, htodo]
    case h_3 ops htodo => cases h; simp [Thread.left, Pc.left, Op.cost, hp, htodo]
  case waitLock | woken | postLock =>
    obtain ⟨l, ⟨hl, rfl⟩, rfl, rfl⟩ := h
    simp [Thread.left, Pc.left, hp]
  case whileTest =>
    obtain ⟨rfl, rfl⟩ := h
    by_cases hv : z.value ≤ 0 <;> simp [Thread.left, Pc.left, hp, hv]
  all_goals
    obtain ⟨rfl, rfl⟩ := h
    simp [Thread.left, Pc.left, hp]

omit [DecidableEq T] in
/-- A signal puts at most four steps on each thread. -/
theorem tally_wakeAll_le {wakes : T → Bool} (hw : Wakes s wakes) (n : ℕ) :
    tally (Thread.left n) (wakeAll s.thread wakes) ≤
      tally (Thread.left n) s.thread + Fintype.card T * 4 := by
  have hle : tally (Thread.left n) (wakeAll s.thread wakes) ≤ ∑ u, ((s.thread u).left n + 4) := by
    refine Finset.sum_le_sum fun u _ => ?_
    rcases wakeAll_cases hw u with h | ⟨h, h'⟩
    · rw [h]
      omega
    · rw [h']
      simp only [Thread.left, h, Pc.left]
      omega
  refine hle.trans (le_of_eq ?_)
  simp [Finset.sum_add_distrib, tally]

/-- The steps all threads have still to take, if none wakes without a signal. -/
def measure (s : State T) : ℕ := tally (Thread.left (Fintype.card T)) s.thread

theorem measure_lt {a : Action T} (h : step s a = some s') (ha : a.isSpurious = false) :
    measure s' < measure s := by
  cases a with
  | run t =>
      simp only [step, Option.map_eq_some_iff] at h
      obtain ⟨⟨z', x'⟩, hx, rfl⟩ := h
      exact tally_update_lt (threadStep_left_lt hx)
  | signal t wakes =>
      simp only [step, Option.ite_none_right_eq_some, Option.some.injEq] at h
      obtain ⟨⟨ht, hw⟩, rfl⟩ := h
      have hsame : wakeAll s.thread wakes t = s.thread t := by
        rcases wakeAll_cases hw t with h | ⟨h, -⟩
        · exact h
        · rw [ht] at h
          cases h
      have hup := tally_update (Thread.left (Fintype.card T)) (wakeAll s.thread wakes) t
        ⟨.postUnlock, (s.thread t).todo, (s.thread t).waits, (s.thread t).posts⟩
      have hle := tally_wakeAll_le hw (Fintype.card T)
      have hdrop : Thread.left (Fintype.card T)
            ⟨.postUnlock, (s.thread t).todo, (s.thread t).waits, (s.thread t).posts⟩ +
          (4 * Fintype.card T + 1) = (s.thread t).left (Fintype.card T) := by
        simp only [Thread.left, ht, Pc.left]
        omega
      rw [hsame] at hup
      simp only [measure]
      omega
  | spurious t => cases ha

theorem measure_spurious {a : Action T} (h : step s a = some s') (ha : a.isSpurious = true) :
    measure s' ≤ measure s + 4 := by
  cases a with
  | run t => cases ha
  | signal t wakes => cases ha
  | spurious t =>
      simp only [step, Option.ite_none_right_eq_some, Option.some.injEq] at h
      obtain ⟨ht, rfl⟩ := h
      have hup := tally_update (Thread.left (Fintype.card T)) s.thread t
        ⟨.woken, (s.thread t).todo, (s.thread t).waits, (s.thread t).posts⟩
      have hrise : Thread.left (Fintype.card T)
            ⟨.woken, (s.thread t).todo, (s.thread t).waits, (s.thread t).posts⟩ =
          (s.thread t).left (Fintype.card T) + 4 := by
        simp only [Thread.left, ht, Pc.left]
        omega
      simp only [measure]
      omega

/-! ## Calls one after the other -/

/-- The state with this semaphore and thread. -/
def place (s : State T) (t : T) (z : Zem T) (x : Thread) : State T := ⟨z, update s.thread t x⟩

omit [Fintype T] in
theorem place_self (t : T) : place s t s.zem (s.thread t) = s := by simp [place]

/-- No thread is in a call. -/
def State.Between (s : State T) : Prop := s.zem.lock = none ∧ ∀ t, (s.thread t).pc = .idle

variable {prog : T → List Op}

theorem reachable_place {t : T} {z : Zem T} {x : Thread}
    (hs : (zemThreads v prog).Reachable (place s t z x)) (z' : Zem T) (x' : Thread)
    (h : threadStep t z x = some (z', x')) :
    (zemThreads v prog).Reachable (place s t z' x') := by
  refine hs.snoc (a := .run t) ?_
  simp [zemThreads, step, place, h]

/-- A call of `Zem_wait` that finds something. -/
theorem reachable_wait {t : T} {z : Zem T} {ops : List Op} {m k : ℕ} (hlock : z.lock = none)
    (hpos : 0 < z.value)
    (hs : (zemThreads v prog).Reachable (place s t z ⟨.idle, .wait :: ops, m, k⟩)) :
    (zemThreads v prog).Reachable
      (place s t { z with value := z.value - 1 } ⟨.idle, ops, m + 1, k⟩) := by
  obtain ⟨value, lock⟩ := z
  obtain rfl : lock = none := hlock
  have h₁ := reachable_place hs ⟨value, none⟩ ⟨.waitLock, ops, m, k⟩ rfl
  have h₂ := reachable_place h₁ ⟨value, some t⟩ ⟨.whileTest, ops, m, k⟩ rfl
  have h₃ := reachable_place h₂ ⟨value, some t⟩ ⟨.decLoad, ops, m, k⟩
    (by simp [threadStep, Int.not_le.mpr hpos])
  have h₄ := reachable_place h₃ ⟨value, some t⟩ ⟨.decStore value, ops, m, k⟩ rfl
  have h₅ := reachable_place h₄ ⟨value - 1, some t⟩ ⟨.waitUnlock, ops, m, k⟩ rfl
  exact reachable_place h₅ ⟨value - 1, none⟩ ⟨.idle, ops, m + 1, k⟩ rfl

/-- A call of `Zem_post` while nobody sleeps. -/
theorem reachable_post {t : T} {z : Zem T} {ops : List Op} {m k : ℕ} (hlock : z.lock = none)
    (hidle : ∀ u, (s.thread u).pc ≠ .asleep)
    (hs : (zemThreads v prog).Reachable (place s t z ⟨.idle, .post :: ops, m, k⟩)) :
    (zemThreads v prog).Reachable
      (place s t { z with value := z.value + 1 } ⟨.idle, ops, m, k + 1⟩) := by
  obtain ⟨value, lock⟩ := z
  obtain rfl : lock = none := hlock
  have h₁ := reachable_place hs ⟨value, none⟩ ⟨.postLock, ops, m, k⟩ rfl
  have h₂ := reachable_place h₁ ⟨value, some t⟩ ⟨.incLoad, ops, m, k⟩ rfl
  have h₃ := reachable_place h₂ ⟨value, some t⟩ ⟨.incStore value, ops, m, k⟩ rfl
  have h₄ := reachable_place h₃ ⟨value + 1, some t⟩ ⟨.condSignal, ops, m, k⟩ rfl
  have hwakes : Wakes (place s t ⟨value + 1, some t⟩ ⟨.condSignal, ops, m, k⟩) fun _ => false := by
    refine ⟨nofun, ?_⟩
    rintro ⟨u, hu⟩
    by_cases hut : u = t
    · subst hut
      simp [place] at hu
    · simp only [place, Function.update_of_ne hut] at hu
      exact absurd hu (hidle u)
  have hsleep : ∀ f : T → Thread, (wakeAll f fun _ => false) = f := fun f => rfl
  have h₅ :
      (zemThreads v prog).Reachable (place s t ⟨value + 1, some t⟩ ⟨.postUnlock, ops, m, k⟩) := by
    refine h₄.snoc (a := .signal t fun _ => false) ?_
    refine (if_pos ⟨by simp [place], hwakes⟩).trans ?_
    simp [place, hsleep]
  exact reachable_place h₅ ⟨value + 1, none⟩ ⟨.idle, ops, m, k + 1⟩ rfl

omit [Fintype T] in
theorem State.Between.place (h : s.Between) (t : T) {z : Zem T} {ops : List Op} {m k : ℕ}
    (hlock : z.lock = none) : (place s t z ⟨.idle, ops, m, k⟩).Between := by
  refine ⟨hlock, fun u => ?_⟩
  by_cases hu : u = t
  · subst hu
    simp [Zemaphore.place]
  · simp [Zemaphore.place, hu, h.2 u]

omit [Fintype T] in
theorem sem_place (t : T) (z : Zem T) (x : Thread) :
    (place s t z x).sem = ⟨z.value.toNat, update s.sem.todo t x.pending⟩ := by
  simp only [State.sem, place, pending_update]

/-- Every state of the atomic semaphore is one of `zemaphore.h` between calls. -/
theorem exists_between {a : Sem T} (h : (semaphore v prog).Reachable a) :
    ∃ s, (zemThreads v prog).Reachable s ∧ s.Between ∧ s.sem = a := by
  refine h.invariant (I := fun a => ∃ s, (zemThreads v prog).Reachable s ∧ s.Between ∧
    s.sem = a) ?_ ?_
  · rintro a rfl
    refine ⟨zemInit v prog, ⟨[], .start rfl⟩, ⟨rfl, fun _ => rfl⟩, ?_⟩
    simp [State.sem, zemInit, Thread.pending]
  · rintro a t a' ⟨s, hs, hbetween, rfl⟩ hstep
    obtain ⟨hlock, hidle⟩ := hbetween
    have hnonneg := (inv_of_reachable hs).nonneg
    have hpending : s.sem.todo t = (s.thread t).todo := by simp [State.sem, Thread.pending, hidle t]
    have hself := place_self (s := s) t
    have hstep : semStep s.sem t = some a' := hstep
    rw [semStep, hpending] at hstep
    rcases hx : s.thread t with ⟨pc, todo, m, k⟩
    obtain rfl : pc = .idle := by simpa [hx] using hidle t
    rw [hx] at hself hstep
    rw [← hself] at hs
    cases todo with
    | nil => cases hstep
    | cons op ops => cases op with
      | wait =>
          obtain ⟨n, hn, rfl⟩ := Option.map_eq_some_iff.mp hstep
          have hvalue : s.zem.value.toNat = n + 1 := semWait_eq_some.mp hn
          refine ⟨_, reachable_wait hlock (by omega) hs,
            State.Between.place ⟨hlock, hidle⟩ t hlock, ?_⟩
          rw [sem_place]
          congr 1
          dsimp only
          omega
      | post =>
          cases hstep
          refine ⟨_, reachable_post hlock (fun u => by simp [hidle u]) hs,
            State.Between.place ⟨hlock, hidle⟩ t hlock, ?_⟩
          rw [sem_place]
          congr 1
          simp only [State.sem]
          omega

end Steps

/-- **`zemaphore.h` implements the atomic semaphore.** For any initial value and any calls of any
threads, and for every choice of the threads that a signal wakes:
* every step is a step of the atomic semaphore, or is not seen there;
* the states of the atomic semaphore that it stands for are exactly the reachable ones;
* no run is longer than a bound, but for five steps for each wakeup without a signal;
* and it ends in exactly those states in which the atomic semaphore cannot go on. -/
theorem zem_implements_semaphore {T : Type*} [Fintype T] [DecidableEq T] (v : ℕ)
    (prog : T → List Op) :
    (∀ s a s', (zemThreads v prog).Reachable s → (zemThreads v prog).step s a = some s' →
      s'.sem = s.sem ∨ ∃ t, (semaphore v prog).step s.sem t = some s'.sem) ∧
    (∀ a, (semaphore v prog).Reachable a ↔ ∃ s, (zemThreads v prog).Reachable s ∧ s.sem = a) ∧
    (∀ tr s, (zemThreads v prog).Exec tr s →
      tr.length ≤ (∑ t, ((prog t).map (Op.cost (Fintype.card T))).sum) +
        5 * tr.countP (fun p => p.2.isSpurious)) ∧
    ∀ a, ((semaphore v prog).Reachable a ∧ ∀ t, (semaphore v prog).step a t = none) ↔
      ∃ s, (zemThreads v prog).Reachable s ∧ s.Settled ∧ s.sem = a := by
  refine ⟨fun s a s' hs h => (inv_of_reachable hs).sem_step h, fun a => ⟨fun ha => ?_, ?_⟩,
    fun tr s hex => ?_, fun a => ⟨?_, ?_⟩⟩
  · obtain ⟨s, hs, -, hsem⟩ := exists_between ha
    exact ⟨s, hs, hsem⟩
  · rintro ⟨s, hs, rfl⟩
    exact reachable_sem hs
  · have hinit : ∀ s, (zemThreads v prog).init s →
        measure s ≤ ∑ t, ((prog t).map (Op.cost (Fintype.card T))).sum := by
      rintro s rfl
      exact le_of_eq (Finset.sum_congr rfl fun t _ => Nat.zero_add _)
    have hlen := hex.length_le_of_rare Action.isSpurious hinit
      (fun s a s' _ h ha => measure_lt h ha) fun s a s' _ h ha => measure_spurious h ha
    omega
  · rintro ⟨ha, hstuck⟩
    obtain ⟨s, hs, -, hsem⟩ := exists_between ha
    -- what the threads still do is not seen
    have hkeep : ∀ s b s', (zemThreads v prog).Reachable s →
        (zemThreads v prog).step s b = some s' → s.sem = a → s'.sem = a := by
      intro s b s' hs h hI
      rcases (inv_of_reachable hs).sem_step h with heq | ⟨t, ht⟩
      · rw [heq, hI]
      · rw [hI, show semStep a t = none from hstuck t] at ht
        cases ht
    have hless : ∀ s b s', (zemThreads v prog).Reachable s →
        (zemThreads v prog).step s b = some s' →
        b.isSpurious = false → measure s' < measure s := fun s b s' _ h hb => measure_lt h hb
    obtain ⟨s', hs', hsem', hsettled⟩ := hs.exists_settled Action.isSpurious hless hkeep hsem
    exact ⟨s', hs', hsettled, hsem'⟩
  · rintro ⟨s, hs, hsettled, rfl⟩
    exact ⟨reachable_sem hs, (inv_of_reachable hs).semStep_of_settled hsettled⟩

end Osvcp.Zemaphore
