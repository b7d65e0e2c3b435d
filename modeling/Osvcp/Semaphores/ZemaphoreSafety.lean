import Osvcp.Semaphores.Zemaphore

/-! # `zemaphore.h` is a counting semaphore

The account of the counter holds at every point, with the calls in progress counted from the store
of `value` on. That no wakeup is lost is a second account: as long as a thread sleeps, `value` is at
most the number of threads that will still test it or signal. A signal trades the signalling thread
for a woken one; a thread that falls asleep has seen `value <= 0`.
-/

namespace Osvcp.Zemaphore

open Function (update)

variable {T : Type*}

/-! ## Places -/

/-- Owns the mutex. -/
def Pc.holds : Pc → Bool
  | .whileTest | .condWait | .decLoad | .decStore _ | .waitUnlock => true
  | .incLoad | .incStore _ | .condSignal | .postUnlock => true
  | _ => false

/-- Asleep in `Cond_wait`. -/
def Pc.sleeps : Pc → Bool
  | .asleep => true
  | _ => false

/-- Woken in `Cond_wait` and on its way to the test of `value`. -/
def Pc.isWoken : Pc → Bool
  | .woken => true
  | _ => false

/-- Will still take one off `value`, or wake a sleeper. -/
def Pc.attends : Pc → Bool
  | .woken | .whileTest | .decLoad | .decStore _ | .condSignal => true
  | _ => false

/-- The waits of a thread whose store of `value` is done. -/
def Thread.taken (x : Thread) : ℕ :=
  match x.pc with
  | .waitUnlock => x.waits + 1
  | _ => x.waits

/-- The posts of a thread whose store of `value` is done. -/
def Thread.given (x : Thread) : ℕ :=
  match x.pc with
  | .condSignal | .postUnlock => x.posts + 1
  | _ => x.posts

/-- What a thread that owns the mutex knows of `value`. -/
def Pc.Knows (value : ℤ) : Pc → Prop
  | .condWait => value ≤ 0
  | .decLoad => 0 < value
  | .decStore n => n = value ∧ 0 < value
  | .incStore n => n = value
  | .condSignal | .postUnlock => 0 < value
  | _ => True

theorem Pc.knows_of_not_holds {p : Pc} (hp : p.holds = false) (n : ℤ) : p.Knows n := by
  cases p <;> trivial

/-! ## What one step can do -/

/-- The transitions of thread `t` by itself. -/
inductive Fires (t : T) (z : Zem T) (x : Thread) : Zem T → Thread → Prop
  | callWait {ops : List Op} : x.pc = .idle → Fires t z x z { x with pc := .waitLock, todo := ops }
  | callPost {ops : List Op} : x.pc = .idle → Fires t z x z { x with pc := .postLock, todo := ops }
  | lockWait : x.pc = .waitLock → z.lock = none →
      Fires t z x { z with lock := some t } { x with pc := .whileTest }
  | relock : x.pc = .woken → z.lock = none →
      Fires t z x { z with lock := some t } { x with pc := .whileTest }
  | empty : x.pc = .whileTest → z.value ≤ 0 → Fires t z x z { x with pc := .condWait }
  | positive : x.pc = .whileTest → 0 < z.value → Fires t z x z { x with pc := .decLoad }
  | condWait : x.pc = .condWait → Fires t z x { z with lock := none } { x with pc := .asleep }
  | decLoad : x.pc = .decLoad → Fires t z x z { x with pc := .decStore z.value }
  | decStore {n : ℤ} : x.pc = .decStore n →
      Fires t z x { z with value := n - 1 } { x with pc := .waitUnlock }
  | waitUnlock : x.pc = .waitUnlock →
      Fires t z x { z with lock := none } { x with pc := .idle, waits := x.waits + 1 }
  | lockPost : x.pc = .postLock → z.lock = none →
      Fires t z x { z with lock := some t } { x with pc := .incLoad }
  | incLoad : x.pc = .incLoad → Fires t z x z { x with pc := .incStore z.value }
  | incStore {n : ℤ} : x.pc = .incStore n →
      Fires t z x { z with value := n + 1 } { x with pc := .condSignal }
  | postUnlock : x.pc = .postUnlock →
      Fires t z x { z with lock := none } { x with pc := .idle, posts := x.posts + 1 }

theorem fires_of_threadStep {t : T} {z z' : Zem T} {x x' : Thread}
    (h : threadStep t z x = some (z', x')) : Fires t z x z' x' := by
  unfold threadStep at h
  cases hp : x.pc <;> simp only [hp, Option.map_eq_some_iff, mutexLock_eq_some, Option.some.injEq,
    Prod.mk.injEq, reduceCtorEq] at h
  case idle =>
    split at h
    · cases h
    · cases h; exact .callWait hp
    · cases h; exact .callPost hp
  case waitLock => obtain ⟨l, ⟨hl, rfl⟩, rfl, rfl⟩ := h; exact .lockWait hp hl
  case whileTest =>
    obtain ⟨rfl, rfl⟩ := h
    by_cases hv : z.value ≤ 0
    · rw [if_pos hv]; exact .empty hp hv
    · rw [if_neg hv]; exact .positive hp (by omega)
  case condWait => obtain ⟨rfl, rfl⟩ := h; exact .condWait hp
  case woken => obtain ⟨l, ⟨hl, rfl⟩, rfl, rfl⟩ := h; exact .relock hp hl
  case decLoad => obtain ⟨rfl, rfl⟩ := h; exact .decLoad hp
  case decStore n => obtain ⟨rfl, rfl⟩ := h; exact .decStore hp
  case waitUnlock => obtain ⟨rfl, rfl⟩ := h; exact .waitUnlock hp
  case postLock => obtain ⟨l, ⟨hl, rfl⟩, rfl, rfl⟩ := h; exact .lockPost hp hl
  case incLoad => obtain ⟨rfl, rfl⟩ := h; exact .incLoad hp
  case incStore n => obtain ⟨rfl, rfl⟩ := h; exact .incStore hp
  case postUnlock => obtain ⟨rfl, rfl⟩ := h; exact .postUnlock hp

section Local

variable {t : T} {z z' : Zem T} {x x' : Thread}

/-- The mutex changes hands as the places say. -/
theorem Fires.lockStep (h : Fires t z x z' x') :
    LockStep t z.lock z'.lock (x.pc.holds = true) (x'.pc.holds = true) := by
  cases h <;> simp_all [LockStep, Pc.holds]

theorem Fires.value_balance (h : Fires t z x z' x') (hx : x.pc.Knows z.value) :
    z'.value + x'.taken + x.given = z.value + x.taken + x'.given := by
  cases h <;> simp_all [Thread.taken, Thread.given, Pc.Knows]; omega

theorem Fires.knows (h : Fires t z x z' x') (hx : x.pc.Knows z.value) (hv : 0 ≤ z.value) :
    x'.pc.Knows z'.value := by
  cases h
  case incStore n hp =>
    rw [hp] at hx
    simp only [Pc.Knows] at hx ⊢
    omega
  all_goals simp_all [Pc.Knows]

theorem Fires.nonneg (h : Fires t z x z' x') (hx : x.pc.Knows z.value) (hv : 0 ≤ z.value) :
    0 ≤ z'.value := by
  cases h
  case decStore n hp =>
    rw [hp] at hx
    simp only [Pc.Knows] at hx ⊢
    omega
  case incStore n hp =>
    rw [hp] at hx
    simp only [Pc.Knows] at hx ⊢
    omega
  all_goals exact hv

/-- Only the owner of the mutex stores `value`. -/
theorem Fires.value_eq (h : Fires t z x z' x') (hx : x.pc.holds = false) : z'.value = z.value := by
  cases h <;> simp_all [Pc.holds]

/-- A thread that will no longer test `value` or signal has taken one off `value`, or finds nothing
there. -/
theorem Fires.attends_balance (h : Fires t z x z' x') (hx : x.pc.Knows z.value) :
    z'.value ≤ 0 ∨ z'.value + x.pc.attends.toNat ≤ z.value + x'.pc.attends.toNat := by
  cases h <;> simp_all [Pc.Knows, Pc.attends]

/-- A thread falls asleep only if it finds nothing. -/
theorem Fires.sleeps_balance (h : Fires t z x z' x') (hx : x.pc.Knows z.value) :
    z'.value ≤ 0 ∨ x'.pc.sleeps.toNat ≤ x.pc.sleeps.toNat := by
  cases h <;> simp_all [Pc.Knows, Pc.sleeps]

end Local

/-! ## The invariant -/

section Invariant

variable [Fintype T] {v : ℕ} {s : State T}

/-- The invariant of the semaphore. -/
structure Inv (v : ℕ) (s : State T) : Prop where
  held : ∀ t, (s.thread t).pc.holds = true ↔ s.zem.lock = some t
  account : s.zem.value + tally Thread.taken s.thread = v + tally Thread.given s.thread
  knows : ∀ t, (s.thread t).pc.Knows s.zem.value
  nonneg : 0 ≤ s.zem.value
  wakeups : 0 < count (fun x => x.pc.sleeps) s.thread →
    s.zem.value ≤ count (fun x => x.pc.attends) s.thread

theorem inv_zemInit (v : ℕ) (prog : T → List Op) : Inv v (zemInit v prog) where
  held _ := by simp [zemInit, Pc.holds]
  account := by
    have htaken : tally Thread.taken (zemInit v prog).thread = Fintype.card T * 0 :=
      tally_const fun _ => rfl
    have hgiven : tally Thread.given (zemInit v prog).thread = Fintype.card T * 0 :=
      tally_const fun _ => rfl
    rw [htaken, hgiven]
    rfl
  knows _ := trivial
  nonneg := Int.natCast_nonneg v
  wakeups h := by
    have hzero : count (fun x => x.pc.sleeps) (zemInit v prog).thread = 0 :=
      count_eq_zero fun _ => rfl
    omega

/-- A thread other than the one that moved keeps what it knows. -/
theorem Inv.knows_of_ne (hI : Inv v s) {t u : T} (hu : u ≠ t) {z' : Zem T} {x' : Thread}
    (h : Fires t s.zem (s.thread t) z' x') : (s.thread u).pc.Knows z'.value := by
  cases hold : (s.thread t).pc.holds with
  | false =>
      rw [h.value_eq hold]
      exact hI.knows u
  | true =>
      refine Pc.knows_of_not_holds ?_ _
      by_contra hu'
      have hown := (hI.held u).mp (Bool.eq_true_of_not_eq_false hu')
      rw [(hI.held t).mp hold] at hown
      exact hu (Option.some.inj hown).symm

theorem Inv.run_step [DecidableEq T] (hI : Inv v s) {t : T} {z' : Zem T} {x' : Thread}
    (h : Fires t s.zem (s.thread t) z' x') :
    Inv v { zem := z', thread := update s.thread t x' } where
  held u := by
    have hstep : LockStep t s.zem.lock z'.lock ((s.thread t).pc.holds = true)
        ((update s.thread t x' t).pc.holds = true) := by
      rw [Function.update_self]
      exact h.lockStep
    exact (@LockStep.owner_iff _ t _ _ (fun u => (s.thread u).pc.holds = true)
      (fun u => (update s.thread t x' u).pc.holds = true) hstep (fun b => (hI.held b).symm)
      (fun b hb => by rw [Function.update_of_ne hb]) u).symm
  account := by
    have htaken := tally_update Thread.taken s.thread t x'
    have hgiven := tally_update Thread.given s.thread t x'
    have hbal := h.value_balance (hI.knows t)
    have hold := hI.account
    simp only
    omega
  knows u := by
    by_cases hu : u = t
    · subst hu
      simpa using h.knows (hI.knows u) hI.nonneg
    · simpa [Function.update_of_ne hu] using hI.knows_of_ne hu h
  nonneg := h.nonneg (hI.knows t) hI.nonneg
  wakeups hsleep := by
    have hsleeps := count_update (fun x : Thread => x.pc.sleeps) s.thread t x'
    have hattends := count_update (fun x : Thread => x.pc.attends) s.thread t x'
    simp only at hsleep hsleeps hattends ⊢
    rcases h.attends_balance (hI.knows t) with hv | hv
    · omega
    · rcases h.sleeps_balance (hI.knows t) with hv' | hs
      · omega
      · have hold := hI.wakeups (by omega)
        omega

/-- What a wakeup does to a thread: nothing, or it falls from `asleep` to `woken`, or it has
signalled. -/
inductive Thread.Roused (x : Thread) : Thread → Prop
  | same : x.Roused x
  | woken : x.pc = .asleep → x.Roused { x with pc := .woken }
  | signalled : x.pc = .condSignal → x.Roused { x with pc := .postUnlock }

namespace Thread.Roused

variable {x x' : Thread}

theorem holds_eq (h : x.Roused x') : x'.pc.holds = x.pc.holds := by
  cases h with
  | same => rfl
  | woken hp => rw [hp]; rfl
  | signalled hp => rw [hp]; rfl

theorem taken_eq (h : x.Roused x') : x'.taken = x.taken := by
  cases h with
  | same => rfl
  | woken hp => simp [Thread.taken, hp]
  | signalled hp => simp [Thread.taken, hp]

theorem given_eq (h : x.Roused x') : x'.given = x.given := by
  cases h with
  | same => rfl
  | woken hp => simp [Thread.given, hp]
  | signalled hp => simp [Thread.given, hp]

theorem knows (h : x.Roused x') {value : ℤ} (hx : x.pc.Knows value) : x'.pc.Knows value := by
  cases h with
  | same => exact hx
  | woken hp => trivial
  | signalled hp =>
      rw [hp] at hx
      exact hx

end Thread.Roused

/-- A wakeup keeps the invariant if it keeps the account of the wakeups. -/
theorem Inv.of_roused (hI : Inv v s) {f : T → Thread} (hf : ∀ u, (s.thread u).Roused (f u))
    (hwakeups : 0 < count (fun x => x.pc.sleeps) f →
      s.zem.value ≤ count (fun x => x.pc.attends) f) :
    Inv v { s with thread := f } where
  held u := by
    simp only [(hf u).holds_eq]
    exact hI.held u
  account := by
    have hold := hI.account
    have ht : tally Thread.taken f = tally Thread.taken s.thread :=
      tally_congr fun u => (hf u).taken_eq
    have hg : tally Thread.given f = tally Thread.given s.thread :=
      tally_congr fun u => (hf u).given_eq
    simp only [ht, hg]
    exact hold
  knows u := (hf u).knows (hI.knows u)
  nonneg := hI.nonneg
  wakeups := hwakeups

theorem Inv.spurious_step [DecidableEq T] (hI : Inv v s) {t : T} (ht : (s.thread t).pc = .asleep) :
    Inv v { s with thread := update s.thread t { s.thread t with pc := .woken } } := by
  refine hI.of_roused (fun u => ?_) fun _ => ?_
  · by_cases hu : u = t
    · rw [hu, Function.update_self]
      exact .woken ht
    · rw [Function.update_of_ne hu]
      exact .same
  · have hattends : count (fun x => x.pc.attends) s.thread ≤
        count (fun x => x.pc.attends) (update s.thread t { s.thread t with pc := .woken }) := by
      refine tally_le_tally fun u => ?_
      by_cases hu : u = t
      · subst hu; simp [ht, Pc.attends]
      · simp [hu]
    have hold := hI.wakeups (count_pos_of (i := t) (by rw [ht]; rfl))
    omega

omit [Fintype T] in
/-- Every thread keeps its place in a signal, or falls from `asleep` to `woken`, except the one that
signals. -/
theorem wakeAll_cases {s : State T} {wakes : T → Bool} (hw : Wakes s wakes) (u : T) :
    wakeAll s.thread wakes u = s.thread u ∨
      ((s.thread u).pc = .asleep ∧ wakeAll s.thread wakes u = { s.thread u with
        pc := .woken }) := by
  cases hu : wakes u with
  | false => left; simp [wakeAll, hu]
  | true => right; exact ⟨hw.1 u hu, by simp [wakeAll, hu]⟩

/-- If a sleeper is left after a signal, the signal has replaced the thread that signalled by one
that attends. -/
theorem attends_of_signal [DecidableEq T] {t : T} {wakes : T → Bool}
    (ht : (s.thread t).pc = .condSignal) (hw : Wakes s wakes)
    (hsleep : 0 < count (fun x => x.pc.sleeps)
      (update (wakeAll s.thread wakes) t { s.thread t with pc := .postUnlock })) :
    0 < count (fun x => x.pc.sleeps) s.thread ∧
      count (fun x => x.pc.attends) s.thread ≤ count (fun x => x.pc.attends)
        (update (wakeAll s.thread wakes) t { s.thread t with pc := .postUnlock }) := by
  obtain ⟨u, hu⟩ := count_pos_iff.mp hsleep
  have hne : u ≠ t := by
    rintro rfl
    simp [Pc.sleeps] at hu
  simp only [Function.update_of_ne hne] at hu
  have hasleep : (s.thread u).pc = .asleep := by
    rcases wakeAll_cases hw u with h | ⟨h, -⟩
    · rw [h] at hu
      cases hp : (s.thread u).pc <;> simp [hp, Pc.sleeps] at hu
      rfl
    · exact h
  obtain ⟨w, hww⟩ := hw.2 ⟨u, hasleep⟩
  have hmore : count (fun x => x.pc.attends) s.thread + 1 ≤
      count (fun x => x.pc.attends) (wakeAll s.thread wakes) := by
    refine tally_add_le_tally (i := w) (fun j => ?_) ?_
    · rcases wakeAll_cases hw j with h | ⟨h, h'⟩
      · rw [h]
      · simp [h, Pc.attends]
    · simp [hw.1 w hww, wakeAll, hww, Pc.attends]
  have hless := count_update (fun x : Thread => x.pc.attends) (wakeAll s.thread wakes) t
    { s.thread t with pc := .postUnlock }
  have hle := Bool.toNat_le (wakeAll s.thread wakes t).pc.attends
  simp only [Pc.attends, Bool.toNat_false] at hless
  refine ⟨count_pos_of (i := u) (by simp [hasleep, Pc.sleeps]), ?_⟩
  simp only [Pc.attends] at hle hmore hless ⊢
  omega

theorem Inv.signal_step [DecidableEq T] (hI : Inv v s) {t : T} {wakes : T → Bool}
    (ht : (s.thread t).pc = .condSignal) (hw : Wakes s wakes) :
    Inv v { s with
      thread := update (wakeAll s.thread wakes) t { s.thread t with pc := .postUnlock } } := by
  refine hI.of_roused (fun u => ?_) fun hsleep => ?_
  · by_cases hu : u = t
    · rw [hu, Function.update_self]
      exact .signalled ht
    · rw [Function.update_of_ne hu]
      rcases wakeAll_cases hw u with h | ⟨h, h'⟩
      · rw [h]
        exact .same
      · rw [h']
        exact .woken h
  · obtain ⟨hsome, hle⟩ := attends_of_signal ht hw hsleep
    have hold := hI.wakeups hsome
    omega

end Invariant

section Reachable

variable [Fintype T] [DecidableEq T] {v : ℕ} {prog : T → List Op} {s s' : State T}

theorem inv_step {a : Action T} (hI : Inv v s) (h : step s a = some s') : Inv v s' := by
  cases a with
  | run t =>
      simp only [step, Option.map_eq_some_iff] at h
      obtain ⟨⟨z', x'⟩, hx, rfl⟩ := h
      exact hI.run_step (fires_of_threadStep hx)
  | signal t wakes =>
      simp only [step, Option.ite_none_right_eq_some, Option.some.injEq] at h
      obtain ⟨⟨ht, hw⟩, rfl⟩ := h
      exact hI.signal_step ht hw
  | spurious t =>
      simp only [step, Option.ite_none_right_eq_some, Option.some.injEq] at h
      obtain ⟨ht, rfl⟩ := h
      exact hI.spurious_step ht

theorem inv_of_reachable (hs : (zemThreads v prog).Reachable s) : Inv v s := by
  refine hs.invariant (I := Inv v) ?_ fun s a s' hI h => inv_step hI h
  rintro s rfl
  exact inv_zemInit v prog

end Reachable

/-! ## What the invariant says -/

section Conclusions

variable [Fintype T] {v : ℕ} {s : State T}

theorem Thread.taken_of_not_holds {x : Thread} (hx : x.pc.holds = false) : x.taken = x.waits := by
  unfold Thread.taken
  cases hp : x.pc <;> simp [hp, Pc.holds] at hx <;> rfl

theorem Thread.given_of_not_holds {x : Thread} (hx : x.pc.holds = false) : x.given = x.posts := by
  unfold Thread.given
  cases hp : x.pc <;> simp [hp, Pc.holds] at hx <;> rfl

theorem Thread.waits_le_taken (x : Thread) : x.waits ≤ x.taken := by
  unfold Thread.taken
  split <;> omega

theorem Pc.attends_of_not_holds {p : Pc} (hp : p.holds = false) : p.attends = p.isWoken := by
  cases p <;> trivial

/-- A thread that does not own the mutex owns no part of the account. -/
theorem Inv.not_holds (hI : Inv v s) {t : T} (ht : s.zem.lock ≠ some t) :
    (s.thread t).pc.holds = false := by
  by_contra hh
  exact ht ((hI.held t).mp (Bool.eq_true_of_not_eq_false hh))

/-- While the mutex is free, `value` is what was there at first and what was posted, less what was
waited for. -/
theorem Inv.value_of_free (hI : Inv v s) (hfree : s.zem.lock = none) :
    s.zem.value + s.waits = v + s.posts := by
  have hnot : ∀ t, (s.thread t).pc.holds = false := fun t => hI.not_holds (by simp [hfree])
  have htaken : tally Thread.taken s.thread = s.waits :=
    tally_congr fun t => Thread.taken_of_not_holds (hnot t)
  have hgiven : tally Thread.given s.thread = s.posts :=
    tally_congr fun t => Thread.given_of_not_holds (hnot t)
  have h := hI.account
  omega

/-- A post in progress has left something in `value`. -/
theorem Inv.given_le (hI : Inv v s) :
    (tally Thread.given s.thread : ℤ) ≤ s.posts + s.zem.value := by
  have hnonneg := hI.nonneg
  cases hl : s.zem.lock with
  | none =>
      have hgiven : tally Thread.given s.thread = s.posts :=
        tally_congr fun t => Thread.given_of_not_holds (hI.not_holds (by simp [hl]))
      omega
  | some t =>
      have hk : (s.thread t).given ≤ (s.thread t).posts + s.zem.value.toNat := by
        have hknows := hI.knows t
        unfold Thread.given
        cases hp : (s.thread t).pc <;> simp only [hp, Pc.Knows] at hknows <;> simp only <;> omega
      have hle : tally Thread.given s.thread ≤ tally Thread.posts s.thread + s.zem.value.toNat := by
        refine tally_le_tally_add (i := t) (fun u hu => ?_) hk
        exact (Thread.given_of_not_holds (hI.not_holds (by simp [hl, Ne.symm hu]))).le
      unfold State.posts
      omega

theorem Inv.waits_le (hI : Inv v s) : s.waits ≤ v + s.posts := by
  have htaken : s.waits ≤ tally Thread.taken s.thread :=
    tally_le_tally fun t => Thread.waits_le_taken _
  have hgiven := hI.given_le
  have h := hI.account
  omega

/-- While the mutex is free and a thread sleeps, `value` threads are woken and will test it. -/
theorem Inv.value_le_woken (hI : Inv v s) (hfree : s.zem.lock = none) {t : T}
    (ht : (s.thread t).pc = .asleep) : s.zem.value ≤ count (fun x => x.pc.isWoken) s.thread := by
  have hwoken : count (fun x => x.pc.attends) s.thread = count (fun x => x.pc.isWoken) s.thread :=
    tally_congr fun u =>
      congrArg Bool.toNat (Pc.attends_of_not_holds (hI.not_holds (by simp [hfree])))
  have h := hI.wakeups (count_pos_of (i := t) (by rw [ht]; rfl))
  omega

end Conclusions

/-! ## The program -/

section Program

variable [Fintype T] [DecidableEq T] {v : ℕ} {prog : T → List Op} {s : State T}

/-- `zemaphore.h` is a counting semaphore. In every reachable state the completed waits are at most
the initial value and the completed posts. Whenever the mutex is free, `value` is their difference;
and if it is positive while a thread sleeps, then at least `value` woken threads are about to test
it. -/
theorem zem_counts (hs : (zemThreads v prog).Reachable s) :
    s.waits ≤ v + s.posts ∧
    (s.zem.lock = none →
      s.zem.value = v + s.posts - s.waits ∧ 0 ≤ s.zem.value ∧
      (0 < s.zem.value → (∃ t, (s.thread t).pc = .asleep) →
        s.zem.value ≤ count (fun x => x.pc.isWoken) s.thread) ∧
      ¬ (0 < s.zem.value ∧ (∃ t, (s.thread t).pc = .asleep) ∧ ∀ t, (s.thread t).pc ≠ .woken)) := by
  have hI := inv_of_reachable hs
  refine ⟨hI.waits_le, fun hfree => ⟨?_, hI.nonneg, ?_, ?_⟩⟩
  · have h := hI.value_of_free hfree
    omega
  · rintro - ⟨t, ht⟩
    exact hI.value_le_woken hfree ht
  · rintro ⟨hpos, ⟨t, ht⟩, hnone⟩
    have hle := hI.value_le_woken hfree ht
    have hzero : count (fun x => x.pc.isWoken) s.thread = 0 := by
      refine count_eq_zero fun u => ?_
      have hu := hnone u
      cases hp : (s.thread u).pc <;> first | rfl | exact absurd hp hu
    omega

/-- Two threads sleep and a third posts; the signal wakes one of them. -/
theorem zem_counts_run :
    ∃ s, (zemThreads 0 (fun t : Fin 3 => if t = 2 then [.post] else [.wait])).Reachable s ∧
      s.zem.value = 1 ∧ (s.thread 1).pc = .asleep ∧ 1 ≤ count (fun x => x.pc.isWoken) s.thread := by
  obtain ⟨s, hex, hc⟩ := LTS.exec_of_run_any
    (zemThreads 0 (fun t : Fin 3 => if t = 2 then [.post] else [.wait])) _
    (List.replicate 4 (.run 0) ++ List.replicate 4 (.run 1) ++ List.replicate 4 (.run 2) ++
      [.signal 2 (fun t => t == 0), .run 2])
    (fun s => s.zem.lock == none && s.zem.value == 1 && (s.thread 1).pc == .asleep) rfl (by decide)
  simp only [Bool.and_eq_true, beq_iff_eq] at hc
  obtain ⟨⟨hfree, hvalue⟩, hasleep⟩ := hc
  have h := ((zem_counts ⟨_, hex⟩).2 hfree).2.2.1 (by omega) ⟨1, hasleep⟩
  exact ⟨s, ⟨_, hex⟩, hvalue, hasleep, by omega⟩

end Program

end Osvcp.Zemaphore
