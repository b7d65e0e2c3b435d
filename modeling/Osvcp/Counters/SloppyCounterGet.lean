import Osvcp.Counters.SloppyCounterSafety

/-! # What `sloppy_counter_get` collects

The call reads the global count and then each slot. What it has and what it still awaits add up to a
sum that its own steps keep. While updates run, a thread that adds its count to the global one takes
it away from a slot that the call may still await: this is the only step that takes from the sum.
-/

namespace Osvcp.SloppyCounter

open Function (update)

variable {T : Type*} {slots : ℕ} {P : Setup T slots}

/-! ## The sum of a call -/

/-- The call has read the global count. -/
def GetPc.reading : GetPc slots → Bool
  | .unlockGlobal _ | .forTest _ _ | .lockLocal _ _ | .addLocal _ _ | .unlockLocal _ _
  | .returned _ => true
  | _ => false

/-- What the call has collected. -/
def GetPc.total : GetPc slots → ℤ
  | .unlockGlobal total | .forTest _ total | .lockLocal _ total | .addLocal _ total
  | .unlockLocal _ total | .returned total => total
  | _ => 0

/-- The call has read the global count and has not yet read slot `j`. -/
def GetPc.awaits (j : Fin slots) : GetPc slots → Bool
  | .unlockGlobal _ => true
  | .forTest i _ => decide (i ≤ j)
  | .lockLocal i _ | .addLocal i _ => decide (i ≤ j)
  | .unlockLocal i _ => decide (i < j)
  | _ => false

/-- What the call still awaits if slot `j` holds `f j`. -/
def GetPc.awaited (g : GetPc slots) (f : Fin slots → ℤ) : ℤ := ∑ j, if g.awaits j then f j else 0

theorem GetPc.awaited_returned (total : ℤ) (f : Fin slots → ℤ) :
    (GetPc.returned total).awaited f = 0 :=
  Finset.sum_eq_zero fun _ _ => rfl

theorem GetPc.awaited_unlockGlobal (total : ℤ) (f : Fin slots → ℤ) :
    (GetPc.unlockGlobal total).awaited f = ∑ j, f j :=
  Finset.sum_congr rfl fun _ _ => rfl

/-- A change of `f` at one slot shows in what is awaited only if that slot is. -/
theorem GetPc.awaited_eq_off (g : GetPc slots) (f f' : Fin slots → ℤ) {i : Fin slots}
    (h : ∀ j, j ≠ i → f' j = f j) :
    g.awaited f' + (if g.awaits i then f i else 0) =
      g.awaited f + if g.awaits i then f' i else 0 := by
  refine sum_add_of_eq_off (fun j => if g.awaits j then f j else 0)
    (fun j => if g.awaits j then f' j else 0) fun j hj => ?_
  rw [h j hj]

/-- A step of the call that is reading adds what it no longer awaits. -/
theorem GetFires.total_cases {c c' : Counter T slots} {g g' : GetPc slots} (h : GetFires c g c' g')
    (hr : g.reading = true) (f : Fin slots → ℤ) :
    g'.reading = true ∧
    ((g'.total = g.total ∧ g'.awaited f = g.awaited f) ∨
      ∃ i, g.inLocal i = true ∧ g.awaits i = true ∧ g'.total = wrap (g.total + c.localCounts i) ∧
        g'.awaited f + f i = g.awaited f) := by
  cases h <;> simp only [GetPc.reading, reduceCtorEq] at hr ⊢ <;> refine ⟨trivial, ?_⟩
  case unlockGlobal total =>
    left
    refine ⟨rfl, Finset.sum_congr rfl fun j _ => ?_⟩
    simp [GetPc.awaits]
  case forGo i total hi => exact .inl ⟨rfl, rfl⟩
  case forEnd i total hi =>
    left
    refine ⟨rfl, Finset.sum_congr rfl fun j _ => ?_⟩
    have hj : ¬ i ≤ j.val := by omega
    simp [GetPc.awaits, hj]
  case lockLocal i total hl => exact .inl ⟨rfl, rfl⟩
  case addLocal i total =>
    right
    refine ⟨i, by simp [GetPc.inLocal], by simp [GetPc.awaits], rfl, ?_⟩
    have h := sum_add_of_eq_off (fun j => if (GetPc.addLocal i total).awaits j then f j else 0)
      (fun j => if (GetPc.unlockLocal i 0).awaits j then f j else 0) (i := i) fun j hj => ?_
    · simpa [GetPc.awaits, GetPc.awaited] using h
    · have hlt : i < j ↔ i ≤ j := by omega
      simp [GetPc.awaits, hlt]
  case unlockLocal i total =>
    left
    refine ⟨rfl, Finset.sum_congr rfl fun j _ => ?_⟩
    have hlt : i.val + 1 ≤ j.val ↔ i < j := by omega
    simp [GetPc.awaits, hlt]

/-! ## A call after all threads are joined -/

/-- Every thread has returned. -/
def State.Joined (s : State T slots) : Prop := ∀ t, (s.thread t).pc = .done

instance [Fintype T] (s : State T slots) : Decidable s.Joined :=
  inferInstanceAs (Decidable (∀ _, _))

theorem State.Joined.quiet {s : State T slots} (h : s.Joined) : s.Quiet := fun t => by rw [h t]; rfl

/-- A bound on the steps that the call still takes. -/
def GetPc.fuel : GetPc slots → ℕ
  | .idle => 4 * slots + 5
  | .lockGlobal => 4 * slots + 4
  | .readGlobal => 4 * slots + 3
  | .unlockGlobal _ => 4 * slots + 2
  | .forTest i _ => 4 * (slots - i) + 1
  | .lockLocal i _ => 4 * (slots - i)
  | .addLocal i _ => 4 * (slots - i) - 1
  | .unlockLocal i _ => 4 * (slots - i) - 2
  | .returned _ => 0

theorem GetFires.fuel_lt {c c' : Counter T slots} {g g' : GetPc slots} (h : GetFires c g c' g') :
    g'.fuel < g.fuel := by
  cases h <;> simp only [GetPc.fuel] <;> omega

/-- With no thread left the locks are free for the call. -/
theorem Owned.get_enabled {s : State T slots} (ho : Owned P s) (hj : s.Joined)
    (hr : ∀ r, s.get ≠ .returned r) : ∃ p, getStep s.counter s.get = some p := by
  have hglobal : s.get.inGlobal = false → s.counter.globalLock = none := by
    intro hg
    cases hl : s.counter.globalLock with
    | none => rfl
    | some a =>
        have hown := (ho.global_iff a).mp hl
        cases a with
        | thread t => simp [State.OwnsGlobal, hj t, Pc.inGlobal] at hown
        | main => simp [State.OwnsGlobal, hg] at hown
  have hlocal : ∀ j, s.get.inLocal j = false → s.counter.localLocks j = none := by
    intro j hg
    cases hl : s.counter.localLocks j with
    | none => rfl
    | some a =>
        have hown := (ho.local_iff j a).mp hl
        cases a with
        | thread t => simp [State.OwnsLocal, hj t, Pc.inLocal] at hown
        | main => simp [State.OwnsLocal, hg] at hown
  cases hget : s.get with
  | lockGlobal => simp [getStep, hglobal (by rw [hget]; rfl), mutexLock]
  | lockLocal i total => simp [getStep, hlocal i (by rw [hget]; rfl), mutexLock]
  | returned r => exact absurd hget (hr r)
  | _ => exact ⟨_, rfl⟩

/-- The call is on the way to return `v`. -/
def Collects (v : ℤ) (s : State T slots) : Prop :=
  if s.get.reading then wrap s.get.total = s.get.total ∧
    wrap (s.get.total + s.get.awaited s.counter.localCounts) = v
  else wrap (s.counter.globalCount + s.inSlots) = v

theorem wrap_wrap (x : ℤ) : wrap (wrap x) = wrap x := Int.bmod_bmod

theorem Collects.step [Fintype T] {s : State T slots} {v : ℤ} (h : Collects v s) (hI : Inv P s)
    {c' : Counter T slots} {g' : GetPc slots} (hf : GetFires s.counter s.get c' g') :
    Collects v { s with counter := c', get := g' } := by
  obtain ⟨hlocal, hglobal⟩ := hf.counts_eq
  unfold Collects at h ⊢
  simp only [State.inSlots, hlocal, hglobal] at h ⊢
  cases hr : s.get.reading with
  | true =>
      obtain ⟨hr', hcases⟩ := hf.total_cases hr s.counter.localCounts
      rw [hr, if_pos rfl] at h
      rw [hr', if_pos rfl]
      rcases hcases with ⟨ht, ha⟩ | ⟨i, -, -, ht, ha⟩
      · rwa [ht, ha]
      · refine ⟨by rw [ht, wrap_wrap], ?_⟩
        rw [ht, wrap_wrap_add, ← h.2]
        congr 1
        omega
  | false =>
      rw [hr, if_neg (by simp)] at h
      generalize hg : s.get = g at hf hr
      cases hf <;> simp only [GetPc.reading, reduceCtorEq] at hr
      case readGlobal =>
        refine ⟨?_, ?_⟩
        · change wrap s.counter.globalCount = s.counter.globalCount
          rw [hI.account, wrap_wrap]
        · rw [GetPc.awaited_unlockGlobal]
          exact h
      all_goals exact h

theorem Inv.completed_of_joined [Fintype T] {s : State T slots} (hI : Inv P s) (hj : s.Joined) :
    s.completed = ∑ t, P.increments t := by
  refine Finset.sum_congr rfl fun t _ => ?_
  have h := hI.round t
  simpa only [Thread.InRound, hj t] using h

section Joined

variable [Fintype T] [DecidableEq T]

/-- Run alone after all threads have returned, the call returns what it collects. -/
theorem get_returns {s : State T slots} {v : ℤ} (hI : Inv P s) (hj : s.Joined) (hv : Collects v s) :
    ∃ k s', (sloppyCounter P).run s (List.replicate k .main) = some s' ∧ s'.get = .returned v := by
  induction hn : s.get.fuel using Nat.strong_induction_on generalizing s with
  | _ n ih =>
      by_cases hr : ∃ r, s.get = .returned r
      · obtain ⟨r, hr⟩ := hr
        refine ⟨0, s, rfl, ?_⟩
        unfold Collects at hv
        rw [hr, GetPc.awaited_returned, add_zero] at hv
        obtain ⟨hwrap, hval⟩ : wrap r = r ∧ wrap r = v := hv
        rw [hr, ← hval, hwrap]
      · push Not at hr
        obtain ⟨⟨c', g'⟩, hstep⟩ := hI.owned.get_enabled hj hr
        have hf := getFires_of_getStep hstep
        have hs : (sloppyCounter P).step s .main = some { s with counter := c', get := g' } := by
          simp [sloppyCounter, SloppyCounter.step, hstep]
        obtain ⟨k, s', hrun, hret⟩ := ih g'.fuel (hn ▸ hf.fuel_lt)
          (s := { s with counter := c', get := g' }) (inv_step (a := .main) hI hs) hj
          (hv.step hI hf) rfl
        refine ⟨k + 1, s', ?_, hret⟩
        rw [List.replicate_succ, LTS.run, hs]
        exact hrun

/-- After all threads are joined, `sloppy_counter_get` returns the number of their updates as an
`int`. -/
theorem get_of_joined {s : State T slots} (hI : Inv P s) (hj : s.Joined) (hidle : s.get = .idle) :
    ∃ k s', (sloppyCounter P).run s (List.replicate k .main) = some s' ∧
      s'.get = .returned (wrap (∑ t, P.increments t : ℕ)) := by
  refine get_returns hI hj ?_
  unfold Collects
  rw [hidle, ← hI.completed_of_joined hj]
  exact hI.sum_of_quiet hj.quiet

end Joined

end Osvcp.SloppyCounter
