import Osvcp.Counters.SloppyCounterLaw

/-! # A call of `sloppy_counter_get` while updates run

In `sloppy_counter.c` a slot belongs to one thread. What the slot still stands for is its count,
unless that count has been added to the global one and not yet reset. While a call is reading, its
total and what the awaited slots stand for never exceed the updates counted so far, and grow with
them; the only step that takes from this sum is the store of
`global_count += local_counts[thread_id]` by a thread whose slot the call still awaits. If no such
step falls into the call, its result is exact.
-/

namespace Osvcp.SloppyCounter

open Function (update)

variable {n : ℕ} {P : Setup (Fin n) n}

/-- What slot `t` stands for. -/
def State.standing (P : Setup (Fin n) n) (s : State (Fin n) n) (t : Fin n) : ℤ :=
  s.counter.localCounts t - P.threshold * (s.thread t).pc.moved.toNat

/-- What a call that is reading has and still awaits. -/
def State.collected (P : Setup (Fin n) n) (s : State (Fin n) n) : ℤ :=
  s.get.total + s.get.awaited (s.standing P)

/-- The updates whose increment is stored. -/
def State.counted (s : State (Fin n) n) : ℕ := tally Thread.counted s.thread

/-- At the store of `global_count += local_counts[thread_id]`. -/
def Pc.transfers : Pc → Bool
  | .addStore _ => true
  | _ => false

/-- The step is the store of a transfer from a slot that a call has yet to read. -/
def TransfersAwaited (p : State (Fin n) n × Agent (Fin n)) : Prop :=
  ∃ t, p.2 = .thread t ∧ (p.1.thread t).pc.transfers = true ∧ p.1.get.awaits t = true

/-! ## What slots stand for -/

section Standing

variable {s : State (Fin n) n}

theorem Inv.standing_nonneg (hslot : ∀ t, P.slot t = t) (hI : Inv P s) (t : Fin n) :
    0 ≤ s.standing P t := by
  have hrange := (hI.range t).1
  have hknows := hI.knows t
  rw [hslot t] at hknows
  unfold State.standing
  cases hp : (s.thread t).pc <;> simp only [hp, Pc.Knows] at hknows <;> simp [Pc.moved] <;> omega

/-- A slot whose lock the call owns stands for its count. -/
theorem Inv.standing_of_inLocal (hslot : ∀ t, P.slot t = t) (hI : Inv P s) {t : Fin n}
    (ht : s.get.inLocal t = true) : s.standing P t = s.counter.localCounts t := by
  have hmain : s.counter.localLocks t = some .main := (hI.owned.local_iff t .main).mpr ht
  have hmoved : (s.thread t).pc.moved = false := by
    by_contra hm
    have hin : (s.thread t).pc.inLocal = true := by
      cases hp : (s.thread t).pc <;> simp [hp, Pc.moved, Pc.inLocal] at hm ⊢
    have hthread := (hI.owned.local_iff t (.thread t)).mpr ⟨hslot t, hin⟩
    rw [hmain] at hthread
    exact absurd hthread (by simp)
  simp [State.standing, hmoved]

theorem Thread.counted_le {increments : ℕ} {x : Thread} (h : x.InRound increments) :
    x.counted ≤ increments := by
  unfold Thread.InRound at h
  unfold Thread.counted
  cases hp : x.pc <;> simp only [hp] at h <;> simp [Pc.counted] <;> omega

theorem Inv.counted_le (hI : Inv P s) : s.counted ≤ ∑ t, P.increments t := by
  unfold State.counted tally
  exact Finset.sum_le_sum fun t _ => Thread.counted_le (hI.round t)

theorem completed_le_counted (s : State (Fin n) n) : s.completed ≤ s.counted :=
  tally_le_tally fun _ => Nat.le_add_right _ _

theorem counted_le_started (s : State (Fin n) n) : s.counted ≤ s.started := by
  refine tally_le_tally fun t => ?_
  unfold Thread.counted Thread.started
  cases (s.thread t).pc <;> simp [Pc.counted, Pc.inUpdate]

/-- Without overflow the global count is what is counted and not standing in a slot. -/
theorem Inv.globalCount_eq (hslot : ∀ t, P.slot t = t) (hI : Inv P s)
    (hlt : ∑ t, P.increments t < 2 ^ 31) :
    0 ≤ s.counter.globalCount ∧ s.counter.globalCount + ∑ t, s.standing P t = s.counted := by
  have hcounted := hI.counted_le
  have hmoved := hI.moved
  have hnonneg : 0 ≤ ∑ t, s.standing P t := Finset.sum_nonneg fun t _ => hI.standing_nonneg hslot t
  have hsum : (s.weight P : ℤ) - s.inSlots = s.counted - ∑ t, s.standing P t := by
    simp only [State.weight, State.inSlots, State.counted, State.standing, tally, Thread.weight]
    push_cast
    rw [Finset.sum_sub_distrib, Finset.sum_add_distrib]
    omega
  have h := hI.account
  rw [wrap_of_lt (by omega) (by omega)] at h
  omega

end Standing

/-! ## What one step does to the sum -/

/-- A thread counts an increment in its slot, or transfers the slot, or changes neither. -/
theorem Fires.standing_cases {t : Fin n} {c c' : Counter (Fin n) n} {i : ℕ} {p : Pc} {x' : Thread}
    (h : Fires P t c i p c' x') (hp : p.Knows P.threshold (c.localCounts (P.slot t)) c.globalCount)
    (hr : 0 ≤ c.localCounts (P.slot t)) :
    (x'.counted = Thread.counted ⟨p, i⟩ ∧
      c'.localCounts (P.slot t) - P.threshold * x'.pc.moved.toNat =
        c.localCounts (P.slot t) - P.threshold * p.moved.toNat) ∨
    (x'.counted = Thread.counted ⟨p, i⟩ + 1 ∧
      c'.localCounts (P.slot t) - P.threshold * x'.pc.moved.toNat =
        c.localCounts (P.slot t) - P.threshold * p.moved.toNat + 1) ∨
    ((∃ k, p = .addStore k) ∧ x'.counted = Thread.counted ⟨p, i⟩ ∧
      c'.localCounts (P.slot t) - P.threshold * x'.pc.moved.toNat ≤
        c.localCounts (P.slot t) - P.threshold * p.moved.toNat) := by
  cases h
  case incStore k =>
    obtain ⟨rfl, hlt⟩ := hp
    right; left
    simp [Thread.counted, Pc.counted, Pc.moved, wrap_incr hr hlt]
  case addStore k =>
    right; right
    simp [Thread.counted, Pc.counted, Pc.moved]
  case reset =>
    left
    simp only [Pc.Knows] at hp
    simp [Thread.counted, Pc.counted, Pc.moved, hp]
  all_goals
    left
    simp [Thread.counted, Pc.counted, Pc.moved]

section Window

variable {s s' : State (Fin n) n} {a : Agent (Fin n)}

/-- A step of a thread adds to the sum at most what it counts, and takes nothing from it unless it
transfers an awaited slot. -/
theorem Inv.collected_thread (hslot : ∀ t, P.slot t = t) (hI : Inv P s) {t : Fin n}
    {c' : Counter (Fin n) n} {x' : Thread}
    (h : Fires P t s.counter (s.thread t).i (s.thread t).pc c' x')
    (hs' : s' = { s with counter := c', thread := update s.thread t x' }) :
    s'.collected P + s.counted ≤ s.collected P + s'.counted ∧ s.counted ≤ s'.counted ∧
      (¬ TransfersAwaited (s, .thread t) → s.collected P ≤ s'.collected P) := by
  subst hs'
  have hcount : tally Thread.counted (update s.thread t x') +
      Thread.counted ⟨(s.thread t).pc, (s.thread t).i⟩ = _ :=
      tally_update Thread.counted s.thread t x'
  have hawaited := s.get.awaited_eq_off (s.standing P)
    (State.standing P { s with counter := c', thread := update s.thread t x' }) (i := t)
    fun u hu => by
      have hne : u ≠ P.slot t := by rw [hslot t]; exact hu
      simp [State.standing, h.localCounts_of_ne hne, hu]
  have hnew : State.standing P { s with counter := c', thread := update s.thread t x' } t =
      c'.localCounts t - P.threshold * x'.pc.moved.toNat := by simp [State.standing]
  have hold : s.standing P t =
      s.counter.localCounts t - P.threshold * (s.thread t).pc.moved.toNat := rfl
  have hcases := h.standing_cases (hI.knows t) (hI.range _).1
  rw [hslot t, ← hnew, ← hold] at hcases
  simp only [State.collected, State.counted]
  cases haw : s.get.awaits t with
  | false =>
      simp only [haw, if_neg Bool.false_ne_true] at hawaited
      refine ⟨?_, ?_, fun _ => ?_⟩ <;> omega
  | true =>
      simp only [haw, if_true] at hawaited
      refine ⟨by omega, by omega, fun hok => ?_⟩
      rcases hcases with h | h | ⟨⟨k, hk⟩, -, -⟩
      · omega
      · omega
      · exact absurd ⟨t, rfl, by rw [hk]; rfl, haw⟩ hok

/-- A call that is reading has collected no more than is counted. -/
def Bounded (P : Setup (Fin n) n) (s : State (Fin n) n) : Prop :=
  s.get.reading = true → 0 ≤ s.get.total ∧ s.collected P ≤ s.counted

theorem Inv.awaited_nonneg (hslot : ∀ t, P.slot t = t) (hI : Inv P s) (g : GetPc n) :
    0 ≤ g.awaited (s.standing P) := by
  refine Finset.sum_nonneg fun t _ => ?_
  have h := hI.standing_nonneg hslot t
  split
  · exact h
  · exact le_refl _

/-- A step of the call keeps the sum once it is reading; when it reads the global count, the sum is
what is counted at that point. -/
theorem Inv.collected_main (hslot : ∀ t, P.slot t = t) (hI : Inv P s)
    (hlt : ∑ t, P.increments t < 2 ^ 31) (hb : Bounded P s) {c' : Counter (Fin n) n} {g' : GetPc n}
    (h : GetFires s.counter s.get c' g') (hs' : s' = { s with counter := c', get := g' }) :
    s'.counted = s.counted ∧ (s'.get.reading = true → 0 ≤ s'.get.total ∧
      s'.collected P = if s.get.reading then s.collected P else s.counted) := by
  subst hs'
  obtain ⟨hlocal, hglobal⟩ := h.counts_eq
  have hstanding : State.standing P { s with counter := c', get := g' } = s.standing P := by
    funext t
    simp [State.standing, hlocal]
  refine ⟨rfl, fun hr' => ?_⟩
  simp only [State.collected, hstanding]
  cases hr : s.get.reading with
  | true =>
      obtain ⟨htotal, hle⟩ := hb hr
      obtain ⟨-, hcases⟩ := h.total_cases hr (s.standing P)
      rcases hcases with ⟨ht, ha⟩ | ⟨i, hin, -, ht, ha⟩
      · rw [ht, ha]
        exact ⟨htotal, rfl⟩
      · have hst := hI.standing_of_inLocal hslot hin
        have hpos := hI.standing_nonneg hslot i
        have hrest := hI.awaited_nonneg hslot g'
        have hcounted := hI.counted_le
        unfold State.collected at hle
        rw [← hst, wrap_of_lt (by omega) (by omega)] at ht
        rw [if_pos rfl]
        omega
  | false =>
      obtain ⟨hpos, hsum⟩ := hI.globalCount_eq hslot hlt
      generalize hg : s.get = g at h hr
      cases h <;> simp only [GetPc.reading, reduceCtorEq] at hr hr'
      case readGlobal =>
        rw [GetPc.awaited_unlockGlobal]
        exact ⟨hpos, hsum⟩

theorem bounded_step (hslot : ∀ t, P.slot t = t) (hI : Inv P s) (hlt : ∑ t, P.increments t < 2 ^ 31)
    (hb : Bounded P s) (h : step P s a = some s') : Bounded P s' := by
  obtain ⟨t, c', x', -, hf, heq⟩ | ⟨c', g', -, hf, heq⟩ := step_cases h
  · obtain ⟨hle, -, -⟩ := hI.collected_thread hslot hf heq
    intro hr
    have hget : s'.get = s.get := by rw [heq]
    rw [hget] at hr ⊢
    obtain ⟨htotal, hold⟩ := hb hr
    exact ⟨htotal, by omega⟩
  · obtain ⟨hcounted, hcollected⟩ := hI.collected_main hslot hlt hb hf heq
    intro hr
    obtain ⟨htotal, heq⟩ := hcollected hr
    refine ⟨htotal, ?_⟩
    rw [heq, hcounted]
    split
    · rename_i hr'
      exact (hb hr').2
    · exact le_refl _

/-- The sum of the call, or before it reads what is counted, is at least `m`. -/
def AtLeast (P : Setup (Fin n) n) (m : ℕ) (s : State (Fin n) n) : Prop :=
  m ≤ if s.get.reading then s.collected P else (s.counted : ℤ)

theorem atLeast_step (hslot : ∀ t, P.slot t = t) (hI : Inv P s) (hlt : ∑ t, P.increments t < 2 ^ 31)
    (hb : Bounded P s) {m : ℕ} (hm : AtLeast P m s) (hok : ¬ TransfersAwaited (s, a))
    (h : step P s a = some s') : AtLeast P m s' := by
  unfold AtLeast at hm ⊢
  obtain ⟨t, c', x', rfl, hf, heq⟩ | ⟨c', g', -, hf, heq⟩ := step_cases h
  · obtain ⟨-, hcounted, hcollected⟩ := hI.collected_thread hslot hf heq
    have hget : s'.get = s.get := by rw [heq]
    have hge := hcollected hok
    rw [hget]
    cases hr : s.get.reading with
    | true =>
        rw [hr, if_pos rfl] at hm
        rw [if_pos rfl]
        omega
    | false =>
        rw [hr, if_neg Bool.false_ne_true] at hm
        rw [if_neg Bool.false_ne_true]
        omega
  · obtain ⟨hcounted, hcollected⟩ := hI.collected_main hslot hlt hb hf heq
    cases hr : s'.get.reading with
    | true => rw [if_pos rfl, (hcollected hr).2]; exact hm
    | false =>
        rw [if_neg Bool.false_ne_true, hcounted]
        cases hr' : s.get.reading with
        | true =>
            obtain ⟨hstill, -⟩ := hf.total_cases hr' (s.standing P)
            rw [heq] at hr
            exact absurd hr (by simp [hstill])
        | false => simpa [hr'] using hm

/-- The window of a call as a run. -/
theorem snapshot_run (hslot : ∀ t, P.slot t = t) (hlt : ∑ t, P.increments t < 2 ^ 31) {m : ℕ}
    {as : List (Agent (Fin n))} (hI : Inv P s) (hb : Bounded P s) (hm : AtLeast P m s)
    (hrun : (sloppyCounter P).run s as = some s')
    (hok : ∀ p ∈ (sloppyCounter P).trace s as, ¬ TransfersAwaited p) :
    Bounded P s' ∧ AtLeast P m s' := by
  induction as generalizing s with
  | nil =>
      simp only [LTS.run, Option.some.injEq] at hrun
      subst hrun
      exact ⟨hb, hm⟩
  | cons a as ih =>
      simp only [LTS.run, Option.bind_eq_some_iff] at hrun
      obtain ⟨u, hu, hrun⟩ := hrun
      simp only [LTS.trace, hu, Option.elim_some, List.forall_mem_cons] at hok
      replace hu : step P s a = some u := hu
      exact ih (inv_step hI hu) (bounded_step hslot hI hlt hb hu)
        (atLeast_step hslot hI hlt hb hm hok.1 hu) hrun hok.2

end Window

/-! ## The call -/

/-- A call of `sloppy_counter_get` during which no thread stores a transfer from a slot that the
call has yet to read returns at least the updates completed when it began and at most those started
when it ended. -/
theorem get_exact_of_no_transfer {n : ℕ} {increments : Fin n → ℕ} {threshold : ℕ}
    {hpos : 0 < threshold} {hT : threshold < 2 ^ 31} (hlt : ∑ t, increments t < 2 ^ 31)
    {s₀ s : State (Fin n) n}
    {as : List (Agent (Fin n))} {r : ℤ}
    (hs : (sloppyCounter (perThread n increments threshold hpos hT)).Reachable s₀)
    (hidle : s₀.get = .idle)
    (hrun : (sloppyCounter (perThread n increments threshold hpos hT)).run s₀
      (.main :: as) = some s)
    (hret : s.get = .returned r)
    (hok : ∀ p ∈ (sloppyCounter (perThread n increments threshold hpos hT)).trace s₀ (.main :: as),
      ¬ TransfersAwaited p) :
    s₀.completed ≤ r ∧ r ≤ s.started := by
  have hI := inv_of_reachable hs
  have hcompleted := completed_le_counted s₀
  have hstarted := counted_le_started s
  have hm : AtLeast (perThread n increments threshold hpos hT) s₀.completed s₀ := by
    unfold AtLeast
    rw [hidle, if_neg (by simp [GetPc.reading])]
    exact_mod_cast hcompleted
  have hb : Bounded (perThread n increments threshold hpos hT) s₀ := by
    intro hr
    rw [hidle] at hr
    exact Bool.noConfusion hr
  obtain ⟨hb', hm'⟩ := snapshot_run (fun _ => rfl) hlt hI hb hm hrun hok
  have hr : s.get.reading = true := by rw [hret]; rfl
  obtain ⟨-, hle⟩ := hb' hr
  unfold AtLeast at hm'
  rw [hr, if_pos rfl] at hm'
  have hcollected : s.collected (perThread n increments threshold hpos hT) = r := by
    unfold State.collected
    rw [hret, GetPc.awaited_returned, add_zero]
    rfl
  omega

/-- Two threads with two updates each. -/
def pair : Setup (Fin 2) 2 := perThread 2 (fun _ => 2) 2 (by decide) (by decide)

/-- The call reads the slot of thread `t`; then this thread transfers its two updates, and thread
`u` makes one before its slot is read. -/
def crossed {ι : Type*} (t u : ι) : List (Agent ι) :=
  List.replicate 7 .main ++ List.replicate 11 (.thread t) ++ List.replicate 6 (.thread u) ++
    List.replicate 5 .main

/-- A call during which one slot is transferred after it has been read and another one grows
before. -/
theorem get_exact_of_no_transfer_crossed :
    ∃ s₀ s : State (Fin 2) 2, ∃ r : ℤ, (sloppyCounter pair).Reachable s₀ ∧
      (sloppyCounter pair).run s₀ (.main :: crossed 0 1) = some s ∧ s.get = .returned r ∧
      s₀.completed = 1 ∧ s.started = 3 ∧ 1 ≤ r ∧ r ≤ 3 := by
  obtain ⟨s₀, hex, hc⟩ := LTS.exec_of_run_any (sloppyCounter pair) sloppyCounterInit
    (List.replicate 6 (.thread 0))
    (fun s₀ => s₀.get == .idle && s₀.completed == 1 &&
      ((sloppyCounter pair).run s₀ (.main :: crossed 0 1)).any
      (fun s => s.get == .returned 2 && s.started == 3) &&
      ((sloppyCounter pair).trace s₀ (.main :: crossed 0 1)).all fun p =>
        decide (∀ t, p.2 = .thread t → (p.1.thread t).pc.transfers = true →
          p.1.get.awaits t = false)) rfl
    (by decide +kernel)
  simp only [Bool.and_eq_true, beq_iff_eq, Option.any_eq_true, List.all_eq_true] at hc
  obtain ⟨⟨⟨hidle, hone⟩, s, hrun, hret, hthree⟩, hall⟩ := hc
  have hok : ∀ p ∈ (sloppyCounter pair).trace s₀ (.main :: crossed 0 1), ¬ TransfersAwaited p := by
    rintro p hp ⟨t, ht, htransfers, hawaits⟩
    have hnot := of_decide_eq_true (hall p hp) t ht htransfers
    exact Bool.noConfusion (hnot.symm.trans hawaits)
  obtain ⟨hle, hge⟩ := get_exact_of_no_transfer (by decide) ⟨_, hex⟩ hidle hrun hret hok
  exact ⟨s₀, s, 2, ⟨_, hex⟩, hrun, hret, hone, hthree, by omega, by omega⟩

/-- The call reads the global count, then the thread moves its two updates there, and then the call
reads the empty slot: it returns 0 although one update was completed before it began. -/
theorem get_misses_transfer :
    ∃ s₀ s : State (Fin 1) 1, ∃ as, ∃ r : ℤ,
      (sloppyCounter (perThread 1 (fun _ => 2) 2 (by decide) (by decide))).Reachable s₀ ∧
      s₀.get = .idle ∧
      (sloppyCounter (perThread 1 (fun _ => 2) 2 (by decide) (by decide))).run s₀ (.main :: as) =
        some s ∧
      s.get = .returned r ∧ r < s₀.completed := by
  obtain ⟨s₀, hex, hc⟩ := LTS.exec_of_run_any
    (sloppyCounter (perThread 1 (fun _ => 2) 2 (by decide) (by decide))) sloppyCounterInit
    (List.replicate 6 (.thread 0))
    (fun s₀ => s₀.get == .idle && s₀.completed == 1 &&
      ((sloppyCounter (perThread 1 (fun _ => 2) 2 (by decide) (by decide))).run s₀
        (.main :: (List.replicate 3 .main ++ List.replicate 11 (.thread 0) ++
          List.replicate 5 .main))).any fun s => s.get == .returned 0) rfl (by decide)
  simp only [Bool.and_eq_true, beq_iff_eq, Option.any_eq_true] at hc
  obtain ⟨⟨hidle, hone⟩, s, hrun, hret⟩ := hc
  exact ⟨s₀, s, _, 0, ⟨_, hex⟩, hidle, hrun, hret, by omega⟩

end Osvcp.SloppyCounter
