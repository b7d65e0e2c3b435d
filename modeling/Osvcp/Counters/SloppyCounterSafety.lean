import Osvcp.Counters.SloppyCounter

/-! # No increment of a sloppy counter is lost

The locks give each count one writer at a time, so a loaded count is still current at its store.
Then the account of the counts is a sum: the global count is what the threads have counted, less
what is still in the slots, where a count that has been added and not yet reset is counted twice.
All of this is modulo overflow of the global count; the local counts stay in `[0, THRESHOLD]`.
-/

namespace Osvcp.SloppyCounter

open Function (update)

variable {T : Type*} {slots : ℕ} {P : Setup T slots}

/-! ## Ownership of the locks -/

/-- Agent `a` is at a place where it owns the lock of slot `j`. -/
def State.OwnsLocal (P : Setup T slots) (s : State T slots) (j : Fin slots) : Agent T → Prop
  | .thread t => P.slot t = j ∧ (s.thread t).pc.inLocal = true
  | .main => s.get.inLocal j = true

/-- Agent `a` is at a place where it owns the global lock. -/
def State.OwnsGlobal (s : State T slots) : Agent T → Prop
  | .thread t => (s.thread t).pc.inGlobal = true
  | .main => s.get.inGlobal = true

/-- The owners of the locks are at the places where they own them. -/
structure Owned (P : Setup T slots) (s : State T slots) : Prop where
  local_iff : ∀ j a, s.counter.localLocks j = some a ↔ s.OwnsLocal P j a
  global_iff : ∀ a, s.counter.globalLock = some a ↔ s.OwnsGlobal a

section Owned

variable {t : T} {c c' : Counter T slots} {i : ℕ} {p : Pc} {x' : Thread} {g g' : GetPc slots}

theorem Fires.lockStep_local (h : Fires P t c i p c' x') (j : Fin slots) :
    LockStep (.thread t) (c.localLocks j) (c'.localLocks j) (P.slot t = j ∧ p.inLocal = true)
      (P.slot t = j ∧ x'.pc.inLocal = true) := by
  by_cases hj : P.slot t = j
  · subst hj
    cases h <;> simp_all [LockStep, Pc.inLocal]
  · cases h <;> simp [LockStep, hj, Ne.symm hj]

theorem Fires.lockStep_global (h : Fires P t c i p c' x') :
    LockStep (.thread t) c.globalLock c'.globalLock (p.inGlobal = true)
      (x'.pc.inGlobal = true) := by
  cases h <;> simp_all [LockStep, Pc.inGlobal]

theorem GetFires.lockStep_local (h : GetFires c g c' g') (j : Fin slots) :
    LockStep .main (c.localLocks j) (c'.localLocks j) (g.inLocal j = true)
      (g'.inLocal j = true) := by
  cases h
  case lockLocal k total hl =>
    by_cases hj : k = j
    · subst hj
      simp [LockStep, GetPc.inLocal, hl]
    · simp [LockStep, GetPc.inLocal, hj, Ne.symm hj]
  case unlockLocal k total =>
    by_cases hj : k = j
    · subst hj
      simp [LockStep, GetPc.inLocal]
    · simp [LockStep, GetPc.inLocal, hj, Ne.symm hj]
  all_goals simp [LockStep, GetPc.inLocal]

theorem GetFires.lockStep_global (h : GetFires c g c' g') :
    LockStep .main c.globalLock c'.globalLock (g.inGlobal = true) (g'.inGlobal = true) := by
  cases h <;> simp_all [LockStep, GetPc.inGlobal]

variable {s s' : State T slots}

theorem Owned.local_unique (ho : Owned P s) {t u : T} (ht : (s.thread t).pc.inLocal = true)
    (hu : (s.thread u).pc.inLocal = true) (hslot : P.slot u = P.slot t) : u = t := by
  have h := (ho.local_iff (P.slot t) (.thread t)).mpr ⟨rfl, ht⟩
  rw [(ho.local_iff (P.slot t) (.thread u)).mpr ⟨hslot, hu⟩] at h
  exact Agent.thread.inj (Option.some.inj h)

theorem Owned.global_unique (ho : Owned P s) {t u : T} (ht : (s.thread t).pc.inGlobal = true)
    (hu : (s.thread u).pc.inGlobal = true) : u = t := by
  have h := (ho.global_iff (.thread t)).mpr ht
  rw [(ho.global_iff (.thread u)).mpr hu] at h
  exact Agent.thread.inj (Option.some.inj h)

theorem owned_init : Owned P (sloppyCounterInit : State T slots) where
  local_iff j a := by cases a <;> simp [sloppyCounterInit, State.OwnsLocal, Pc.inLocal,
    GetPc.inLocal]
  global_iff a := by cases a <;> simp [sloppyCounterInit, State.OwnsGlobal, Pc.inGlobal,
    GetPc.inGlobal]

theorem owned_step [DecidableEq T] {a : Agent T} (ho : Owned P s) (h : step P s a = some s') :
    Owned P s' := by
  obtain ⟨t, c', x', -, hf, rfl⟩ | ⟨c', g', -, hf, rfl⟩ := step_cases h
  · refine ⟨fun j => ?_, ?_⟩
    · refine LockStep.owner_iff (a := .thread t) ?_ (ho.local_iff j) fun b hb => ?_
      · simpa [State.OwnsLocal] using hf.lockStep_local j
      · cases b with
        | thread u =>
            have hu : u ≠ t := fun he => hb (congrArg Agent.thread he)
            simp [State.OwnsLocal, hu]
        | main => rfl
    · refine LockStep.owner_iff (a := .thread t) ?_ ho.global_iff fun b hb => ?_
      · simpa [State.OwnsGlobal] using hf.lockStep_global
      · cases b with
        | thread u =>
            have hu : u ≠ t := fun he => hb (congrArg Agent.thread he)
            simp [State.OwnsGlobal, hu]
        | main => rfl
  · refine ⟨fun j => ?_, ?_⟩
    · refine LockStep.owner_iff (a := .main) (hf.lockStep_local j) (ho.local_iff j) fun b hb => ?_
      cases b with
      | thread u => rfl
      | main => exact absurd rfl hb
    · refine LockStep.owner_iff (a := .main) hf.lockStep_global ho.global_iff fun b hb => ?_
      cases b with
      | thread u => rfl
      | main => exact absurd rfl hb

end Owned

/-! ## The counts -/

/-- What a thread knows of the count `l` of its slot and the global count `g`. -/
def Pc.Knows (threshold : ℕ) (l g : ℤ) : Pc → Prop
  | .incLoad | .unlockLocal => l < threshold
  | .incStore n => n = l ∧ l < threshold
  | .lockGlobal | .addLoad | .unlockGlobal | .reset => l = threshold
  | .addStore n => l = threshold ∧ n = g
  | _ => True

/-- What a thread stands for in the account: its counted updates, and once more the count that it
has added to the global count and not yet reset. -/
def Thread.weight (threshold : ℕ) (x : Thread) : ℕ := x.counted + threshold * x.pc.moved.toNat

/-- The rounds of a thread with `increments` updates to make. -/
def Thread.InRound (increments : ℕ) (x : Thread) : Prop :=
  match x.pc with
  | .loopTest => x.i ≤ increments
  | .done => x.i = increments
  | _ => x.i < increments

theorem wrap_of_lt {x : ℤ} (h₀ : 0 ≤ x) (h : x < 2 ^ 31) : wrap x = x := by
  unfold wrap
  rw [Int.bmod_eq_of_le (by omega) (by omega)]

theorem wrap_wrap_add (x y : ℤ) : wrap (wrap x + y) = wrap (x + y) := Int.bmod_add_bmod

section Local

variable {t : T} {c c' : Counter T slots} {i : ℕ} {p : Pc} {x' : Thread}

theorem Fires.localCounts_of_ne (h : Fires P t c i p c' x') {j : Fin slots} (hj : j ≠ P.slot t) :
    c'.localCounts j = c.localCounts j := by
  cases h <;> simp [hj]

/-- Only the owner of a slot's lock stores its count. -/
theorem Fires.localCounts_eq (h : Fires P t c i p c' x') (hp : p.inLocal = false) :
    c'.localCounts = c.localCounts := by
  cases h <;> first | rfl | simp [Pc.inLocal] at hp

/-- Only the owner of the global lock stores the global count. -/
theorem Fires.globalCount_eq (h : Fires P t c i p c' x') (hp : p.inGlobal = false) :
    c'.globalCount = c.globalCount := by
  cases h <;> first | rfl | simp [Pc.inGlobal] at hp

theorem wrap_incr {l : ℤ} (h₀ : 0 ≤ l) (h : l < P.threshold) : wrap (l + 1) = l + 1 := by
  have hlt := P.threshold_lt
  exact wrap_of_lt (by omega) (by omega)

theorem Fires.range (h : Fires P t c i p c' x')
    (hp : p.Knows P.threshold (c.localCounts (P.slot t)) c.globalCount)
    (hr : 0 ≤ c.localCounts (P.slot t) ∧ c.localCounts (P.slot t) ≤ P.threshold) :
    0 ≤ c'.localCounts (P.slot t) ∧ c'.localCounts (P.slot t) ≤ P.threshold := by
  cases h
  case incStore n =>
    obtain ⟨rfl, hlt⟩ := hp
    simp only [setLocal_localCounts, if_true, wrap_incr hr.1 hlt]
    omega
  case reset => simp
  all_goals exact hr

theorem Fires.knows (h : Fires P t c i p c' x')
    (hp : p.Knows P.threshold (c.localCounts (P.slot t)) c.globalCount)
    (hr : 0 ≤ c.localCounts (P.slot t) ∧ c.localCounts (P.slot t) ≤ P.threshold)
    (hfree : c.localLocks (P.slot t) = none → c.localCounts (P.slot t) < P.threshold) :
    x'.pc.Knows P.threshold (c'.localCounts (P.slot t)) c'.globalCount := by
  have hpos := P.threshold_pos
  cases h <;> simp only [Pc.Knows] at hp ⊢
  case lockLocal hl => exact hfree hl
  case incLoad => exact ⟨trivial, hp⟩
  case reached hle => omega
  case below hlt => exact hlt
  case lockGlobal => exact hp
  case addLoad => exact ⟨hp, trivial⟩
  case addStore => exact hp.1
  case unlockGlobal => exact hp
  case reset => simpa using hpos

theorem GetFires.counts_eq {g g' : GetPc slots} (h : GetFires c g c' g') :
    c'.localCounts = c.localCounts ∧ c'.globalCount = c.globalCount := by
  cases h <;> exact ⟨rfl, rfl⟩

theorem Fires.inRound (h : Fires P t c i p c' x') (hp : Thread.InRound (P.increments t) ⟨p, i⟩) :
    x'.InRound (P.increments t) := by
  cases h <;> simp only [Thread.InRound] at hp ⊢ <;> omega

/-- A thread that does not own the lock of its slot did not touch it, or has just given it up. -/
theorem Fires.of_not_inLocal (h : Fires P t c i p c' x') (hx : x'.pc.inLocal = false) :
    c'.localCounts = c.localCounts ∧ (c'.localLocks = c.localLocks ∨ p = .unlockLocal) := by
  cases h <;> simp_all [Pc.inLocal]

/-- A step keeps the account, or moves a full count to the global one. -/
theorem Fires.account (h : Fires P t c i p c' x')
    (hp : p.Knows P.threshold (c.localCounts (P.slot t)) c.globalCount)
    (hr : 0 ≤ c.localCounts (P.slot t)) :
    (c'.globalCount = c.globalCount ∧ (x'.weight P.threshold : ℤ) + c.localCounts (P.slot t) =
      Thread.weight P.threshold ⟨p, i⟩ + c'.localCounts (P.slot t)) ∨
    (c'.globalCount = wrap (c.globalCount + P.threshold) ∧
      x'.weight P.threshold = Thread.weight P.threshold ⟨p, i⟩ + P.threshold ∧
      c'.localCounts (P.slot t) = c.localCounts (P.slot t)) := by
  cases h
  case incStore n =>
    obtain ⟨rfl, hlt⟩ := hp
    left
    simp [Thread.weight, Thread.counted, Pc.counted, Pc.moved, wrap_incr hr hlt]
    omega
  case addStore n =>
    obtain ⟨hl, rfl⟩ := hp
    right
    simp [Thread.weight, Thread.counted, Pc.counted, Pc.moved, hl]
  case reset =>
    left
    simp only [Pc.Knows] at hp
    simp [Thread.weight, Thread.counted, Pc.counted, Pc.moved, hp]
  all_goals
    left
    simp [Thread.weight, Thread.counted, Pc.counted, Pc.moved]

end Local

theorem Pc.knows_of_not_inLocal {p : Pc} (hp : p.inLocal = false) (threshold : ℕ) (l g : ℤ) :
    p.Knows threshold l g := by
  cases p <;> trivial

/-- Outside the global section a thread knows nothing of the global count. -/
theorem Pc.Knows.of_not_inGlobal {p : Pc} (hp : p.inGlobal = false) {threshold : ℕ} {l g : ℤ}
    (h : p.Knows threshold l g) (g' : ℤ) : p.Knows threshold l g' := by
  cases p <;> trivial

/-! ## The invariant -/

section Invariant

variable [Fintype T] {s s' : State T slots}

/-- What is still in the slots. -/
def State.inSlots (s : State T slots) : ℤ := ∑ j, s.counter.localCounts j

/-- What the threads stand for in the account. -/
def State.weight (P : Setup T slots) (s : State T slots) : ℕ :=
  tally (Thread.weight P.threshold) s.thread

/-- The invariant of the counter. -/
structure Inv (P : Setup T slots) (s : State T slots) : Prop where
  owned : Owned P s
  range : ∀ j, 0 ≤ s.counter.localCounts j ∧ s.counter.localCounts j ≤ P.threshold
  free : ∀ j, (∀ t, s.counter.localLocks j ≠ some (.thread t)) →
    s.counter.localCounts j < P.threshold
  knows : ∀ t, (s.thread t).pc.Knows P.threshold (s.counter.localCounts (P.slot t))
    s.counter.globalCount
  account : s.counter.globalCount = wrap (s.weight P - s.inSlots)
  moved : s.inSlots ≤ s.weight P
  round : ∀ t, (s.thread t).InRound (P.increments t)

theorem inv_init : Inv P (sloppyCounterInit : State T slots) where
  owned := owned_init
  range _ := ⟨le_refl _, Int.natCast_nonneg _⟩
  free _ _ := Int.natCast_pos.mpr P.threshold_pos
  knows _ := trivial
  account := by
    have hweight : (sloppyCounterInit : State T slots).weight P = Fintype.card T * 0 :=
      tally_const fun _ => by simp [sloppyCounterInit, Thread.weight, Thread.counted,
        Pc.counted, Pc.moved]
    have hslots : (sloppyCounterInit : State T slots).inSlots = 0 :=
      Finset.sum_eq_zero fun _ _ => rfl
    rw [hweight, hslots]
    simp [sloppyCounterInit, wrap]
  moved := by
    have hslots : (sloppyCounterInit : State T slots).inSlots = 0 :=
      Finset.sum_eq_zero fun _ _ => rfl
    rw [hslots]
    exact Int.natCast_nonneg _
  round _ := Nat.zero_le _

theorem Inv.get_step (hI : Inv P s) {c' : Counter T slots} {g' : GetPc slots}
    (ho : Owned P { s with counter := c', get := g' }) (h : GetFires s.counter s.get c' g') :
    Inv P { s with counter := c', get := g' } := by
  have hcounts := h.counts_eq
  refine ⟨ho, ?_, fun j hj => ?_, ?_, ?_, ?_, hI.round⟩
  · simpa [hcounts.1] using hI.range
  · simp only [hcounts.1]
    -- the call has the lock only where no thread has it
    refine hI.free j fun t hlock => hj t ?_
    exact (ho.local_iff j (.thread t)).mpr ((hI.owned.local_iff j (.thread t)).mp hlock)
  · simpa [hcounts.1, hcounts.2] using hI.knows
  · simpa [State.inSlots, State.weight, hcounts.1, hcounts.2] using hI.account
  · simpa [State.inSlots, State.weight, hcounts.1] using hI.moved

/-- A thread other than the one that moved keeps what it knows. -/
theorem Inv.knows_of_ne (hI : Inv P s) {t u : T} (hu : u ≠ t) {c' : Counter T slots} {x' : Thread}
    (h : Fires P t s.counter (s.thread t).i (s.thread t).pc c' x') :
    (s.thread u).pc.Knows P.threshold (c'.localCounts (P.slot u)) c'.globalCount := by
  cases hloc : (s.thread u).pc.inLocal with
  | false => exact Pc.knows_of_not_inLocal hloc _ _ _
  | true =>
      have hcount : c'.localCounts (P.slot u) = s.counter.localCounts (P.slot u) := by
        cases ht : (s.thread t).pc.inLocal with
        | false => rw [h.localCounts_eq ht]
        | true =>
            refine h.localCounts_of_ne fun hslot => hu ?_
            exact hI.owned.local_unique ht hloc hslot
      rw [hcount]
      cases hglob : (s.thread u).pc.inGlobal with
      | false => exact (hI.knows u).of_not_inGlobal hglob _
      | true =>
          have hg : c'.globalCount = s.counter.globalCount := by
            refine h.globalCount_eq (Bool.eq_false_of_not_eq_true fun ht => hu ?_)
            exact hI.owned.global_unique ht hglob
          rw [hg]
          exact hI.knows u

/-- A slot whose lock no thread has is below the threshold after the step too: if it is the slot of
the thread that moved, then that thread has given its lock up. -/
theorem Inv.free_step [DecidableEq T] (hI : Inv P s) {t : T} {c' : Counter T slots} {x' : Thread}
    (ho : Owned P { s with counter := c', thread := update s.thread t x' })
    (h : Fires P t s.counter (s.thread t).i (s.thread t).pc c' x') (j : Fin slots)
    (hj : ∀ u, c'.localLocks j ≠ some (.thread u)) : c'.localCounts j < P.threshold := by
  by_cases hjt : j = P.slot t
  · subst hjt
    have hnot : x'.pc.inLocal = false := by
      by_contra hin
      exact hj t ((ho.local_iff _ (.thread t)).mpr ⟨rfl, by simpa using hin⟩)
    obtain ⟨hcounts, hlocks | hp⟩ := h.of_not_inLocal hnot
    · rw [hcounts]
      exact hI.free _ fun u => by simpa [hlocks] using hj u
    · have hknows := hI.knows t
      rw [hp] at hknows
      simpa [hcounts, Pc.Knows] using hknows
  · rw [h.localCounts_of_ne hjt]
    refine hI.free j fun u hlock => hj u ?_
    have hown := (hI.owned.local_iff j (.thread u)).mp hlock
    refine (ho.local_iff j (.thread u)).mpr ⟨hown.1, ?_⟩
    have hne : u ≠ t := fun heq => hjt (heq ▸ hown.1.symm)
    simpa [Function.update_of_ne hne] using hown.2

theorem Inv.thread_step [DecidableEq T] (hI : Inv P s) {t : T} {c' : Counter T slots} {x' : Thread}
    (ho : Owned P { s with counter := c', thread := update s.thread t x' })
    (h : Fires P t s.counter (s.thread t).i (s.thread t).pc c' x') :
    Inv P { s with counter := c', thread := update s.thread t x' } := by
  have hfree : s.counter.localLocks (P.slot t) = none →
      s.counter.localCounts (P.slot t) < P.threshold := fun hl => hI.free _ fun u => by simp [hl]
  have hsum := sum_add_of_eq_off s.counter.localCounts c'.localCounts (i := P.slot t)
    fun j hj => h.localCounts_of_ne hj
  have hweight : tally (Thread.weight P.threshold) (update s.thread t x') +
      Thread.weight P.threshold ⟨(s.thread t).pc, (s.thread t).i⟩ = _ :=
    tally_update (Thread.weight P.threshold) s.thread t x'
  have haccount := h.account (hI.knows t) (hI.range _).1
  refine ⟨ho, fun j => ?_, hI.free_step ho h, fun u => ?_, ?_, ?_, fun u => ?_⟩
  · by_cases hj : j = P.slot t
    · subst hj
      exact h.range (hI.knows t) (hI.range _)
    · simp only [h.localCounts_of_ne hj]
      exact hI.range j
  · by_cases hu : u = t
    · subst hu
      simpa using h.knows (hI.knows u) (hI.range _) hfree
    · simpa [Function.update_of_ne hu] using hI.knows_of_ne hu h
  · have hold := hI.account
    simp only [State.weight, State.inSlots] at hold ⊢
    rcases haccount with ⟨hg, hw⟩ | ⟨hg, hw, hl⟩
    · rw [hg, hold]
      congr 1
      omega
    · rw [hg, hold, wrap_wrap_add]
      congr 1
      omega
  · have hold := hI.moved
    simp only [State.weight, State.inSlots] at hold ⊢
    rcases haccount with ⟨-, hw⟩ | ⟨-, hw, hl⟩
    · omega
    · omega
  · by_cases hu : u = t
    · subst hu
      simpa using h.inRound (hI.round u)
    · simpa [Function.update_of_ne hu] using hI.round u

theorem inv_step [DecidableEq T] {a : Agent T} (hI : Inv P s) (h : step P s a = some s') :
    Inv P s' := by
  have ho := owned_step hI.owned h
  obtain ⟨t, c', x', -, hf, rfl⟩ | ⟨c', g', -, hf, rfl⟩ := step_cases h
  · exact hI.thread_step ho hf
  · exact hI.get_step ho hf

theorem inv_of_reachable [DecidableEq T] (hs : (sloppyCounter P).Reachable s) : Inv P s := by
  refine hs.invariant (I := Inv P) ?_ fun s a s' hI h => inv_step hI h
  rintro s rfl
  exact inv_init

/-! ## While no update is in progress -/

/-- Between updates a thread stands for its completed updates. -/
theorem Thread.weight_of_not_inUpdate {x : Thread} (hx : x.pc.inUpdate = false) (threshold : ℕ) :
    x.weight threshold = x.i := by
  cases hp : x.pc <;> simp [hp, Pc.inUpdate] at hx <;>
    simp [Thread.weight, Thread.counted, hp, Pc.counted, Pc.moved]

theorem weight_of_quiet (hq : s.Quiet) : s.weight P = s.completed :=
  tally_congr fun t => Thread.weight_of_not_inUpdate (hq t) _

theorem Pc.not_inLocal_of_not_inUpdate {p : Pc} (hp : p.inUpdate = false) : p.inLocal = false := by
  cases p <;> trivial

/-- Between updates every slot is below the threshold. -/
theorem Inv.local_of_quiet (hI : Inv P s) (hq : s.Quiet) (j : Fin slots) :
    0 ≤ s.counter.localCounts j ∧ s.counter.localCounts j < P.threshold := by
  refine ⟨(hI.range j).1, hI.free j fun t hlock => ?_⟩
  have hown := (hI.owned.local_iff j (.thread t)).mp hlock
  rw [State.OwnsLocal, Pc.not_inLocal_of_not_inUpdate (hq t)] at hown
  exact Bool.noConfusion hown.2

/-- What is in the slots between updates: not more than was counted, and less than the threshold for
each slot. -/
theorem Inv.inSlots_of_quiet (hI : Inv P s) (hq : s.Quiet) :
    0 ≤ s.inSlots ∧ s.inSlots ≤ slots * (P.threshold - 1) ∧ s.inSlots ≤ s.completed := by
  refine ⟨Finset.sum_nonneg fun j _ => (hI.range j).1, ?_, ?_⟩
  · have hle : s.inSlots ≤ ∑ _j : Fin slots, ((P.threshold : ℤ) - 1) :=
      Finset.sum_le_sum fun j _ => by have := hI.local_of_quiet hq j; omega
    rwa [Finset.sum_const, Finset.card_univ, Fintype.card_fin, nsmul_eq_mul] at hle
  · rw [← weight_of_quiet hq]
    exact hI.moved

/-- The law of the counter between updates, in `int` arithmetic. -/
theorem Inv.sum_of_quiet (hI : Inv P s) (hq : s.Quiet) :
    wrap (s.counter.globalCount + s.inSlots) = wrap s.completed := by
  rw [hI.account, weight_of_quiet hq, wrap_wrap_add]
  congr 1
  omega

/-- The law of the counter between updates, as long as the count is in the range of `int`. -/
theorem Inv.sum_of_quiet_of_lt (hI : Inv P s) (hq : s.Quiet) (hlt : s.completed < 2 ^ 31) :
    s.counter.globalCount + s.inSlots = s.completed := by
  have hslots := hI.inSlots_of_quiet hq
  have h := hI.account
  rw [weight_of_quiet hq, wrap_of_lt (by omega) (by omega)] at h
  omega

end Invariant

end Osvcp.SloppyCounter
