import Osvcp.Lib.CallSerial
import Mathlib.Algebra.BigOperators.Fin
import Mathlib.Data.Fin.Rev
import Mathlib.Data.UInt
import Mathlib.Tactic.FinCases

/-! # One counter, with a mutex and without: `timer.c` and `t1.c`

In both programs threads increment one shared counter, and `counter++` is a load and a store. With
the mutex of `timer.c` no increment is lost, whatever the schedule. Without one, the two threads of
`t1.c` can lose almost all of theirs: the values the counter can end with are exactly those from two
(or one, if each thread does a single increment) to the number of increments.
-/

namespace Osvcp.SharedCounter

open Function (update)

/-- The load and the store of `counter = counter + 1`. -/
inductive Act
  | load
  | store
  deriving DecidableEq, Repr

/-- A thread loads the counter into its register and stores the register plus one. -/
def counterActs (β : Type*) [Add β] [One β] : DataActs Act Unit β β where
  act
    | .load, (_, μ) => (μ (), μ)
    | .store, (r, _) => (r, fun _ => r + 1)
  touches _ := [()]
  act_frame _ _ _ l hl := absurd (List.mem_singleton.mpr rfl) hl
  act_reg a r μ μ' h := by
    cases a with
    | load => exact h () (List.mem_singleton.mpr rfl)
    | store => rfl
  act_congr a r μ μ' h l hl := by
    cases a with
    | load => exact h l hl
    | store => rfl

/-! ## `timer.c` -/

namespace Timer

/-- One pass of the loop in `thread_function`. -/
def increment : List (LockInstr Unit Act Empty) :=
  [.lock (), .act .load, .act .store, .unlock ()]

/-- What `main` starts: `num_threads` threads of `increments` passes each, on an
`unsigned long long`. -/
def program (numThreads increments : ℕ) :
    CallProgram (Fin numThreads) Unit Unit Act Empty Unit UInt64 UInt64 where
  acts := counterActs UInt64
  code _ := increment
  retry := Empty.elim
  calls _ := List.replicate increments ()
  reg := 0
  mem _ := 0

theorem twoPhase (numThreads increments : ℕ) : (program numThreads increments).TwoPhase id where
  wellLocked _ he := by
    rw [he.eq_code]
    simp [program, increment, WellLocked, Acquires, counterActs]
  holds_eq _ _ := by simp [program, increment]
  acquires _ := Or.inl ⟨(), rfl⟩
  effect_eq _ he _ _ := by
    rw [he.eq_code]
    rfl

theorem callEffect_eq {numThreads increments : ℕ} (μ : Unit → UInt64) (p : Unit) :
    (program numThreads increments).callEffect μ p = fun _ => μ () + 1 := rfl

/-- The counter counts the calls. -/
theorem serial_eq {numThreads increments : ℕ} (order : List (Fin numThreads × Unit)) :
    (program numThreads increments).serial order = fun _ => UInt64.ofNat order.length := by
  induction order using List.reverseRecOn with
  | nil => rfl
  | append_singleton order c ih =>
      have hsnoc : (program numThreads increments).serial (order ++ [c]) =
          (program numThreads increments).callEffect
          ((program numThreads increments).serial order) c.2 := by
        simp [CallProgram.serial]
      rw [hsnoc, callEffect_eq, ih]
      funext _
      simp

/-- **`timer.c` counts right.** In every run, whatever the order of the steps, all threads return
after five steps for each increment, and then the mutex is free and the counter is the number of
increments, as far as an `unsigned long long` can hold it. -/
theorem timer_counts (numThreads increments : ℕ) :
    (program numThreads increments).threads.Terminates (numThreads * (increments * 5)) fun s =>
      (∀ t, s.Finished t) ∧ s.owner () = none ∧
      s.mem () = UInt64.ofNat (numThreads * increments) := by
  have hlen : (program numThreads increments).runLength = numThreads * (increments * 5) := by
    simp [CallProgram.runLength, CallProgram.callLength, program, increment]
  have hwait : ∀ t, ∀ p ∈ (program numThreads increments).calls t, ∀ e,
      (program numThreads increments).Entry p e →
      EveryWait (CallProgram.Ascending fun _ => 0) e := by
    rintro t p - e he
    rw [he.eq_code]
    refine ⟨fun m hm => ?_, trivial⟩
    simp [holds] at hm
  rw [← hlen]
  have hphase := twoPhase numThreads increments
  have hall := CallProgram.terminates_serial hphase (fun s _ => s.noFailedTryLock_of_isEmpty)
    fun s hs => CallProgram.not_deadlocked_of_rank (fun _ => 0) hphase.balanced hwait hs
  refine ⟨hall.length_le, fun hs hstuck => ?_⟩
  obtain ⟨hfin, hfree, order, hcalls, hmem⟩ := hall.stuck hs hstuck
  refine ⟨hfin, hfree (), ?_⟩
  -- every call of every thread has its place in the order
  have hlength : order.length = numThreads * increments := by
    have hsum := CallProgram.sum_map_callsOf (fun _ => 1) order
    simp only [hcalls] at hsum
    simpa [program] using hsum
  rw [hmem, serial_eq, hlength]

end Timer

/-! ## `t1.c` -/

namespace Unlocked

/-- One pass of the loop in `mythread`. -/
def increment : List (LockInstr Empty Act Empty) := [.act .load, .act .store]

/-- What `main` starts: the threads `A` and `B`, with `max` passes each, on an `int`. -/
def program (max : ℕ) : CallProgram (Fin 2) Unit Empty Act Empty Unit Int32 Int32 where
  acts := counterActs Int32
  code _ := increment
  retry := Empty.elim
  calls _ := List.replicate max ()
  reg := 0
  mem _ := 0

abbrev State := CallState (Fin 2) Unit Empty Act Empty Unit Int32 Int32

/-- The stores a thread has still to do. -/
def left (s : State) (t : Fin 2) : ℕ := (s.todo t).length + (!(s.code t).isEmpty).toNat

/-- The stores both threads have still to do. -/
def total (s : State) : ℕ := ∑ t, left s t

/-- A thread is between two passes, has to load, or has loaded `g`. What it has loaded is not more
than what has been stored, and not zero after its own first store. -/
def AtPlace (max : ℕ) (s : State) (t : Fin 2) (g : ℕ) : Prop :=
  s.code t = [] ∨ s.code t = increment ∨
    s.code t = [.act .store] ∧ s.reg t = Int32.ofNat g ∧ g + total s ≤ 2 * max ∧
    (left s t < max → 1 ≤ g)

/-- The counter is `k`: not more than the stores done, not zero after the first store, and at the
end not less than two, if the threads have stored twice. -/
structure Inv (max : ℕ) (s : State) (k : ℕ) (g : Fin 2 → ℕ) : Prop where
  counter : s.mem () = Int32.ofNat k
  place : ∀ t, AtPlace max s t (g t)
  left_le : ∀ t, left s t ≤ max
  le : k + total s ≤ 2 * max
  pos : total s < 2 * max → 1 ≤ k
  done : total s = 0 → min max 2 ≤ k

section Steps

variable {max k : ℕ} {g : Fin 2 → ℕ} {s s' : State} {t : Fin 2}

/-- The stores left change with those of the thread that takes the step. -/
theorem total_add_left (h : ∀ u, u ≠ t → left s' u = left s u) :
    total s' + left s t = total s + left s' t :=
  sum_add_of_eq_off (left s) (left s') h

theorem total_eq_of_left (h : ∀ u, left s' u = left s u) : total s' = total s :=
  Finset.sum_congr rfl fun u _ => h u

theorem total_eq (s : State) (t : Fin 2) : total s = left s t + left s t.rev := by
  fin_cases t
  · exact Fin.sum_univ_two _
  · exact (Fin.sum_univ_two _).trans (Nat.add_comm _ _)

/-- A place is kept where the thread does not move and no store is added. -/
theorem AtPlace.congr {n : ℕ} (h : AtPlace max s t n) (hcode : s'.code t = s.code t)
    (hreg : s'.reg t = s.reg t) (hleft : left s' t = left s t) (htotal : total s' ≤ total s) :
    AtPlace max s' t n := by
  rcases h with h | h | ⟨h, hr, hle, hpos⟩
  · exact Or.inl (hcode.trans h)
  · exact Or.inr (Or.inl (hcode.trans h))
  · exact Or.inr (Or.inr ⟨hcode.trans h, hreg.trans hr, by omega, fun hlt => hpos (hleft ▸ hlt)⟩)

/-- A step that is not a store leaves the stores to do as they are. -/
theorem Inv.of_same (hI : Inv max s k g) (g' : Fin 2 → ℕ) (hmem : s'.mem = s.mem)
    (hleft : ∀ u, left s' u = left s u) (hplace : ∀ u, AtPlace max s' u (g' u)) :
    Inv max s' k g' := by
  have htotal := total_eq_of_left hleft
  refine ⟨by rw [hmem, hI.counter], hplace, fun u => ?_, ?_, fun h => ?_, fun h => ?_⟩
  · rw [hleft u]
    exact hI.left_le u
  · rw [htotal]
    exact hI.le
  · exact hI.pos (htotal ▸ h)
  · exact hI.done (htotal ▸ h)

theorem Inv.begin (hI : Inv max s k g) {rest : List Unit} (hcode : s.code t = [])
    (htodo : s.todo t = () :: rest) :
    Inv max { s with todo := update s.todo t rest, code := update s.code t increment } k g := by
  have hleft : ∀ u,
      left { s with todo := update s.todo t rest, code := update s.code t increment } u =
      left s u := fun u => by
    by_cases hu : u = t
    · subst hu
      simp [left, hcode, htodo, increment]
    · simp [left, hu]
  refine hI.of_same g rfl hleft fun u => ?_
  by_cases hu : u = t
  · subst hu
    exact Or.inr (Or.inl (Function.update_self ..))
  · exact (hI.place u).congr (Function.update_of_ne hu ..) rfl (hleft u) (total_eq_of_left hleft).le

theorem Inv.load (hI : Inv max s k g) (hcode : s.code t = increment) :
    Inv max { s with code := update s.code t [.act .store], reg := update s.reg t (s.mem ()) } k
      (update g t k) := by
  have hleft : ∀ u, left
      { s with code := update s.code t [.act .store], reg := update s.reg t (s.mem ()) } u =
      left s u := by
    intro u
    by_cases hu : u = t
    · subst hu
      simp [left, hcode, increment]
    · simp [left, hu]
  have htotal := total_eq_of_left hleft
  refine hI.of_same _ rfl hleft fun u => ?_
  by_cases hu : u = t
  · subst hu
    rw [Function.update_self]
    refine Or.inr (Or.inr ⟨Function.update_self .., ?_, by rw [htotal]; exact hI.le, fun hlt => ?_⟩)
    · exact (Function.update_self ..).trans hI.counter
    · -- the thread has stored before, and its own stores are among all
      refine hI.pos ?_
      rw [hleft] at hlt
      have hother := hI.left_le u.rev
      have htwo := total_eq s u
      omega
  · rw [Function.update_of_ne hu]
    exact (hI.place u).congr (Function.update_of_ne hu ..) (Function.update_of_ne hu ..)
      (hleft u) htotal.le

theorem Inv.store (hI : Inv max s k g) (hcode : s.code t = [.act .store]) :
    Inv max { s with code := update s.code t [], mem := fun _ => s.reg t + 1 } (g t + 1) g := by
  have hself : left { s with code := update s.code t [], mem := fun _ => s.reg t + 1 } t + 1 =
      left s t := by
    simp [left, hcode]
  have hother : ∀ u, u ≠ t →
      left { s with code := update s.code t [], mem := fun _ => s.reg t + 1 } u = left s u := by
    intro u hu
    simp [left, hu]
  have htotal := total_add_left hother
  obtain h | h | ⟨-, hreg, hle, hpos⟩ := hI.place t
  · simp [hcode] at h
  · simp [hcode, increment] at h
  · have hmax := hI.left_le t
    refine ⟨?_, fun u => ?_, fun u => ?_, by omega, fun _ => by omega, fun hdone => ?_⟩
    · rw [hreg]
      simp
    · by_cases hu : u = t
      · subst hu
        exact Or.inl (Function.update_self ..)
      · exact (hI.place u).congr (Function.update_of_ne hu ..) rfl (hother u hu) (by omega)
    · by_cases hu : u = t
      · subst hu
        omega
      · rw [hother u hu]
        exact hI.left_le u
    · -- the last store of all is the last of its thread
      have hlast := total_eq { s with code := update s.code t [], mem := fun _ => s.reg t + 1 } t
      omega

theorem Inv.step (hI : Inv max s k g) (h : (program max).step s t = some s') :
    ∃ k' g', Inv max s' k' g' := by
  rcases CallProgram.step_cases_of_isEmpty h with ⟨p, rest, hcode, htodo, rfl⟩ | ⟨m, c, -, -, -⟩ |
    ⟨m, c, -, -⟩ | ⟨a, c, hcode, rfl⟩
  · exact ⟨k, g, hI.begin hcode htodo⟩
  · exact m.elim
  · exact m.elim
  · obtain hnil | hload | ⟨hstore, -⟩ := hI.place t
    · simp [hnil] at hcode
    · obtain ⟨rfl, rfl⟩ : .load = a ∧ [.act .store] = c := by simpa [hload, increment] using hcode
      exact ⟨k, _, hI.load hload⟩
    · obtain ⟨rfl, rfl⟩ : .store = a ∧ [] = c := by simpa [hstore] using hcode
      refine ⟨g t + 1, g, ?_⟩
      have hnext := hI.store hstore
      have hsame : update s.reg t (s.reg t) = s.reg := Function.update_eq_self t s.reg
      simp only [program, counterActs, hsame]
      exact hnext

theorem inv_of_reachable (hs : (program max).threads.Reachable s) : ∃ k g, Inv max s k g := by
  refine hs.invariant (I := fun s => ∃ k g, Inv max s k g) ?_ ?_
  · rintro s rfl
    have hleft : ∀ t, left (program max).start t = max := fun t => by
      simp [left, CallProgram.start, program]
    have htotal : total (program max).start = 2 * max := by
      simp [total, hleft]
    refine ⟨0, 0, rfl, fun t => Or.inl rfl, fun t => (hleft t).le, by omega, fun h => ?_,
      fun h => ?_⟩
    · omega
    · omega
  · rintro s t s' ⟨k, g, hI⟩ h
    exact hI.step h

end Steps

/-! ### Every value in between can be the last -/

/-- Between two passes with `n` to go, or with `v` loaded and `n` to go after this one. -/
inductive Place
  | idle (n : ℕ)
  | loaded (n : ℕ) (v : Int32)

/-- The thread is at this place. -/
def At (s : State) (t : Fin 2) : Place → Prop
  | .idle n => s.code t = [] ∧ s.todo t = List.replicate n ()
  | .loaded n v => s.code t = [.act .store] ∧ s.todo t = List.replicate n () ∧ s.reg t = v

/-- Some run leads to thread `t` at `x` and the other one at `y`, with `c` in the counter. -/
def Reaches (max : ℕ) (t : Fin 2) (x y : Place) (c : Int32) : Prop :=
  ∃ s, (program max).threads.Reachable s ∧ At s t x ∧ At s t.rev y ∧ s.mem () = c

section Reach

variable {max n : ℕ} {t : Fin 2} {x y : Place} {c v : Int32}

theorem reaches_start (max : ℕ) (t : Fin 2) : Reaches max t (.idle max) (.idle max) 0 :=
  ⟨(program max).start, ⟨[], .start rfl⟩, ⟨rfl, rfl⟩, ⟨rfl, rfl⟩, rfl⟩

theorem Reaches.swap (h : Reaches max t x y c) : Reaches max t.rev y x c := by
  obtain ⟨s, hs, hx, hy, hc⟩ := h
  exact ⟨s, hs, hy, by rwa [Fin.rev_rev], hc⟩

theorem rev_ne (t : Fin 2) : t.rev ≠ t := by
  fin_cases t <;> decide

/-- The other thread stays where it is. -/
theorem At.congr {s s' : State} (h : At s t.rev y) (hcode : s'.code t.rev = s.code t.rev)
    (htodo : s'.todo t.rev = s.todo t.rev) (hreg : s'.reg t.rev = s.reg t.rev) : At s' t.rev y := by
  cases y with
  | idle n => exact ⟨hcode.trans h.1, htodo.trans h.2⟩
  | loaded n v => exact ⟨hcode.trans h.1, htodo.trans h.2.1, hreg.trans h.2.2⟩

/-- A thread begins a pass and loads. -/
theorem Reaches.load (h : Reaches max t (.idle (n + 1)) y c) : Reaches max t (.loaded n c) y c := by
  obtain ⟨s, hs, ⟨hcode, htodo⟩, hy, hc⟩ := h
  have hne := rev_ne t
  have hbegin := CallProgram.step_begin (P := program max) hcode (htodo.trans List.replicate_succ)
  have hload : (program max).step
      { s with todo := update s.todo t (List.replicate n ()), code := update s.code t increment }
      t = some { s with
        todo := update s.todo t (List.replicate n ())
        code := update s.code t [.act .store]
        reg := update s.reg t c } := by
    simp [CallProgram.step, program, increment, counterActs, hc]
  refine ⟨_, (hs.snoc hbegin).snoc hload, ⟨?_, ?_, ?_⟩, hy.congr ?_ ?_ ?_, hc⟩
  · exact Function.update_self ..
  · exact Function.update_self ..
  · exact Function.update_self ..
  · exact Function.update_of_ne hne ..
  · exact Function.update_of_ne hne ..
  · exact Function.update_of_ne hne ..

/-- A thread stores, and its pass is over. -/
theorem Reaches.store (h : Reaches max t (.loaded n v) y c) :
    Reaches max t (.idle n) y (v + 1) := by
  obtain ⟨s, hs, ⟨hcode, htodo, hreg⟩, hy, -⟩ := h
  have hstore : (program max).step s t =
      some { s with code := update s.code t [], mem := fun _ => v + 1 } := by
    have hsame : update s.reg t v = s.reg := by
      rw [← hreg, Function.update_eq_self]
    simp [CallProgram.step, program, counterActs, hcode, hreg, hsame]
  refine ⟨_, hs.snoc hstore, ⟨Function.update_self .., htodo⟩, hy.congr ?_ rfl rfl, rfl⟩
  exact Function.update_of_ne (rev_ne t) ..

/-- A thread does whole passes while the other one stays where it is. -/
theorem Reaches.increments (m : ℕ) (h : Reaches max t (.idle (m + n)) y c) :
    Reaches max t (.idle n) y (c + Int32.ofNat m) := by
  induction m generalizing c with
  | zero => simpa using h
  | succ m ih =>
      rw [Nat.add_right_comm] at h
      have hnext := ih h.load.store
      rwa [Int32.add_assoc, Int32.add_comm 1, show (1 : Int32) = Int32.ofNat 1 from rfl,
        ← Int32.ofNat_add] at hnext

/-- Of the passes of both threads, `b` are lost inside the first pass of thread `0`, and `a` inside
the last pass of thread `1`. -/
theorem reaches_lost {a b : ℕ} (ha : a < max) (hb : b < max) :
    Reaches max 0 (.idle 0) (.idle 0) (Int32.ofNat (2 * max - a - b)) := by
  obtain ⟨k, rfl⟩ := Nat.exists_eq_add_of_lt ha
  obtain ⟨l, hl⟩ := Nat.exists_eq_add_of_lt hb
  -- thread 0 loads zero, thread 1 does `b` passes, and thread 0 stores one
  have hload : Reaches (a + k + 1) 0 (.loaded (a + k) 0) (.idle (a + k + 1)) 0 :=
    (reaches_start _ 0).load
  rw [hl] at hload
  have hinside : Reaches (b + l + 1) 1 (.idle (l + 1)) (.loaded (a + k) 0) _ :=
    Reaches.increments b (by rw [← Nat.add_assoc]; exact hload.swap)
  have hstore : Reaches (b + l + 1) 0 (.idle (a + k)) (.idle (l + 1)) (0 + 1) := hinside.swap.store
  -- both go on, but for the last `a` passes of thread 0 and the last one of thread 1
  have hgo : Reaches (b + l + 1) 0 (.idle a) (.idle (l + 1)) _ :=
    Reaches.increments k (by rw [Nat.add_comm k]; exact hstore)
  have hgo' : Reaches (b + l + 1) 1 (.idle 1) (.idle a) _ := Reaches.increments l hgo.swap
  -- thread 1 loads, thread 0 does its passes, and thread 1 stores
  have hinside' : Reaches (b + l + 1) 0 (.idle 0) (.loaded 0 _) _ :=
    Reaches.increments a hgo'.load.swap
  have hend : Reaches (b + l + 1) 0 (.idle 0) (.idle 0) _ := hinside'.swap.store.swap
  have hvalue : (0 : Int32) + 1 + Int32.ofNat k + Int32.ofNat l + 1 =
      Int32.ofNat (2 * (a + k + 1) - a - b) := by
    rw [show 2 * (a + k + 1) - a - b = 0 + 1 + k + l + 1 by omega]
    simp only [Int32.ofNat_add]
    rfl
  rw [hvalue, ← hl] at hend
  exact hend

end Reach

/-- **What `t1.c` can print.** In no reachable state is the counter more than the number of
increments, so up to `2^30` passes nothing overflows. No run takes more than three steps for each
pass. And the values of the counter with which both threads can return are exactly those from
`min max 2` to `2 * max`. -/
theorem t1_final_counters (max : ℕ) :
    (program max).threads.Terminates (2 * (max * 3)) (fun s => ∀ t, s.Finished t) ∧
    (∀ s, (program max).threads.Reachable s → ∃ k ≤ 2 * max, s.mem () = Int32.ofNat k) ∧
    ∀ v : Int32, (∃ s, (program max).threads.Reachable s ∧ (∀ t, s.Finished t) ∧ s.mem () = v) ↔
      ∃ k, min max 2 ≤ k ∧ k ≤ 2 * max ∧ v = Int32.ofNat k := by
  refine ⟨?_, fun s hs => ?_, fun v => ⟨?_, ?_⟩⟩
  · have hlen : (program max).runLength = 2 * (max * 3) := by
      simp [CallProgram.runLength, CallProgram.callLength, program, increment]
    rw [← hlen]
    -- there is nothing to wait for
    refine CallProgram.terminates_of_stuck (fun s _ => s.noFailedTryLock_of_isEmpty)
      fun s _ hstuck t => ?_
    by_contra hfin
    obtain ⟨m, -⟩ := (CallProgram.step_eq_none_iff hfin).mp (hstuck t)
    exact m.elim
  · obtain ⟨k, g, hI⟩ := inv_of_reachable hs
    exact ⟨k, (Nat.le_add_right _ _).trans hI.le, hI.counter⟩
  · rintro ⟨s, hs, hfin, rfl⟩
    obtain ⟨k, g, hI⟩ := inv_of_reachable hs
    have hleft : ∀ t, left s t = 0 := fun t => by simp [left, (hfin t).1, (hfin t).2]
    have htotal : total s = 0 := by simp [total, hleft]
    exact ⟨k, hI.done htotal, (Nat.le_add_right _ _).trans hI.le, hI.counter⟩
  · rintro ⟨k, hmin, hle, rfl⟩
    have hreach : Reaches max 0 (.idle 0) (.idle 0) (Int32.ofNat k) := by
      rcases Nat.eq_zero_or_pos max with rfl | hpos
      · obtain rfl : k = 0 := by omega
        exact reaches_start 0 0
      · by_cases hone : max = 1 ∧ k = 1
        · -- both threads load before either stores
          obtain ⟨rfl, rfl⟩ := hone
          exact (reaches_start 1 0).load.swap.load.swap.store.swap.store.swap
        · have hlost := reaches_lost (show min (max - 1) (2 * max - k) < max by omega)
            (show 2 * max - k - min (max - 1) (2 * max - k) < max by omega)
          rwa [show 2 * max - min (max - 1) (2 * max - k) -
            (2 * max - k - min (max - 1) (2 * max - k)) = k by omega] at hlost
    obtain ⟨s, hs, hA, hB, hc⟩ := hreach
    refine ⟨s, hs, fun t => ?_, hc⟩
    fin_cases t
    · exact hA
    · exact hB

end Unlocked

end Osvcp.SharedCounter
