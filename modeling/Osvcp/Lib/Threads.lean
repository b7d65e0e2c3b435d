import Osvcp.Lib.Transition
import Mathlib.Algebra.BigOperators.Group.Finset.Basic
import Mathlib.Algebra.BigOperators.Ring.Finset
import Mathlib.Algebra.Order.BigOperators.Group.Finset
import Mathlib.Data.Fintype.BigOperators
import Mathlib.Data.Fintype.Sum
import Mathlib.Order.Preorder.Finite
import Mathlib.Tactic.Linarith

/-! # Finitely many threads

Counting arguments about threads that share a state. Each thread is at a place of type `α`, a weight
says what a thread at a place stands for (a permit it holds, a unit it has added), and `tally` is
the total over all threads. A step moves one thread, and `tally_update` says what it does to a
total. Counting semaphores are natural numbers with `semWait`.
-/

namespace Osvcp

open Function (update)

variable {ι α : Type*} [Fintype ι]

/-- The total weight of the places at which the threads are. -/
def tally (w : α → ℕ) (f : ι → α) : ℕ := ∑ i, w (f i)

/-- The number of threads at a place where `p` holds. -/
def count (p : α → Bool) (f : ι → α) : ℕ := tally (fun a => (p a).toNat) f

/-! ## What one move does to a total -/

/-- Two families that agree but at one index have sums that differ by that term. -/
theorem sum_add_of_eq_off {M : Type*} [AddCommMonoid M] (f f' : ι → M) {i : ι}
    (h : ∀ j, j ≠ i → f' j = f j) : ∑ j, f' j + f i = ∑ j, f j + f' i := by
  classical
  have hrest : ∑ j ∈ Finset.univ.erase i, f' j = ∑ j ∈ Finset.univ.erase i, f j :=
    Finset.sum_congr rfl fun j hj => h j (Finset.ne_of_mem_erase hj)
  rw [← Finset.add_sum_erase Finset.univ f' (Finset.mem_univ i),
    ← Finset.add_sum_erase Finset.univ f (Finset.mem_univ i), hrest, add_right_comm,
    add_comm (f' i) (f i), add_right_comm]

/-- One thread moves to `a`: the total loses the weight of its old place and gains that of `a`. -/
theorem tally_update [DecidableEq ι] (w : α → ℕ) (f : ι → α) (i : ι) (a : α) :
    tally w (update f i a) + w (f i) = tally w f + w a := by
  have h : ∑ j, w (update f i a j) + w (f i) = ∑ j, w (f j) + w (update f i a i) :=
    sum_add_of_eq_off (fun j => w (f j)) (fun j => w (update f i a j))
      fun j hj => by rw [Function.update_of_ne hj]
  rwa [Function.update_self] at h

theorem count_update [DecidableEq ι] (p : α → Bool) (f : ι → α) (i : ι) (a : α) :
    count p (update f i a) + (p (f i)).toNat = count p f + (p a).toNat :=
  tally_update _ f i a

/-! ## Totals and single threads -/

theorem le_tally (w : α → ℕ) (f : ι → α) (i : ι) : w (f i) ≤ tally w f :=
  Finset.single_le_sum (f := fun j => w (f j)) (fun _ _ => Nat.zero_le _) (Finset.mem_univ i)

theorem tally_congr {β : Type*} {w : α → ℕ} {w' : β → ℕ} {f : ι → α} {f' : ι → β}
    (h : ∀ i, w (f i) = w' (f' i)) : tally w f = tally w' f' :=
  Finset.sum_congr rfl fun i _ => h i

theorem tally_le_tally {β : Type*} {w : α → ℕ} {w' : β → ℕ} {f : ι → α} {f' : ι → β}
    (h : ∀ i, w (f i) ≤ w' (f' i)) : tally w f ≤ tally w' f' :=
  Finset.sum_le_sum fun i _ => h i

/-- Weights that are ordered everywhere, and by a margin at one thread, have ordered totals by that
margin. -/
theorem tally_add_le_tally {β : Type*} {w : α → ℕ} {w' : β → ℕ} {f : ι → α} {f' : ι → β}
    (h : ∀ i, w (f i) ≤ w' (f' i)) {k : ℕ} {i : ι} (hi : w (f i) + k ≤ w' (f' i)) :
    tally w f + k ≤ tally w' f' := by
  classical
  have hrest : ∑ j ∈ Finset.univ.erase i, w (f j) ≤ ∑ j ∈ Finset.univ.erase i, w' (f' j) :=
    Finset.sum_le_sum fun j _ => h j
  have hw := Finset.add_sum_erase Finset.univ (fun j => w (f j)) (Finset.mem_univ i)
  have hw' := Finset.add_sum_erase Finset.univ (fun j => w' (f' j)) (Finset.mem_univ i)
  unfold tally
  omega

/-- Weights that are ordered but for one thread have totals ordered up to what that thread is
ahead. -/
theorem tally_le_tally_add {β : Type*} {w : α → ℕ} {w' : β → ℕ} {f : ι → α} {f' : ι → β}
    {k : ℕ} {i : ι} (h : ∀ j, j ≠ i → w (f j) ≤ w' (f' j)) (hi : w (f i) ≤ w' (f' i) + k) :
    tally w f ≤ tally w' f' + k := by
  classical
  have hrest : ∑ j ∈ Finset.univ.erase i, w (f j) ≤ ∑ j ∈ Finset.univ.erase i, w' (f' j) :=
    Finset.sum_le_sum fun j hj => h j (Finset.ne_of_mem_erase hj)
  have hw := Finset.add_sum_erase Finset.univ (fun j => w (f j)) (Finset.mem_univ i)
  have hw' := Finset.add_sum_erase Finset.univ (fun j => w' (f' j)) (Finset.mem_univ i)
  unfold tally
  omega

theorem tally_add (w w' : α → ℕ) (f : ι → α) :
    tally (fun a => w a + w' a) f = tally w f + tally w' f :=
  Finset.sum_add_distrib

theorem tally_const {w : α → ℕ} {f : ι → α} {c : ℕ} (h : ∀ i, w (f i) = c) :
    tally w f = Fintype.card ι * c := by
  simp [tally, h]

theorem count_pos_of {p : α → Bool} {f : ι → α} {i : ι} (h : p (f i) = true) : 0 < count p f := by
  have hle := le_tally (fun a => (p a).toNat) f i
  simp only [h, Bool.toNat_true] at hle
  exact hle

theorem count_eq_zero {p : α → Bool} {f : ι → α} (h : ∀ i, p (f i) = false) : count p f = 0 := by
  have hzero : count p f = Fintype.card ι * 0 := tally_const fun i => by simp [h i]
  omega

theorem count_pos_iff {p : α → Bool} {f : ι → α} : 0 < count p f ↔ ∃ i, p (f i) = true := by
  constructor
  · intro h
    by_contra hno
    push Not at hno
    have hzero : count p f = 0 := count_eq_zero fun i => by simpa using hno i
    omega
  · rintro ⟨i, hi⟩
    exact count_pos_of hi

theorem eq_false_of_count {p : α → Bool} {f : ι → α} (h : count p f = 0) (i : ι) :
    p (f i) = false := by
  by_contra hi
  have hpos : 0 < count p f := count_pos_of (Bool.eq_true_of_not_eq_false hi)
  omega

/-- Of two different threads where `p` holds, both are counted. -/
theorem eq_of_count_le_one {p : α → Bool} {f : ι → α} (h : count p f ≤ 1) {i j : ι}
    (hi : p (f i) = true) (hj : p (f j) = true) : i = j := by
  classical
  by_contra hne
  have hpair : ∑ k ∈ ({i, j} : Finset ι), (p (f k)).toNat ≤ count p f :=
    Finset.sum_le_sum_of_subset (Finset.subset_univ _)
  rw [Finset.sum_pair hne, hi, hj, Bool.toNat_true] at hpair
  omega

theorem count_add_not (p : α → Bool) (f : ι → α) :
    count p f + count (fun a => !p a) f = Fintype.card ι := by
  have hone : tally (fun a => (p a).toNat + (!p a).toNat) f = Fintype.card ι * 1 :=
    tally_const fun i => by cases p (f i) <;> rfl
  rw [tally_add, Nat.mul_one] at hone
  exact hone

/-- At most `k` for each thread where `p` holds, and nothing for the others. -/
theorem tally_le_mul_count {w : α → ℕ} {p : α → Bool} {f : ι → α} {k : ℕ}
    (h : ∀ i, w (f i) ≤ k * (p (f i)).toNat) : tally w f ≤ k * count p f := by
  unfold count tally
  rw [Finset.mul_sum]
  exact Finset.sum_le_sum fun i _ => h i

/-- All threads are counted if and only if `p` holds everywhere. -/
theorem count_eq_card_iff {p : α → Bool} {f : ι → α} :
    count p f = Fintype.card ι ↔ ∀ i, p (f i) = true := by
  have hsplit := count_add_not p f
  constructor
  · intro h i
    have hzero : count (fun a => !p a) f = 0 := by omega
    simpa using eq_false_of_count hzero i
  · intro h
    have hzero : count (fun a => !p a) f = 0 := count_eq_zero fun i => by simp [h i]
    omega

/-! ## Semaphores -/

/-- `Sem_wait` on a semaphore with value `v`: the value afterwards, or `none` while it blocks. -/
def semWait : ℕ → Option ℕ
  | 0 => none
  | v + 1 => some v

@[simp] theorem semWait_eq_some {v u : ℕ} : semWait v = some u ↔ v = u + 1 := by
  cases v <;> simp [semWait]

@[simp] theorem semWait_eq_none {v : ℕ} : semWait v = none ↔ v = 0 := by
  cases v <;> simp [semWait]

/-! ## Mutexes -/

/-- `pthread_mutex_lock` by `t` on a mutex with the given owner: the owner afterwards, or `none`
while it blocks. -/
def mutexLock (t : ι) : Option ι → Option (Option ι)
  | none => some (some t)
  | some _ => none

omit [Fintype ι] in
@[simp] theorem mutexLock_eq_some {t : ι} {l l' : Option ι} :
    mutexLock t l = some l' ↔ l = none ∧ l' = some t := by
  cases l <;> simp [mutexLock, eq_comm]

omit [Fintype ι] in
@[simp] theorem mutexLock_eq_none {t : ι} {l : Option ι} : mutexLock t l = none ↔ l ≠ none := by
  cases l <;> simp [mutexLock]

/-- What a step of `a` does to the owner of a mutex, where `o` and `o'` say whether `a` is at a
place where it owns the mutex, before and after: nothing, or `a` takes the free mutex, or `a` gives
it up. -/
def LockStep (a : ι) (l l' : Option ι) (o o' : Prop) : Prop :=
  (l' = l ∧ (o' ↔ o)) ∨ (l = none ∧ l' = some a ∧ o') ∨ (o ∧ l' = none ∧ ¬ o')

omit [Fintype ι] in
/-- If the owner of a mutex is the agent at a place where it owns it, then this is so after a
step. -/
theorem LockStep.owner_iff {a : ι} {l l' : Option ι} {own own' : ι → Prop}
    (h : LockStep a l l' (own a) (own' a)) (hown : ∀ b, l = some b ↔ own b)
    (hother : ∀ b, b ≠ a → (own' b ↔ own b)) (b : ι) : l' = some b ↔ own' b := by
  by_cases hb : b = a
  · subst hb
    rcases h with ⟨hl, ho⟩ | ⟨-, hl, ho⟩ | ⟨-, hl, ho⟩
    · rw [hl, ho]
      exact hown b
    · simp [hl, ho]
    · simp [hl, ho]
  · rw [hother b hb]
    rcases h with ⟨hl, -⟩ | ⟨hl, hl', -⟩ | ⟨ho, hl', -⟩
    · rw [hl]
      exact hown b
    · rw [← hown b, hl, hl']
      simp [Ne.symm hb]
    · rw [← hown b, (hown a).mpr ho, hl']
      simp [Ne.symm hb]

omit [Fintype ι] in
/-- An agent that owns the mutex neither before nor after leaves it as it is. -/
theorem LockStep.owner_eq {a : ι} {l l' : Option ι} {o o' : Prop}
    (h : LockStep a l l' o o') (ho : ¬ o) (ho' : ¬ o') : l' = l := by
  rcases h with ⟨hl, -⟩ | ⟨-, -, hnow⟩ | ⟨hwas, -, -⟩
  · exact hl
  · exact absurd hnow ho'
  · exact absurd hwas ho

/-! ## Deadlock -/

/-- Some thread has not finished, and every thread that has not finished is blocked. -/
def LTS.Deadlocked {σ κ : Type*} (M : LTS σ κ) (finished : σ → κ → Prop) (s : σ) : Prop :=
  (∃ t, ¬ finished s t) ∧ ∀ t, ¬ finished s t → M.step s t = none

/-- **No deadlock by rank.** If every blocked thread waits for one that has not finished, and whose
rank is higher in case it is blocked too, then not all threads that have not finished are
blocked. -/
theorem not_all_blocked_of_rank {κ α : Type*} [Finite κ] [Preorder α] {finished blocked : κ → Prop}
    (rank : κ → α)
    (h : ∀ t, ¬ finished t → blocked t → ∃ u, ¬ finished u ∧ (blocked u → rank t < rank u)) :
    ¬ ((∃ t, ¬ finished t) ∧ ∀ t, ¬ finished t → blocked t) := by
  rintro ⟨hsome, hall⟩
  obtain ⟨t, ht, hmax⟩ := Set.Finite.exists_maximalFor rank {t | ¬ finished t}
    (Set.toFinite _) hsome
  obtain ⟨u, hu, hlt⟩ := h t ht (hall t ht)
  have hrank := hlt (hall u hu)
  exact absurd (hmax hu hrank.le) hrank.not_ge

end Osvcp
