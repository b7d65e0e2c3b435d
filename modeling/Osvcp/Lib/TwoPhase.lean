import Osvcp.Lib.Threads
import Mathlib.Data.Set.Operations

/-! # Two-phase locking

Straight-line code over mutexes and guarded data. The code of a call takes its locks, works on the
data, and gives the locks back; `Acquires` says that the last lock is still to be taken, and a call
counts as done from the moment it no longer holds. `Consistent` compares the memory with that of the
calls that count as done: what a thread has locked is as that thread will leave it, and everything
else is already there. The rules `Consistent.acquire`, `release`, `perform` and `jump` say that each
instruction keeps this.

A mutex that guards no data (one that only serializes a piece of code) may be used at any time.
-/

namespace Osvcp

open Function (update)

/-- One instruction of a thread: `A` are the actions on data, `K` the labels of a failed
`tryLock`. -/
inductive LockInstr (M A K : Type*)
  | lock (m : M)
  | unlock (m : M)
  /-- Take `m` if it is free, else continue at the label `k`. -/
  | tryLock (m : M) (k : K)
  | act (a : A)

/-- What the actions do to the registers `ρ` of a thread and to the memory `L → β`, where an action
depends on the locations it touches only. -/
structure DataActs (A L ρ β : Type*) where
  act : A → ρ × (L → β) → ρ × (L → β)
  touches : A → List L
  act_frame : ∀ a r μ l, l ∉ touches a → (act a (r, μ)).2 l = μ l
  act_reg : ∀ a r μ μ', (∀ l ∈ touches a, μ l = μ' l) → (act a (r, μ)).1 = (act a (r, μ')).1
  act_congr : ∀ a r μ μ', (∀ l ∈ touches a, μ l = μ' l) →
    ∀ l ∈ touches a, (act a (r, μ)).2 l = (act a (r, μ')).2 l

variable {M A K L ρ β : Type*} [DecidableEq M]

/-! ## Code -/

/-- Whether a thread with this code left owns `m`: the next that happens to `m` is its unlock. -/
def holds (m : M) : List (LockInstr M A K) → Bool
  | [] => false
  | .lock m' :: c => !decide (m' = m) && holds m c
  | .unlock m' :: c => decide (m' = m) || holds m c
  | .tryLock m' _ :: c => !decide (m' = m) && holds m c
  | .act _ :: c => holds m c

section Holds

variable {m m' : M} {a : A} {k : K} {c : List (LockInstr M A K)}

@[simp] theorem holds_nil : holds m ([] : List (LockInstr M A K)) = false := rfl

@[simp] theorem holds_lock : holds m (.lock m' :: c) = (!decide (m' = m) && holds m c) := rfl

@[simp] theorem holds_unlock : holds m (.unlock m' :: c) = (decide (m' = m) || holds m c) := rfl

@[simp] theorem holds_tryLock :
    holds m (.tryLock m' k :: c) = (!decide (m' = m) && holds m c) := rfl

@[simp] theorem holds_act : holds m (.act a :: c) = holds m c := rfl

end Holds

/-- A mutex that code has still to give back is unlocked in it. -/
theorem unlock_mem_of_holds {m : M} {c : List (LockInstr M A K)} (h : holds m c = true) :
    .unlock m ∈ c := by
  induction c with
  | nil => exact absurd h Bool.false_ne_true
  | cons i c ih =>
      cases i with
      | lock m' =>
          rw [holds_lock, Bool.and_eq_true] at h
          exact List.mem_cons_of_mem _ (ih h.2)
      | unlock m' =>
          rw [holds_unlock, Bool.or_eq_true, decide_eq_true_eq] at h
          rcases h with rfl | h
          · exact List.mem_cons_self
          · exact List.mem_cons_of_mem _ (ih h)
      | tryLock m' k =>
          rw [holds_tryLock, Bool.and_eq_true] at h
          exact List.mem_cons_of_mem _ (ih h.2)
      | act a => exact List.mem_cons_of_mem _ (ih h)

/-- The instruction takes `m` when `m` is free. -/
def LockInstr.Takes (m : M) : LockInstr M A K → Prop
  | .lock m' => m' = m
  | .tryLock m' _ => m' = m
  | _ => False

/-- Some lock that guards data is still to be taken. -/
def Acquires (guard : L → M) : List (LockInstr M A K) → Prop
  | [] => False
  | .lock m :: c => m ∈ Set.range guard ∨ Acquires guard c
  | .tryLock m _ :: c => m ∈ Set.range guard ∨ Acquires guard c
  | .unlock _ :: c => Acquires guard c
  | .act _ :: c => Acquires guard c

/-- What code does to registers and memory when it runs alone. -/
def effect (D : DataActs A L ρ β) : List (LockInstr M A K) → ρ × (L → β) → ρ × (L → β)
  | [], v => v
  | .act a :: c, v => effect D c (D.act a v)
  | .lock _ :: c, v => effect D c v
  | .unlock _ :: c, v => effect D c v
  | .tryLock _ _ :: c, v => effect D c v

/-- Locks and unlocks alternate, an action on data comes after the last lock and with the locks of
what it touches held, and a failed `tryLock` goes to code that holds what is held here and has still
to lock. -/
def WellLocked (D : DataActs A L ρ β) (guard : L → M) (label : K → List (LockInstr M A K)) :
    List (LockInstr M A K) → Prop
  | [] => True
  | .lock m :: c => holds m c = true ∧ WellLocked D guard label c
  | .unlock m :: c => holds m c = false ∧ WellLocked D guard label c
  | .tryLock m k :: c => (holds m c = true ∧ m ∈ Set.range guard) ∧
      (Acquires guard (label k) ∧ ∀ m', holds m' (label k) = (!decide (m = m') && holds m' c)) ∧
      WellLocked D guard label c
  | .act a :: c => (∀ l ∈ D.touches a, holds (guard l) c = true) ∧
      (D.touches a = [] ∨ ¬ Acquires guard c) ∧ WellLocked D guard label c

/-- Wherever the code waits for a mutex, `R` holds of that mutex and the code after it. -/
def EveryWait (R : M → List (LockInstr M A K) → Prop) : List (LockInstr M A K) → Prop
  | [] => True
  | .lock m :: c => R m c ∧ EveryWait R c
  | .unlock _ :: c => EveryWait R c
  | .tryLock _ _ :: c => EveryWait R c
  | .act _ :: c => EveryWait R c

omit [DecidableEq M] in
theorem EveryWait.tail {R : M → List (LockInstr M A K) → Prop} {i : LockInstr M A K}
    {c : List (LockInstr M A K)} (h : EveryWait R (i :: c)) : EveryWait R c := by
  cases i with
  | lock m => exact h.2
  | unlock m => exact h
  | tryLock m k => exact h
  | act a => exact h

/-! ## Taking a lock -/

section Takes

variable {D : DataActs A L ρ β} {guard : L → M} {label : K → List (LockInstr M A K)}
  {i : LockInstr M A K} {c : List (LockInstr M A K)} {m : M}

theorem LockInstr.Takes.holds_self (hi : i.Takes m) : holds m (i :: c) = false := by
  cases i with
  | lock m' => simp [show m' = m from hi]
  | tryLock m' k => simp [show m' = m from hi]
  | unlock m' => exact hi.elim
  | act a => exact hi.elim

theorem LockInstr.Takes.holds_of_ne (hi : i.Takes m) {m' : M} (hne : m' ≠ m) :
    holds m' (i :: c) = holds m' c := by
  cases i with
  | lock m₀ => simp [show m₀ = m from hi, hne.symm]
  | tryLock m₀ k => simp [show m₀ = m from hi, hne.symm]
  | unlock m₀ => exact hi.elim
  | act a => exact hi.elim

theorem LockInstr.Takes.holds_tail (hi : i.Takes m) (hwl : WellLocked D guard label (i :: c)) :
    holds m c = true := by
  cases i with
  | lock m' =>
      obtain rfl : m' = m := hi
      exact hwl.1
  | tryLock m' k =>
      obtain rfl : m' = m := hi
      exact hwl.1.1
  | unlock m' => exact hi.elim
  | act a => exact hi.elim

omit [DecidableEq M] in
theorem LockInstr.Takes.effect_eq (hi : i.Takes m) (v : ρ × (L → β)) :
    effect D (i :: c) v = effect D c v := by
  cases i with
  | lock m' => rfl
  | tryLock m' k => rfl
  | unlock m' => exact hi.elim
  | act a => exact hi.elim

omit [DecidableEq M] in
theorem LockInstr.Takes.acquires_iff (hi : i.Takes m) :
    Acquires guard (i :: c) ↔ m ∈ Set.range guard ∨ Acquires guard c := by
  cases i with
  | lock m' =>
      obtain rfl : m' = m := hi
      exact Iff.rfl
  | tryLock m' k =>
      obtain rfl : m' = m := hi
      exact Iff.rfl
  | unlock m' => exact hi.elim
  | act a => exact hi.elim

end Takes

/-! ## A block of actions -/

section Acts

variable {m : M} {as : List A} {c : List (LockInstr M A K)}

@[simp] theorem holds_acts : holds m (as.map .act ++ c) = holds m c := by
  induction as with
  | nil => rfl
  | cons a as ih => exact ih

omit [DecidableEq M] in
@[simp] theorem acquires_acts {guard : L → M} :
    Acquires guard (as.map .act ++ c) ↔ Acquires guard c := by
  induction as with
  | nil => exact Iff.rfl
  | cons a as ih => exact ih

omit [DecidableEq M] in
@[simp] theorem everyWait_acts {R : M → List (LockInstr M A K) → Prop} :
    EveryWait R (as.map .act ++ c) ↔ EveryWait R c := by
  induction as with
  | nil => exact Iff.rfl
  | cons a as ih => exact ih

omit [DecidableEq M] in
@[simp] theorem effect_acts {D : DataActs A L ρ β} {v : ρ × (L → β)} :
    effect D (as.map .act ++ c) v = effect D c (as.foldl (fun v a => D.act a v) v) := by
  induction as generalizing v with
  | nil => rfl
  | cons a as ih => exact ih

theorem wellLocked_acts {D : DataActs A L ρ β} {guard : L → M} {label : K → List (LockInstr M A K)}
    (htouch : ∀ a ∈ as, ∀ l ∈ D.touches a, holds (guard l) c = true) (hac : ¬ Acquires guard c)
    (hwl : WellLocked D guard label c) : WellLocked D guard label (as.map .act ++ c) := by
  induction as with
  | nil => exact hwl
  | cons a as ih =>
      rw [List.map_cons, List.cons_append, WellLocked]
      refine ⟨fun l hl => ?_, Or.inr (mt acquires_acts.mp hac), ?_⟩
      · rw [holds_acts]
        exact htouch a List.mem_cons_self l hl
      · exact ih fun a' ha' => htouch a' (List.mem_cons_of_mem a ha')

end Acts

/-! ## Code after its last lock -/

section Effect

variable {D : DataActs A L ρ β} {guard : L → M} {label : K → List (LockInstr M A K)}
  {c : List (LockInstr M A K)}

theorem WellLocked.tail {i : LockInstr M A K} (h : WellLocked D guard label (i :: c)) :
    WellLocked D guard label c := by
  cases i with
  | lock m => exact h.2
  | unlock m => exact h.2
  | tryLock m k => exact h.2.2
  | act a => exact h.2.2

omit [DecidableEq M] in
theorem not_acquires_tail {i : LockInstr M A K} (h : ¬ Acquires guard (i :: c)) :
    ¬ Acquires guard c := by
  cases i with
  | lock m => exact fun hc => h (Or.inr hc)
  | unlock m => exact h
  | tryLock m k => exact fun hc => h (Or.inr hc)
  | act a => exact h

/-- A location whose lock the code does not own stays as it is. -/
theorem effect_frame (hwl : WellLocked D guard label c) (hac : ¬ Acquires guard c) {l : L}
    (hl : holds (guard l) c = false) (r : ρ) (μ : L → β) : (effect D c (r, μ)).2 l = μ l := by
  induction c generalizing r μ with
  | nil => rfl
  | cons i c ih =>
      have htail := ih hwl.tail (not_acquires_tail hac)
      cases i with
      | lock m =>
          have hne : m ≠ guard l := fun he => hac (Or.inl ⟨l, he.symm⟩)
          exact htail (by simpa [hne] using hl) r μ
      | unlock m =>
          simp only [holds_unlock, Bool.or_eq_false_iff] at hl
          exact htail hl.2 r μ
      | tryLock m k =>
          have hne : m ≠ guard l := fun he => hac (Or.inl ⟨l, he.symm⟩)
          exact htail (by simpa [hne] using hl) r μ
      | act a =>
          have hnot : l ∉ D.touches a := fun hmem => by
            have hheld := hwl.1 l hmem
            rw [holds_act] at hl
            rw [hl] at hheld
            exact absurd hheld Bool.false_ne_true
          calc (effect D c (D.act a (r, μ))).2 l = (D.act a (r, μ)).2 l := htail hl _ _
            _ = μ l := D.act_frame a r μ l hnot

/-- The code depends on the locations whose locks it owns only. -/
theorem effect_congr (hwl : WellLocked D guard label c) (hac : ¬ Acquires guard c) (r : ρ)
    {μ μ' : L → β} (h : ∀ l, holds (guard l) c = true → μ l = μ' l) {l : L}
    (hl : holds (guard l) c = true) : (effect D c (r, μ)).2 l = (effect D c (r, μ')).2 l := by
  induction c generalizing r μ μ' with
  | nil => exact absurd hl Bool.false_ne_true
  | cons i c ih =>
      have htail := ih hwl.tail (not_acquires_tail hac)
      cases i with
      | lock m =>
          have hne : ∀ l', m ≠ guard l' := fun l' he => hac (Or.inl ⟨l', he.symm⟩)
          simp only [holds_lock, hne, decide_false, Bool.not_false, Bool.true_and] at h hl
          exact htail r h hl
      | unlock m =>
          have hc : ∀ l', holds (guard l') c = true → μ l' = μ' l' := fun l' hl' =>
            h l' (by simp [hl'])
          by_cases hlc : holds (guard l) c = true
          · exact htail r hc hlc
          · -- the lock is given back here: nothing after it writes to the location
            have hlc : holds (guard l) c = false := by simpa using hlc
            calc (effect D c (r, μ)).2 l = μ l :=
                  effect_frame hwl.tail (not_acquires_tail hac) hlc r μ
              _ = μ' l := h l hl
              _ = (effect D c (r, μ')).2 l :=
                  (effect_frame hwl.tail (not_acquires_tail hac) hlc r μ').symm
      | tryLock m k =>
          have hne : ∀ l', m ≠ guard l' := fun l' he => hac (Or.inl ⟨l', he.symm⟩)
          simp only [holds_tryLock, hne, decide_false, Bool.not_false, Bool.true_and] at h hl
          exact htail r h hl
      | act a =>
          have htouch : ∀ l' ∈ D.touches a, μ l' = μ' l' := fun l' hl' => h l' (hwl.1 l' hl')
          have hreg := D.act_reg a r μ μ' htouch
          have hmem : ∀ l', holds (guard l') c = true →
              (D.act a (r, μ)).2 l' = (D.act a (r, μ')).2 l' := fun l' hl' => by
            by_cases hin : l' ∈ D.touches a
            · exact D.act_congr a r μ μ' htouch l' hin
            · rw [D.act_frame a r μ l' hin, D.act_frame a r μ' l' hin]
              exact h l' hl'
          have hrest := htail (D.act a (r, μ)).1 hmem hl
          rw [Prod.mk.eta, hreg, Prod.mk.eta] at hrest
          exact hrest

open Classical in
/-- The memory once the call of this code is over, if it has taken its last lock. -/
noncomputable def finish (D : DataActs A L ρ β) (guard : L → M) (c : List (LockInstr M A K)) (r : ρ)
    (μ : L → β) : L → β :=
  if Acquires guard c then μ else (effect D c (r, μ)).2

omit [DecidableEq M] in
theorem finish_of_acquires {r : ρ} {μ : L → β} (h : Acquires guard c) : finish D guard c r μ = μ :=
  if_pos h

omit [DecidableEq M] in
theorem finish_of_not_acquires {r : ρ} {μ : L → β} (h : ¬ Acquires guard c) :
    finish D guard c r μ = (effect D c (r, μ)).2 :=
  if_neg h

theorem finish_congr (hwl : WellLocked D guard label c) (r : ρ) {μ μ' : L → β}
    (h : ∀ l, holds (guard l) c = true → μ l = μ' l) {l : L} (hl : holds (guard l) c = true) :
    finish D guard c r μ l = finish D guard c r μ' l := by
  by_cases hac : Acquires guard c
  · rw [finish_of_acquires hac, finish_of_acquires hac]
    exact h l hl
  · rw [finish_of_not_acquires hac, finish_of_not_acquires hac]
    exact effect_congr hwl hac r h hl

end Effect

/-! ## The memory of a run -/

section Consistent

variable {ι : Type*} [DecidableEq ι]

/-- The mutexes are with the threads whose code owns them, and `spec` is the memory once every call
that has its last lock is over. -/
structure Consistent (D : DataActs A L ρ β) (guard : L → M) (label : K → List (LockInstr M A K))
    (code : ι → List (LockInstr M A K)) (reg : ι → ρ) (owner : M → Option ι)
    (mem spec : L → β) : Prop where
  owner_iff : ∀ m t, owner m = some t ↔ holds m (code t) = true
  wellLocked : ∀ t, WellLocked D guard label (code t)
  free : ∀ l, owner (guard l) = none → spec l = mem l
  held : ∀ l t, owner (guard l) = some t → spec l = finish D guard (code t) (reg t) mem l

variable {D : DataActs A L ρ β} {guard : L → M} {label : K → List (LockInstr M A K)}
  {code : ι → List (LockInstr M A K)} {reg : ι → ρ} {owner : M → Option ι}
  {mem spec : L → β} {t : ι} {c : List (LockInstr M A K)} {m : M}

namespace Consistent

omit [DecidableEq ι] in
/-- What a thread with a lock to take sees of its own locations is settled. -/
theorem spec_eq_of_acquires (h : Consistent D guard label code reg owner mem spec)
    (hac : Acquires guard (code t)) {l : L} (hl : holds (guard l) (code t) = true) :
    spec l = mem l := by
  rw [h.held l t ((h.owner_iff _ t).mpr hl), finish_of_acquires hac]

omit [DecidableEq ι] in
/-- A thread does not hold what another one holds. -/
theorem not_holds_of_ne (howner : ∀ t, owner m = some t ↔ holds m (code t) = true) {u : ι}
    (hu : u ≠ t) (hheld : holds m (code u) = true) : holds m (code t) = false := by
  by_contra hmine
  have hown := (howner t).mpr (by simpa using hmine)
  rw [(howner u).mpr hheld] at hown
  exact hu (Option.some.inj hown)

/-- The owners after one thread has moved to the code `c`. -/
theorem owner_iff_move (h : Consistent D guard label code reg owner mem spec)
    {owner' : M → Option ι}
    (hlock : ∀ m, LockStep t (owner m) (owner' m) (holds m (code t) = true) (holds m c = true))
    (m : M) (u : ι) : owner' m = some u ↔ holds m (update code t c u) = true := by
  have hstep : LockStep t (owner m) (owner' m) (holds m (code t) = true)
      (holds m (update code t c t) = true) := by
    rw [Function.update_self]
    exact hlock m
  exact @LockStep.owner_iff _ t _ _ (fun u => holds m (code u) = true)
    (fun u => holds m (update code t c u) = true) hstep (h.owner_iff m)
    (fun b hb => by rw [Function.update_of_ne hb]) u

/-- One thread moves to the code `c`. What it neither had locked nor has locked now must be as it
was; what it has locked must be as its new code will leave it, and what it gave back as the memory
has it. -/
theorem move (h : Consistent D guard label code reg owner mem spec) (r : ρ) (owner' : M → Option ι)
    (mem' spec' : L → β) (hwl : WellLocked D guard label c)
    (hlock : ∀ m, LockStep t (owner m) (owner' m) (holds m (code t) = true) (holds m c = true))
    (hmine : ∀ l, holds (guard l) c = true → spec' l = finish D guard c r mem' l)
    (hgiven : ∀ l, holds (guard l) (code t) = true → holds (guard l) c = false → spec' l = mem' l)
    (hother : ∀ l, holds (guard l) (code t) = false → holds (guard l) c = false →
      mem' l = mem l ∧ spec' l = spec l) :
    Consistent D guard label (update code t c) (update reg t r) owner' mem' spec' := by
  have howner := h.owner_iff_move hlock
  refine ⟨howner, ?_, ?_, ?_⟩
  · intro u
    by_cases hu : u = t
    · subst hu
      rw [Function.update_self]
      exact hwl
    · rw [Function.update_of_ne hu]
      exact h.wellLocked u
  · intro l hl
    have hc : holds (guard l) c = false := by
      by_contra hc
      rw [(howner (guard l) t).mpr (by simpa using hc)] at hl
      exact absurd hl (by simp)
    cases hcode : holds (guard l) (code t) with
    | true => exact hgiven l hcode hc
    | false =>
        obtain ⟨hmem, hspec⟩ := hother l hcode hc
        rw [hspec, hmem]
        refine h.free l ?_
        rw [← (hlock (guard l)).owner_eq (by simp [hcode]) (by simp [hc]), hl]
  · intro l u hl
    by_cases hu : u = t
    · subst hu
      rw [howner, Function.update_self] at hl
      rw [Function.update_self, Function.update_self]
      exact hmine l hl
    · -- another thread: none of its locations has been touched
      have hcodeu : update code t c u = code u := Function.update_of_ne hu _ _
      rw [hcodeu, Function.update_of_ne hu]
      have hsame : ∀ l', holds (guard l') (code u) = true → mem' l' = mem l' ∧
          spec' l' = spec l' := by
        intro l' hl'
        refine hother l' (not_holds_of_ne (h.owner_iff _) hu hl') ?_
        have hnow := not_holds_of_ne (howner (guard l')) hu (hcodeu ▸ hl')
        rwa [Function.update_self] at hnow
      rw [howner, hcodeu] at hl
      rw [(hsame l hl).2, h.held l u ((h.owner_iff _ u).mpr hl)]
      exact (finish_congr (h.wellLocked u) _ (fun l' hl' => (hsame l' hl').1) hl).symm

omit [DecidableEq ι] in
/-- The lock step of an instruction that takes `m`. -/
theorem lockStep_of_takes (h : Consistent D guard label code reg owner mem spec)
    {i : LockInstr M A K} (hi : i.Takes m) (hcode : code t = i :: c)
    (hfree : owner m = none) (m' : M) :
    LockStep t (owner m') (update owner m (some t) m') (holds m' (code t) = true)
      (holds m' c = true) := by
  have hwl := h.wellLocked t
  rw [hcode] at hwl ⊢
  by_cases hm : m' = m
  · subst hm
    exact Or.inr (Or.inl ⟨hfree, Function.update_self .., hi.holds_tail hwl⟩)
  · rw [hi.holds_of_ne hm]
    exact Or.inl ⟨Function.update_of_ne hm .., Iff.rfl⟩

/-- A thread takes a free lock, and has more to take or has been done with that before. -/
theorem acquire (h : Consistent D guard label code reg owner mem spec) {i : LockInstr M A K}
    (hi : i.Takes m) (hcode : code t = i :: c) (hfree : owner m = none)
    (hac : Acquires guard (i :: c) ↔ Acquires guard c) :
    Consistent D guard label (update code t c) reg (update owner m (some t)) mem spec := by
  have hwl : WellLocked D guard label c := (hcode ▸ h.wellLocked t).tail
  have hfin : ∀ l, finish D guard (i :: c) (reg t) mem l = finish D guard c (reg t) mem l := by
    intro l
    by_cases hc : Acquires guard c
    · rw [finish_of_acquires hc, finish_of_acquires (hac.mpr hc)]
    · rw [finish_of_not_acquires hc, finish_of_not_acquires (mt hac.mp hc), hi.effect_eq]
  have hmove := h.move (reg t) _ mem spec hwl (h.lockStep_of_takes hi hcode hfree) ?_ ?_ ?_
  · rwa [Function.update_eq_self] at hmove
  · intro l hl
    by_cases hm : guard l = m
    · -- the lock just taken: no call was at work behind it
      have hc : Acquires guard c := hac.mp (hi.acquires_iff.mpr (Or.inl ⟨l, hm⟩))
      rw [finish_of_acquires hc]
      exact h.free l (hm ▸ hfree)
    · rw [← hfin l, ← hcode]
      refine h.held l t ((h.owner_iff _ t).mpr ?_)
      rw [hcode, hi.holds_of_ne hm]
      exact hl
  · intro l hl hlc
    have hm : guard l ≠ m := fun he => by
      rw [he, hcode, hi.holds_self] at hl
      exact absurd hl Bool.false_ne_true
    rw [hcode, hi.holds_of_ne hm, hlc] at hl
    exact absurd hl Bool.false_ne_true
  · exact fun _ _ _ => ⟨rfl, rfl⟩

/-- A thread takes its last lock: from here on its call counts as done. -/
theorem acquire_last (h : Consistent D guard label code reg owner mem spec) {i : LockInstr M A K}
    (hi : i.Takes m) (hcode : code t = i :: c) (hfree : owner m = none)
    (hac : Acquires guard (i :: c)) (hlast : ¬ Acquires guard c) :
    Consistent D guard label (update code t c) reg (update owner m (some t)) mem
      (effect D (i :: c) (reg t, spec)).2 := by
  have hwl : WellLocked D guard label c := (hcode ▸ h.wellLocked t).tail
  -- what the thread has locked is settled, so its call does to `mem` there what it does to `spec`
  have hagree : ∀ l, holds (guard l) c = true → spec l = mem l := by
    intro l hl
    by_cases hm : guard l = m
    · exact h.free l (hm ▸ hfree)
    · refine h.spec_eq_of_acquires (t := t) (hcode ▸ hac) ?_
      rw [hcode, hi.holds_of_ne hm]
      exact hl
  rw [hi.effect_eq]
  have hmove := h.move (reg t) _ mem (effect D c (reg t, spec)).2 hwl
    (h.lockStep_of_takes hi hcode hfree) ?_ ?_ ?_
  · rwa [Function.update_eq_self] at hmove
  · intro l hl
    rw [finish_of_not_acquires hlast]
    exact effect_congr hwl hlast (reg t) hagree hl
  · intro l hl hlc
    have hm : guard l ≠ m := fun he => by
      rw [he, hcode, hi.holds_self] at hl
      exact absurd hl Bool.false_ne_true
    rw [hcode, hi.holds_of_ne hm, hlc] at hl
    exact absurd hl Bool.false_ne_true
  · exact fun l _ hlc => ⟨rfl, effect_frame hwl hlast hlc (reg t) spec⟩

/-- A thread gives a lock back. -/
theorem release (h : Consistent D guard label code reg owner mem spec)
    (hcode : code t = .unlock m :: c) :
    Consistent D guard label (update code t c) reg (update owner m none) mem spec := by
  have hwl := h.wellLocked t
  rw [hcode] at hwl
  have hfin : finish D guard (.unlock m :: c) (reg t) mem = finish D guard c (reg t) mem := by
    by_cases hc : Acquires guard c
    · rw [finish_of_acquires hc, finish_of_acquires (show Acquires guard (.unlock m :: c) from hc)]
    · rw [finish_of_not_acquires hc,
        finish_of_not_acquires (show ¬ Acquires guard (.unlock m :: c) from hc)]
      rfl
  have hmove := h.move (t := t) (reg t) (update owner m none) mem spec hwl.2 ?_ ?_ ?_ ?_
  · rwa [Function.update_eq_self] at hmove
  · intro m'
    rw [hcode]
    by_cases hm : m' = m
    · subst hm
      exact Or.inr (Or.inr ⟨by simp, Function.update_self .., by simp [hwl.1]⟩)
    · exact Or.inl ⟨Function.update_of_ne hm .., by simp [Ne.symm hm]⟩
  · intro l hl
    rw [← hfin, ← hcode]
    exact h.held l t ((h.owner_iff _ t).mpr (by simp [hcode, hl]))
  · intro l hl hlc
    have hown := h.held l t ((h.owner_iff _ t).mpr hl)
    rw [hcode, hfin] at hown
    by_cases hc : Acquires guard c
    · rwa [finish_of_acquires hc] at hown
    · rwa [finish_of_not_acquires hc, effect_frame hwl.2 hc hlc] at hown
  · exact fun _ _ _ => ⟨rfl, rfl⟩

/-- A thread acts on the data it has locked. -/
theorem perform (h : Consistent D guard label code reg owner mem spec) {a : A}
    (hcode : code t = .act a :: c) :
    Consistent D guard label (update code t c) (update reg t (D.act a (reg t, mem)).1) owner
      (D.act a (reg t, mem)).2 spec := by
  have hwl := h.wellLocked t
  rw [hcode] at hwl
  have hframe : ∀ l, holds (guard l) c = false → (D.act a (reg t, mem)).2 l = mem l := by
    intro l hl
    refine D.act_frame a _ _ l fun hmem => ?_
    have hheld := hwl.1 l hmem
    rw [hl] at hheld
    exact absurd hheld Bool.false_ne_true
  refine h.move _ owner _ spec hwl.2.2 ?_ ?_ ?_ ?_
  · intro m
    rw [hcode]
    exact Or.inl ⟨rfl, Iff.rfl⟩
  · intro l hl
    have hown := h.held l t ((h.owner_iff _ t).mpr (by simpa [hcode] using hl))
    rw [hown, hcode]
    by_cases hc : Acquires guard c
    · -- an action before the last lock touches nothing
      have hnone : D.touches a = [] := hwl.2.1.resolve_right (not_not.mpr hc)
      rw [finish_of_acquires hc, finish_of_acquires (show Acquires guard (.act a :: c) from hc)]
      exact (D.act_frame a _ _ l (by simp [hnone])).symm
    · rw [finish_of_not_acquires hc,
        finish_of_not_acquires (show ¬ Acquires guard (.act a :: c) from hc)]
      rfl
  · intro l hl hlc
    rw [hcode, holds_act, hlc] at hl
    exact absurd hl Bool.false_ne_true
  · exact fun l _ hlc => ⟨hframe l hlc, rfl⟩

/-- A thread goes on with other code that owns the same locks, where neither is at work on data. -/
theorem jump (h : Consistent D guard label code reg owner mem spec)
    (hwl : WellLocked D guard label c) (hholds : ∀ m, holds m c = holds m (code t))
    (hbefore : ∀ r μ, finish D guard (code t) r μ = μ) (hafter : ∀ r μ, finish D guard c r μ = μ) :
    Consistent D guard label (update code t c) reg owner mem spec := by
  have hmove := h.move (t := t) (reg t) owner mem spec hwl ?_ ?_ ?_ ?_
  · rwa [Function.update_eq_self] at hmove
  · intro m
    rw [hholds m]
    exact Or.inl ⟨rfl, Iff.rfl⟩
  · intro l hl
    rw [hafter]
    rw [hholds] at hl
    rw [h.held l t ((h.owner_iff _ t).mpr hl), hbefore]
  · intro l hl hlc
    rw [← hholds, hlc] at hl
    exact absurd hl Bool.false_ne_true
  · exact fun _ _ _ => ⟨rfl, rfl⟩

end Consistent

end Consistent

end Osvcp
