import Osvcp.Semaphores.ReaderWriterTurnstile

/-! # Bounded overtaking of a writer in `reader-writer-nostarve.c`

The window of a writer lasts from its return from `Sem_wait(&rw->blockNewReader)` to its return from
`Sem_wait(&rw->writelock)`. The latter is its next step, so the window is a run in which it takes no
step. It keeps the turnstile closed all the time: the readers that still enter are those that passed
the turnstile before, and entering uses up that passage.
-/

namespace Osvcp.ReaderWriterNoStarve

open Function (update)

variable {R W : Type*} {loops : ℕ}

/-- Past the `Sem_wait(&rw->blockNewReader)` of an acquisition that has not returned. -/
def ReaderPc.passed : ReaderPc → Bool
  | .turnPost | .acqWait | .acqLoad | .acqStore _ | .acqTest | .acqWrite | .acqPost => true
  | _ => false

/-- The step is the return of `rwlock_acquire_readlock` in reader `r`. -/
def EntersRead (r : R) (p : State R W × (R ⊕ W)) : Prop :=
  p.2 = .inl r ∧ (p.1.reader r).pc = .acqPost

/-- The step is the return of `rwlock_acquire_writelock` in writer `w`. -/
def EntersWrite (w : W) (p : State R W × (R ⊕ W)) : Prop :=
  p.2 = .inr w ∧ (p.1.writer w).pc = .acqWait

instance [DecidableEq R] [DecidableEq W] (r : R) :
    DecidablePred (EntersRead r : State R W × (R ⊕ W) → Prop) := fun p =>
  inferInstanceAs (Decidable (p.2 = .inl r ∧ (p.1.reader r).pc = .acqPost))

/-- How often reader `r` enters a read section in a run. -/
def readEntries [DecidableEq R] [DecidableEq W] (r : R) (tr : List (State R W × (R ⊕ W))) : ℕ :=
  tr.countP fun p => EntersRead r p

/-- Writer `w` keeps the turnstile closed and waits for the write lock. -/
def Waiting [Fintype R] [Fintype W] (w : W) (s : State R W) : Prop :=
  Turnstile s ∧ (s.writer w).pc = .acqWait

/-- While the turnstile is closed a reader that enters uses up its passage. -/
theorem readerStep_passed {m m' : Shared} {x x' : Reader} (hclosed : m.blockNewReader = 0)
    (h : readerStep loops m x = some (m', x')) :
    (decide (x.pc = .acqPost)).toNat + x'.pc.passed.toNat ≤ x.pc.passed.toNat := by
  obtain ⟨pc, i⟩ := x
  cases pc <;> simp only [readerStep, Option.map_eq_some_iff, semWait_eq_some, Option.some.injEq,
    Prod.mk.injEq, reduceCtorEq] at h
  case turnWait =>
    obtain ⟨v, hv, -⟩ := h
    omega
  case acqWait | acqWrite | relWait =>
    obtain ⟨v, -, -, rfl⟩ := h
    simp [ReaderPc.passed]
  case loopTest | acqTest | relTest =>
    obtain ⟨-, rfl⟩ := h
    simp only
    split <;> simp [ReaderPc.passed]
  all_goals
    obtain ⟨-, rfl⟩ := h
    simp [ReaderPc.passed]

section Overtaking

variable [Fintype R] [Fintype W] {w : W} {s s' : State R W} {t : R ⊕ W}

theorem Waiting.closed (h : Waiting w s) : s.shared.blockNewReader = 0 := by
  obtain ⟨hturn, hw⟩ := h
  have hpos : 0 < count (fun x => x.pc.inTurn) s.writer := count_pos_of (i := w) (by rw [hw]; rfl)
  unfold Turnstile at hturn
  omega

/-- No other writer waits for the write lock. -/
theorem Waiting.unique (h : Waiting w s) {w' : W} (hw' : (s.writer w').pc = .acqWait) : w' = w := by
  obtain ⟨hturn, hw⟩ := h
  have hle : count (fun x => x.pc.inTurn) s.writer ≤ 1 := by
    unfold Turnstile at hturn
    omega
  exact eq_of_count_le_one hle (by rw [hw']; rfl) (by rw [hw]; rfl)

variable [DecidableEq R] [DecidableEq W]

theorem Waiting.next (h : Waiting w s) (hs : step loops s t = some s') (ht : t ≠ .inr w) :
    Waiting w s' := by
  refine ⟨turnstile_step h.1 hs, ?_⟩
  obtain ⟨r, m', x', -, -, rfl⟩ | ⟨w', m', x', rfl, -, rfl⟩ := step_cases hs
  · exact h.2
  · have hne : w ≠ w' := fun heq => ht (heq ▸ rfl)
    simpa [Function.update_of_ne hne] using h.2

/-- One step of the window: what reader `r` uses up of its passage. -/
theorem Waiting.passed_step (h : Waiting w s) (hs : step loops s t = some s') (r : R) :
    (decide (EntersRead r (s, t))).toNat + (s'.reader r).pc.passed.toNat ≤
      (s.reader r).pc.passed.toNat := by
  obtain ⟨r', m', x', rfl, hx, rfl⟩ | ⟨w', m', x', rfl, -, rfl⟩ := step_cases hs
  · by_cases hr : r = r'
    · subst hr
      simpa [EntersRead] using readerStep_passed h.closed hx
    · have hne : ¬ EntersRead r (s, (.inl r' : R ⊕ W)) := fun he => hr (Sum.inl.inj he.1).symm
      simp [hne, hr]
  · simp [EntersRead]

/-- The window as a run. -/
theorem Waiting.run (h : Waiting w s) {as : List (R ⊕ W)}
    (hrun : (readerWriter R W loops).run s as = some s') (hw : .inr w ∉ as) :
    Waiting w s' ∧ (∀ p ∈ (readerWriter R W loops).trace s as, ∀ w', ¬ EntersWrite w' p) ∧
    ∀ r, readEntries r ((readerWriter R W loops).trace s as) + (s'.reader r).pc.passed.toNat ≤
      (s.reader r).pc.passed.toNat := by
  induction as generalizing s with
  | nil =>
      simp only [LTS.run, Option.some.injEq] at hrun
      subst hrun
      exact ⟨h, by simp [LTS.trace], fun r => by simp [LTS.trace, readEntries]⟩
  | cons t as ih =>
      simp only [LTS.run, Option.bind_eq_some_iff] at hrun
      obtain ⟨u, hu, hrun⟩ := hrun
      have ht : t ≠ .inr w := fun heq => hw (heq ▸ List.mem_cons_self)
      have htail : .inr w ∉ as := fun hmem => hw (List.mem_cons_of_mem t hmem)
      obtain ⟨hend, hwrites, hreads⟩ := ih (h.next hu ht) hrun htail
      simp only [LTS.trace, hu, Option.elim_some]
      refine ⟨hend, ?_, fun r => ?_⟩
      · intro p hp w' hent
        rcases List.mem_cons.mp hp with rfl | hp
        · -- the only writer that waits for the write lock is `w`
          exact ht (hent.1.trans (congrArg Sum.inr (h.unique hent.2)))
        · exact hwrites p hp w' hent
      · have hone := h.passed_step hu r
        have hrest := hreads r
        have hcount : readEntries r ((s, t) :: (readerWriter R W loops).trace u as) =
            readEntries r ((readerWriter R W loops).trace u as) +
              (decide (EntersRead r (s, t))).toNat := by
          simp only [readEntries, List.countP_cons]
          by_cases he : EntersRead r (s, t) <;> simp [he]
        omega

/-- While a writer that has closed the turnstile waits for the write lock, no other writer enters
its section, and a reader enters a read section at most once, and only if it had passed the
turnstile before. From any point of the window on, a reader that is not between the turnstile and
its section enters no more. -/
theorem nostarve_overtaking {s₀ s₁ s₂ : State R W} {as : List (R ⊕ W)}
    (hs : (readerWriter R W loops).Reachable s₀) (hw : (s₀.writer w).pc = .turnWait)
    (hclose : (readerWriter R W loops).step s₀ (.inr w) = some s₁)
    (hrun : (readerWriter R W loops).run s₁ as = some s₂) (hwait : .inr w ∉ as) :
    (∀ p ∈ (readerWriter R W loops).trace s₁ as, ∀ w', ¬ EntersWrite w' p) ∧
    ∀ r, readEntries r ((readerWriter R W loops).trace s₁ as) ≤ 1 ∧
      (0 < readEntries r ((readerWriter R W loops).trace s₁ as) → (s₀.reader r).pc.passed = true) ∧
      ∀ as₁ as₂ u, as = as₁ ++ as₂ → (readerWriter R W loops).run s₁ as₁ = some u →
        (u.reader r).pc.passed = false →
        readEntries r ((readerWriter R W loops).trace u as₂) = 0 := by
  have hstart : Waiting w s₁ ∧ s₁.reader = s₀.reader := by
    replace hclose : step loops s₀ (.inr w) = some s₁ := hclose
    have hturn := turnstile_step (turnstile_of_reachable hs) hclose
    obtain ⟨r, m', x', hno, -, -⟩ | ⟨w', m', x', heq, hx, rfl⟩ := step_cases hclose
    · exact absurd hno (by simp)
    · obtain rfl := Sum.inr.inj heq
      simp only [writerStep, hw, Option.map_eq_some_iff, Prod.mk.injEq] at hx
      obtain ⟨v, -, -, rfl⟩ := hx
      exact ⟨⟨hturn, by simp⟩, rfl⟩
  obtain ⟨hwaiting, hreader⟩ := hstart
  obtain ⟨-, hwrites, hreads⟩ := hwaiting.run hrun hwait
  refine ⟨hwrites, fun r => ⟨?_, ?_, ?_⟩⟩
  · have h := hreads r
    have hle := Bool.toNat_le (s₁.reader r).pc.passed
    omega
  · intro hpos
    have h := hreads r
    by_contra hno
    rw [hreader, Bool.eq_false_of_not_eq_true hno] at h
    simp only [Bool.toNat_false] at h
    omega
  · rintro as₁ as₂ u rfl hu hpc
    obtain ⟨hmid, -, -⟩ := hwaiting.run hu fun h => hwait (List.mem_append_left _ h)
    rw [LTS.run_append, hu, Option.bind_some] at hrun
    obtain ⟨-, -, hreads⟩ := hmid.run hrun fun h => hwait (List.mem_append_right _ h)
    have h := hreads r
    rw [hpc, Bool.toNat_false] at h
    omega

/-- A reader that passed the turnstile before the writer closed it enters in the window, and then
not again. -/
theorem nostarve_overtaking_run :
    ∃ s₀ s₁ s₂ : State (Fin 1) (Fin 1), ∃ as,
      (readerWriter (Fin 1) (Fin 1) 2).Reachable s₀ ∧
      (readerWriter (Fin 1) (Fin 1) 2).step s₀ (.inr 0) = some s₁ ∧
      (readerWriter (Fin 1) (Fin 1) 2).run s₁ as = some s₂ ∧
      readEntries 0 ((readerWriter (Fin 1) (Fin 1) 2).trace s₁ as) = 1 := by
  have hcheck : ((readerWriter (Fin 1) (Fin 1) 2).run start
      (List.replicate 3 (.inl 0) ++ [.inr 0])).any (fun s₀ =>
        (s₀.writer 0).pc == .turnWait && ((readerWriter (Fin 1) (Fin 1) 2).step s₀ (.inr 0)).any
          fun s₁ => ((readerWriter (Fin 1) (Fin 1) 2).run s₁ (List.replicate 14 (.inl 0))).isSome &&
            readEntries 0 ((readerWriter (Fin 1) (Fin 1) 2).trace s₁
              (List.replicate 14 (.inl 0))) == 1)
      = true := by decide
  obtain ⟨s₀, hex, hs₀⟩ := LTS.exec_of_run_any _ start _ _ rfl hcheck
  simp only [Bool.and_eq_true, beq_iff_eq, Option.any_eq_true, Option.isSome_iff_exists] at hs₀
  obtain ⟨hw, s₁, hclose, ⟨s₂, hrun⟩, hone⟩ := hs₀
  have h := ((nostarve_overtaking ⟨_, hex⟩ hw hclose hrun (by simp)).2 0).1
  exact ⟨s₀, s₁, s₂, _, ⟨_, hex⟩, hclose, hrun, le_antisymm h hone.ge⟩

end Overtaking

end Osvcp.ReaderWriterNoStarve
