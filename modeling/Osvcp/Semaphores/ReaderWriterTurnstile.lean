import Osvcp.Semaphores.ReaderWriterNoStarve

/-! # Exclusion and absence of deadlock in `reader-writer-nostarve.c`

What concerns the lock itself comes from `reader-writer.c` through `forget`. What is left is the
turnstile: `blockNewReader` is short of 1 by the one thread that is in it or keeps it closed.
-/

namespace Osvcp.ReaderWriterNoStarve

open Function (update)

variable {R W : Type*} {loops : ℕ}

/-! ## The turnstile -/

section Turnstile

variable [Fintype R] [Fintype W] {s : State R W}

/-- `blockNewReader` and the threads that have it add up to 1. -/
def Turnstile (s : State R W) : Prop :=
  s.shared.blockNewReader + count (fun x => x.pc.inTurn) s.reader +
    count (fun x => x.pc.inTurn) s.writer = 1

theorem readerStep_turn {m m' : Shared} {x x' : Reader} (h : readerStep loops m x = some (m', x')) :
    m'.blockNewReader + x'.pc.inTurn.toNat = m.blockNewReader + x.pc.inTurn.toNat := by
  obtain ⟨pc, i⟩ := x
  cases pc <;> simp only [readerStep, Option.map_eq_some_iff, semWait_eq_some, Option.some.injEq,
    Prod.mk.injEq, reduceCtorEq] at h
  case turnWait =>
    obtain ⟨v, hv, rfl, rfl⟩ := h
    simp [ReaderPc.inTurn, hv]
  case acqWait | acqWrite | relWait =>
    obtain ⟨v, -, rfl, rfl⟩ := h
    rfl
  case loopTest | acqTest | relTest =>
    obtain ⟨rfl, rfl⟩ := h
    simp only
    split <;> rfl
  all_goals
    obtain ⟨rfl, rfl⟩ := h
    simp [ReaderPc.inTurn]

theorem writerStep_turn {m m' : Shared} {x x' : Writer} (h : writerStep loops m x = some (m', x')) :
    m'.blockNewReader + x'.pc.inTurn.toNat = m.blockNewReader + x.pc.inTurn.toNat := by
  obtain ⟨pc, i⟩ := x
  cases pc <;> simp only [writerStep, Option.map_eq_some_iff, semWait_eq_some, Option.some.injEq,
    Prod.mk.injEq, reduceCtorEq] at h
  case turnWait =>
    obtain ⟨v, hv, rfl, rfl⟩ := h
    simp [WriterPc.inTurn, hv]
  case acqWait =>
    obtain ⟨v, -, rfl, rfl⟩ := h
    rfl
  case loopTest =>
    obtain ⟨rfl, rfl⟩ := h
    simp only
    split <;> rfl
  all_goals
    obtain ⟨rfl, rfl⟩ := h
    simp [WriterPc.inTurn]

variable [DecidableEq R] [DecidableEq W]

theorem turnstile_step {s' : State R W} {t : R ⊕ W} (hI : Turnstile s)
    (h : step loops s t = some s') :
    Turnstile s' := by
  unfold Turnstile at hI ⊢
  obtain ⟨r, m', x', -, hx, rfl⟩ | ⟨w, m', x', -, hx, rfl⟩ := step_cases h
  · have hcount := count_update (fun x : Reader => x.pc.inTurn) s.reader r x'
    have hbal := readerStep_turn hx
    simp only
    omega
  · have hcount := count_update (fun x : Writer => x.pc.inTurn) s.writer w x'
    have hbal := writerStep_turn hx
    simp only
    omega

theorem turnstile_of_reachable (hs : (readerWriter R W loops).Reachable s) : Turnstile s := by
  refine hs.invariant (I := Turnstile) ?_ fun s t s' hI h => turnstile_step hI h
  rintro s rfl
  have hreader : count (fun x => x.pc.inTurn) (start : State R W).reader = 0 :=
    count_eq_zero fun _ => rfl
  have hwriter : count (fun x => x.pc.inTurn) (start : State R W).writer = 0 :=
    count_eq_zero fun _ => rfl
  unfold Turnstile
  rw [hreader, hwriter]
  rfl

end Turnstile

/-! ## Absence of deadlock -/

/-- The places where a reader blocks. -/
theorem readerStep_eq_none {m : Shared} {x : Reader} (h : readerStep loops m x = none) :
    x.pc = .done ∨ (x.pc = .turnWait ∧ m.blockNewReader = 0) ∨
      (x.pc = .acqWait ∧ m.readerLock = 0) ∨ (x.pc = .acqWrite ∧ m.writelock = 0) ∨
      (x.pc = .relWait ∧ m.readerLock = 0) := by
  obtain ⟨pc, i⟩ := x
  cases pc <;> simp [readerStep] at h ⊢ <;> exact h

/-- The places where a writer blocks. -/
theorem writerStep_eq_none {m : Shared} {x : Writer} (h : writerStep loops m x = none) :
    x.pc = .done ∨ (x.pc = .turnWait ∧ m.blockNewReader = 0) ∨
    (x.pc = .acqWait ∧ m.writelock = 0) := by
  obtain ⟨pc, i⟩ := x
  cases pc <;> simp [writerStep] at h ⊢ <;> exact h

section Progress

variable [Fintype R] [Fintype W] {s : State R W}

/-- If every thread is blocked or has returned, the three semaphores are free. -/
theorem settled (hI : ReaderWriter.Inv loops s.forget) (hturn : Turnstile s)
    (hreader : ∀ r, readerStep loops s.shared (s.reader r) = none)
    (hwriter : ∀ w, writerStep loops s.shared (s.writer w) = none) :
    s.shared.readerLock = 1 ∧ s.shared.writelock = 1 ∧ s.shared.blockNewReader = 1 := by
  have hlocks : s.shared.readerLock = 1 ∧ s.shared.writelock = 1 := by
    refine hI.settled (fun w => ?_) fun r => ?_
    · simp only [State.forget, Writer.forget]
      obtain h | ⟨h, -⟩ | ⟨h, -⟩ := writerStep_eq_none (hwriter w)
      · rw [h]; rfl
      · rw [h]; rfl
      · rw [h]; rfl
    · simp only [State.forget, Reader.forget, Shared.forget]
      obtain h | ⟨h, -⟩ | ⟨h, -⟩ | ⟨h, h0⟩ | ⟨h, h0⟩ := readerStep_eq_none (hreader r)
      · exact .inr (.inl (by rw [h]; rfl))
      · exact .inr (.inr (.inl (by rw [h]; rfl)))
      · exact .inr (.inr (.inl (by rw [h]; rfl)))
      · exact .inr (.inr (.inr (.inl ⟨by rw [h]; rfl, h0⟩)))
      · exact .inr (.inr (.inr (.inr ⟨by rw [h]; rfl, h0⟩)))
  have hr : count (fun x => x.pc.inTurn) s.reader = 0 := by
    refine count_eq_zero fun r => ?_
    obtain h | ⟨h, -⟩ | ⟨h, -⟩ | ⟨h, -⟩ | ⟨h, -⟩ :=
      readerStep_eq_none (hreader r) <;> rw [h] <;> rfl
  have hw : count (fun x => x.pc.inTurn) s.writer = 0 := by
    refine count_eq_zero fun w => ?_
    obtain h | ⟨h, -⟩ | ⟨-, h⟩ := writerStep_eq_none (hwriter w)
    · rw [h]; rfl
    · rw [h]; rfl
    · omega
  unfold Turnstile at hturn
  exact ⟨hlocks.1, hlocks.2, by omega⟩

variable [DecidableEq R] [DecidableEq W]

omit [Fintype R] [Fintype W] in
theorem readerStep_of_blocked (h : ∀ t, ¬ Finished s t → (readerWriter R W loops).step s t = none)
    (r : R) :
    readerStep loops s.shared (s.reader r) = none := by
  by_cases hd : (s.reader r).pc = .done
  · simp [readerStep, hd]
  · simpa [readerWriter, step] using h (.inl r) hd

omit [Fintype R] [Fintype W] in
theorem writerStep_of_blocked (h : ∀ t, ¬ Finished s t → (readerWriter R W loops).step s t = none)
    (w : W) :
    writerStep loops s.shared (s.writer w) = none := by
  by_cases hd : (s.writer w).pc = .done
  · simp [writerStep, hd]
  · simpa [readerWriter, step] using h (.inr w) hd

theorem not_deadlocked (hI : ReaderWriter.Inv loops s.forget) (hturn : Turnstile s) :
    ¬ (readerWriter R W loops).Deadlocked Finished s := by
  rintro ⟨⟨t, ht⟩, hall⟩
  have hreader := readerStep_of_blocked hall
  have hwriter := writerStep_of_blocked hall
  obtain ⟨hrl, hwl, hbl⟩ := settled hI hturn hreader hwriter
  cases t with
  | inl r =>
      have h := readerStep_eq_none (hreader r)
      simp only [Finished] at ht
      simp [hrl, hwl, hbl, ht] at h
  | inr w =>
      have h := writerStep_eq_none (hwriter w)
      simp only [Finished] at ht
      simp [hwl, hbl, ht] at h

end Progress

/-! ## The program -/

theorem ReaderPc.inGroup_of_inRead {p : ReaderPc} (hp : p.inRead = true) :
    p.forget.inGroup = true := by
  cases p <;> trivial

theorem WriterPc.holds_of_inWrite {p : WriterPc} (hp : p.inWrite = true) :
    p.forget.holds = true := by
  cases p <;> trivial

theorem finished_forget {s : State R W} (hend : ∀ t, Finished s t) (t : R ⊕ W) :
    ReaderWriter.Finished s.forget t := by
  have h := hend t
  cases t with
  | inl r =>
      simp only [Finished] at h
      simp only [ReaderWriter.Finished, State.forget, Reader.forget, h]
      rfl
  | inr w =>
      simp only [Finished] at h
      simp only [ReaderWriter.Finished, State.forget, Writer.forget, h]
      rfl

section Program

variable [Fintype R] [Fintype W] [DecidableEq R] [DecidableEq W] {s : State R W}

/-- In every reachable state of `reader-writer-nostarve.c` writers exclude writers and readers, the
semaphores are at most 1, and the threads are not deadlocked. At the end no increment is lost and
the lock is free. -/
theorem nostarve_exclusion (hs : (readerWriter R W loops).Reachable s) :
    (∀ w w', (s.writer w).pc.inWrite = true → (s.writer w').pc.inWrite = true → w = w') ∧
    (∀ w r, ¬ ((s.writer w).pc.inWrite = true ∧ (s.reader r).pc.inRead = true)) ∧
    (s.shared.writelock ≤ 1 ∧ s.shared.readerLock ≤ 1 ∧ s.shared.blockNewReader ≤ 1) ∧
    ¬ (readerWriter R W loops).Deadlocked Finished s ∧
    ((∀ t, Finished s t) → s.shared.value = Fintype.card W * loops ∧ s.shared.readers = 0 ∧
      s.shared.writelock = 1 ∧ s.shared.readerLock = 1 ∧ s.shared.blockNewReader = 1) := by
  have hI := ReaderWriter.inv_of_reachable (reachable_forget hs)
  have hturn := turnstile_of_reachable hs
  refine ⟨fun w w' hw hw' => ?_, ?_, ⟨?_, ?_, ?_⟩, not_deadlocked hI hturn, fun hend => ?_⟩
  · exact hI.writer_unique (WriterPc.holds_of_inWrite hw) (WriterPc.holds_of_inWrite hw')
  · rintro w r ⟨hw, hr⟩
    have hno := hI.not_holds_and_inGroup (r := r) (WriterPc.holds_of_inWrite hw)
    rw [show (s.forget.reader r).pc.inGroup = true from ReaderPc.inGroup_of_inRead hr] at hno
    exact Bool.noConfusion hno
  · have h : s.shared.writelock + _ + _ = 1 := hI.writelock
    omega
  · have h : s.shared.readerLock + _ = 1 := hI.readerLock
    omega
  · unfold Turnstile at hturn
    omega
  · obtain ⟨hvalue, hreaders, hwl, hrl⟩ := hI.at_end (finished_forget hend)
    have hblocked : ∀ t, ¬ Finished s t → (readerWriter R W loops).step s t = none :=
      fun t ht => absurd (hend t) ht
    have hfree := settled hI hturn (readerStep_of_blocked hblocked) (writerStep_of_blocked hblocked)
    exact ⟨hvalue, hreaders, hwl, hrl, hfree.2.2⟩

/-- A writer closes the turnstile behind one reader, and a second reader passes after it. -/
theorem nostarve_exclusion_run :
    ∃ s, (readerWriter (Fin 2) (Fin 1) 1).Reachable s ∧ (∀ t, Finished s t) ∧
      s.shared.value = 1 ∧ s.shared.blockNewReader = 1 := by
  obtain ⟨s, hex, hc⟩ := LTS.exec_of_run_any (readerWriter (Fin 2) (Fin 1) 1) start
    (List.replicate 3 (.inl 0) ++ [.inl 1] ++ List.replicate 2 (.inr 0) ++
      List.replicate 14 (.inl 0) ++ List.replicate 7 (.inr 0) ++ List.replicate 16 (.inl 1))
    (fun s => decide (∀ t, Finished s t)) rfl (by decide)
  have hend : ∀ t, Finished s t := of_decide_eq_true hc
  have h := (nostarve_exclusion ⟨_, hex⟩).2.2.2.2 hend
  exact ⟨s, ⟨_, hex⟩, hend, h.1, h.2.2.2.2⟩

end Program

end Osvcp.ReaderWriterNoStarve
