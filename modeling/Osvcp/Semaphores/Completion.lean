import Osvcp.Lib.Termination
import Osvcp.Semaphores.Barrier
import Osvcp.Semaphores.ReaderWriterTurnstile

/-! # The reader-writer programs and the barrier always end

No thread of these programs waits in a loop, so every step brings its thread nearer to its end. As
the threads never deadlock, every run of a program ends with all of them returned, in whatever order
they are scheduled.
-/

namespace Osvcp

open Function (update)

variable {R W : Type*} [Fintype R] [Fintype W] [DecidableEq R] [DecidableEq W] {loops : ℕ}

/-! ## `reader-writer.c` -/

namespace ReaderWriter

/-- The steps to the next test of `i < loops`, at most. -/
def ReaderPc.toTest : ReaderPc → ℕ
  | .loopTest | .done => 0
  | .acqWait => 13
  | .acqLoad => 12
  | .acqStore _ => 11
  | .acqTest => 10
  | .acqWrite => 9
  | .acqPost => 8
  | .reading => 7
  | .relWait => 6
  | .relLoad => 5
  | .relStore _ => 4
  | .relTest => 3
  | .relWrite => 2
  | .relPost => 1

def WriterPc.toTest : WriterPc → ℕ
  | .loopTest | .done => 0
  | .acqWait => 5
  | .load => 4
  | .store _ => 3
  | .print => 2
  | .relPost => 1

/-- The steps a reader has still to take, at most. -/
def Reader.left (loops : ℕ) (x : Reader) : ℕ :=
  match x.pc with
  | .done => 0
  | .loopTest => (loops - x.i) * 14 + 1
  | pc => (loops - (x.i + 1)) * 14 + pc.toTest + 1

/-- The steps a writer has still to take. -/
def Writer.left (loops : ℕ) (x : Writer) : ℕ :=
  match x.pc with
  | .done => 0
  | .loopTest => (loops - x.i) * 6 + 1
  | pc => (loops - (x.i + 1)) * 6 + pc.toTest + 1

theorem ReaderFires.left_lt {m m' : Shared} {i : ℕ} {pc : ReaderPc} {x' : Reader}
    (h : ReaderFires loops m i pc m' x') : x'.left loops < Reader.left loops ⟨pc, i⟩ := by
  cases h <;> simp only [Reader.left, ReaderPc.toTest] <;> omega

theorem WriterFires.left_lt {m m' : Shared} {i : ℕ} {pc : WriterPc} {x' : Writer}
    (h : WriterFires loops m i pc m' x') : x'.left loops < Writer.left loops ⟨pc, i⟩ := by
  cases h <;> simp only [Writer.left, WriterPc.toTest] <;> omega

/-- The steps all threads have still to take, at most. -/
def measure (loops : ℕ) (s : State R W) : ℕ :=
  tally (Reader.left loops) s.reader + tally (Writer.left loops) s.writer

theorem measure_lt {s s' : State R W} {t : R ⊕ W} (h : step loops s t = some s') :
    measure loops s' < measure loops s := by
  rcases step_cases h with ⟨r, m', x', -, hfires, rfl⟩ | ⟨w, m', x', -, hfires, rfl⟩
  · have hlt := tally_update_lt (f := s.reader) (i := r) hfires.left_lt
    exact Nat.add_lt_add_right hlt _
  · have hlt := tally_update_lt (f := s.writer) (i := w) hfires.left_lt
    exact Nat.add_lt_add_left hlt _

omit [DecidableEq R] [DecidableEq W] in
theorem measure_start : measure loops (start : State R W) =
    Fintype.card R * (loops * 14 + 1) + Fintype.card W * (loops * 6 + 1) := by
  have hreader : tally (Reader.left loops) (start : State R W).reader =
      Fintype.card R * (loops * 14 + 1) :=
    tally_const fun _ => rfl
  have hwriter : tally (Writer.left loops) (start : State R W).writer =
      Fintype.card W * (loops * 6 + 1) :=
    tally_const fun _ => rfl
  rw [measure, hreader, hwriter]

end ReaderWriter

/-! ## `reader-writer-nostarve.c` -/

namespace ReaderWriterNoStarve

/-- The steps to the next test of `i < loops`, at most. -/
def ReaderPc.toTest : ReaderPc → ℕ
  | .loopTest | .done => 0
  | .turnWait => 15
  | .turnPost => 14
  | .acqWait => 13
  | .acqLoad => 12
  | .acqStore _ => 11
  | .acqTest => 10
  | .acqWrite => 9
  | .acqPost => 8
  | .reading => 7
  | .relWait => 6
  | .relLoad => 5
  | .relStore _ => 4
  | .relTest => 3
  | .relWrite => 2
  | .relPost => 1

def WriterPc.toTest : WriterPc → ℕ
  | .loopTest | .done => 0
  | .turnWait => 7
  | .acqWait => 6
  | .load => 5
  | .store _ => 4
  | .print => 3
  | .turnPost => 2
  | .relPost => 1

/-- The steps a reader has still to take, at most. -/
def Reader.left (loops : ℕ) (x : Reader) : ℕ :=
  match x.pc with
  | .done => 0
  | .loopTest => (loops - x.i) * 16 + 1
  | pc => (loops - (x.i + 1)) * 16 + pc.toTest + 1

/-- The steps a writer has still to take. -/
def Writer.left (loops : ℕ) (x : Writer) : ℕ :=
  match x.pc with
  | .done => 0
  | .loopTest => (loops - x.i) * 8 + 1
  | pc => (loops - (x.i + 1)) * 8 + pc.toTest + 1

theorem readerStep_left_lt {m m' : Shared} {x x' : Reader}
    (h : readerStep loops m x = some (m', x')) :
    x'.left loops < x.left loops := by
  obtain ⟨pc, i⟩ := x
  cases pc <;> simp only [readerStep, Option.map_eq_some_iff, semWait_eq_some, Option.some.injEq,
    Prod.mk.injEq, reduceCtorEq] at h
  case loopTest =>
    obtain ⟨-, rfl⟩ := h
    by_cases hi : i < loops
    · simp only [hi, if_true, Reader.left, ReaderPc.toTest]
      omega
    · simp only [hi, if_false, Reader.left]
      omega
  case acqTest =>
    obtain ⟨-, rfl⟩ := h
    split_ifs <;> simp [Reader.left, ReaderPc.toTest]
  case relTest =>
    obtain ⟨-, rfl⟩ := h
    split_ifs <;> simp [Reader.left, ReaderPc.toTest]
  case turnWait | acqWait | acqWrite | relWait =>
    obtain ⟨v, -, -, rfl⟩ := h
    simp [Reader.left, ReaderPc.toTest]
  all_goals
    obtain ⟨-, rfl⟩ := h
    simp [Reader.left, ReaderPc.toTest]

theorem writerStep_left_lt {m m' : Shared} {x x' : Writer}
    (h : writerStep loops m x = some (m', x')) :
    x'.left loops < x.left loops := by
  obtain ⟨pc, i⟩ := x
  cases pc <;> simp only [writerStep, Option.map_eq_some_iff, semWait_eq_some, Option.some.injEq,
    Prod.mk.injEq, reduceCtorEq] at h
  case loopTest =>
    obtain ⟨-, rfl⟩ := h
    by_cases hi : i < loops
    · simp only [hi, if_true, Writer.left, WriterPc.toTest]
      omega
    · simp only [hi, if_false, Writer.left]
      omega
  case turnWait | acqWait =>
    obtain ⟨v, -, -, rfl⟩ := h
    simp [Writer.left, WriterPc.toTest]
  all_goals
    obtain ⟨-, rfl⟩ := h
    simp [Writer.left, WriterPc.toTest]

/-- The steps all threads have still to take, at most. -/
def measure (loops : ℕ) (s : State R W) : ℕ :=
  tally (Reader.left loops) s.reader + tally (Writer.left loops) s.writer

theorem measure_lt {s s' : State R W} {t : R ⊕ W} (h : step loops s t = some s') :
    measure loops s' < measure loops s := by
  rcases step_cases h with ⟨r, m', x', -, hx, rfl⟩ | ⟨w, m', x', -, hx, rfl⟩
  · exact Nat.add_lt_add_right (tally_update_lt (readerStep_left_lt hx)) _
  · exact Nat.add_lt_add_left (tally_update_lt (writerStep_left_lt hx)) _

omit [DecidableEq R] [DecidableEq W] in
theorem measure_start : measure loops (start : State R W) =
    Fintype.card R * (loops * 16 + 1) + Fintype.card W * (loops * 8 + 1) := by
  have hreader : tally (Reader.left loops) (start : State R W).reader =
      Fintype.card R * (loops * 16 + 1) :=
    tally_const fun _ => rfl
  have hwriter : tally (Writer.left loops) (start : State R W).writer =
      Fintype.card W * (loops * 8 + 1) :=
    tally_const fun _ => rfl
  rw [measure, hreader, hwriter]

end ReaderWriterNoStarve

/-- **The reader-writer programs always end.** Whatever the order of the steps, every run of
`reader-writer.c` and of `reader-writer-nostarve.c` with any readers and writers ends after a
bounded number of steps, and then all threads have returned, no increment of `value` is lost, and
the semaphores are as they were at the start. -/
theorem reader_writers_end (R W : Type*) [Fintype R] [Fintype W] [DecidableEq R] [DecidableEq W]
    (loops : ℕ) :
    (ReaderWriter.readerWriter R W loops).Terminates
      (Fintype.card R * (loops * 14 + 1) + Fintype.card W * (loops * 6 + 1))
      (fun s => (∀ t, ReaderWriter.Finished s t) ∧ s.shared.value = Fintype.card W * loops ∧
        s.shared.readers = 0 ∧ s.shared.writelock = 1 ∧ s.shared.readerLock = 1) ∧
    (ReaderWriterNoStarve.readerWriter R W loops).Terminates
      (Fintype.card R * (loops * 16 + 1) + Fintype.card W * (loops * 8 + 1))
      fun s => (∀ t, ReaderWriterNoStarve.Finished s t) ∧ s.shared.value = Fintype.card W * loops ∧
        s.shared.readers = 0 ∧ s.shared.writelock = 1 ∧ s.shared.readerLock = 1 ∧
        s.shared.blockNewReader = 1 := by
  constructor
  · refine LTS.terminates_of_not_deadlocked (ReaderWriter.measure loops) ?_
      (fun s t s' _ h => ReaderWriter.measure_lt h)
      (fun s hs => (ReaderWriter.inv_of_reachable hs).not_deadlocked)
      fun s hs hfin => ⟨hfin, (ReaderWriter.inv_of_reachable hs).at_end hfin⟩
    rintro s rfl
    exact ReaderWriter.measure_start.le
  · refine LTS.terminates_of_not_deadlocked (ReaderWriterNoStarve.measure loops) ?_
      (fun s t s' _ h => ReaderWriterNoStarve.measure_lt h) (fun s hs => ?_)
      fun s hs hfin => ⟨hfin, ?_⟩
    · rintro s rfl
      exact ReaderWriterNoStarve.measure_start.le
    · exact ReaderWriterNoStarve.not_deadlocked
        (ReaderWriter.inv_of_reachable (ReaderWriterNoStarve.reachable_forget hs))
        (ReaderWriterNoStarve.turnstile_of_reachable hs)
    · have hI := ReaderWriter.inv_of_reachable (ReaderWriterNoStarve.reachable_forget hs)
      have hturn := ReaderWriterNoStarve.turnstile_of_reachable hs
      have hblocked : ∀ t, ¬ ReaderWriterNoStarve.Finished s t →
          (ReaderWriterNoStarve.readerWriter R W loops).step s t = none :=
          fun t ht => absurd (hfin t) ht
      obtain ⟨hvalue, hreaders, hwl, hrl⟩ := hI.at_end (ReaderWriterNoStarve.finished_forget hfin)
      have hfree := ReaderWriterNoStarve.settled hI hturn
        (ReaderWriterNoStarve.readerStep_of_blocked hblocked)
        (ReaderWriterNoStarve.writerStep_of_blocked hblocked)
      exact ⟨hvalue, hreaders, hwl, hrl, hfree.2.2⟩

/-! ## `barrier.c` -/

namespace Barrier

variable {n : ℕ}

/-- The steps a thread has still to take, at most: a last thread posts the barrier `n` times. -/
def Pc.left (n : ℕ) : Pc → ℕ
  | .before => 2 * n + 11
  | .waitMutex => 2 * n + 10
  | .load => 2 * n + 9
  | .store _ => 2 * n + 8
  | .setLast => 2 * n + 7
  | .postMutex _ => 2 * n + 6
  | .ifLast _ => 2 * n + 5
  | .forTest i => 2 * (n - i) + 4
  | .post i => 2 * (n - (i + 1)) + 5
  | .sleep _ => 3
  | .waitBarrier _ => 2
  | .after _ => 1
  | .done _ => 0

theorem Fires.left_lt {m m' : Shared} {p p' : Pc} (h : Fires m p m' p') (htotal : m.total = n) :
    p'.left n < p.left n := by
  cases h <;> simp only [Pc.left] <;> omega

/-- **The barrier always lets all threads through.** Whatever the order of the steps, every run of
`barrier.c` with at least one thread ends after a bounded number of steps, and then all threads have
returned, the barrier is closed again and the mutex is free. -/
theorem barrier_ends (hn : 0 < n) : (barrierThreads n).Terminates (n * (2 * n + 11)) fun s =>
    (∀ t, Finished s t) ∧ s.shared.barrier = 0 ∧ s.shared.mutex = 1 := by
  refine LTS.terminates_of_not_deadlocked (fun s => tally (Pc.left n) s.pc) ?_
    (fun s t s' hs h => ?_) (fun s hs => (inv_of_reachable hn hs).not_deadlocked)
    fun s hs hfin => ⟨hfin, (inv_of_reachable hn hs).at_end hfin⟩
  · rintro s rfl
    have hstart : tally (Pc.left n) (start n).pc = Fintype.card (Fin n) * (2 * n + 11) :=
      tally_const fun _ => rfl
    rw [hstart, Fintype.card_fin]
  · obtain ⟨m', p', hfires, rfl⟩ := step_cases h
    exact tally_update_lt (hfires.left_lt (inv_of_reachable hn hs).total)

/-- Three threads are through after at most 51 steps. -/
theorem barrier_ends_three : (barrierThreads 3).Terminates 51 fun s =>
    (∀ t, Finished s t) ∧ s.shared.barrier = 0 ∧ s.shared.mutex = 1 :=
  barrier_ends (by decide)

end Barrier

end Osvcp
