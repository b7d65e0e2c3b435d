import Osvcp.Semaphores.ReaderWriterSafety
import Mathlib.Logic.Relation

/-! # A writer of `reader-writer.c` can starve

Two readers that take turns keep the write lock with the readers: each enters before the other
leaves, so neither ever finds itself the last. A writer that waits for the lock stays blocked all
the while, however many read sections pass. (In `reader-writer-nostarve.c` each reader passes a
waiting writer at most once.)
-/

namespace Osvcp.ReaderWriter

open Function (update)

variable {R W : Type*} [DecidableEq R] [DecidableEq W] {loops : ℕ}

/-- The writer waits for the write lock, which is taken. -/
def WriterBlocked (w : W) (s : State R W) : Prop :=
  (s.writer w).pc = .acqWait ∧ s.shared.writelock = 0

theorem WriterBlocked.step_eq_none {w : W} {s : State R W} (h : WriterBlocked w s) :
    step loops s (.inr w) = none := by
  simp [step, writerStep, h.1, h.2, semWait]

/-- A step of a reader that leaves the write lock taken. -/
def ReaderTurn (loops : ℕ) (s s' : State R W) : Prop :=
  ∃ r, step loops s (.inl r) = some s' ∧ s'.shared.writelock = 0

theorem ReaderTurn.writerBlocked {w : W} {s s' : State R W} (h : ReaderTurn loops s s')
    (hw : WriterBlocked w s) : WriterBlocked w s' := by
  obtain ⟨r, hs, hwl⟩ := h
  refine ⟨?_, hwl⟩
  rcases step_cases hs with ⟨r', m', x', -, -, rfl⟩ | ⟨w', m', x', heq, -, -⟩
  · exact hw.1
  · cases heq

/-- Steps of readers that leave the write lock taken are a run in which the writer is blocked. -/
theorem exists_run_of_readerTurns {w : W} {s s' : State R W}
    (h : Relation.ReflTransGen (ReaderTurn loops) s s') (hw : WriterBlocked w s) :
    ∃ as, (readerWriter R W loops).run s as = some s' ∧
      ∀ u ∈ LTS.visited ((readerWriter R W loops).trace s as) s', WriterBlocked w u := by
  induction h using Relation.ReflTransGen.head_induction_on with
  | refl =>
      refine ⟨[], rfl, fun u hu => ?_⟩
      obtain rfl : u = s' := by simpa [LTS.visited, LTS.trace] using hu
      exact hw
  | head hstep _ ih =>
      obtain ⟨as, hrun, hall⟩ := ih (hstep.writerBlocked hw)
      obtain ⟨r, hs, -⟩ := hstep
      have hs' : (readerWriter R W loops).step _ (.inl r) = some _ := hs
      refine ⟨.inl r :: as, ?_, fun u hu => ?_⟩
      · rw [LTS.run, hs']
        exact hrun
      · rw [LTS.trace, hs'] at hu
        rcases List.mem_cons.mp hu with rfl | hu
        · exact hw
        · exact hall u hu

/-! ## Two readers that take turns -/

section Turns

variable {a b : R} {s : State R W}

/-- The state with these two readers and this lock. -/
def place (s : State R W) (a b : R) (x y : Reader) (m : Shared) : State R W :=
  { s with shared := m, reader := update (update s.reader a x) b y }

theorem readerTurn_first (hab : a ≠ b) {x y : Reader} (x' : Reader) {m m' : Shared}
    (h : readerStep loops m x = some (m', x')) (hwl : m'.writelock = 0) :
    ReaderTurn loops (place s a b x y m) (place s a b x' y m') := by
  refine ⟨a, ?_, hwl⟩
  have hx : update (update s.reader a x) b y a = x := by
    rw [Function.update_of_ne hab, Function.update_self]
  simp only [step, place, hx, h, Option.map_some]
  rw [Function.update_comm hab, Function.update_idem, Function.update_comm hab.symm]

theorem readerTurn_second {x y : Reader} (y' : Reader) {m m' : Shared} (h : readerStep loops m y =
    some (m', y')) (hwl : m'.writelock = 0) : ReaderTurn loops (place s a b x y m)
      (place s a b x y' m') := by
  refine ⟨b, ?_, hwl⟩
  simp only [step, place, Function.update_self, h, Option.map_some, Function.update_idem]

/-- The lock while one reader reads. -/
def held (m : Shared) : Shared := { m with writelock := 0, readerLock := 1, readers := 1 }

/-- The second reader enters, and then the first one leaves. -/
theorem readerTurns_relay (hab : a ≠ b) (m : Shared) {i j : ℕ} (hj : j < loops) :
    Relation.ReflTransGen (ReaderTurn loops)
      (place s a b ⟨.reading, i⟩ ⟨.loopTest, j⟩ (held m))
      (place s a b ⟨.loopTest, i + 1⟩ ⟨.reading, j⟩ (held m)) := by
  have hin : Relation.ReflTransGen (ReaderTurn loops)
      (place s a b ⟨.reading, i⟩ ⟨.loopTest, j⟩ (held m))
      (place s a b ⟨.reading, i⟩ ⟨.reading, j⟩ { held m with readers := 2 }) := by
    refine .head (readerTurn_second ⟨.acqWait, j⟩ (by simp [readerStep, hj]; rfl) rfl) ?_
    refine .head (readerTurn_second ⟨.acqLoad, j⟩ rfl rfl) ?_
    refine .head (readerTurn_second ⟨.acqStore 1, j⟩ rfl rfl) ?_
    refine .head (readerTurn_second ⟨.acqTest, j⟩ rfl rfl) ?_
    refine .head (readerTurn_second ⟨.acqPost, j⟩ rfl rfl) ?_
    exact .single (readerTurn_second ⟨.reading, j⟩ rfl rfl)
  have hout : Relation.ReflTransGen (ReaderTurn loops)
      (place s a b ⟨.reading, i⟩ ⟨.reading, j⟩ { held m with readers := 2 })
      (place s a b ⟨.loopTest, i + 1⟩ ⟨.reading, j⟩ (held m)) := by
    refine .head (readerTurn_first hab ⟨.relWait, i⟩ rfl rfl) ?_
    refine .head (readerTurn_first hab ⟨.relLoad, i⟩ rfl rfl) ?_
    refine .head (readerTurn_first hab ⟨.relStore 2, i⟩ rfl rfl) ?_
    refine .head (readerTurn_first hab ⟨.relTest, i⟩ rfl rfl) ?_
    refine .head (readerTurn_first hab ⟨.relPost, i⟩ rfl rfl) ?_
    exact .single (readerTurn_first hab ⟨.loopTest, i + 1⟩ rfl rfl)
  exact hin.trans hout

omit [DecidableEq W] in
theorem place_comm (hab : a ≠ b) (x y : Reader) (m : Shared) :
    place s a b x y m = place s b a y x m := by
  rw [place, place, Function.update_comm hab]

/-- While both have rounds left, the readers go on like this. -/
theorem readerTurns_rounds (hab : a ≠ b) (m : Shared) {k : ℕ} (hk : k < loops) :
    Relation.ReflTransGen (ReaderTurn loops)
      (place s a b ⟨.reading, 0⟩ ⟨.loopTest, 0⟩ (held m))
      (place s a b ⟨.reading, k⟩ ⟨.loopTest, k⟩ (held m)) := by
  induction k with
  | zero => exact .refl
  | succ k ih =>
      have hback := readerTurns_relay (s := s) hab.symm m (i := k) hk
      rw [place_comm hab.symm, place_comm hab.symm] at hback
      exact ((ih (by omega)).trans (readerTurns_relay hab m (by omega))).trans hback

end Turns

/-! ## The writer -/

/-- The writer has come to the lock after the first reader has taken it. -/
def overtaken (a : R) (w : W) : State R W where
  shared := { rwlockInit with writelock := 0, readers := 1 }
  reader := update (start : State R W).reader a ⟨.reading, 0⟩
  writer := update (start : State R W).writer w ⟨.acqWait, 0⟩

theorem run_overtaken (a : R) (w : W) (hloops : 0 < loops) :
    (readerWriter R W loops).run start (.inr w :: List.replicate 7 (.inl a)) =
      some (overtaken a w) := by
  simp [readerWriter, LTS.run, step, readerStep, writerStep, start, rwlockInit, semWait, overtaken,
    List.replicate, hloops]

/-- **A writer can starve.** In `reader-writer.c` with at least two readers, for every number of
passes: a run leads to a writer that waits for the lock while no reader has finished a pass, and
goes on with two readers finishing all passes but the last, while the writer is blocked in every
state on the way. -/
theorem writer_starves {a b : R} (hab : a ≠ b) (w : W) (loops : ℕ) :
    ∃ tr s as s', (readerWriter R W (loops + 1)).Exec tr s ∧
      (∀ r, (s.reader r).i = 0) ∧ (readerWriter R W (loops + 1)).run s as = some s' ∧
      (s'.reader a).i = loops ∧ (s'.reader b).i = loops ∧
      ∀ u ∈ LTS.visited ((readerWriter R W (loops + 1)).trace s as) s',
        (u.writer w).pc = .acqWait ∧ (readerWriter R W (loops + 1)).step u (.inr w) = none := by
  have hex := (LTS.Exec.start (M := readerWriter R W (loops + 1)) rfl).run
    (run_overtaken a w (Nat.succ_pos loops))
  have hplace : overtaken a w =
      place (overtaken a w) a b ⟨.reading, 0⟩ ⟨.loopTest, 0⟩ (held rwlockInit) := by
    have ha : (overtaken a w : State R W).reader a = ⟨.reading, 0⟩ := by simp [overtaken]
    have hb : (overtaken a w : State R W).reader b =
        ⟨.loopTest, 0⟩ := by simp [overtaken, hab.symm, start]
    rw [place, ← ha, Function.update_eq_self, ← hb, Function.update_eq_self]
    rfl
  have hturns := readerTurns_rounds (s := overtaken a w) hab rwlockInit (Nat.lt_succ_self loops)
  rw [← hplace] at hturns
  obtain ⟨as, hrun, hblocked⟩ := exists_run_of_readerTurns (w := w) hturns
    ⟨by simp [overtaken], rfl⟩
  refine ⟨_, _, as, _, hex, fun r => ?_, hrun, ?_, ?_, fun u hu => ?_⟩
  · by_cases hr : r = a
    · simp [overtaken, hr]
    · simp [overtaken, hr, start]
  · simp [place, hab]
  · simp [place]
  · exact ⟨(hblocked u hu).1, (hblocked u hu).step_eq_none⟩

/-- Two readers and one writer, with four passes. -/
theorem writer_starves_four :
    ∃ tr s as s', (readerWriter (Fin 2) (Fin 1) 4).Exec tr s ∧
      (∀ r, (s.reader r).i = 0) ∧ (readerWriter (Fin 2) (Fin 1) 4).run s as = some s' ∧
      (s'.reader 0).i = 3 ∧ (s'.reader 1).i = 3 ∧
      ∀ u ∈ LTS.visited ((readerWriter (Fin 2) (Fin 1) 4).trace s as) s',
        (u.writer 0).pc = .acqWait ∧ (readerWriter (Fin 2) (Fin 1) 4).step u (.inr 0) = none :=
  writer_starves (by decide) 0 3

end Osvcp.ReaderWriter
