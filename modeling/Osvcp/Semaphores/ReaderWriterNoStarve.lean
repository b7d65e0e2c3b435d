import Osvcp.Semaphores.ReaderWriterSafety

/-! # The reader-writer lock of `reader-writer-nostarve.c`

The lock of `reader-writer.c` behind a turnstile: a reader passes through `blockNewReader` before it
is counted, and a writer keeps it from before it waits for the write lock until it starts to
release. `forget` drops the turnstile, and then every step is a step of `reader-writer.c` or no step
at all, so what holds of that program's states holds here too.
-/

namespace Osvcp.ReaderWriterNoStarve

open Function (update)

/-- `rwlock_t lock` and the counter `value`. -/
structure Shared where
  writelock : ℕ
  readerLock : ℕ
  blockNewReader : ℕ
  readers : ℤ
  value : ℤ
  deriving DecidableEq, Repr

/-- `rwlock_init`, with `value = 0`. -/
def rwlockInit : Shared where
  readers := 0
  blockNewReader := 1
  readerLock := 1
  writelock := 1
  value := 0

/-- What a reader does next. -/
inductive ReaderPc
  /-- The test `i < loops`. -/
  | loopTest
  /-- `Sem_wait(&rw->blockNewReader)`. -/
  | turnWait
  /-- `Sem_post(&rw->blockNewReader)`. -/
  | turnPost
  /-- `Sem_wait(&rw->readerLock)` of `rwlock_acquire_readlock`. -/
  | acqWait
  /-- The load of `rw->readers++`. -/
  | acqLoad
  /-- The store of `rw->readers++`, after loading `n`. -/
  | acqStore (n : ℤ)
  /-- The test `rw->readers == 1`. -/
  | acqTest
  /-- `Sem_wait(&rw->writelock)`. -/
  | acqWrite
  /-- `Sem_post(&rw->readerLock)` of `rwlock_acquire_readlock`. -/
  | acqPost
  /-- The read section: `printf` of `value`. -/
  | reading
  /-- `Sem_wait(&rw->readerLock)` of `rwlock_release_readlock`. -/
  | relWait
  /-- The load of `rw->readers--`. -/
  | relLoad
  /-- The store of `rw->readers--`, after loading `n`. -/
  | relStore (n : ℤ)
  /-- The test `rw->readers == 0`. -/
  | relTest
  /-- `Sem_post(&rw->writelock)`. -/
  | relWrite
  /-- `Sem_post(&rw->readerLock)` of `rwlock_release_readlock`. -/
  | relPost
  /-- `reader` has returned. -/
  | done
  deriving DecidableEq, Repr

/-- What a writer does next. -/
inductive WriterPc
  /-- The test `i < loops`. -/
  | loopTest
  /-- `Sem_wait(&rw->blockNewReader)`. -/
  | turnWait
  /-- `Sem_wait(&rw->writelock)`. -/
  | acqWait
  /-- The load of `value++`. -/
  | load
  /-- The store of `value++`, after loading `n`. -/
  | store (n : ℤ)
  /-- `printf` of `value`. -/
  | print
  /-- `Sem_post(&rw->blockNewReader)`. -/
  | turnPost
  /-- `Sem_post(&rw->writelock)`. -/
  | relPost
  /-- `writer` has returned. -/
  | done
  deriving DecidableEq, Repr

/-- A reader and the `i` of its loop. -/
structure Reader where
  pc : ReaderPc
  i : ℕ
  deriving DecidableEq, Repr

/-- A writer and the `i` of its loop. -/
structure Writer where
  pc : WriterPc
  i : ℕ
  deriving DecidableEq, Repr

/-- One step of a reader; `none` if it is blocked or has returned. -/
def readerStep (loops : ℕ) (m : Shared) (x : Reader) : Option (Shared × Reader) :=
  match x.pc with
  | .loopTest => some (m, ⟨if x.i < loops then .turnWait else .done, x.i⟩)
  | .turnWait =>
      (semWait m.blockNewReader).map fun v => ({ m with blockNewReader := v }, ⟨.turnPost, x.i⟩)
  | .turnPost => some ({ m with blockNewReader := m.blockNewReader + 1 }, ⟨.acqWait, x.i⟩)
  | .acqWait => (semWait m.readerLock).map fun v => ({ m with readerLock := v }, ⟨.acqLoad, x.i⟩)
  | .acqLoad => some (m, ⟨.acqStore m.readers, x.i⟩)
  | .acqStore n => some ({ m with readers := n + 1 }, ⟨.acqTest, x.i⟩)
  | .acqTest => some (m, ⟨if m.readers = 1 then .acqWrite else .acqPost, x.i⟩)
  | .acqWrite => (semWait m.writelock).map fun v => ({ m with writelock := v }, ⟨.acqPost, x.i⟩)
  | .acqPost => some ({ m with readerLock := m.readerLock + 1 }, ⟨.reading, x.i⟩)
  | .reading => some (m, ⟨.relWait, x.i⟩)
  | .relWait => (semWait m.readerLock).map fun v => ({ m with readerLock := v }, ⟨.relLoad, x.i⟩)
  | .relLoad => some (m, ⟨.relStore m.readers, x.i⟩)
  | .relStore n => some ({ m with readers := n - 1 }, ⟨.relTest, x.i⟩)
  | .relTest => some (m, ⟨if m.readers = 0 then .relWrite else .relPost, x.i⟩)
  | .relWrite => some ({ m with writelock := m.writelock + 1 }, ⟨.relPost, x.i⟩)
  | .relPost => some ({ m with readerLock := m.readerLock + 1 }, ⟨.loopTest, x.i + 1⟩)
  | .done => none

/-- One step of a writer; `none` if it is blocked or has returned. -/
def writerStep (loops : ℕ) (m : Shared) (x : Writer) : Option (Shared × Writer) :=
  match x.pc with
  | .loopTest => some (m, ⟨if x.i < loops then .turnWait else .done, x.i⟩)
  | .turnWait =>
      (semWait m.blockNewReader).map fun v => ({ m with blockNewReader := v }, ⟨.acqWait, x.i⟩)
  | .acqWait => (semWait m.writelock).map fun v => ({ m with writelock := v }, ⟨.load, x.i⟩)
  | .load => some (m, ⟨.store m.value, x.i⟩)
  | .store n => some ({ m with value := n + 1 }, ⟨.print, x.i⟩)
  | .print => some (m, ⟨.turnPost, x.i⟩)
  | .turnPost => some ({ m with blockNewReader := m.blockNewReader + 1 }, ⟨.relPost, x.i⟩)
  | .relPost => some ({ m with writelock := m.writelock + 1 }, ⟨.loopTest, x.i + 1⟩)
  | .done => none

/-- The lock, the readers `R` and the writers `W`. -/
structure State (R W : Type*) where
  shared : Shared
  reader : R → Reader
  writer : W → Writer

variable {R W : Type*}

/-- All threads are created and none has run. -/
def start : State R W where
  shared := rwlockInit
  reader := fun _ => ⟨.loopTest, 0⟩
  writer := fun _ => ⟨.loopTest, 0⟩

/-- One step of a reader or of a writer. -/
def step [DecidableEq R] [DecidableEq W] (loops : ℕ) (s : State R W) : R ⊕ W → Option (State R W)
  | .inl r => (readerStep loops s.shared (s.reader r)).map fun p =>
      { s with shared := p.1, reader := update s.reader r p.2 }
  | .inr w => (writerStep loops s.shared (s.writer w)).map fun p =>
      { s with shared := p.1, writer := update s.writer w p.2 }

/-- The threads of `main`, each looping `loops` times. -/
def readerWriter (R W : Type*) [DecidableEq R] [DecidableEq W] (loops : ℕ) :
    LTS (State R W) (R ⊕ W) where
  init s := s = start
  step := step loops

/-- The thread has returned. -/
def Finished (s : State R W) : R ⊕ W → Prop
  | .inl r => (s.reader r).pc = .done
  | .inr w => (s.writer w).pc = .done

instance (s : State R W) : DecidablePred (Finished s)
  | .inl r => inferInstanceAs (Decidable ((s.reader r).pc = .done))
  | .inr w => inferInstanceAs (Decidable ((s.writer w).pc = .done))

/-! ## Places -/

/-- Inside the read section: `rwlock_acquire_readlock` has returned and `rwlock_release_readlock`
has done nothing yet. -/
def ReaderPc.inRead : ReaderPc → Bool
  | .reading | .relWait => true
  | _ => false

/-- Inside the write section: `rwlock_acquire_writelock` has returned and `rwlock_release_writelock`
has done nothing yet. -/
def WriterPc.inWrite : WriterPc → Bool
  | .load | .store _ | .print | .turnPost => true
  | _ => false

/-- In the turnstile. -/
def ReaderPc.inTurn : ReaderPc → Bool
  | .turnPost => true
  | _ => false

/-- Keeps the turnstile closed. -/
def WriterPc.inTurn : WriterPc → Bool
  | .acqWait | .load | .store _ | .print | .turnPost => true
  | _ => false

/-! ## Forgetting the turnstile -/

/-- The place of the same reader in `reader-writer.c`: at the turnstile it is about to be
counted. -/
def ReaderPc.forget : ReaderPc → ReaderWriter.ReaderPc
  | .loopTest => .loopTest
  | .turnWait | .turnPost | .acqWait => .acqWait
  | .acqLoad => .acqLoad
  | .acqStore n => .acqStore n
  | .acqTest => .acqTest
  | .acqWrite => .acqWrite
  | .acqPost => .acqPost
  | .reading => .reading
  | .relWait => .relWait
  | .relLoad => .relLoad
  | .relStore n => .relStore n
  | .relTest => .relTest
  | .relWrite => .relWrite
  | .relPost => .relPost
  | .done => .done

/-- The place of the same writer in `reader-writer.c`. -/
def WriterPc.forget : WriterPc → ReaderWriter.WriterPc
  | .loopTest => .loopTest
  | .turnWait | .acqWait => .acqWait
  | .load => .load
  | .store n => .store n
  | .print => .print
  | .turnPost | .relPost => .relPost
  | .done => .done

def Shared.forget (m : Shared) : ReaderWriter.Shared :=
  ⟨m.writelock, m.readerLock, m.readers, m.value⟩

def Reader.forget (x : Reader) : ReaderWriter.Reader := ⟨x.pc.forget, x.i⟩

def Writer.forget (x : Writer) : ReaderWriter.Writer := ⟨x.pc.forget, x.i⟩

def State.forget (s : State R W) : ReaderWriter.State R W where
  shared := s.shared.forget
  reader r := (s.reader r).forget
  writer w := (s.writer w).forget

section Forget

variable {loops : ℕ} {m m' : Shared}

/-- A step of a reader is one in `reader-writer.c`, or it is at the turnstile. -/
theorem readerStep_forget {x x' : Reader} (h : readerStep loops m x = some (m', x')) :
    (m'.forget = m.forget ∧ x'.forget = x.forget) ∨
      ReaderWriter.readerStep loops m.forget x.forget = some (m'.forget, x'.forget) := by
  obtain ⟨pc, i⟩ := x
  cases pc <;> simp only [readerStep, Option.map_eq_some_iff, semWait_eq_some, Option.some.injEq,
    Prod.mk.injEq, reduceCtorEq] at h
  case loopTest =>
    obtain ⟨rfl, rfl⟩ := h
    refine .inr ?_
    by_cases hi : i < loops <;> simp [ReaderWriter.readerStep, Reader.forget, ReaderPc.forget, hi]
  case turnWait =>
    obtain ⟨v, -, rfl, rfl⟩ := h
    exact .inl ⟨rfl, rfl⟩
  case turnPost =>
    obtain ⟨rfl, rfl⟩ := h
    exact .inl ⟨rfl, rfl⟩
  case acqTest =>
    obtain ⟨rfl, rfl⟩ := h
    refine .inr ?_
    by_cases hr : m.readers = 1 <;>
      simp [ReaderWriter.readerStep, Shared.forget, Reader.forget, ReaderPc.forget, hr]
  case relTest =>
    obtain ⟨rfl, rfl⟩ := h
    refine .inr ?_
    by_cases hr : m.readers = 0 <;>
      simp [ReaderWriter.readerStep, Shared.forget, Reader.forget, ReaderPc.forget, hr]
  case acqWait | acqWrite | relWait =>
    obtain ⟨v, hv, rfl, rfl⟩ := h
    refine .inr ?_
    simp [ReaderWriter.readerStep, Shared.forget, Reader.forget, ReaderPc.forget, hv, semWait]
  all_goals
    obtain ⟨rfl, rfl⟩ := h
    exact .inr rfl

/-- A step of a writer is one in `reader-writer.c`, or it is at the turnstile. -/
theorem writerStep_forget {x x' : Writer} (h : writerStep loops m x = some (m', x')) :
    (m'.forget = m.forget ∧ x'.forget = x.forget) ∨
      ReaderWriter.writerStep loops m.forget x.forget = some (m'.forget, x'.forget) := by
  obtain ⟨pc, i⟩ := x
  cases pc <;> simp only [writerStep, Option.map_eq_some_iff, semWait_eq_some, Option.some.injEq,
    Prod.mk.injEq, reduceCtorEq] at h
  case loopTest =>
    obtain ⟨rfl, rfl⟩ := h
    refine .inr ?_
    by_cases hi : i < loops <;> simp [ReaderWriter.writerStep, Writer.forget, WriterPc.forget, hi]
  case turnWait =>
    obtain ⟨v, -, rfl, rfl⟩ := h
    exact .inl ⟨rfl, rfl⟩
  case turnPost =>
    obtain ⟨rfl, rfl⟩ := h
    exact .inl ⟨rfl, rfl⟩
  case acqWait =>
    obtain ⟨v, hv, rfl, rfl⟩ := h
    refine .inr ?_
    simp [ReaderWriter.writerStep, Shared.forget, Writer.forget, WriterPc.forget, hv, semWait]
  all_goals
    obtain ⟨rfl, rfl⟩ := h
    exact .inr rfl

variable [DecidableEq R] [DecidableEq W]

/-- A step moves one reader or one writer and changes the shared state as that thread says. -/
theorem step_cases {s s' : State R W} {t : R ⊕ W} (h : step loops s t = some s') :
    (∃ r m' x', t = .inl r ∧ readerStep loops s.shared (s.reader r) = some (m', x') ∧
      s' = { s with shared := m', reader := update s.reader r x' }) ∨
    (∃ w m' x', t = .inr w ∧ writerStep loops s.shared (s.writer w) = some (m', x') ∧
      s' = { s with shared := m', writer := update s.writer w x' }) := by
  cases t with
  | inl r =>
      simp only [step, Option.map_eq_some_iff] at h
      obtain ⟨⟨m', x'⟩, hx, rfl⟩ := h
      exact .inl ⟨r, m', x', rfl, hx, rfl⟩
  | inr w =>
      simp only [step, Option.map_eq_some_iff] at h
      obtain ⟨⟨m', x'⟩, hx, rfl⟩ := h
      exact .inr ⟨w, m', x', rfl, hx, rfl⟩

omit [DecidableEq W] in
theorem forget_update_reader (s : State R W) (m' : Shared) (r : R) (x' : Reader) :
    State.forget { s with shared := m', reader := update s.reader r x' } =
      { s.forget with shared := m'.forget, reader := update s.forget.reader r x'.forget } := by
  simp only [State.forget, ReaderWriter.State.mk.injEq, true_and, and_true]
  funext j
  by_cases hj : j = r
  · subst hj; simp
  · simp [hj]

omit [DecidableEq R] in
theorem forget_update_writer (s : State R W) (m' : Shared) (w : W) (x' : Writer) :
    State.forget { s with shared := m', writer := update s.writer w x' } =
      { s.forget with shared := m'.forget, writer := update s.forget.writer w x'.forget } := by
  simp only [State.forget, ReaderWriter.State.mk.injEq, true_and]
  funext j
  by_cases hj : j = w
  · subst hj; simp
  · simp [hj]

theorem step_forget {s s' : State R W} {t : R ⊕ W} (h : step loops s t = some s') :
    s'.forget = s.forget ∨ ReaderWriter.step loops s.forget t = some s'.forget := by
  obtain ⟨r, m', x', rfl, hx, rfl⟩ | ⟨w, m', x', rfl, hx, rfl⟩ := step_cases h
  · rw [forget_update_reader]
    obtain ⟨hm, hx⟩ | hx := readerStep_forget hx
    · left
      have hself := Function.update_eq_self r s.forget.reader
      rw [hm, hx]
      change (⟨_, update s.forget.reader r (s.forget.reader r), _⟩ : ReaderWriter.State R W) = _
      rw [hself]
      rfl
    · right
      exact congrArg (Option.map _) hx
  · rw [forget_update_writer]
    obtain ⟨hm, hx⟩ | hx := writerStep_forget hx
    · left
      have hself := Function.update_eq_self w s.forget.writer
      rw [hm, hx]
      change (⟨_, _, update s.forget.writer w (s.forget.writer w)⟩ : ReaderWriter.State R W) = _
      rw [hself]
      rfl
    · right
      exact congrArg (Option.map _) hx

/-- `reader-writer-nostarve.c` without its turnstile is `reader-writer.c`. -/
theorem reachable_forget {s : State R W} (hs : (readerWriter R W loops).Reachable s) :
    (ReaderWriter.readerWriter R W loops).Reachable s.forget := by
  refine hs.map State.forget ?_ ?_
  · rintro s rfl
    rfl
  · intro s t s' h
    exact (step_forget h).imp_right fun h => ⟨t, h⟩

end Forget

end Osvcp.ReaderWriterNoStarve
