import Osvcp.Lib.Threads

/-! # The reader-writer lock of `reader-writer.c`

Any number of readers and writers loop over the lock. A step of a thread is one semaphore operation,
one load or one store of a shared variable: `readers++`, `readers--` and `value++` are a load and a
store, and the tests of `readers` load it again. The write lock is taken by the first reader of a
group and posted by the last, which need not be the same thread.
-/

namespace Osvcp.ReaderWriter

open Function (update)

/-- `rwlock_t lock` and the counter `value`. -/
structure Shared where
  writelock : ℕ
  readerLock : ℕ
  readers : ℤ
  value : ℤ
  deriving DecidableEq, Repr

/-- `rwlock_init`, with `value = 0`. -/
def rwlockInit : Shared where
  writelock := 1
  readerLock := 1
  readers := 0
  value := 0

/-- What a reader does next. -/
inductive ReaderPc
  /-- The test `i < loops`. -/
  | loopTest
  /-- `Sem_wait(&rw->readerLock)` of `rwlock_acquire_readlock`. -/
  | acqWait
  /-- The load of `rw->readers++`. -/
  | acqLoad
  /-- The store of `rw->readers++`, after loading `n`. -/
  | acqStore (n : ℤ)
  /-- The test `rw->readers == 1`. -/
  | acqTest
  /-- `Sem_wait(&rw->writelock)`. -/
  | acqWrite
  /-- `Sem_post(&rw->readerLock)` of `rwlock_acquire_readlock`. -/
  | acqPost
  /-- The read section: `printf` of `value`. -/
  | reading
  /-- `Sem_wait(&rw->readerLock)` of `rwlock_release_readlock`. -/
  | relWait
  /-- The load of `rw->readers--`. -/
  | relLoad
  /-- The store of `rw->readers--`, after loading `n`. -/
  | relStore (n : ℤ)
  /-- The test `rw->readers == 0`. -/
  | relTest
  /-- `Sem_post(&rw->writelock)`. -/
  | relWrite
  /-- `Sem_post(&rw->readerLock)` of `rwlock_release_readlock`. -/
  | relPost
  /-- `reader` has returned. -/
  | done
  deriving DecidableEq, Repr

/-- What a writer does next. -/
inductive WriterPc
  /-- The test `i < loops`. -/
  | loopTest
  /-- `Sem_wait(&rw->writelock)`. -/
  | acqWait
  /-- The load of `value++`. -/
  | load
  /-- The store of `value++`, after loading `n`. -/
  | store (n : ℤ)
  /-- `printf` of `value`. -/
  | print
  /-- `Sem_post(&rw->writelock)`. -/
  | relPost
  /-- `writer` has returned. -/
  | done
  deriving DecidableEq, Repr

/-- A reader and the `i` of its loop. -/
structure Reader where
  pc : ReaderPc
  i : ℕ
  deriving DecidableEq, Repr

/-- A writer and the `i` of its loop. -/
structure Writer where
  pc : WriterPc
  i : ℕ
  deriving DecidableEq, Repr

/-- One step of a reader; `none` if it is blocked or has returned. -/
def readerStep (loops : ℕ) (m : Shared) (x : Reader) : Option (Shared × Reader) :=
  match x.pc with
  | .loopTest => some (m, ⟨if x.i < loops then .acqWait else .done, x.i⟩)
  | .acqWait => (semWait m.readerLock).map fun v => ({ m with readerLock := v }, ⟨.acqLoad, x.i⟩)
  | .acqLoad => some (m, ⟨.acqStore m.readers, x.i⟩)
  | .acqStore n => some ({ m with readers := n + 1 }, ⟨.acqTest, x.i⟩)
  | .acqTest => some (m, ⟨if m.readers = 1 then .acqWrite else .acqPost, x.i⟩)
  | .acqWrite => (semWait m.writelock).map fun v => ({ m with writelock := v }, ⟨.acqPost, x.i⟩)
  | .acqPost => some ({ m with readerLock := m.readerLock + 1 }, ⟨.reading, x.i⟩)
  | .reading => some (m, ⟨.relWait, x.i⟩)
  | .relWait => (semWait m.readerLock).map fun v => ({ m with readerLock := v }, ⟨.relLoad, x.i⟩)
  | .relLoad => some (m, ⟨.relStore m.readers, x.i⟩)
  | .relStore n => some ({ m with readers := n - 1 }, ⟨.relTest, x.i⟩)
  | .relTest => some (m, ⟨if m.readers = 0 then .relWrite else .relPost, x.i⟩)
  | .relWrite => some ({ m with writelock := m.writelock + 1 }, ⟨.relPost, x.i⟩)
  | .relPost => some ({ m with readerLock := m.readerLock + 1 }, ⟨.loopTest, x.i + 1⟩)
  | .done => none

/-- One step of a writer; `none` if it is blocked or has returned. -/
def writerStep (loops : ℕ) (m : Shared) (x : Writer) : Option (Shared × Writer) :=
  match x.pc with
  | .loopTest => some (m, ⟨if x.i < loops then .acqWait else .done, x.i⟩)
  | .acqWait => (semWait m.writelock).map fun v => ({ m with writelock := v }, ⟨.load, x.i⟩)
  | .load => some (m, ⟨.store m.value, x.i⟩)
  | .store n => some ({ m with value := n + 1 }, ⟨.print, x.i⟩)
  | .print => some (m, ⟨.relPost, x.i⟩)
  | .relPost => some ({ m with writelock := m.writelock + 1 }, ⟨.loopTest, x.i + 1⟩)
  | .done => none

/-- The lock, the readers `R` and the writers `W`. -/
structure State (R W : Type*) where
  shared : Shared
  reader : R → Reader
  writer : W → Writer

variable {R W : Type*}

/-- All threads are created and none has run. -/
def start : State R W where
  shared := rwlockInit
  reader := fun _ => ⟨.loopTest, 0⟩
  writer := fun _ => ⟨.loopTest, 0⟩

/-- One step of a reader or of a writer. -/
def step [DecidableEq R] [DecidableEq W] (loops : ℕ) (s : State R W) : R ⊕ W → Option (State R W)
  | .inl r => (readerStep loops s.shared (s.reader r)).map fun p =>
      { s with shared := p.1, reader := update s.reader r p.2 }
  | .inr w => (writerStep loops s.shared (s.writer w)).map fun p =>
      { s with shared := p.1, writer := update s.writer w p.2 }

/-- The threads of `main`, each looping `loops` times. -/
def readerWriter (R W : Type*) [DecidableEq R] [DecidableEq W] (loops : ℕ) :
    LTS (State R W) (R ⊕ W) where
  init s := s = start
  step := step loops

/-- The thread has returned. -/
def Finished (s : State R W) : R ⊕ W → Prop
  | .inl r => (s.reader r).pc = .done
  | .inr w => (s.writer w).pc = .done

instance (s : State R W) : DecidablePred (Finished s)
  | .inl r => inferInstanceAs (Decidable ((s.reader r).pc = .done))
  | .inr w => inferInstanceAs (Decidable ((s.writer w).pc = .done))

/-! ## Places -/

/-- Between `Sem_wait` and `Sem_post` of `readerLock`. -/
def ReaderPc.inSection : ReaderPc → Bool
  | .acqLoad | .acqStore _ | .acqTest | .acqWrite | .acqPost => true
  | .relLoad | .relStore _ | .relTest | .relWrite | .relPost => true
  | _ => false

/-- Counted in `readers`. -/
def ReaderPc.counted : ReaderPc → Bool
  | .acqTest | .acqWrite | .acqPost | .reading | .relWait | .relLoad | .relStore _ => true
  | _ => false

/-- One of the group of readers that holds the write lock: it has taken the lock or has found it
taken by the group, and has neither posted it nor found that others are left to do so. -/
def ReaderPc.inGroup : ReaderPc → Bool
  | .acqPost | .reading | .relWait | .relLoad | .relStore _ | .relTest | .relWrite => true
  | _ => false

/-- Inside the read section: `rwlock_acquire_readlock` has returned and `rwlock_release_readlock`
has done nothing yet. -/
def ReaderPc.inRead : ReaderPc → Bool
  | .reading | .relWait => true
  | _ => false

/-- Holds the write lock. The write section is a part of this: `rwlock_acquire_writelock` has
returned and `rwlock_release_writelock` has done nothing yet. -/
def WriterPc.holds : WriterPc → Bool
  | .load | .store _ | .print | .relPost => true
  | _ => false

/-! ## What one step can do -/

/-- The transitions of a reader in round `i`, one constructor for each. -/
inductive ReaderFires (loops : ℕ) (m : Shared) (i : ℕ) : ReaderPc → Shared → Reader → Prop
  | enter : i < loops → ReaderFires loops m i .loopTest m ⟨.acqWait, i⟩
  | finish : ¬ i < loops → ReaderFires loops m i .loopTest m ⟨.done, i⟩
  | acqWait {v : ℕ} : m.readerLock = v + 1 →
      ReaderFires loops m i .acqWait { m with readerLock := v } ⟨.acqLoad, i⟩
  | acqLoad : ReaderFires loops m i .acqLoad m ⟨.acqStore m.readers, i⟩
  | acqStore {n : ℤ} : ReaderFires loops m i (.acqStore n) { m with readers := n + 1 } ⟨.acqTest, i⟩
  | first : m.readers = 1 → ReaderFires loops m i .acqTest m ⟨.acqWrite, i⟩
  | notFirst : m.readers ≠ 1 → ReaderFires loops m i .acqTest m ⟨.acqPost, i⟩
  | acqWrite {v : ℕ} : m.writelock = v + 1 →
      ReaderFires loops m i .acqWrite { m with writelock := v } ⟨.acqPost, i⟩
  | acqPost : ReaderFires loops m i .acqPost { m with readerLock := m.readerLock + 1 } ⟨.reading, i⟩
  | read : ReaderFires loops m i .reading m ⟨.relWait, i⟩
  | relWait {v : ℕ} : m.readerLock = v + 1 →
      ReaderFires loops m i .relWait { m with readerLock := v } ⟨.relLoad, i⟩
  | relLoad : ReaderFires loops m i .relLoad m ⟨.relStore m.readers, i⟩
  | relStore {n : ℤ} : ReaderFires loops m i (.relStore n) { m with readers := n - 1 } ⟨.relTest, i⟩
  | last : m.readers = 0 → ReaderFires loops m i .relTest m ⟨.relWrite, i⟩
  | notLast : m.readers ≠ 0 → ReaderFires loops m i .relTest m ⟨.relPost, i⟩
  | relWrite : ReaderFires loops m i .relWrite { m with writelock := m.writelock + 1 } ⟨.relPost, i⟩
  | relPost :
      ReaderFires loops m i .relPost { m with readerLock := m.readerLock + 1 } ⟨.loopTest, i + 1⟩

/-- The transitions of a writer in round `i`. -/
inductive WriterFires (loops : ℕ) (m : Shared) (i : ℕ) : WriterPc → Shared → Writer → Prop
  | enter : i < loops → WriterFires loops m i .loopTest m ⟨.acqWait, i⟩
  | finish : ¬ i < loops → WriterFires loops m i .loopTest m ⟨.done, i⟩
  | acqWait {v : ℕ} : m.writelock = v + 1 →
      WriterFires loops m i .acqWait { m with writelock := v } ⟨.load, i⟩
  | load : WriterFires loops m i .load m ⟨.store m.value, i⟩
  | store {n : ℤ} : WriterFires loops m i (.store n) { m with value := n + 1 } ⟨.print, i⟩
  | print : WriterFires loops m i .print m ⟨.relPost, i⟩
  | relPost :
      WriterFires loops m i .relPost { m with writelock := m.writelock + 1 } ⟨.loopTest, i + 1⟩

theorem readerFires_of_step {loops : ℕ} {m m' : Shared} {x x' : Reader}
    (h : readerStep loops m x = some (m', x')) : ReaderFires loops m x.i x.pc m' x' := by
  obtain ⟨pc, i⟩ := x
  cases pc <;> simp only [readerStep, Option.map_eq_some_iff, semWait_eq_some, Option.some.injEq,
    Prod.mk.injEq, reduceCtorEq] at h
  case loopTest =>
    obtain ⟨rfl, rfl⟩ := h
    by_cases hi : i < loops
    · rw [if_pos hi]; exact .enter hi
    · rw [if_neg hi]; exact .finish hi
  case acqWait => obtain ⟨v, hv, rfl, rfl⟩ := h; exact .acqWait hv
  case acqLoad => obtain ⟨rfl, rfl⟩ := h; exact .acqLoad
  case acqStore n => obtain ⟨rfl, rfl⟩ := h; exact .acqStore
  case acqTest =>
    obtain ⟨rfl, rfl⟩ := h
    by_cases hr : m.readers = 1
    · rw [if_pos hr]; exact .first hr
    · rw [if_neg hr]; exact .notFirst hr
  case acqWrite => obtain ⟨v, hv, rfl, rfl⟩ := h; exact .acqWrite hv
  case acqPost => obtain ⟨rfl, rfl⟩ := h; exact .acqPost
  case reading => obtain ⟨rfl, rfl⟩ := h; exact .read
  case relWait => obtain ⟨v, hv, rfl, rfl⟩ := h; exact .relWait hv
  case relLoad => obtain ⟨rfl, rfl⟩ := h; exact .relLoad
  case relStore n => obtain ⟨rfl, rfl⟩ := h; exact .relStore
  case relTest =>
    obtain ⟨rfl, rfl⟩ := h
    by_cases hr : m.readers = 0
    · rw [if_pos hr]; exact .last hr
    · rw [if_neg hr]; exact .notLast hr
  case relWrite => obtain ⟨rfl, rfl⟩ := h; exact .relWrite
  case relPost => obtain ⟨rfl, rfl⟩ := h; exact .relPost

theorem writerFires_of_step {loops : ℕ} {m m' : Shared} {x x' : Writer}
    (h : writerStep loops m x = some (m', x')) : WriterFires loops m x.i x.pc m' x' := by
  obtain ⟨pc, i⟩ := x
  cases pc <;> simp only [writerStep, Option.map_eq_some_iff, semWait_eq_some, Option.some.injEq,
    Prod.mk.injEq, reduceCtorEq] at h
  case loopTest =>
    obtain ⟨rfl, rfl⟩ := h
    by_cases hi : i < loops
    · rw [if_pos hi]; exact .enter hi
    · rw [if_neg hi]; exact .finish hi
  case acqWait => obtain ⟨v, hv, rfl, rfl⟩ := h; exact .acqWait hv
  case load => obtain ⟨rfl, rfl⟩ := h; exact .load
  case store n => obtain ⟨rfl, rfl⟩ := h; exact .store
  case print => obtain ⟨rfl, rfl⟩ := h; exact .print
  case relPost => obtain ⟨rfl, rfl⟩ := h; exact .relPost

/-- A step moves one reader or one writer and changes the shared state as that thread says. -/
theorem step_cases [DecidableEq R] [DecidableEq W] {loops : ℕ} {s s' : State R W} {t : R ⊕ W}
    (h : step loops s t = some s') :
    (∃ r m' x', t = .inl r ∧ ReaderFires loops s.shared (s.reader r).i (s.reader r).pc m' x' ∧
      s' = { s with shared := m', reader := update s.reader r x' }) ∨
    (∃ w m' x', t = .inr w ∧ WriterFires loops s.shared (s.writer w).i (s.writer w).pc m' x' ∧
      s' = { s with shared := m', writer := update s.writer w x' }) := by
  cases t with
  | inl r =>
      simp only [step, Option.map_eq_some_iff] at h
      obtain ⟨⟨m', x'⟩, hx, rfl⟩ := h
      exact .inl ⟨r, m', x', rfl, readerFires_of_step hx, rfl⟩
  | inr w =>
      simp only [step, Option.map_eq_some_iff] at h
      obtain ⟨⟨m', x'⟩, hx, rfl⟩ := h
      exact .inr ⟨w, m', x', rfl, writerFires_of_step hx, rfl⟩

end Osvcp.ReaderWriter
