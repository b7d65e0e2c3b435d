import Osvcp.Semaphores.ReaderWriter

/-! # Exclusion and absence of deadlock in `reader-writer.c`

The invariant counts threads at places. `readerLock` is short of 1 by the readers in its section, so
at most one reader is there; `readers` counts the readers between their two stores; and `writelock`
is short of 1 by the writers that hold it and by one more if the group of readers is not empty.
-/

namespace Osvcp.ReaderWriter

open Function (update)

variable {R W : Type*} [Fintype R] [Fintype W] {loops : ℕ}

/-- The readers in the section of `readerLock`. -/
def sections (f : R → Reader) : ℕ := count (fun x => x.pc.inSection) f

/-- The readers counted in `readers`. -/
def counted (f : R → Reader) : ℕ := count (fun x => x.pc.counted) f

/-- The group of readers. -/
def group (f : R → Reader) : ℕ := count (fun x => x.pc.inGroup) f

/-- The writers that hold the write lock. -/
def holders (f : W → Writer) : ℕ := count (fun x => x.pc.holds) f

/-- The increments of `value` that a writer has stored. -/
def Writer.stored (x : Writer) : ℕ :=
  match x.pc with
  | .print | .relPost => x.i + 1
  | _ => x.i

/-- What a reader in the section of `readerLock` knows of `readers`. -/
def ReaderPc.Knows (readers : ℤ) : ReaderPc → Prop
  | .acqStore n | .relStore n => n = readers
  | .acqWrite => readers = 1
  | .relWrite => readers = 0
  | _ => True

/-- What a writer that holds the lock knows of `value`. -/
def WriterPc.Knows (value : ℤ) : WriterPc → Prop
  | .store n => n = value
  | _ => True

/-- The rounds of a reader: it is done after `loops` of them. -/
def Reader.InRound (loops : ℕ) (x : Reader) : Prop :=
  match x.pc with
  | .loopTest => x.i ≤ loops
  | .done => x.i = loops
  | _ => x.i < loops

/-- The rounds of a writer. -/
def Writer.InRound (loops : ℕ) (x : Writer) : Prop :=
  match x.pc with
  | .loopTest => x.i ≤ loops
  | .done => x.i = loops
  | _ => x.i < loops

/-- The invariant of the lock. -/
structure Inv (loops : ℕ) (s : State R W) : Prop where
  readerLock : s.shared.readerLock + sections s.reader = 1
  readers : s.shared.readers = counted s.reader
  writelock : s.shared.writelock + holders s.writer + min 1 (group s.reader) = 1
  value : s.shared.value = tally Writer.stored s.writer
  knowsReaders : ∀ r, (s.reader r).pc.Knows s.shared.readers
  knowsValue : ∀ w, (s.writer w).pc.Knows s.shared.value
  writerRound : ∀ w, (s.writer w).InRound loops

/-! ## What a step of a reader does to the counts -/

section ReaderStep

variable {m m' : Shared} {i : ℕ} {p : ReaderPc} {x' : Reader}

theorem ReaderFires.readerLock_balance (h : ReaderFires loops m i p m' x') :
    m'.readerLock + x'.pc.inSection.toNat = m.readerLock + p.inSection.toNat := by
  cases h <;> simp [ReaderPc.inSection] <;> omega

theorem ReaderFires.readers_balance (h : ReaderFires loops m i p m' x') (hp : p.Knows m.readers) :
    m'.readers + p.counted.toNat = m.readers + x'.pc.counted.toNat := by
  cases h <;> simp only [ReaderPc.Knows] at hp <;> simp [ReaderPc.counted, hp]

theorem ReaderFires.knows (h : ReaderFires loops m i p m' x') : x'.pc.Knows m'.readers := by
  cases h <;> trivial

/-- Only a reader in the section stores `readers`. -/
theorem ReaderFires.readers_eq (h : ReaderFires loops m i p m' x') (hp : p.inSection = false) :
    m'.readers = m.readers := by
  cases h <;> first | rfl | simp [ReaderPc.inSection] at hp

theorem ReaderFires.value_eq (h : ReaderFires loops m i p m' x') : m'.value = m.value := by
  cases h <;> rfl

end ReaderStep

/-- Outside the section a reader knows nothing of `readers`. -/
theorem ReaderPc.knows_of_not_inSection {p : ReaderPc} (hp : p.inSection = false) (n : ℤ) :
    p.Knows n := by
  cases p <;> trivial

/-! ## What a step of a writer does to the counts -/

section WriterStep

variable {m m' : Shared} {i : ℕ} {p : WriterPc} {x' : Writer}

theorem WriterFires.writelock_balance (h : WriterFires loops m i p m' x') :
    m'.writelock + x'.pc.holds.toNat = m.writelock + p.holds.toNat := by
  cases h <;> simp [WriterPc.holds]; omega

theorem WriterFires.value_balance (h : WriterFires loops m i p m' x') (hp : p.Knows m.value) :
    m'.value + (Writer.stored ⟨p, i⟩ : ℕ) = m.value + (x'.stored : ℕ) := by
  cases h <;> simp only [WriterPc.Knows] at hp <;> simp [Writer.stored, hp]; omega

theorem WriterFires.knows (h : WriterFires loops m i p m' x') : x'.pc.Knows m'.value := by
  cases h <;> trivial

/-- Only a writer that holds the lock stores `value`. -/
theorem WriterFires.value_eq (h : WriterFires loops m i p m' x') (hp : p.holds = false) :
    m'.value = m.value := by
  cases h <;> first | rfl | simp [WriterPc.holds] at hp

theorem WriterFires.readers_eq (h : WriterFires loops m i p m' x') : m'.readers = m.readers := by
  cases h <;> rfl

theorem WriterFires.readerLock_eq (h : WriterFires loops m i p m' x') :
    m'.readerLock = m.readerLock := by
  cases h <;> rfl

theorem WriterFires.inRound (h : WriterFires loops m i p m' x') (hp : Writer.InRound loops ⟨p, i⟩) :
    x'.InRound loops := by
  cases h <;> simp only [Writer.InRound] at hp ⊢ <;> omega

end WriterStep

theorem WriterPc.knows_of_not_holds {p : WriterPc} (hp : p.holds = false) (n : ℤ) : p.Knows n := by
  cases p <;> trivial

/-! ## The group of readers -/

/-- The counted readers and the group differ by readers in the section. -/
theorem ReaderPc.inGroup_le (p : ReaderPc) :
    p.inGroup.toNat ≤ p.counted.toNat + p.inSection.toNat := by
  cases p <;> simp [ReaderPc.inGroup, ReaderPc.counted, ReaderPc.inSection]

theorem ReaderPc.counted_le (p : ReaderPc) :
    p.counted.toNat ≤ p.inGroup.toNat + p.inSection.toNat := by
  cases p <;> simp [ReaderPc.inGroup, ReaderPc.counted, ReaderPc.inSection]

omit [Fintype W] in
theorem group_add_le {f : R → Reader} {r : R} {k : ℕ} (hr : (f r).pc.inGroup.toNat + k ≤
      (f r).pc.counted.toNat + (f r).pc.inSection.toNat) :
    group f + k ≤ counted f + sections f := by
  have h : group f + k ≤ tally (fun x : Reader => x.pc.counted.toNat + x.pc.inSection.toNat) f := by
    refine tally_add_le_tally (i := r) (fun j => ?_) hr
    exact ReaderPc.inGroup_le _
  rwa [tally_add] at h

omit [Fintype W] in
theorem counted_add_le {f : R → Reader} {r : R} {k : ℕ} (hr : (f r).pc.counted.toNat + k ≤
      (f r).pc.inGroup.toNat + (f r).pc.inSection.toNat) :
    counted f + k ≤ group f + sections f := by
  have h : counted f + k ≤
      tally (fun x : Reader => x.pc.inGroup.toNat + x.pc.inSection.toNat) f := by
    refine tally_add_le_tally (i := r) (fun j => ?_) hr
    exact ReaderPc.counted_le _
  rwa [tally_add] at h

section Group

variable {s : State R W} {r : R}

theorem Inv.holders_le (hI : Inv loops s) : holders s.writer ≤ 1 := by
  have h := hI.writelock
  omega

/-- The first reader waits for the write lock: the group is empty. -/
theorem Inv.group_of_acqWrite (hI : Inv loops s) (hr : (s.reader r).pc = .acqWrite) :
    group s.reader = 0 := by
  have hone : s.shared.readers = 1 := by
    have h := hI.knowsReaders r
    rwa [hr] at h
  have hle := group_add_le (r := r) (k := 2) (by rw [hr]; decide)
  have hc := hI.readers
  have hl := hI.readerLock
  omega

/-- A reader that finds `readers ≠ 1` joins others. -/
theorem Inv.group_of_notFirst (hI : Inv loops s) (hr : (s.reader r).pc = .acqTest)
    (hne : s.shared.readers ≠ 1) : 0 < group s.reader := by
  have hle := counted_add_le (r := r) (k := 0) (by rw [hr]; decide)
  have hpos : 0 < counted s.reader := count_pos_of (i := r) (by rw [hr]; rfl)
  have hc := hI.readers
  have hl := hI.readerLock
  omega

/-- The reader that posts the write lock is the last of the group. -/
theorem Inv.group_of_relWrite (hI : Inv loops s) (hr : (s.reader r).pc = .relWrite) :
    group s.reader = 1 := by
  have hzero : s.shared.readers = 0 := by
    have h := hI.knowsReaders r
    rwa [hr] at h
  have hle := group_add_le (r := r) (k := 0) (by rw [hr]; decide)
  have hpos : 0 < group s.reader := count_pos_of (i := r) (by rw [hr]; rfl)
  have hc := hI.readers
  have hl := hI.readerLock
  omega

/-- A reader that finds `readers ≠ 0` leaves others behind. -/
theorem Inv.group_of_notLast (hI : Inv loops s) (hr : (s.reader r).pc = .relTest)
    (hne : s.shared.readers ≠ 0) : 2 ≤ group s.reader := by
  have hle := counted_add_le (r := r) (k := 2) (by rw [hr]; decide)
  have hc := hI.readers
  have hl := hI.readerLock
  omega

end Group

/-! ## The invariant is kept -/

theorem inv_start : Inv loops (start : State R W) where
  readerLock := by
    have h : sections (start : State R W).reader = 0 := count_eq_zero fun _ => rfl
    rw [h]; rfl
  readers := by
    have h : counted (start : State R W).reader = 0 := count_eq_zero fun _ => rfl
    rw [h]; rfl
  writelock := by
    have h : group (start : State R W).reader = 0 := count_eq_zero fun _ => rfl
    have hw : holders (start : State R W).writer = 0 := count_eq_zero fun _ => rfl
    rw [h, hw]; rfl
  value := by
    have h : tally Writer.stored (start : State R W).writer = Fintype.card W * 0 :=
      tally_const fun _ => rfl
    rw [h]; rfl
  knowsReaders _ := trivial
  knowsValue _ := trivial
  writerRound _ := Nat.zero_le loops

section Kept

variable {s : State R W} {m' : Shared}

/-- A step of a reader keeps the account of the write lock. -/
theorem Inv.writelock_reader [DecidableEq R] (hI : Inv loops s) {r : R} {x' : Reader}
    (h : ReaderFires loops s.shared (s.reader r).i (s.reader r).pc m' x') :
    m'.writelock + holders s.writer + min 1 (group (update s.reader r x')) = 1 := by
  have hw := hI.writelock
  have hcount := count_update (fun x : Reader => x.pc.inGroup) s.reader r x'
  change group (update s.reader r x') + _ = group s.reader + _ at hcount
  generalize hp : (s.reader r).pc = p at h hcount
  cases h
  case notFirst hne =>
    have hpos := hI.group_of_notFirst hp hne
    simp only [ReaderPc.inGroup, Bool.toNat_true, Bool.toNat_false] at hcount
    omega
  case acqWrite hv =>
    have hzero := hI.group_of_acqWrite hp
    simp only [ReaderPc.inGroup, Bool.toNat_true, Bool.toNat_false] at hcount ⊢
    omega
  case notLast hne =>
    have htwo := hI.group_of_notLast hp hne
    simp only [ReaderPc.inGroup, Bool.toNat_true, Bool.toNat_false] at hcount
    omega
  case relWrite =>
    have hone := hI.group_of_relWrite hp
    simp only [ReaderPc.inGroup, Bool.toNat_true, Bool.toNat_false] at hcount ⊢
    omega
  all_goals
    simp only [ReaderPc.inGroup, Nat.add_right_cancel_iff] at hcount
    rw [hcount]
    exact hw

theorem Inv.step_reader [DecidableEq R] (hI : Inv loops s) {r : R} {x' : Reader}
    (h : ReaderFires loops s.shared (s.reader r).i (s.reader r).pc m' x') :
    Inv loops { s with shared := m', reader := update s.reader r x' } where
  readerLock := by
    have hcount := count_update (fun x : Reader => x.pc.inSection) s.reader r x'
    have hbal := h.readerLock_balance
    have hold := hI.readerLock
    simp only [sections] at hold ⊢
    omega
  readers := by
    have hcount := count_update (fun x : Reader => x.pc.counted) s.reader r x'
    have hbal := h.readers_balance (hI.knowsReaders r)
    have hold := hI.readers
    simp only [counted] at hold ⊢
    omega
  writelock := hI.writelock_reader h
  value := h.value_eq.trans hI.value
  knowsReaders j := by
    by_cases hj : j = r
    · subst hj
      simpa using h.knows
    · simp only [Function.update_of_ne hj]
      -- two readers are not in the section at once
      cases hsec : (s.reader r).pc.inSection with
      | false =>
          rw [h.readers_eq hsec]
          exact hI.knowsReaders j
      | true =>
          refine ReaderPc.knows_of_not_inSection ?_ _
          by_contra hjs
          have hle : sections s.reader ≤ 1 := by have := hI.readerLock; omega
          exact hj (eq_of_count_le_one hle (Bool.eq_true_of_not_eq_false hjs) hsec)
  knowsValue w := by
    rw [h.value_eq]
    exact hI.knowsValue w
  writerRound := hI.writerRound

theorem Inv.step_writer [DecidableEq W] (hI : Inv loops s) {w : W} {x' : Writer}
    (h : WriterFires loops s.shared (s.writer w).i (s.writer w).pc m' x') :
    Inv loops { s with shared := m', writer := update s.writer w x' } where
  readerLock := by
    rw [h.readerLock_eq]
    exact hI.readerLock
  readers := by
    rw [h.readers_eq]
    exact hI.readers
  writelock := by
    have hcount := count_update (fun x : Writer => x.pc.holds) s.writer w x'
    have hbal := h.writelock_balance
    have hold := hI.writelock
    simp only [holders] at hold ⊢
    omega
  value := by
    have hcount := tally_update Writer.stored s.writer w x'
    have hbal : m'.value + (s.writer w).stored = s.shared.value + x'.stored :=
      h.value_balance (hI.knowsValue w)
    have hold := hI.value
    simp only
    omega
  knowsReaders r := by
    rw [h.readers_eq]
    exact hI.knowsReaders r
  knowsValue j := by
    by_cases hj : j = w
    · subst hj
      simpa using h.knows
    · simp only [Function.update_of_ne hj]
      cases hhold : (s.writer w).pc.holds with
      | false =>
          rw [h.value_eq hhold]
          exact hI.knowsValue j
      | true =>
          refine WriterPc.knows_of_not_holds ?_ _
          by_contra hjh
          exact hj (eq_of_count_le_one hI.holders_le (Bool.eq_true_of_not_eq_false hjh) hhold)
  writerRound j := by
    by_cases hj : j = w
    · subst hj
      simpa using h.inRound (hI.writerRound j)
    · simpa [Function.update_of_ne hj] using hI.writerRound j

variable [DecidableEq R] [DecidableEq W]

theorem inv_step {s' : State R W} {t : R ⊕ W} (hI : Inv loops s) (h : step loops s t = some s') :
    Inv loops s' := by
  obtain ⟨r, m', x', -, hf, rfl⟩ | ⟨w, m', x', -, hf, rfl⟩ := step_cases h
  · exact hI.step_reader hf
  · exact hI.step_writer hf

theorem inv_of_reachable (hs : (readerWriter R W loops).Reachable s) : Inv loops s := by
  refine hs.invariant (I := Inv loops) ?_ fun s t s' hI h => inv_step hI h
  rintro s rfl
  exact inv_start

end Kept

/-! ## Exclusion -/

section Exclusion

variable {s : State R W}

theorem Inv.writer_unique (hI : Inv loops s) {w w' : W} (hw : (s.writer w).pc.holds = true)
    (hw' : (s.writer w').pc.holds = true) : w = w' :=
  eq_of_count_le_one hI.holders_le hw hw'

theorem Inv.not_holds_and_inGroup (hI : Inv loops s) {w : W} {r : R}
    (hw : (s.writer w).pc.holds = true) : (s.reader r).pc.inGroup = false := by
  by_contra hr
  have hholder : 0 < holders s.writer := count_pos_of hw
  have hgroup : 0 < group s.reader := count_pos_of (Bool.eq_true_of_not_eq_false hr)
  have h := hI.writelock
  omega

/-- `writelock` is 0 exactly while a writer or the group of readers holds it. -/
theorem Inv.writelock_eq_zero_iff (hI : Inv loops s) :
    s.shared.writelock = 0 ↔
      (∃ w, (s.writer w).pc.holds = true) ∨ ∃ r, (s.reader r).pc.inGroup = true := by
  have hholder := count_pos_iff (p := fun x : Writer => x.pc.holds) (f := s.writer)
  have hgroup := count_pos_iff (p := fun x : Reader => x.pc.inGroup) (f := s.reader)
  have h := hI.writelock
  simp only [holders, group] at h
  rw [← hholder, ← hgroup]
  omega

end Exclusion

/-! ## Absence of deadlock -/

/-- The places where a reader blocks. -/
theorem readerStep_eq_none {m : Shared} {x : Reader} (h : readerStep loops m x = none) :
    x.pc = .done ∨ (x.pc = .acqWait ∧ m.readerLock = 0) ∨ (x.pc = .acqWrite ∧ m.writelock = 0) ∨
      (x.pc = .relWait ∧ m.readerLock = 0) := by
  obtain ⟨pc, i⟩ := x
  cases pc <;> simp [readerStep] at h ⊢ <;> exact h

/-- The places where a writer blocks. -/
theorem writerStep_eq_none {m : Shared} {x : Writer} (h : writerStep loops m x = none) :
    x.pc = .done ∨ (x.pc = .acqWait ∧ m.writelock = 0) := by
  obtain ⟨pc, i⟩ := x
  cases pc <;> simp [writerStep] at h ⊢; exact h

/-- If no writer holds the lock, and every reader past its entry is blocked, then no reader is past
its entry and both semaphores are free. -/
theorem Inv.settled {s : State R W} (hI : Inv loops s) (hw : ∀ w, (s.writer w).pc.holds = false)
    (hr : ∀ r, (s.reader r).pc = .loopTest ∨ (s.reader r).pc = .done ∨ (s.reader r).pc = .acqWait ∨
      ((s.reader r).pc = .acqWrite ∧ s.shared.writelock = 0) ∨
      ((s.reader r).pc = .relWait ∧ s.shared.readerLock = 0)) :
    s.shared.readerLock = 1 ∧ s.shared.writelock = 1 := by
  have hholders : holders s.writer = 0 := count_eq_zero hw
  have hwl := hI.writelock
  have hrl := hI.readerLock
  -- a blocked first reader would find the write lock free
  have hfirst : ∀ r, (s.reader r).pc ≠ .acqWrite := by
    intro r hp
    have hzero := hI.group_of_acqWrite hp
    obtain h | h | h | ⟨-, h⟩ | ⟨h, -⟩ := hr r
    · exact absurd (hp.symm.trans h) (by simp)
    · exact absurd (hp.symm.trans h) (by simp)
    · exact absurd (hp.symm.trans h) (by simp)
    · omega
    · exact absurd (hp.symm.trans h) (by simp)
  have hsections : sections s.reader = 0 := by
    refine count_eq_zero fun r => ?_
    obtain h | h | h | ⟨h, -⟩ | ⟨h, -⟩ := hr r
    · rw [h]; rfl
    · rw [h]; rfl
    · rw [h]; rfl
    · exact absurd h (hfirst r)
    · rw [h]; rfl
  have hgroup : group s.reader = 0 := by
    refine count_eq_zero fun r => ?_
    obtain h | h | h | ⟨h, -⟩ | ⟨-, h⟩ := hr r
    · rw [h]; rfl
    · rw [h]; rfl
    · rw [h]; rfl
    · exact absurd h (hfirst r)
    · omega
  omega

/-- If every thread is blocked or has returned, both semaphores are free. -/
theorem Inv.settled_of_blocked {s : State R W} (hI : Inv loops s)
    (hreader : ∀ r, readerStep loops s.shared (s.reader r) = none)
    (hwriter : ∀ w, writerStep loops s.shared (s.writer w) = none) :
    s.shared.readerLock = 1 ∧ s.shared.writelock = 1 := by
  refine hI.settled (fun w => ?_) fun r => ?_
  · obtain h | ⟨h, -⟩ := writerStep_eq_none (hwriter w)
    · rw [h]; rfl
    · rw [h]; rfl
  · obtain h | ⟨h, -⟩ | h | h := readerStep_eq_none (hreader r)
    · exact .inr (.inl h)
    · exact .inr (.inr (.inl h))
    · exact .inr (.inr (.inr (.inl h)))
    · exact .inr (.inr (.inr (.inr h)))

section Blocked

variable [DecidableEq R] [DecidableEq W] {s : State R W}

omit [Fintype R] [Fintype W] in
theorem readerStep_of_blocked (h : ∀ t, ¬ Finished s t → (readerWriter R W loops).step s t = none)
    (r : R) : readerStep loops s.shared (s.reader r) = none := by
  by_cases hd : (s.reader r).pc = .done
  · simp [readerStep, hd]
  · simpa [readerWriter, step] using h (.inl r) hd

omit [Fintype R] [Fintype W] in
theorem writerStep_of_blocked (h : ∀ t, ¬ Finished s t → (readerWriter R W loops).step s t = none)
    (w : W) : writerStep loops s.shared (s.writer w) = none := by
  by_cases hd : (s.writer w).pc = .done
  · simp [writerStep, hd]
  · simpa [readerWriter, step] using h (.inr w) hd

theorem Inv.not_deadlocked (hI : Inv loops s) :
    ¬ (readerWriter R W loops).Deadlocked Finished s := by
  rintro ⟨⟨t, ht⟩, hall⟩
  have hreader := readerStep_of_blocked hall
  have hwriter := writerStep_of_blocked hall
  obtain ⟨hrl, hwl⟩ := hI.settled_of_blocked hreader hwriter
  cases t with
  | inl r =>
      have h := readerStep_eq_none (hreader r)
      simp only [Finished] at ht
      simp [hrl, hwl, ht] at h
  | inr w =>
      have h := writerStep_eq_none (hwriter w)
      simp only [Finished] at ht
      simp [hwl, ht] at h

end Blocked

/-! ## The end -/

/-- When all threads have returned, every increment is in `value` and the lock is as it was. -/
theorem Inv.at_end {s : State R W} (hI : Inv loops s) (hend : ∀ t, Finished s t) :
    s.shared.value = Fintype.card W * loops ∧ s.shared.readers = 0 ∧ s.shared.writelock = 1 ∧
      s.shared.readerLock = 1 := by
  have hreader : ∀ r, (s.reader r).pc = .done := fun r => hend (.inl r)
  have hwriter : ∀ w, (s.writer w).pc = .done := fun w => hend (.inr w)
  have hstored : tally Writer.stored s.writer = Fintype.card W * loops := by
    refine tally_const fun w => ?_
    have hround := hI.writerRound w
    simp only [Writer.InRound, hwriter w] at hround
    simp only [Writer.stored, hwriter w, hround]
  have hcounted : counted s.reader = 0 := count_eq_zero fun r => by rw [hreader r]; rfl
  have hsettled := hI.settled (fun w => by rw [hwriter w]; rfl) fun r => .inr (.inl (hreader r))
  have hvalue := hI.value
  have hreaders := hI.readers
  refine ⟨?_, ?_, hsettled.2, hsettled.1⟩
  · rw [hvalue, hstored]
    push_cast
    rfl
  · rw [hreaders, hcounted]
    rfl

/-! ## The program -/

theorem ReaderPc.inGroup_of_inRead {p : ReaderPc} (hp : p.inRead = true) : p.inGroup = true := by
  cases p <;> trivial

/-- In every reachable state of `reader-writer.c` writers exclude writers and readers, `writelock`
is 0 exactly while a writer or the group of readers holds it, and the threads are not deadlocked. At
the end no increment is lost and the lock is free. -/
theorem reader_writer_exclusion [DecidableEq R] [DecidableEq W] {s : State R W}
    (hs : (readerWriter R W loops).Reachable s) :
    (∀ w w', (s.writer w).pc.holds = true → (s.writer w').pc.holds = true → w = w') ∧
    (∀ w r, ¬ ((s.writer w).pc.holds = true ∧ (s.reader r).pc.inRead = true)) ∧
    (s.shared.writelock = 0 ↔
      (∃ w, (s.writer w).pc.holds = true) ∨ ∃ r, (s.reader r).pc.inGroup = true) ∧
    ¬ (readerWriter R W loops).Deadlocked Finished s ∧
    ((∀ t, Finished s t) → s.shared.value = Fintype.card W * loops ∧ s.shared.readers = 0 ∧
      s.shared.writelock = 1 ∧ s.shared.readerLock = 1) := by
  have hI := inv_of_reachable hs
  refine ⟨fun w w' => hI.writer_unique, ?_, hI.writelock_eq_zero_iff, hI.not_deadlocked, hI.at_end⟩
  rintro w r ⟨hw, hr⟩
  have hno := hI.not_holds_and_inGroup (r := r) hw
  rw [ReaderPc.inGroup_of_inRead hr] at hno
  exact Bool.noConfusion hno

/-- Two readers overlap, the second posts the write lock that the first took, and a writer
follows. -/
theorem reader_writer_exclusion_run :
    ∃ s, (readerWriter (Fin 2) (Fin 1) 1).Reachable s ∧ (∀ t, Finished s t) ∧
      s.shared.value = 1 ∧ s.shared.writelock = 1 := by
  obtain ⟨s, hex, hc⟩ := LTS.exec_of_run_any (readerWriter (Fin 2) (Fin 1) 1) start
    (List.replicate 7 (.inl 0) ++ List.replicate 6 (.inl 1) ++ [.inr 0] ++
      List.replicate 7 (.inl 0) ++ List.replicate 8 (.inl 1) ++ List.replicate 6 (.inr 0))
    (fun s => decide (∀ t, Finished s t)) rfl (by decide)
  have hend : ∀ t, Finished s t := of_decide_eq_true hc
  have h := (reader_writer_exclusion ⟨_, hex⟩).2.2.2.2 hend
  exact ⟨s, ⟨_, hex⟩, hend, h.1, h.2.2.1⟩

end Osvcp.ReaderWriter
