import Osvcp.Lib.CallThreads
import Osvcp.Vectors.VectorAdd

/-! # The code of the locked `vector_add` programs

All three ways of taking the locks are two-phase: between its last lock and its first unlock a call
has both vectors to itself, and what it does to them there is `addAtomic`. What is said of the loop
over the elements and of `worker` and `print_info` holds for `vector-deadlock.c` and
`vector-nolock.c` too.
-/

namespace Osvcp.VectorAdd

open Function (update)

variable {V : Type*} {n : ℕ} [LinearOrder V]

/-! ## `worker` and `print_info` -/

section Worker

variable {M A K L ρ β : Type*} {D : DataActs A L ρ β} {guard : L → M}
  {label : K → List (LockInstr M A K)} {R : M → List (LockInstr M A K) → Prop} {print m : M}
  {b : Bool} {c : List (LockInstr M A K)}

theorem acquires_printInfo_append (hprint : print ∉ Set.range guard) :
    Acquires guard (printInfo print b ++ c) ↔ Acquires guard c := by
  cases b <;> simp [printInfo, Acquires, -Set.mem_range, hprint]

@[simp] theorem acquires_printInfo (hprint : print ∉ Set.range guard) :
    ¬ Acquires guard (printInfo print b : List (LockInstr M A K)) := by
  simpa [Acquires]
    using (acquires_printInfo_append (b := b) (c := ([] : List (LockInstr M A K))) hprint).mp

theorem effect_printInfo_append (v : ρ × (L → β)) :
    effect D (printInfo print b ++ c) v = effect D c v := by
  cases b <;> rfl

@[simp] theorem effect_printInfo (v : ρ × (L → β)) :
    effect D (printInfo print b : List (LockInstr M A K)) v = v := by
  cases b <;> rfl

theorem tryLock_not_mem_printInfo {k : K} :
    .tryLock m k ∉ (printInfo print b : List (LockInstr M A K)) := by
  cases b <;> simp [printInfo]

variable [DecidableEq M]

theorem holds_printInfo_append (hc : m = print → holds m c = false) :
    holds m (printInfo print b ++ c) = holds m c := by
  by_cases hm : m = print
  · subst hm
    cases b <;> simp [printInfo, hc rfl]
  · cases b <;> simp [printInfo, Ne.symm hm]

@[simp] theorem holds_printInfo : holds m (printInfo print b : List (LockInstr M A K)) = false := by
  simpa using holds_printInfo_append (m := m) (b := b) (c := ([] : List (LockInstr M A K)))
    fun _ => rfl

theorem wellLocked_printInfo_append (hc : holds print c = false)
    (hwl : WellLocked D guard label c) :
    WellLocked D guard label (printInfo print b ++ c) := by
  cases b <;> simp [printInfo, WellLocked, hc, hwl]

@[simp] theorem wellLocked_printInfo : WellLocked D guard label (printInfo print b) := by
  cases b <;> simp [printInfo, WellLocked]

theorem alternates_printInfo_append (hc : holds print c = false)
    (halt : CallProgram.Alternates label c) :
    CallProgram.Alternates label (printInfo print b ++ c) := by
  cases b <;> simp [printInfo, CallProgram.Alternates, hc, halt]

/-- In `print_info`, the only wait is for `print_lock`, with nothing. -/
theorem everyWait_printInfo_append
    (hprint : ∀ c, (∀ m, holds m (.lock print :: c) = false) → R print c)
    (hholds : ∀ m, holds m c = false) (hc : EveryWait R c) :
    EveryWait R (printInfo print b ++ c) := by
  cases b with
  | false => exact hc
  | true => exact ⟨hprint _ fun m => by simp [hholds m], hc⟩

/-- Nothing is held where a pass begins, if nothing is where `vector_add` does. -/
theorem holds_workerPass (hc : holds m (c ++ printInfo print b) = false) :
    holds m (workerPass print b c) = false :=
  (holds_printInfo_append fun _ => hc).trans hc

theorem alternates_workerPass (hc : holds print (c ++ printInfo print b) = false)
    (hcall : CallProgram.Alternates label (printInfo print b) →
      CallProgram.Alternates label (c ++ printInfo print b)) :
    CallProgram.Alternates label (workerPass print b c) := by
  refine alternates_printInfo_append hc (hcall ?_)
  have hend : CallProgram.Alternates label (printInfo print b ++ []) :=
    alternates_printInfo_append holds_nil trivial
  rwa [List.append_nil] at hend

/-- In a pass of the loop in `worker`, only the waits of `vector_add` matter. -/
theorem everyWait_workerPass (hprint : ∀ c, (∀ m, holds m (.lock print :: c) = false) → R print c)
    (hholds : ∀ m, holds m (c ++ printInfo print b) = false)
    (hcall : EveryWait R (printInfo print b) → EveryWait R (c ++ printInfo print b)) :
    EveryWait R (workerPass print b c) := by
  refine everyWait_printInfo_append hprint hholds (hcall ?_)
  have hend := everyWait_printInfo_append (b := b) (c := []) hprint (fun _ => rfl) trivial
  rwa [List.append_nil] at hend

end Worker

omit [LinearOrder V] in
/-- `print_lock` guards no vector. -/
@[simp] theorem print_notMem_range : (.print : Mutex V) ∉ Set.range Mutex.vec := by
  simp

/-- What `vector_add(p.1, p.2)` does if nothing comes between its steps. -/
def addAtomic (μ : V → Values) (p : V × V) : V → Values :=
  update μ p.1 fun i => μ p.1 i + μ p.2 i

/-! ## The loop over the elements -/

/-- The loads and stores, on the elements a thread has read and on the values. -/
def vectorActs : DataActs (Act V) V (Int32 × Int32) Values where
  act
    | .readDst v i, (r, μ) => ((μ v i, r.2), μ)
    | .readSrc v i, (r, μ) => ((r.1, μ v i), μ)
    | .write v i, (r, μ) => (r, update μ v (update (μ v) i (r.1 + r.2)))
    | .readRetry, v => v
    | .writeRetry, v => v
  touches
    | .readDst v _ => [v]
    | .readSrc v _ => [v]
    | .write v _ => [v]
    | .readRetry => []
    | .writeRetry => []
  act_frame a r μ l hl := by
    cases a with
    | write v i => exact Function.update_of_ne (by simpa using hl) ..
    | _ => rfl
  act_reg a r μ μ' h := by
    cases a with
    | readDst v i => simp [h v (by simp)]
    | readSrc v i => simp [h v (by simp)]
    | _ => rfl
  act_congr a r μ μ' h l hl := by
    cases a with
    | write v i =>
        have hv : μ v = μ' v := h v (by simp)
        obtain rfl : l = v := by simpa using hl
        simp [hv]
    | _ => exact h l hl

omit [LinearOrder V] in
/-- A loop that adds an element of one vector to another in each pass, over some of the elements,
each once. -/
theorem foldl_elements [DecidableEq V] {A ρ : Type*} {act : A → ρ × (V → Values) → ρ × (V → Values)}
    {dst src : V} {element : Fin vectorSize → List A}
    (hact : ∀ i r μ, ((element i).foldl (fun v a => act a v) (r, μ)).2 =
      update μ dst (update (μ dst) i (μ dst i + μ src i)))
    {l : List (Fin vectorSize)} (hl : l.Nodup) (r : ρ) (μ : V → Values) :
    ((l.flatMap element).foldl (fun v a => act a v) (r, μ)).2 =
      update μ dst fun i => if i ∈ l then μ dst i + μ src i else μ dst i := by
  induction l generalizing r μ with
  | nil => simp
  | cons i l ih =>
      obtain ⟨hi, hl⟩ := List.nodup_cons.mp hl
      rw [List.flatMap_cons, List.foldl_append]
      refine (ih hl _ _).trans ?_
      rw [hact, Function.update_self, Function.update_idem]
      congr 1
      funext j
      by_cases hj : j = i
      · subst hj
        simp [hi]
      · -- an element the loop has not reached yet, also if the vectors are the same
        have hsrc : update μ dst (update (μ dst) i (μ dst i + μ src i)) src j = μ src j := by
          by_cases hs : src = dst
          · subst hs
            rw [Function.update_self, Function.update_of_ne hj]
          · rw [Function.update_of_ne hs]
        simp [hj, hsrc]

theorem foldl_addValues (p : V × V) (r : Int32 × Int32) (μ : V → Values) :
    (((List.finRange vectorSize).flatMap (addElement p.1 p.2)).foldl
      (fun v a => vectorActs.act a v) (r, μ)).2 = addAtomic μ p := by
  rw [foldl_elements (fun i r μ => rfl) (List.nodup_finRange _)]
  simp [addAtomic]

/-- The loop touches the two vectors only. -/
theorem touches_addElement {dst src : V} {l : List (Fin vectorSize)} {a : Act V} {v : V}
    (ha : a ∈ l.flatMap (addElement dst src)) (hv : v ∈ vectorActs.touches a) :
    v = dst ∨ v = src := by
  obtain ⟨i, -, ha⟩ := List.mem_flatMap.mp ha
  simp only [addElement, List.mem_cons, List.not_mem_nil, or_false] at ha
  rcases ha with rfl | rfl | rfl
  · exact Or.inl (by simpa [vectorActs] using hv)
  · exact Or.inr (by simpa [vectorActs] using hv)
  · exact Or.inl (by simpa [vectorActs] using hv)

/-! ## The code of a pass -/

section Code

variable {P : Setup V n} {p : V × V} {b : Bool} {m : Mutex V} {K : Type*}
  {label : K → List (LockInstr (Mutex V) (Act V) K)} {c : List (LockInstr (Mutex V) (Act V) K)}

/-- The end of every `vector_add`: the loop over the elements, with the locks of both vectors
held. -/
theorem wellLocked_addValues (hdst : holds (.vec p.1) c = true)
    (hsrc : holds (.vec p.2) c = true) (hac : ¬ Acquires Mutex.vec c)
    (hwl : WellLocked vectorActs Mutex.vec label c) :
    WellLocked vectorActs Mutex.vec label (addValues p.1 p.2 ++ c) := by
  refine wellLocked_acts (fun a ha v hv => ?_) hac hwl
  rcases touches_addElement ha hv with rfl | rfl
  · exact hdst
  · exact hsrc

@[simp] theorem holds_addValues {dst src : V} :
    holds m (addValues dst src ++ c) = holds m c :=
  holds_acts

omit [LinearOrder V] in
@[simp] theorem acquires_addValues {dst src : V} :
    Acquires Mutex.vec (addValues dst src ++ c) ↔ Acquires Mutex.vec c :=
  acquires_acts

theorem effect_addValues {dst src : V} (hc : ∀ v, effect vectorActs c v = v)
    (r : Int32 × Int32) (μ : V → Values) :
    (effect vectorActs (addValues dst src ++ c) (r, μ)).2 = addAtomic μ (dst, src) := by
  rw [addValues, effect_acts, hc]
  exact foldl_addValues (dst, src) r μ

omit [LinearOrder V] in
theorem tryLock_not_mem_addValues {dst src : V} {k : K} : .tryLock m k ∉ addValues dst src := by
  simp [addValues]

/-- The rest of a call from the loop on, with the two unlocks in either order. -/
theorem wellLocked_addValues_unlock (label : K → List (LockInstr (Mutex V) (Act V) K)) (b : Bool)
    {v w : V} (hvw : v ≠ w) (hp : (p.1 = v ∧ p.2 = w) ∨ (p.1 = w ∧ p.2 = v)) :
    WellLocked vectorActs Mutex.vec label
      (addValues p.1 p.2 ++ .unlock (.vec v) :: .unlock (.vec w) :: printInfo .print b) := by
  refine wellLocked_addValues ?_ ?_ (by simp [Acquires]) (by simp [WellLocked, hvw.symm])
  · rcases hp with ⟨h, -⟩ | ⟨h, -⟩ <;> simp [h]
  · rcases hp with ⟨-, h⟩ | ⟨-, h⟩ <;> simp [h]

/-- `vector_add` of each program keeps the discipline, the one that compares addresses also if the
two vectors are the same. -/
theorem wellLocked_vectorAdd {v : Variant} (hp : v = .globalOrder ∨ p.1 ≠ p.2) :
    WellLocked vectorActs Mutex.vec P.retry (v.vectorAdd p.1 p.2 ++ printInfo .print b) := by
  cases v with
  | globalOrder =>
      obtain ⟨dst, src⟩ := p
      rcases lt_trichotomy dst src with hlt | rfl | hgt
      · have hbody := wellLocked_addValues_unlock P.retry b (p := (dst, src)) hlt.ne'
          (Or.inr ⟨rfl, rfl⟩)
        simp [Variant.vectorAdd, GlobalOrder.vectorAdd_of_lt hlt, hlt.ne', WellLocked, hbody]
      · have hbody : WellLocked vectorActs Mutex.vec P.retry
            (addValues dst dst ++ .unlock (.vec dst) :: printInfo .print b) :=
          wellLocked_addValues (p := (dst, dst)) (by simp) (by simp) (by simp [Acquires])
            (by simp [WellLocked])
        simp [Variant.vectorAdd, GlobalOrder.vectorAdd_self, WellLocked, hbody]
      · have hbody := wellLocked_addValues_unlock P.retry b (p := (dst, src)) hgt.ne
          (Or.inr ⟨rfl, rfl⟩)
        simp [Variant.vectorAdd, GlobalOrder.vectorAdd_of_gt hgt, hgt.ne', WellLocked, hbody]
  | avoidHoldAndWait =>
      have hne : p.1 ≠ p.2 := hp.resolve_left (by simp)
      have hbody := wellLocked_addValues_unlock P.retry b hne (Or.inl ⟨rfl, rfl⟩)
      simp [Variant.vectorAdd, AvoidHoldAndWait.vectorAdd, hne, hne.symm, WellLocked, hbody]
  | tryWait =>
      have hne : p.1 ≠ p.2 := hp.resolve_left (by simp)
      have hbody := wellLocked_addValues_unlock P.retry b hne (Or.inl ⟨rfl, rfl⟩)
      -- after a failed `tryLock` the first lock is held still
      have hretry : ∀ m, holds m (P.retry p) = (!decide (.vec p.2 = m) &&
          holds m (addValues p.1 p.2 ++ .unlock (.vec p.1) :: .unlock (.vec p.2) ::
            printInfo .print b : List (Instr V))) := by
        intro m
        by_cases h₁ : Mutex.vec p.1 = m
        · subst h₁
          simp [Setup.retry, TryWait.retry, hne.symm]
        · simp [Setup.retry, TryWait.retry, TryWait.vectorAdd, h₁]
      have hac : Acquires Mutex.vec (P.retry p) := by
        simp [Setup.retry, TryWait.retry, TryWait.vectorAdd, Acquires]
      simp only [Variant.vectorAdd, TryWait.vectorAdd, List.append_assoc, List.cons_append,
        List.nil_append, WellLocked]
      exact ⟨by simp [hne.symm], ⟨by simp, by simp⟩, ⟨hac, hretry⟩, hbody⟩

theorem acquires_vectorAdd {v : Variant} {c : List (Instr V)} :
    Acquires Mutex.vec (v.vectorAdd p.1 p.2 ++ c) := by
  cases v with
  | globalOrder =>
      obtain ⟨dst, src⟩ := p
      rcases lt_trichotomy dst src with hlt | rfl | hgt
      · simp [Variant.vectorAdd, GlobalOrder.vectorAdd_of_lt hlt, Acquires]
      · simp [Variant.vectorAdd, GlobalOrder.vectorAdd_self, Acquires]
      · simp [Variant.vectorAdd, GlobalOrder.vectorAdd_of_gt hgt, Acquires]
  | avoidHoldAndWait => simp [Variant.vectorAdd, AvoidHoldAndWait.vectorAdd, Acquires]
  | tryWait => simp [Variant.vectorAdd, TryWait.vectorAdd, Acquires]

theorem effect_vectorAdd {v : Variant} (r : Int32 × Int32) (μ : V → Values) :
    (effect vectorActs (v.vectorAdd p.1 p.2 ++ printInfo .print b) (r, μ)).2 = addAtomic μ p := by
  cases v with
  | globalOrder =>
      obtain ⟨dst, src⟩ := p
      rcases lt_trichotomy dst src with hlt | rfl | hgt
      · simp [Variant.vectorAdd, GlobalOrder.vectorAdd_of_lt hlt, effect, effect_addValues]
      · simp [Variant.vectorAdd, GlobalOrder.vectorAdd_self, effect, effect_addValues]
      · simp [Variant.vectorAdd, GlobalOrder.vectorAdd_of_gt hgt, effect, effect_addValues]
  | avoidHoldAndWait => simp [Variant.vectorAdd, AvoidHoldAndWait.vectorAdd, effect,
      effect_addValues]
  | tryWait => simp [Variant.vectorAdd, TryWait.vectorAdd, effect, effect_addValues]

/-- Only `vector-try-wait.c` has a `tryLock`, with the label of the call. -/
theorem label_of_mem_vectorAdd {v : Variant} {k : V × V} (h : .tryLock m k ∈ v.vectorAdd p.1 p.2) :
    k = p ∧ v = .tryWait := by
  cases v with
  | globalOrder =>
      obtain ⟨dst, src⟩ := p
      rcases lt_trichotomy dst src with hlt | rfl | hgt
      · simp [Variant.vectorAdd, GlobalOrder.vectorAdd_of_lt hlt, tryLock_not_mem_addValues] at h
      · simp [Variant.vectorAdd, GlobalOrder.vectorAdd_self, tryLock_not_mem_addValues] at h
      · simp [Variant.vectorAdd, GlobalOrder.vectorAdd_of_gt hgt, tryLock_not_mem_addValues] at h
  | avoidHoldAndWait =>
      simp [Variant.vectorAdd, AvoidHoldAndWait.vectorAdd, tryLock_not_mem_addValues] at h
  | tryWait =>
      simp [Variant.vectorAdd, TryWait.vectorAdd, tryLock_not_mem_addValues] at h
      exact ⟨h.2, rfl⟩

/-- Nothing is held where a `vector_add` begins. -/
theorem holds_vectorAdd {v : Variant} :
    holds m (v.vectorAdd p.1 p.2 ++ printInfo .print b) = false := by
  cases v with
  | globalOrder =>
      obtain ⟨dst, src⟩ := p
      rcases lt_trichotomy dst src with hlt | rfl | hgt
      · simp [Variant.vectorAdd, GlobalOrder.vectorAdd_of_lt hlt]
        tauto
      · simp [Variant.vectorAdd, GlobalOrder.vectorAdd_self]
      · simp [Variant.vectorAdd, GlobalOrder.vectorAdd_of_gt hgt]
        tauto
  | avoidHoldAndWait =>
      simp [Variant.vectorAdd, AvoidHoldAndWait.vectorAdd]
      tauto
  | tryWait =>
      simp [Variant.vectorAdd, TryWait.vectorAdd]
      tauto

/-! ## What a thread enters with a call, and after a failed `tryLock` -/

theorem wellLocked_pass (hp : P.variant = .globalOrder ∨ p.1 ≠ p.2) :
    WellLocked vectorActs Mutex.vec P.retry (P.pass p) :=
  wellLocked_printInfo_append holds_vectorAdd (wellLocked_vectorAdd hp)

theorem holds_pass : holds m (P.pass p) = false :=
  holds_workerPass holds_vectorAdd

theorem acquires_pass : Acquires Mutex.vec (P.pass p) :=
  (acquires_printInfo_append print_notMem_range).mpr acquires_vectorAdd

theorem effect_pass (r : Int32 × Int32) (μ : V → Values) :
    (effect vectorActs (P.pass p) (r, μ)).2 = addAtomic μ p := by
  rw [Setup.pass, workerPass, effect_printInfo_append, effect_vectorAdd]

theorem label_of_mem_pass {k : V × V} (h : .tryLock m k ∈ P.pass p) :
    k = p ∧ P.variant = .tryWait := by
  rcases List.mem_append.mp h with h | h
  · exact absurd h tryLock_not_mem_printInfo
  · rcases List.mem_append.mp h with h | h
    · exact label_of_mem_vectorAdd h
    · exact absurd h tryLock_not_mem_printInfo

theorem retry_eq : P.retry p = .act .readRetry :: .act .writeRetry :: .unlock (.vec p.1) ::
    (Variant.tryWait.vectorAdd p.1 p.2 ++ printInfo .print P.verbose) := rfl

theorem wellLocked_retry (hp : p.1 ≠ p.2) :
    WellLocked vectorActs Mutex.vec P.retry (P.retry p) := by
  have hcall := wellLocked_vectorAdd (P := P) (b := P.verbose) (v := .tryWait) (Or.inr hp)
  rw [retry_eq, WellLocked, WellLocked, WellLocked]
  exact ⟨by simp [vectorActs], Or.inl rfl, by simp [vectorActs], Or.inl rfl, holds_vectorAdd, hcall⟩

theorem effect_retry (r : Int32 × Int32) (μ : V → Values) :
    (effect vectorActs (P.retry p) (r, μ)).2 = addAtomic μ p := by
  rw [retry_eq, effect, effect, effect]
  exact effect_vectorAdd r μ

theorem label_of_mem_retry {k : V × V} (h : .tryLock m k ∈ P.retry p) : k = p := by
  rw [retry_eq] at h
  simp only [List.mem_cons, List.mem_append, reduceCtorEq, false_or] at h
  rcases h with h | h
  · exact (label_of_mem_vectorAdd h).1
  · exact absurd h tryLock_not_mem_printInfo

end Code

end Osvcp.VectorAdd
