import Osvcp.Lib.CallThreads

/-! # Threads whose calls are two-phase

If the code of every call takes its locks before it works on the data, a call takes effect when it
takes its last lock, and the order in which the calls do so is the order in which they could have
run one after the other. A `tryLock` that fails comes before that, and the call begins anew.
-/

namespace Osvcp

open Function (update)

namespace CallProgram

variable {ι C M A K L ρ β : Type*} [DecidableEq M]

/-- What a call does if nothing comes between its steps. -/
def callEffect (P : CallProgram ι C M A K L ρ β) (μ : L → β) (p : C) : L → β :=
  (effect P.acts (P.code p) (P.reg, μ)).2

/-- The code of the calls that are made is two-phase and balanced, and what it does does not depend
on the registers with which it starts, nor on how often the call begins anew. -/
structure TwoPhase (P : CallProgram ι C M A K L ρ β) (guard : L → M) : Prop where
  wellLocked : ∀ {t p c}, p ∈ P.calls t → P.Entry p c → WellLocked P.acts guard P.retry c
  holds_eq : ∀ {t p}, p ∈ P.calls t → ∀ m, holds m (P.code p) = false
  acquires : ∀ {t p}, p ∈ P.calls t → Acquires guard (P.code p)
  effect_eq : ∀ {t p c}, p ∈ P.calls t → P.Entry p c →
    ∀ r μ, (effect P.acts c (r, μ)).2 = P.callEffect μ p

/-- Two-phase code gives back what it takes. -/
theorem alternates_of_wellLocked {D : DataActs A L ρ β} {guard : L → M}
    {label : K → List (LockInstr M A K)} {c : List (LockInstr M A K)}
    (h : WellLocked D guard label c) : Alternates label c := by
  induction c with
  | nil => trivial
  | cons i c ih =>
      cases i with
      | lock m => exact ⟨h.1, ih h.tail⟩
      | unlock m => exact ⟨h.1, ih h.tail⟩
      | tryLock m k => exact ⟨h.1.1, h.2.1.2, ih h.tail⟩
      | act a => exact ih h.tail

theorem TwoPhase.balanced {P : CallProgram ι C M A K L ρ β} {guard : L → M} (h : P.TwoPhase guard) :
    P.Balanced where
  alternates hp he := alternates_of_wellLocked (h.wellLocked hp he)
  holds_eq hp := h.holds_eq hp

/-- The memory after the calls of a list, one after the other. -/
def serial (P : CallProgram ι C M A K L ρ β) (order : List (ι × C)) : L → β :=
  order.foldl (fun μ c => P.callEffect μ c.2) P.mem

variable [DecidableEq ι]

/-- The calls of one thread, in their order. -/
def callsOf (t : ι) (order : List (ι × C)) : List C :=
  (order.filter fun c => c.1 = t).map Prod.snd

omit [DecidableEq M] in
theorem callsOf_append_self (t : ι) (order : List (ι × C)) (p : C) :
    callsOf t (order ++ [(t, p)]) = callsOf t order ++ [p] := by
  simp [callsOf]

omit [DecidableEq M] in
theorem callsOf_append_of_ne {t u : ι} (h : u ≠ t) (order : List (ι × C)) (p : C) :
    callsOf u (order ++ [(t, p)]) = callsOf u order := by
  simp [callsOf, h.symm]

omit [DecidableEq M] in
/-- One thread after the other. -/
theorem callsOf_flatMap (calls : ι → List C) {ts : List ι} (hts : ts.Nodup) (t : ι) :
    callsOf t (ts.flatMap fun u => (calls u).map (Prod.mk u)) = if t ∈ ts then calls t else [] := by
  induction ts with
  | nil => rfl
  | cons u ts ih =>
      obtain ⟨hu, hts⟩ := List.nodup_cons.mp hts
      have hsplit : callsOf t ((u :: ts).flatMap fun u => (calls u).map (Prod.mk u)) =
          callsOf t ((calls u).map (Prod.mk u)) ++
            callsOf t (ts.flatMap fun u => (calls u).map (Prod.mk u)) := by
        simp [callsOf]
      rw [hsplit, ih hts]
      by_cases hut : u = t
      · subst hut
        simp [callsOf, hu, List.filter_map, Function.comp_def]
      · simp [callsOf, hut, Ne.symm hut, List.filter_map, Function.comp_def]

omit [DecidableEq M] in
/-- What the calls add up to does not depend on their order. -/
theorem sum_map_callsOf {N : Type*} [AddCommMonoid N] [Fintype ι] (f : C → N)
    (order : List (ι × C)) :
    (order.map fun c => f c.2).sum = ∑ t, ((callsOf t order).map f).sum := by
  induction order with
  | nil => simp [callsOf]
  | cons c order ih =>
      have hcons : ∀ t, ((callsOf t (c :: order)).map f).sum =
          (if t = c.1 then f c.2 else 0) + ((callsOf t order).map f).sum := fun t => by
        by_cases ht : c.1 = t
        · simp [callsOf, ht]
        · simp [callsOf, ht, Ne.symm ht]
      rw [List.map_cons, List.sum_cons, ih, Finset.sum_congr rfl fun t _ => hcons t,
        Finset.sum_add_distrib]
      simp

/-- The thread is in the call `p`, and all of it is still to come. -/
structure InCall (P : CallProgram ι C M A K L ρ β) (s : CallState ι C M A K L ρ β) (t : ι)
    (p : C) : Prop where
  entry : ∃ e, P.Entry p e ∧ s.code t <:+ e
  effect_eq : ∀ μ, (effect P.acts (s.code t) (s.reg t, μ)).2 = P.callEffect μ p

/-- What a thread has still to do, given the calls it has done: the current call is done from its
last lock on, and before that all of it is still to come. -/
def Owes (P : CallProgram ι C M A K L ρ β) (guard : L → M) (s : CallState ι C M A K L ρ β) (t : ι)
    (done : List C) : Prop :=
  (¬ Acquires guard (s.code t) → done ++ s.todo t = P.calls t) ∧
  (Acquires guard (s.code t) → ∃ p, done ++ p :: s.todo t = P.calls t ∧ P.InCall s t p)

/-- The calls that have taken their last lock, in that order, give the memory once they are over. -/
structure Inv (P : CallProgram ι C M A K L ρ β) (guard : L → M) (s : CallState ι C M A K L ρ β)
    (order : List (ι × C)) : Prop where
  consistent : Consistent P.acts guard P.retry s.code s.reg s.owner s.mem (P.serial order)
  owes : ∀ t, P.Owes guard s t (callsOf t order)

section Steps

variable {P : CallProgram ι C M A K L ρ β} {guard : L → M}
  {s s' : CallState ι C M A K L ρ β} {t : ι} {order : List (ι × C)} {i : LockInstr M A K}
  {c : List (LockInstr M A K)} {m : M} {p : C}

omit [DecidableEq M] [DecidableEq ι] in
/-- What a thread owes depends on its own part of the state. -/
theorem Owes.congr {done : List C} (h : P.Owes guard s t done) (htodo : s'.todo t = s.todo t)
    (hcode : s'.code t = s.code t) (hreg : s'.reg t = s.reg t) : P.Owes guard s' t done := by
  refine ⟨fun hac => ?_, fun hac => ?_⟩
  · rw [htodo]
    exact h.1 (by rwa [hcode] at hac)
  · obtain ⟨p, hcalls, hin⟩ := h.2 (by rwa [hcode] at hac)
    refine ⟨p, by rwa [htodo], ⟨?_, ?_⟩⟩
    · rw [hcode]
      exact hin.entry
    · rw [hcode, hreg]
      exact hin.effect_eq

omit [DecidableEq M] [DecidableEq ι] in
/-- A thread goes on to the rest of its code: it owes what it owed, if the instruction it has done
is neither the one that takes the last lock nor one that acts on data. -/
theorem Owes.tail {done : List C} (h : P.Owes guard s t done) (hcode : s.code t = i :: c)
    (hac : Acquires guard (i :: c) ↔ Acquires guard c) (htodo : s'.todo t = s.todo t)
    (hcode' : s'.code t = c)
    (heffect : ∀ μ, effect P.acts (i :: c) (s.reg t, μ) = effect P.acts c (s'.reg t, μ)) :
    P.Owes guard s' t done := by
  refine ⟨fun hc => ?_, fun hc => ?_⟩
  · rw [htodo]
    exact h.1 (by rwa [hcode, hac, ← hcode'])
  · obtain ⟨p, hcalls, ⟨e, he, hsuffix⟩, heq⟩ := h.2 (by rwa [hcode, hac, ← hcode'])
    refine ⟨p, by rwa [htodo], ⟨e, he, ?_⟩, fun μ => ?_⟩
    · rw [hcode']
      exact (List.suffix_cons i c).trans (hcode ▸ hsuffix)
    · rw [hcode', ← heffect, ← hcode]
      exact heq μ

theorem Inv.begin (hI : P.Inv guard s order) (hP : P.TwoPhase guard) {rest : List C}
    (hcode : s.code t = []) (htodo : s.todo t = p :: rest) :
    P.Inv guard
      { s with todo := update s.todo t rest, code := update s.code t (P.code p) } order := by
  have hcalls : callsOf t order ++ p :: rest = P.calls t := by
    rw [← htodo]
    exact (hI.owes t).1 (by rw [hcode]; exact id)
  have hp : p ∈ P.calls t := hcalls ▸ by simp
  refine ⟨?_, fun u => ?_⟩
  · refine hI.consistent.jump (hP.wellLocked hp .code) (fun m => ?_) (fun r μ => ?_)
      fun r μ => finish_of_acquires (hP.acquires hp)
    · rw [hP.holds_eq hp, hcode]
      rfl
    · rw [hcode]
      exact finish_of_not_acquires id
  · by_cases hu : u = t
    · subst hu
      have hstart : ∀ {x}, x = P.code p → (∃ e, P.Entry p e ∧ x <:+ e) ∧
          ∀ r μ, (effect P.acts x (r, μ)).2 = P.callEffect μ p := by
        rintro x rfl
        exact ⟨⟨_, .code, List.suffix_refl _⟩, hP.effect_eq hp .code⟩
      obtain ⟨hentry, heffect⟩ := hstart (Function.update_self u (P.code p) s.code)
      refine ⟨fun h => absurd ?_ h, fun _ => ⟨p, ?_, hentry, fun μ => heffect _ μ⟩⟩
      · simp only [Function.update_self]
        exact hP.acquires hp
      · simp only [Function.update_self]
        exact hcalls
    · exact (hI.owes u).congr (Function.update_of_ne hu ..) (Function.update_of_ne hu ..) rfl

/-- Before its last lock, or after it, a lock changes nothing of what the thread owes. -/
theorem Inv.take (hI : P.Inv guard s order) (hcode : s.code t = i :: c) (hi : i.Takes m)
    (hfree : s.owner m = none) (hac : Acquires guard (i :: c) ↔ Acquires guard c) :
    P.Inv guard { s with owner := update s.owner m (some t), code := update s.code t c } order := by
  refine ⟨hI.consistent.acquire hi hcode hfree hac, fun u => ?_⟩
  by_cases hu : u = t
  · subst hu
    exact (hI.owes u).tail hcode hac rfl (Function.update_self ..) fun μ => hi.effect_eq _
  · exact (hI.owes u).congr rfl (Function.update_of_ne hu ..) rfl

/-- With its last lock a call takes its place in the order. -/
theorem Inv.take_last (hI : P.Inv guard s order) (hcode : s.code t = i :: c) (hi : i.Takes m)
    (hfree : s.owner m = none) (hac : Acquires guard (i :: c)) (hlast : ¬ Acquires guard c) :
    ∃ p, P.Inv guard { s with owner := update s.owner m (some t), code := update s.code t c }
      (order ++ [(t, p)]) := by
  obtain ⟨p, hcalls, hin⟩ := (hI.owes t).2 (hcode ▸ hac)
  refine ⟨p, ?_, fun u => ?_⟩
  · have hserial : (effect P.acts (i :: c) (s.reg t, P.serial order)).2 =
        P.serial (order ++ [(t, p)]) := by
      rw [← hcode, hin.effect_eq]
      simp [serial]
    have hnext := hI.consistent.acquire_last hi hcode hfree hac hlast
    rw [hserial] at hnext
    exact hnext
  · by_cases hu : u = t
    · subst hu
      rw [callsOf_append_self]
      simp only [Owes, Function.update_self]
      exact ⟨fun _ => by simpa using hcalls, fun h => absurd h hlast⟩
    · rw [callsOf_append_of_ne hu]
      exact (hI.owes u).congr rfl (Function.update_of_ne hu ..) rfl

theorem Inv.unlock (hI : P.Inv guard s order) (hcode : s.code t = .unlock m :: c) :
    P.Inv guard { s with owner := update s.owner m none, code := update s.code t c } order := by
  refine ⟨hI.consistent.release hcode, fun u => ?_⟩
  by_cases hu : u = t
  · subst hu
    exact (hI.owes u).tail hcode Iff.rfl rfl (Function.update_self ..) fun μ => rfl
  · exact (hI.owes u).congr rfl (Function.update_of_ne hu ..) rfl

/-- After a failed `tryLock` the call begins anew. -/
theorem Inv.retry {k : K} (hI : P.Inv guard s order) (hP : P.TwoPhase guard)
    (hcode : s.code t = .tryLock m k :: c) :
    P.Inv guard { s with code := update s.code t (P.retry k) } order := by
  have hwl := hI.consistent.wellLocked t
  rw [hcode] at hwl
  have hac : Acquires guard (.tryLock m k :: c) := Or.inl hwl.1.2
  obtain ⟨p, hcalls, ⟨e, he, hsuffix⟩, -⟩ := (hI.owes t).2 (hcode ▸ hac)
  have hp : p ∈ P.calls t := hcalls ▸ by simp
  have hretry : P.Entry p (P.retry k) := he.retry (hsuffix.subset (hcode ▸ List.mem_cons_self))
  refine ⟨?_, fun u => ?_⟩
  · refine hI.consistent.jump (hP.wellLocked hp hretry) (fun m' => ?_) (fun r μ => ?_)
      fun r μ => finish_of_acquires hwl.2.1.1
    · rw [hcode]
      exact hwl.2.1.2 m'
    · rw [hcode]
      exact finish_of_acquires hac
  · by_cases hu : u = t
    · subst hu
      have hstart : ∀ {x}, x = P.retry k → Acquires guard x ∧ (∃ e, P.Entry p e ∧ x <:+ e) ∧
          ∀ r μ, (effect P.acts x (r, μ)).2 = P.callEffect μ p := by
        rintro x rfl
        exact ⟨hwl.2.1.1, ⟨_, hretry, List.suffix_refl _⟩, hP.effect_eq hp hretry⟩
      obtain ⟨hacquires, hentry, heffect⟩ := hstart (Function.update_self u (P.retry k) s.code)
      exact ⟨fun h => absurd hacquires h, fun _ => ⟨p, hcalls, hentry, fun μ => heffect _ μ⟩⟩
    · exact (hI.owes u).congr rfl (Function.update_of_ne hu ..) rfl

omit [DecidableEq M] [DecidableEq ι] in
/-- An action that touches nothing leaves the memory alone and does the same with every memory. -/
theorem act_of_touches_nil {a : A} (ha : P.acts.touches a = []) (r : ρ) (μ ν : L → β) :
    P.acts.act a (r, μ) = ((P.acts.act a (r, ν)).1, μ) := by
  refine Prod.ext (P.acts.act_reg a r μ ν (by simp [ha])) (funext fun l => ?_)
  exact P.acts.act_frame a r μ l (by simp [ha])

theorem Inv.perform (hI : P.Inv guard s order) {a : A} (hcode : s.code t = .act a :: c) :
    P.Inv guard { s with
      code := update s.code t c
      reg := update s.reg t (P.acts.act a (s.reg t, s.mem)).1
      mem := (P.acts.act a (s.reg t, s.mem)).2 } order := by
  refine ⟨hI.consistent.perform hcode, fun u => ?_⟩
  by_cases hu : u = t
  · subst hu
    by_cases hc : Acquires guard c
    · have hwl := hI.consistent.wellLocked u
      rw [hcode] at hwl
      -- before the last lock an action touches nothing
      have hnone : P.acts.touches a = [] := hwl.2.1.resolve_right (not_not.mpr hc)
      refine (hI.owes u).tail hcode Iff.rfl rfl (Function.update_self ..) fun μ => ?_
      simp only [Function.update_self]
      rw [effect, act_of_touches_nil hnone _ μ s.mem]
    · have hcalls := (hI.owes u).1 (by rw [hcode]; exact hc)
      refine ⟨fun _ => hcalls, fun h => absurd ?_ hc⟩
      simpa only [Function.update_self] using h
  · exact (hI.owes u).congr rfl (Function.update_of_ne hu ..) (Function.update_of_ne hu ..)

theorem Inv.step (hI : P.Inv guard s order) (hP : P.TwoPhase guard) (h : P.step s t = some s') :
    ∃ order', P.Inv guard s' order' := by
  rcases step_cases h with ⟨p, rest, hcode, htodo, rfl⟩ | ⟨i, m, c, hcode, hi, hfree, rfl⟩ |
    ⟨m, c, hcode, rfl⟩ | ⟨m, k, c, hcode, -, rfl⟩ | ⟨a, c, hcode, rfl⟩
  · exact ⟨order, hI.begin hP hcode htodo⟩
  · by_cases hlast : Acquires guard (i :: c) ∧ ¬ Acquires guard c
    · obtain ⟨p, hI'⟩ := hI.take_last hcode hi hfree hlast.1 hlast.2
      exact ⟨_, hI'⟩
    · have hac : Acquires guard (i :: c) ↔ Acquires guard c := by
        refine ⟨fun h => ?_, fun h => hi.acquires_iff.mpr (Or.inr h)⟩
        by_contra hc
        exact hlast ⟨h, hc⟩
      exact ⟨order, hI.take hcode hi hfree hac⟩
  · exact ⟨order, hI.unlock hcode⟩
  · exact ⟨order, hI.retry hP hcode⟩
  · exact ⟨order, hI.perform hcode⟩

end Steps

/-! ## Whole runs -/

section Runs

variable {P : CallProgram ι C M A K L ρ β} {guard : L → M}
  {s s' : CallState ι C M A K L ρ β} {t : ι} {order : List (ι × C)}

theorem inv_start (P : CallProgram ι C M A K L ρ β) (guard : L → M) : P.Inv guard P.start [] := by
  refine ⟨⟨fun m t => ?_, fun t => trivial, fun l _ => rfl, fun l t h => ?_⟩,
    fun t => ⟨fun _ => rfl, fun h => absurd h id⟩⟩
  · simp [start]
  · simp [start] at h

theorem inv_of_reachable (hP : P.TwoPhase guard) (hs : P.threads.Reachable s) :
    ∃ order, P.Inv guard s order := by
  refine hs.invariant (I := fun s => ∃ order, P.Inv guard s order) ?_ ?_
  · rintro s rfl
    exact ⟨[], P.inv_start guard⟩
  · rintro s t s' ⟨order, hI⟩ h
    exact hI.step hP h

/-- Nothing is locked once all threads have returned. -/
theorem Inv.owner_of_finished (hI : P.Inv guard s order) (hfin : ∀ t, s.Finished t) (m : M) :
    s.owner m = none := by
  cases ho : s.owner m with
  | none => rfl
  | some t =>
      have hholds := (hI.consistent.owner_iff m t).mp ho
      rw [(hfin t).1] at hholds
      exact absurd hholds Bool.false_ne_true

/-- **Two-phase calls are serializable.** -/
theorem serializable (hP : P.TwoPhase guard) (hs : P.threads.Reachable s)
    (hfin : ∀ t, s.Finished t) :
    (∃ order, (∀ t, callsOf t order = P.calls t) ∧ s.mem = P.serial order) ∧
    ∀ m, s.owner m = none := by
  obtain ⟨order, hI⟩ := inv_of_reachable hP hs
  have hfree := hI.owner_of_finished hfin
  refine ⟨⟨order, fun t => ?_, ?_⟩, hfree⟩
  · have howes := (hI.owes t).1 (by rw [(hfin t).1]; exact id)
    rw [(hfin t).2, List.append_nil] at howes
    exact howes
  · funext l
    exact (hI.consistent.free l (hfree _)).symm

/-! ## Total correctness -/

/-- **Total correctness.** Two-phase calls that neither deadlock nor fail at a `tryLock` all return,
in every run, and have done what they do one after the other in some order. -/
theorem terminates_serial [Fintype ι] (hP : P.TwoPhase guard)
    (hno : ∀ s, P.threads.Reachable s → ∀ t, s.NoFailedTryLock t)
    (hlive : ∀ s, P.threads.Reachable s → ¬ P.threads.Deadlocked CallState.Finished s) :
    P.threads.Terminates P.runLength fun s => (∀ t, s.Finished t) ∧ (∀ m, s.owner m = none) ∧
      ∃ order, (∀ t, callsOf t order = P.calls t) ∧ s.mem = P.serial order := by
  refine terminates hno hlive fun s hs hfin => ?_
  obtain ⟨horder, hfree⟩ := serializable hP hs hfin
  exact ⟨hfin, hfree, horder⟩

end Runs

end CallProgram

end Osvcp
