import Osvcp.Lib.CallSerial
import Osvcp.Vectors.VectorAddCode

/-! # `vector-nolock.c`: `vector_add` with an atomic addition

`fetch_and_add` adds to an element of the destination in one step, but the element of the source it
adds is read before, in a step of its own. No addition is lost, so where no vector is both a
destination and a source the result is that of the calls done one after the other, whatever their
order.
-/

namespace Osvcp.VectorNolock

open Function (update)
open VectorAdd (Values vectorSize workerCalls workerPass)

variable {V : Type*} {n : ℕ}

/-! ## The program -/

/-- The load of `v_src->values[i]`, and the `lock; xaddl` on `v_dst->values[i]`. -/
inductive Act (V : Type*)
  | readSrc (v : V) (i : Fin vectorSize)
  | fetchAndAdd (v : V) (i : Fin vectorSize)
  deriving DecidableEq, Repr

/-- An instruction. The only mutex is `print_lock`. -/
abbrev Instr (V : Type*) := LockInstr Unit (Act V) Empty

/-- One pass of the loop over the elements. -/
def addElement (dst src : V) (i : Fin vectorSize) : List (Act V) :=
  [.readSrc src i, .fetchAndAdd dst i]

/-- `vector_add` of `vector-nolock.c`. -/
def vectorAdd (dst src : V) : List (Instr V) :=
  ((List.finRange vectorSize).flatMap (addElement dst src)).map .act

/-- One pass of the loop in `worker`, where `print_lock` is the only mutex. -/
def pass (verbose : Bool) (p : V × V) : List (Instr V) := workerPass () verbose (vectorAdd p.1 p.2)

section Program

variable [DecidableEq V]

/-- The value read last, and the values of the vectors. -/
def nolockActs : DataActs (Act V) V Int32 Values where
  act
    | .readSrc v i, (_, μ) => (μ v i, μ)
    | .fetchAndAdd v i, (r, μ) => (r, update μ v (update (μ v) i (μ v i + r)))
  touches
    | .readSrc v _ => [v]
    | .fetchAndAdd v _ => [v]
  act_frame a r μ l hl := by
    cases a with
    | readSrc v i => rfl
    | fetchAndAdd v i => exact Function.update_of_ne (by simpa using hl) ..
  act_reg a r μ μ' h := by
    cases a with
    | readSrc v i => simp [h v (by simp)]
    | fetchAndAdd v i => rfl
  act_congr a r μ μ' h l hl := by
    cases a with
    | readSrc v i => exact h l hl
    | fetchAndAdd v i =>
        have hv : μ v = μ' v := h v (by simp)
        obtain rfl : l = v := by simpa using hl
        simp [hv]

/-- Threads that make the given calls, on vectors with the given values. -/
def program (verbose : Bool) (calls : Fin n → List (V × V)) (values : V → Values) :
    CallProgram (Fin n) (V × V) Unit (Act V) Empty V Int32 Values where
  acts := nolockActs
  code := pass verbose
  retry := Empty.elim
  calls := calls
  reg := 0
  mem := values

end Program

/-- What `main` starts. -/
def mainProgram (enableParallelism causeDeadlock verbose : Bool) (loops numThreads : ℕ) :
    CallProgram (Fin numThreads) (ℕ × ℕ) Unit (Act ℕ) Empty ℕ Int32 Values :=
  program verbose (fun i => workerCalls enableParallelism causeDeadlock loops i) fun v _ =>
    Int32.ofNat v

/-! ## Every run ends -/

section Ends

variable {b : Bool} {p : V × V}

theorem holds_vectorAdd (m : Unit) :
    holds m (vectorAdd p.1 p.2 ++ VectorAdd.printInfo () b : List (Instr V)) = false := by
  rw [vectorAdd, holds_acts, VectorAdd.holds_printInfo]

theorem holds_pass (m : Unit) : holds m (pass b p) = false :=
  VectorAdd.holds_workerPass (holds_vectorAdd m)

theorem alternates_pass : CallProgram.Alternates Empty.elim (pass b p) :=
  VectorAdd.alternates_workerPass (holds_vectorAdd ()) CallProgram.alternates_acts

/-- A thread waits for `print_lock` with nothing. -/
theorem everyWait_pass : EveryWait (CallProgram.Ascending fun _ => 0) (pass b p) :=
  VectorAdd.everyWait_workerPass (fun _ => CallProgram.ascending_of_free) holds_vectorAdd
    everyWait_acts.mpr

variable [DecidableEq V]

theorem balanced {verbose : Bool} {calls : Fin n → List (V × V)} {values : V → Values} :
    (program verbose calls values).Balanced where
  alternates _ he := he.eq_code ▸ alternates_pass
  holds_eq _ m := holds_pass m

theorem not_deadlocked {verbose : Bool} {calls : Fin n → List (V × V)} {values : V → Values}
    {s : CallState (Fin n) (V × V) Unit (Act V) Empty V Int32 Values}
    (hs : (program verbose calls values).threads.Reachable s) :
    ¬ (program verbose calls values).threads.Deadlocked CallState.Finished s :=
  CallProgram.not_deadlocked_of_rank (fun _ => 0) balanced
    (fun _ _ _ _ he => he.eq_code ▸ everyWait_pass) hs

end Ends

/-! ## What is still to be added -/

instance addCommGroupInt32 : AddCommGroup Int32 where
  add_assoc := Int32.add_assoc
  zero_add := Int32.zero_add
  add_zero := Int32.add_zero
  add_comm := Int32.add_comm
  neg_add_cancel := Int32.add_left_neg
  sub_eq_add_neg := Int32.sub_eq_add_neg
  nsmul := nsmulRec
  zsmul := zsmulRec

/-- No vector is both a destination and a source. -/
def Separate (calls : Fin n → List (V × V)) : Prop :=
  ∀ t u, ∀ p ∈ calls t, ∀ q ∈ calls u, p.1 ≠ q.2

section Adds

variable [DecidableEq V]

/-- What code adds to the elements, if the last value read is `r` and the sources hold `μ`. -/
def adds (μ : V → Values) : Int32 → List (Instr V) → V → Values
  | _, [], _, _ => 0
  | _, .act (.readSrc w j) :: c, v, i => adds μ (μ w j) c v i
  | r, .act (.fetchAndAdd w j) :: c, v, i => (if w = v ∧ j = i then r else 0) + adds μ r c v i
  | r, .lock _ :: c, v, i => adds μ r c v i
  | r, .unlock _ :: c, v, i => adds μ r c v i

/-- What the call `p` adds. -/
def callAdds (μ : V → Values) (p : V × V) : V → Values := fun v i => if p.1 = v then μ p.2 i else 0

variable {μ : V → Values} {b : Bool} {p : V × V} {v : V} {i : Fin vectorSize}

theorem adds_addElement {l : List (Fin vectorSize)} (hl : l.Nodup) (r : Int32) (c : List (Instr V))
    (hc : ∀ r, adds μ r c v i = 0) :
    adds μ r ((l.flatMap (addElement p.1 p.2)).map .act ++ c) v i =
      if i ∈ l ∧ p.1 = v then μ p.2 i else 0 := by
  induction l generalizing r with
  | nil => simpa using hc r
  | cons j l ih =>
      obtain ⟨hj, hl⟩ := List.nodup_cons.mp hl
      simp only [List.flatMap_cons, addElement, List.cons_append, List.nil_append,
        List.map_cons, adds]
      rw [ih hl]
      by_cases hji : j = i
      · subst hji
        simp [hj]
      · simp [hji, Ne.symm hji]

@[simp] theorem adds_printInfo (r : Int32) : adds μ r (VectorAdd.printInfo () b) v i = 0 := by
  cases b <;> rfl

theorem adds_pass (r : Int32) : adds μ r (pass b p) v i = callAdds μ p v i := by
  have hcall : ∀ r, adds μ r (vectorAdd p.1 p.2 ++ VectorAdd.printInfo () b) v i =
      callAdds μ p v i := fun r => by
    rw [vectorAdd, adds_addElement (List.nodup_finRange _) r _ fun _ => adds_printInfo _]
    simp [callAdds]
  cases b with
  | false => exact hcall r
  | true => exact hcall r

end Adds

/-! ## No addition is lost -/

section Sum

variable [DecidableEq V] {verbose : Bool} {calls : Fin n → List (V × V)} {values : V → Values}
  {s s' : CallState (Fin n) (V × V) Unit (Act V) Empty V Int32 Values} {t : Fin n}

/-- What a thread has still to add. -/
def owed (values : V → Values) (s : CallState (Fin n) (V × V) Unit (Act V) Empty V Int32 Values)
    (t : Fin n) (v : V) (i : Fin vectorSize) : Int32 :=
  adds values (s.reg t) (s.code t) v i + ((s.todo t).map fun p => callAdds values p v i).sum

/-- What all calls add. -/
def allAdds (calls : Fin n → List (V × V)) (values : V → Values) (v : V)
    (i : Fin vectorSize) : Int32 :=
  ∑ t, ((calls t).map fun p => callAdds values p v i).sum

/-- The code reads sources and adds to destinations. -/
def Follows (calls : Fin n → List (V × V)) : Instr V → Prop
  | .act (.readSrc w _) => ∃ u, ∃ q ∈ calls u, q.2 = w
  | .act (.fetchAndAdd w _) => ∃ u, ∃ q ∈ calls u, q.1 = w
  | _ => True

/-- The sources are as they were, and what the elements hold and what is still to be added to them
is what they hold at the end. -/
structure Inv (calls : Fin n → List (V × V)) (values : V → Values)
    (s : CallState (Fin n) (V × V) Unit (Act V) Empty V Int32 Values) : Prop where
  follows : ∀ t, ∀ i ∈ s.code t, Follows calls i
  subset : ∀ t, s.todo t ⊆ calls t
  same : ∀ t, ∀ q ∈ calls t, s.mem q.2 = values q.2
  sum : ∀ v i, s.mem v i + ∑ t, owed values s t v i = values v i + allAdds calls values v i

omit [DecidableEq V] in
theorem follows_pass {p : V × V} (hp : p ∈ calls t) : ∀ i ∈ pass verbose p, Follows calls i := by
  have hprint : ∀ i ∈ (VectorAdd.printInfo () verbose : List (Instr V)), Follows calls i := by
    cases verbose <;> simp [VectorAdd.printInfo, Follows]
  intro i hi
  rw [pass, workerPass, List.mem_append, List.mem_append] at hi
  rcases hi with hi | hi | hi
  · exact hprint i hi
  · obtain ⟨a, ha, rfl⟩ := List.mem_map.mp hi
    obtain ⟨j, -, ha⟩ := List.mem_flatMap.mp ha
    simp only [addElement, List.mem_cons, List.not_mem_nil, or_false] at ha
    rcases ha with rfl | rfl
    · exact ⟨t, p, hp, rfl⟩
    · exact ⟨t, p, hp, rfl⟩
  · exact hprint i hi

/-- The code of the thread that takes the step is checked, that of the others is as before. -/
theorem Inv.follows_update (hI : Inv calls values s) {c : List (Instr V)}
    (hc : ∀ i ∈ c, Follows calls i) (u : Fin n) : ∀ i ∈ update s.code t c u, Follows calls i := by
  by_cases hu : u = t
  · subst hu
    rwa [Function.update_self]
  · rw [Function.update_of_ne hu]
    exact hI.follows u

/-- Only what the thread that takes the step owes can change. -/
theorem Inv.sum_of_owed (hI : Inv calls values s) {v : V} {i : Fin vectorSize}
    (hother : ∀ u, u ≠ t → owed values s' u v i = owed values s u v i)
    (ht : s'.mem v i + owed values s' t v i = s.mem v i + owed values s t v i) :
    s'.mem v i + ∑ u, owed values s' u v i = values v i + allAdds calls values v i := by
  have hsum := sum_add_of_eq_off (fun u => owed values s u v i)
    (fun u => owed values s' u v i) hother
  rw [← hI.sum v i]
  refine add_right_cancel (b := owed values s t v i) ?_
  calc s'.mem v i + ∑ u, owed values s' u v i + owed values s t v i
      = s'.mem v i + owed values s' t v i + ∑ u, owed values s u v i := by
        rw [add_assoc, hsum, add_right_comm, add_assoc]
    _ = s.mem v i + ∑ u, owed values s u v i + owed values s t v i := by
        rw [ht, add_right_comm]

theorem Inv.step (hI : Inv calls values s) (hsep : Separate calls)
    (h : (program verbose calls values).step s t = some s') : Inv calls values s' := by
  have hfollows := hI.follows t
  rcases CallProgram.step_cases_of_isEmpty h with ⟨p, rest, hcode, htodo, rfl⟩ |
    ⟨m, c, hcode, -, rfl⟩ | ⟨m, c, hcode, rfl⟩ | ⟨a, c, hcode, rfl⟩
  · have hp : p ∈ calls t := hI.subset t (by simp [htodo])
    refine ⟨hI.follows_update (follows_pass hp), fun u => ?_, hI.same, fun v i => ?_⟩
    · by_cases hu : u = t
      · subst hu
        simp only [Function.update_self]
        exact fun q hq => hI.subset u (by simp [htodo, hq])
      · simp only [Function.update_of_ne hu]
        exact hI.subset u
    · refine hI.sum_of_owed (t := t) (fun u hu => by simp [owed, hu]) ?_
      simp [owed, hcode, htodo, adds, program, adds_pass]
  · rw [hcode, List.forall_mem_cons] at hfollows
    refine ⟨hI.follows_update hfollows.2, hI.subset, hI.same, fun v i => ?_⟩
    exact hI.sum_of_owed (t := t) (fun u hu => by simp [owed, hu]) (by simp [owed, hcode, adds])
  · rw [hcode, List.forall_mem_cons] at hfollows
    refine ⟨hI.follows_update hfollows.2, hI.subset, hI.same, fun v i => ?_⟩
    exact hI.sum_of_owed (t := t) (fun u hu => by simp [owed, hu]) (by simp [owed, hcode, adds])
  · rw [hcode, List.forall_mem_cons] at hfollows
    cases a with
    | readSrc w j =>
        -- the element is still what it was at the start
        obtain ⟨u, q, hq, rfl⟩ := hfollows.1
        have hsame := hI.same u q hq
        refine ⟨hI.follows_update hfollows.2, hI.subset, hI.same, fun v i => ?_⟩
        refine hI.sum_of_owed (t := t) (fun u hu => by simp [owed, hu]) ?_
        simp [owed, hcode, adds, program, nolockActs, hsame]
    | fetchAndAdd w j =>
        obtain ⟨u, q, hq, rfl⟩ := hfollows.1
        refine ⟨hI.follows_update hfollows.2, hI.subset, fun u' q' hq' => ?_, fun v i => ?_⟩
        · have hne : q'.2 ≠ q.1 := (hsep u u' q hq q' hq').symm
          exact (Function.update_of_ne hne ..).trans (hI.same u' q' hq')
        · refine hI.sum_of_owed (t := t) (fun u hu => by simp [owed, hu]) ?_
          simp only [owed, hcode, adds, program, nolockActs, Function.update_self]
          by_cases hv : v = q.1
          · subst hv
            by_cases hi : i = j
            · subst hi
              simp [add_assoc]
            · simp [hi, Ne.symm hi]
          · simp [hv, Ne.symm hv]

theorem inv_of_reachable (hsep : Separate calls)
    (hs : (program verbose calls values).threads.Reachable s) :
    Inv calls values s := by
  refine hs.invariant ?_ fun s t s' hI h => hI.step hsep h
  rintro s rfl
  refine ⟨fun t i hi => by simp [CallProgram.start] at hi, fun t => List.Subset.refl _,
    fun t q _ => rfl, fun v i => ?_⟩
  simp [owed, CallProgram.start, adds, allAdds, program]

/-- When all threads have returned, every addition has been made. -/
theorem mem_of_finished (hsep : Separate calls)
    (hs : (program verbose calls values).threads.Reachable s) (hfin : ∀ t, s.Finished t) :
    s.mem = fun v i => values v i + allAdds calls values v i := by
  funext v i
  have howed : ∀ t, owed values s t v i = 0 := fun t => by simp [owed, (hfin t).1, (hfin t).2, adds]
  rw [← (inv_of_reachable hsep hs).sum v i, Finset.sum_eq_zero fun t _ => howed t, add_zero]

end Sum

end Osvcp.VectorNolock
