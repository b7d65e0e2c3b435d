import Mathlib.Data.List.Basic
import Mathlib.Data.Option.Basic
import Mathlib.Tactic.Common

/-! # Labelled transition systems and their executions

A system has a set of initial states and a partial step function: `step s a = none` means that the
action `a` is not enabled in `s`. An execution is recorded as the list of its `(state, action)`
pairs, so that conditions on single steps and facts about the whole history can both be stated over
it. Proofs about runs go through the induction rules `Exec.invariant` and `Exec.invariant_of_ok`.
-/

namespace Osvcp

/-- A labelled transition system with a deterministic step for each action. -/
structure LTS (σ ι : Type*) where
  init : σ → Prop
  step : σ → ι → Option σ

namespace LTS

variable {σ ι τ κ : Type*} {M : LTS σ ι}

/-- `M.Exec tr s`: from some initial state, taking the actions recorded in `tr` (each with the
state in which it was taken) leads to `s`. -/
inductive Exec (M : LTS σ ι) : List (σ × ι) → σ → Prop
  | start {s : σ} : M.init s → Exec M [] s
  | snoc {tr : List (σ × ι)} {s t : σ} {a : ι} :
      Exec M tr s → M.step s a = some t → Exec M (tr ++ [(s, a)]) t

/-- A state is reachable if some execution ends in it. -/
def Reachable (M : LTS σ ι) (s : σ) : Prop := ∃ tr, M.Exec tr s

/-- The states an execution passes through, its last state included. -/
def visited (tr : List (σ × ι)) (s : σ) : List σ := tr.map Prod.fst ++ [s]

/-- Take the actions of a list one after the other. -/
def run (M : LTS σ ι) : σ → List ι → Option σ
  | s, [] => some s
  | s, a :: as => (M.step s a).bind fun t => M.run t as

/-- The steps taken by `run`, each with the state in which it is taken. -/
def trace (M : LTS σ ι) : σ → List ι → List (σ × ι)
  | _, [] => []
  | s, a :: as => (s, a) :: ((M.step s a).elim [] fun t => M.trace t as)

/-- **Invariant rule.** What holds initially and is kept by every step that satisfies `ok` holds at
the end of every execution whose steps all satisfy `ok`. -/
theorem Exec.invariant_of_ok {I : σ → Prop} (ok : σ → ι → Prop) (hinit : ∀ s, M.init s → I s)
    (hstep : ∀ s a t, I s → ok s a → M.step s a = some t → I t)
    {tr : List (σ × ι)} {s : σ} (h : M.Exec tr s) (hok : ∀ p ∈ tr, ok p.1 p.2) : I s := by
  induction h with
  | start hs => exact hinit _ hs
  | @snoc tr s t a _ hs ih =>
      have hI : I s := ih fun p hp => hok p (List.mem_append_left _ hp)
      exact hstep s a t hI (hok (s, a) (by simp)) hs

/-- **Invariant rule**, without a condition on the steps. -/
theorem Reachable.invariant {I : σ → Prop} (hinit : ∀ s, M.init s → I s)
    (hstep : ∀ s a t, I s → M.step s a = some t → I t) {s : σ} (h : M.Reachable s) : I s := by
  obtain ⟨tr, htr⟩ := h
  exact htr.invariant_of_ok (fun _ _ => True) hinit
    (fun s a t hI _ hs => hstep s a t hI hs) (fun _ _ => trivial)

/-- **Refinement rule.** If `f` sends initial states to initial states and every step of `M` to a
step of `N` or to no change, it sends reachable states to reachable states. -/
theorem Reachable.map {N : LTS τ κ} (f : σ → τ) (hinit : ∀ s, M.init s → N.init (f s))
    (hstep : ∀ s a t, M.step s a = some t → f t = f s ∨ ∃ b, N.step (f s) b = some (f t)) {s : σ}
    (h : M.Reachable s) : N.Reachable (f s) := by
  refine h.invariant (I := fun s => N.Reachable (f s)) (fun s hs => ⟨[], .start (hinit s hs)⟩) ?_
  rintro s a t ⟨tr, htr⟩ hs
  rcases hstep s a t hs with heq | ⟨b, hb⟩
  · rw [heq]
    exact ⟨tr, htr⟩
  · exact ⟨_, htr.snoc hb⟩

/-- What `M` does, seen through `f`, is what `N` does, and `N` can do no more. -/
structure Projection (M : LTS σ ι) (N : LTS τ ι) (f : σ → τ) : Prop where
  init : ∀ s, M.init s → N.init (f s)
  step : ∀ s a, N.step (f s) a = (M.step s a).map f

namespace Projection

variable {N : LTS τ ι} {f : σ → τ}

theorem step_eq_none_iff (hf : Projection M N f) {s : σ} {a : ι} :
    N.step (f s) a = none ↔ M.step s a = none := by
  rw [hf.step, Option.map_eq_none_iff]

theorem exec (hf : Projection M N f) {tr : List (σ × ι)} {s : σ} (h : M.Exec tr s) :
    N.Exec (tr.map fun p => (f p.1, p.2)) (f s) := by
  induction h with
  | start hs => exact .start (hf.init _ hs)
  | @snoc tr s t a hex hs ih =>
      rw [List.map_append]
      refine ih.snoc ?_
      rw [hf.step, hs, Option.map_some]

theorem reachable (hf : Projection M N f) {s : σ} (h : M.Reachable s) : N.Reachable (f s) := by
  obtain ⟨tr, hex⟩ := h
  exact ⟨_, hf.exec hex⟩

end Projection

/-- Every state an execution visits is the end of one of its prefixes. -/
theorem Exec.exists_prefix {tr : List (σ × ι)} {s : σ} (h : M.Exec tr s) {t : σ}
    (ht : t ∈ visited tr s) : ∃ tr', tr' <+: tr ∧ M.Exec tr' t := by
  induction h with
  | @start s hs =>
      simp only [visited, List.map_nil, List.nil_append, List.mem_singleton] at ht
      subst ht
      exact ⟨[], List.prefix_refl _, .start hs⟩
  | @snoc tr s u a hex hs ih =>
      simp only [visited, List.map_append, List.map_cons, List.map_nil, List.mem_append,
        List.mem_singleton] at ht
      rcases ht with ht | rfl
      · obtain ⟨tr', hpre, htr'⟩ := ih (by simpa [visited] using ht)
        exact ⟨tr', hpre.trans (List.prefix_append _ _), htr'⟩
      · exact ⟨_, List.prefix_refl _, hex.snoc hs⟩

/-- The last step of an execution. -/
theorem Exec.of_append_singleton {tr : List (σ × ι)} {p : σ × ι} {t : σ}
    (h : M.Exec (tr ++ [p]) t) :
    M.Exec tr p.1 ∧ M.step p.1 p.2 = some t := by
  generalize htr : tr ++ [p] = full at h
  cases h with
  | start hs => exact absurd htr (by simp)
  | snoc hexec hstep =>
      obtain ⟨rfl, hp⟩ := List.append_inj' htr rfl
      cases hp
      exact ⟨hexec, hstep⟩

/-- The invariant rule for every state on the way. -/
theorem Exec.invariant_visited {I : σ → Prop} (ok : σ → ι → Prop) (hinit : ∀ s, M.init s → I s)
    (hstep : ∀ s a t, I s → ok s a → M.step s a = some t → I t)
    {tr : List (σ × ι)} {s : σ} (h : M.Exec tr s) (hok : ∀ p ∈ tr, ok p.1 p.2) :
    ∀ t ∈ visited tr s, I t := by
  intro t ht
  obtain ⟨tr', hpre, htr'⟩ := h.exists_prefix ht
  exact htr'.invariant_of_ok ok hinit hstep fun p hp => hok p (hpre.subset hp)

/-- The state in which a recorded action was taken is visited. -/
theorem mem_visited_of_mem {tr : List (σ × ι)} {s : σ} {p : σ × ι} (h : p ∈ tr) :
    p.1 ∈ visited tr s :=
  List.mem_append_left _ (List.mem_map_of_mem h)

theorem last_mem_visited (tr : List (σ × ι)) (s : σ) : s ∈ visited tr s := by
  simp [visited]

/-- A recorded action was enabled, and its result is visited. -/
theorem Exec.step_of_mem {tr : List (σ × ι)} {s : σ} (h : M.Exec tr s) {p : σ × ι} (hp : p ∈ tr) :
    ∃ t, M.step p.1 p.2 = some t ∧ t ∈ visited tr s := by
  induction h with
  | start _ => simp at hp
  | @snoc tr s t a hex hs ih =>
      rcases List.mem_append.mp hp with hp | hp
      · obtain ⟨u, hu, hmem⟩ := ih hp
        refine ⟨u, hu, ?_⟩
        simp only [visited, List.map_append, List.map_cons, List.map_nil, List.mem_append,
          List.mem_singleton] at hmem ⊢
        exact Or.inl hmem
      · rw [List.mem_singleton] at hp
        subst hp
        exact ⟨t, hs, last_mem_visited _ _⟩

theorem run_append (M : LTS σ ι) (s : σ) (as bs : List ι) :
    M.run s (as ++ bs) = (M.run s as).bind fun t => M.run t bs := by
  induction as generalizing s with
  | nil => rfl
  | cons a as ih =>
      simp only [List.cons_append, LTS.run]
      cases M.step s a with
      | none => rfl
      | some t => exact ih t

/-- Running a list of actions from the end of an execution extends it. -/
theorem Exec.run {tr : List (σ × ι)} {s t : σ} {as : List ι} (h : M.Exec tr s)
    (hr : M.run s as = some t) : M.Exec (tr ++ M.trace s as) t := by
  induction as generalizing tr s with
  | nil =>
      simp only [LTS.run, Option.some.injEq] at hr
      subst hr
      simpa [trace] using h
  | cons a as ih =>
      simp only [LTS.run, Option.bind_eq_some_iff] at hr
      obtain ⟨u, hu, hr⟩ := hr
      simpa [trace, hu] using ih (h.snoc hu) hr

/-- A run starts with its first state. -/
theorem first_mem_visited {s t : σ} {as : List ι} (h : M.run s as = some t) :
    s ∈ visited (M.trace s as) t := by
  cases as with
  | nil =>
      cases h
      exact last_mem_visited [] s
  | cons a as => exact List.mem_cons_self

/-- The steps of a run take its actions. -/
theorem action_mem_of_mem_trace (M : LTS σ ι) {s : σ} {as : List ι} {p : σ × ι}
    (h : p ∈ M.trace s as) : p.2 ∈ as := by
  induction as generalizing s with
  | nil => exact absurd h List.not_mem_nil
  | cons a as ih =>
      rw [trace] at h
      rcases List.mem_cons.mp h with rfl | h
      · exact List.mem_cons_self
      · cases hs : M.step s a with
        | none =>
            rw [hs] at h
            exact absurd h List.not_mem_nil
        | some t =>
            rw [hs] at h
            exact List.mem_cons_of_mem a (ih h)

/-- A run records all of its actions. -/
theorem map_snd_trace (M : LTS σ ι) {s t : σ} {as : List ι} (h : M.run s as = some t) :
    (M.trace s as).map Prod.snd = as := by
  induction as generalizing s with
  | nil => rfl
  | cons a as ih =>
      obtain ⟨u, hu, h⟩ := Option.bind_eq_some_iff.mp h
      rw [trace, hu, Option.elim_some, List.map_cons, ih h]

/-- A check that succeeds at the end of a run gives an execution whose last state passes it. -/
theorem exec_of_run_any (M : LTS σ ι) (s₀ : σ) (as : List ι) (check : σ → Bool)
    (h₀ : M.init s₀) (h : (M.run s₀ as).any check = true) :
    ∃ s, M.Exec (M.trace s₀ as) s ∧ check s = true := by
  rw [Option.any_eq_true] at h
  obtain ⟨s, hs, hc⟩ := h
  exact ⟨s, by simpa using (Exec.start h₀).run hs, hc⟩

end LTS

end Osvcp
