import Mathlib.Logic.Function.Basic
import Osvcp.Lib.Transition

/-! # Event loops over `select`

The shape shared by single-threaded servers: a table of clients kept compact by moving the last
entry into a freed slot, and a loop that blocks in `select`, accepts new connections, and then
visits the clients from the last to the first. A server supplies what it does with one client
(`SelectServer.handle`); signal handlers and the kernel act between the steps
(`SelectServer.async`).

Facts about all clients are proved with `SelectServer.LocalInvariant`: a property of the shared
world and the number of clients, one of each client in its slot, and one of each client that has
been removed, kept by every step.
-/

namespace Osvcp

variable {C W A H : Type*}

/-! ## The client table -/

/-- An array of slots of which the first `size` are in use. -/
structure Table (C : Type*) where
  slots : ℕ → C
  size : ℕ

namespace Table

/-- Store into a slot. -/
def set (t : Table C) (i : ℕ) (c : C) : Table C := { t with slots := Function.update t.slots i c }

/-- Take the next slot into use. -/
def push (t : Table C) (c : C) : Table C where
  slots := Function.update t.slots t.size c
  size := t.size + 1

/-- Free a slot by copying the last one into it. -/
def swapRemove (t : Table C) (i : ℕ) : Table C where
  slots := Function.update t.slots i (t.slots (t.size - 1))
  size := t.size - 1

/-- The slots in use. -/
def entries (t : Table C) : List C := (List.range t.size).map t.slots

@[simp] theorem set_size (t : Table C) (i : ℕ) (c : C) : (t.set i c).size = t.size := rfl

theorem set_set (t : Table C) (i : ℕ) (c d : C) : (t.set i c).set i d = t.set i d := by
  simp only [set, Function.update_idem]

theorem mem_entries {t : Table C} {c : C} : c ∈ t.entries ↔ ∃ i < t.size, t.slots i = c := by
  simp [entries]

section

variable {p : ℕ → C → Prop} {t : Table C}

theorem forall_set {k : ℕ} {c : C} (hc : p k c) (h : ∀ i < t.size, i ≠ k → p i (t.slots i)) :
    ∀ i < (t.set k c).size, p i ((t.set k c).slots i) := by
  intro i hi
  by_cases hik : i = k
  · subst hik
    simpa [set] using hc
  · simpa [set, hik] using h i hi hik

theorem forall_push {c : C} (hc : p t.size c) (h : ∀ i < t.size, p i (t.slots i)) :
    ∀ i < (t.push c).size, p i ((t.push c).slots i) := by
  intro i hi
  have hlt : i < t.size + 1 := hi
  by_cases hik : i = t.size
  · subst hik
    simpa [push] using hc
  · simpa [push, hik] using h i (by omega)

/-- After a removal the slots hold what they held before, except that the last entry may have been
moved. -/
theorem forall_swapRemove {k : ℕ} (h : ∀ i < t.size, i ≠ k → p i (t.slots i))
    (hmove : k < t.size - 1 → p k (t.slots (t.size - 1))) :
    ∀ i < (t.swapRemove k).size, p i ((t.swapRemove k).slots i) := by
  intro i hi
  have hlt : i < t.size - 1 := hi
  by_cases hik : i = k
  · subst hik
    simpa [swapRemove] using hmove hlt
  · simpa [swapRemove, hik] using h i (by omega) hik

end

end Table

/-! ## The loop -/

/-- What `select` reports: the listening socket, and the descriptors ready for reading and for
writing. -/
structure Ready where
  listen : Bool
  rd : List ℕ
  wr : List ℕ
  deriving DecidableEq, Repr

/-- Where the loop stands: before the loop condition, before or in `select`, in the accept loop, in
the backward pass with the slots below `left` still to visit, or behind the loop. -/
inductive Phase
  | top
  | selecting
  | accepting (r : Ready)
  | pass (r : Ready) (left : ℕ)
  | stopped
  deriving DecidableEq, Repr

/-- The result of `select`. -/
inductive SelectResult
  | ready (r : Ready)
  | interrupted
  | failed

/-- The actions: what happens outside the loop, the loop condition with the work before `select`,
the return of `select`, one `accept` (`none` where the accept loop ends), one client in the pass,
and the end of the pass. -/
inductive LoopAction (A H : Type*)
  | async (a : A)
  | turn
  | select (result : SelectResult)
  | accept (fd : Option ℕ)
  | handle (h : H)
  | next

/-- What handling a client leads to: it stays in its slot or it is removed. -/
inductive Outcome (C W : Type*)
  | keep (c : C) (w : W)
  | drop (c : C) (w : W)

/-- The world it leads to. -/
def Outcome.world : Outcome C W → W
  | .keep _ w => w
  | .drop _ w => w

/-- A server: how a client's socket and its wish to write are read off its slot, the bound on the
table, whether the accept loop stops at that bound or rejects, whether an interrupted `select` ends
the loop, the contents of unused slots, what a connection writes into a slot, and the server's own
steps. A `handle` that is `none` never returns. -/
structure SelectServer (C W A H : Type*) where
  fd : C → ℕ
  wantsWrite : C → Bool
  maxClients : ℕ
  stopsAtMax : Bool
  eintrStops : Bool
  blank : C
  connect : C → ℕ → C
  world₀ : W
  running : W → Bool
  turn : W → W
  async : Table C → W → A → Option (Table C × W)
  handle : ℕ → Bool → Bool → C → W → H → Option (Outcome C W)

/-- The state of the loop. `gone` keeps the last state of each removed client. -/
structure LoopState (C W : Type*) where
  table : Table C
  world : W
  phase : Phase
  gone : List C

namespace SelectServer

variable (S : SelectServer C W A H)

/-- The state in which the loop is entered. -/
def start : LoopState C W := ⟨⟨fun _ => S.blank, 0⟩, S.world₀, .top, []⟩

/-- The reported descriptors are among those the loop asked for. -/
def requested (t : Table C) (r : Ready) : Bool :=
  r.rd.all (fun fd => fd ∈ t.entries.map S.fd) &&
    r.wr.all fun fd => fd ∈ (t.entries.filter S.wantsWrite).map S.fd

/-- One client of the backward pass. -/
def visit (s : LoopState C W) (r : Ready) (k : ℕ) (h : H) : Option (LoopState C W) :=
  let c := s.table.slots k
  match S.handle k (decide (S.fd c ∈ r.rd)) (decide (S.fd c ∈ r.wr)) c s.world h with
  | none => none
  | some (.keep c' w') =>
      some { s with table := s.table.set k c', world := w', phase := .pass r k }
  | some (.drop c' w') =>
      some ⟨s.table.swapRemove k, w', .pass r k, s.gone ++ [c']⟩

/-- One step of the loop or around it. -/
def step (s : LoopState C W) (a : LoopAction A H) : Option (LoopState C W) :=
  match a, s.phase with
  | .async a, _ =>
      (S.async s.table s.world a).map fun p => { s with table := p.1, world := p.2 }
  | .turn, .top =>
      if S.running s.world then some { s with world := S.turn s.world, phase := .selecting }
      else some { s with phase := .stopped }
  | .select .interrupted, .selecting =>
      some { s with phase := if S.eintrStops then .stopped else .top }
  | .select .failed, .selecting => some { s with phase := .stopped }
  | .select (.ready r), .selecting =>
      if S.requested s.table r then
        some { s with phase := if r.listen then .accepting r else .pass r s.table.size }
      else none
  | .accept none, .accepting r => some { s with phase := .pass r s.table.size }
  | .accept (some fd), .accepting _ =>
      -- `accept` returns a descriptor that is not in use
      if fd ∈ s.table.entries.map S.fd then none
      else if s.table.size < S.maxClients then
        some { s with table := s.table.push (S.connect (s.table.slots s.table.size) fd) }
      else if S.stopsAtMax then none
      else some s
  | .handle h, .pass r (k + 1) => S.visit s r k h
  | .next, .pass _ 0 => some { s with phase := .top }
  | _, _ => none

/-- The event loop as a transition system. -/
def lts : LTS (LoopState C W) (LoopAction A H) where
  init s := s = S.start
  step := S.step

variable {S}

/-- **What a step can do.** -/
inductive Step (S : SelectServer C W A H) (s : LoopState C W) :
    LoopAction A H → LoopState C W → Prop
  | async {a : A} {t : Table C} {w : W} (h : S.async s.table s.world a = some (t, w)) :
      Step S s (.async a) { s with table := t, world := w }
  | turn (hp : s.phase = .top) (hr : S.running s.world = true) :
      Step S s .turn { s with world := S.turn s.world, phase := .selecting }
  | leave (hp : s.phase = .top) (hr : S.running s.world = false) :
      Step S s .turn { s with phase := .stopped }
  | interrupted (hp : s.phase = .selecting) :
      Step S s (.select .interrupted) { s with phase := if S.eintrStops then .stopped else .top }
  | failed (hp : s.phase = .selecting) : Step S s (.select .failed) { s with phase := .stopped }
  | listening {r : Ready} (hp : s.phase = .selecting) (hr : S.requested s.table r = true)
      (hl : r.listen = true) : Step S s (.select (.ready r)) { s with phase := .accepting r }
  | quiet {r : Ready} (hp : s.phase = .selecting) (hr : S.requested s.table r = true)
      (hl : r.listen = false) : Step S s (.select (.ready r)) { s with
        phase := .pass r s.table.size }
  | acceptEnd {r : Ready} (hp : s.phase = .accepting r) :
      Step S s (.accept none) { s with phase := .pass r s.table.size }
  | accept {fd : ℕ} {r : Ready} (hp : s.phase = .accepting r)
      (hfd : fd ∉ s.table.entries.map S.fd) (hlt : s.table.size < S.maxClients) :
      Step S s (.accept (some fd))
        { s with table := s.table.push (S.connect (s.table.slots s.table.size) fd) }
  | reject {fd : ℕ} {r : Ready} (hp : s.phase = .accepting r)
      (hfd : fd ∉ s.table.entries.map S.fd) (hle : S.maxClients ≤ s.table.size) :
      Step S s (.accept (some fd)) s
  | keep {h : H} {r : Ready} {k : ℕ} {c' : C} {w' : W} (hp : s.phase = .pass r (k + 1))
      (hh : S.handle k (decide (S.fd (s.table.slots k) ∈ r.rd))
        (decide (S.fd (s.table.slots k) ∈ r.wr)) (s.table.slots k) s.world h = some (.keep c' w')) :
      Step S s (.handle h) { s with table := s.table.set k c', world := w', phase := .pass r k }
  | drop {h : H} {r : Ready} {k : ℕ} {c' : C} {w' : W} (hp : s.phase = .pass r (k + 1))
      (hh : S.handle k (decide (S.fd (s.table.slots k) ∈ r.rd))
        (decide (S.fd (s.table.slots k) ∈ r.wr)) (s.table.slots k) s.world h = some (.drop c' w')) :
      Step S s (.handle h) ⟨s.table.swapRemove k, w', .pass r k, s.gone ++ [c']⟩
  | next {r : Ready} (hp : s.phase = .pass r 0) : Step S s .next { s with phase := .top }

theorem visit_cases {s t : LoopState C W} {r : Ready} {k : ℕ} {h : H}
    (hp : s.phase = .pass r (k + 1)) (hv : S.visit s r k h = some t) : Step S s (.handle h) t := by
  unfold visit at hv
  simp only at hv
  split at hv
  · cases hv
  · rename_i c' w' hh
    cases hv
    exact .keep hp hh
  · rename_i c' w' hh
    cases hv
    exact .drop hp hh

theorem step_cases {s t : LoopState C W} {a : LoopAction A H} (h : S.step s a = some t) :
    Step S s a t := by
  unfold step at h
  split at h
  · obtain ⟨p, hp, rfl⟩ := Option.map_eq_some_iff.mp h
    exact .async hp
  · rename_i hp
    split at h
    · rename_i hr
      cases h
      exact .turn hp hr
    · rename_i hr
      cases h
      exact .leave hp (by simpa using hr)
  · rename_i hp
    cases h
    exact .interrupted hp
  · rename_i hp
    cases h
    exact .failed hp
  · rename_i r hp
    split at h
    · rename_i hr
      cases h
      cases hl : r.listen with
      | true => exact .listening hp hr hl
      | false => exact .quiet hp hr hl
    · cases h
  · rename_i r hp
    cases h
    exact .acceptEnd hp
  · rename_i fd r hp
    split at h
    · cases h
    · rename_i hfd
      split at h
      · rename_i hlt
        cases h
        exact .accept hp hfd hlt
      · rename_i hlt
        split at h
        · cases h
        · cases h
          exact .reject hp hfd (Nat.le_of_not_lt hlt)
  · rename_i r k hp
    exact visit_cases hp h
  · rename_i r hp
    cases h
    exact .next hp
  · cases h

/-- The visit of a client that is kept. -/
theorem step_of_keep {s : LoopState C W} {r : Ready} {k : ℕ} {h : H} {c' : C} {w' : W}
    (hp : s.phase = .pass r (k + 1))
    (hh : S.handle k (decide (S.fd (s.table.slots k) ∈ r.rd))
      (decide (S.fd (s.table.slots k) ∈ r.wr)) (s.table.slots k) s.world h = some (.keep c' w')) :
    S.step s (.handle h) =
      some { s with table := s.table.set k c', world := w', phase := .pass r k } := by
  simp only [step, hp, visit, hh]

/-- The visit of a client that is removed. -/
theorem step_of_drop {s : LoopState C W} {r : Ready} {k : ℕ} {h : H} {c' : C} {w' : W}
    (hp : s.phase = .pass r (k + 1))
    (hh : S.handle k (decide (S.fd (s.table.slots k) ∈ r.rd))
      (decide (S.fd (s.table.slots k) ∈ r.wr)) (s.table.slots k) s.world h = some (.drop c' w')) :
    S.step s (.handle h) = some ⟨s.table.swapRemove k, w', .pass r k, s.gone ++ [c']⟩ := by
  simp only [step, hp, visit, hh]

/-- The visit of a client that does not return. -/
theorem step_eq_none_iff {s : LoopState C W} {r : Ready} {k : ℕ} {h : H}
    (hp : s.phase = .pass r (k + 1)) :
    S.step s (.handle h) = none ↔ S.handle k (decide (S.fd (s.table.slots k) ∈ r.rd))
      (decide (S.fd (s.table.slots k) ∈ r.wr)) (s.table.slots k) s.world h = none := by
  simp only [step, hp, visit]
  split
  · rename_i hh
    simp [hh]
  · rename_i hh
    simp [hh]
  · rename_i hh
    simp [hh]

/-- Removed clients are recorded for good. -/
theorem gone_of_step {s t : LoopState C W} {a : LoopAction A H} (h : S.step s a = some t) :
    s.gone <+: t.gone := by
  cases step_cases h with
  | drop hp hh => exact List.prefix_append _ _
  | _ => exact List.prefix_rfl

theorem gone_of_mem_visited {tr : List (LoopState C W × LoopAction A H)} {s t : LoopState C W}
    (h : S.lts.Exec tr s) (ht : t ∈ LTS.visited tr s) : t.gone <+: s.gone := by
  induction h with
  | start hs =>
      rw [LTS.visited, List.map_nil, List.nil_append, List.mem_singleton] at ht
      exact ht ▸ List.prefix_rfl
  | @snoc tr s u a hexec hstep ih =>
      rw [LTS.visited, List.map_append, List.mem_append, List.mem_singleton] at ht
      rcases ht with ht | rfl
      · exact (ih ht).trans (gone_of_step hstep)
      · exact List.prefix_rfl

/-! ## Invariants of the world and of each client -/

/-- The slots still to visit are in use. -/
def InPass (s : LoopState C W) : Prop := ∀ r left, s.phase = .pass r left → left ≤ s.table.size

/-- A property `P` of the number of clients and the world, `Q` of each client in its slot and `G` of
each removed client, and what the parts of a server have to do to keep them. Steps are assumed to
satisfy `ok`. -/
structure LocalInvariant (S : SelectServer C W A H) (ok : LoopState C W → LoopAction A H → Prop)
    (P : ℕ → W → Prop) (Q : W → ℕ → C → Prop) (G : C → Prop) : Prop where
  init : P 0 S.world₀
  connect : ∀ n w c fd, P n w → P (n + 1) w ∧ Q w n (S.connect c fd)
  turn : ∀ n w, P n w → P n (S.turn w) ∧ ∀ i c, Q w i c → Q (S.turn w) i c
  async : ∀ s a t w, P s.table.size s.world →
    (∀ i < s.table.size, Q s.world i (s.table.slots i)) → ok s (.async a) →
    S.async s.table s.world a = some (t, w) →
    t.size = s.table.size ∧ P s.table.size w ∧ ∀ i < s.table.size, Q w i (t.slots i)
  keep : ∀ s r k h c' w', s.phase = .pass r (k + 1) → k < s.table.size → P s.table.size s.world →
    (∀ i < s.table.size, Q s.world i (s.table.slots i)) → ok s (.handle h) →
    S.handle k (decide (S.fd (s.table.slots k) ∈ r.rd)) (decide (S.fd (s.table.slots k) ∈ r.wr))
      (s.table.slots k) s.world h = some (.keep c' w') →
    P s.table.size w' ∧ Q w' k c' ∧ ∀ i < s.table.size, i ≠ k → Q w' i (s.table.slots i)
  drop : ∀ s r k h c' w', s.phase = .pass r (k + 1) → k < s.table.size → P s.table.size s.world →
    (∀ i < s.table.size, Q s.world i (s.table.slots i)) → ok s (.handle h) →
    S.handle k (decide (S.fd (s.table.slots k) ∈ r.rd)) (decide (S.fd (s.table.slots k) ∈ r.wr))
      (s.table.slots k) s.world h = some (.drop c' w') →
    P (s.table.size - 1) w' ∧ G c' ∧ (∀ i < s.table.size, i ≠ k → Q w' i (s.table.slots i)) ∧
      (k < s.table.size - 1 → Q w' k (s.table.slots (s.table.size - 1)))

/-- The invariant of the whole state that the parts add up to. -/
structure Holds (P : ℕ → W → Prop) (Q : W → ℕ → C → Prop) (G : C → Prop) (s : LoopState C W) :
    Prop where
  world : P s.table.size s.world
  client : ∀ i < s.table.size, Q s.world i (s.table.slots i)
  gone : ∀ c ∈ s.gone, G c
  inPass : InPass s

/-- Only the phase changes. -/
theorem Holds.phase {P : ℕ → W → Prop} {Q : W → ℕ → C → Prop} {G : C → Prop} {s : LoopState C W}
    (h : Holds P Q G s) (ph : Phase) (hph : ∀ r left, ph = .pass r left → left ≤ s.table.size) :
    Holds P Q G { s with phase := ph } :=
  ⟨h.world, h.client, h.gone, hph⟩

namespace LocalInvariant

variable {ok : LoopState C W → LoopAction A H → Prop} {P : ℕ → W → Prop} {Q : W → ℕ → C → Prop}
  {G : C → Prop}

/-- A stronger condition on the steps. -/
theorem mono (hI : LocalInvariant S ok P Q G) {ok' : LoopState C W → LoopAction A H → Prop}
    (h : ∀ s a, ok' s a → ok s a) : LocalInvariant S ok' P Q G where
  init := hI.init
  connect := hI.connect
  turn := hI.turn
  async s a t w hP hQ hok := hI.async s a t w hP hQ (h s _ hok)
  keep s r k e c' w' hp hk hP hQ hok := hI.keep s r k e c' w' hp hk hP hQ (h s _ hok)
  drop s r k e c' w' hp hk hP hQ hok := hI.drop s r k e c' w' hp hk hP hQ (h s _ hok)

theorem start (hI : LocalInvariant S ok P Q G) : Holds P Q G S.start where
  world := hI.init
  client := by
    intro i hi
    exact absurd hi (Nat.not_lt_zero i)
  gone := by
    intro c hc
    cases hc
  inPass := by
    intro r left h
    cases h

/-- **One step** keeps the invariant. -/
theorem step (hI : LocalInvariant S ok P Q G) {s t : LoopState C W} {a : LoopAction A H}
    (hs : Holds P Q G s) (hok : ok s a) (h : S.step s a = some t) : Holds P Q G t := by
  cases step_cases h with
  | @async a t w ha =>
      obtain ⟨hsize, hP, hQ⟩ := hI.async s a t w hs.world hs.client hok ha
      refine ⟨hsize ▸ hP, fun i hi => hQ i (hsize ▸ hi), hs.gone, fun r left hp => ?_⟩
      exact hsize ▸ hs.inPass r left hp
  | turn hp hr =>
      obtain ⟨hP, hQ⟩ := hI.turn s.table.size s.world hs.world
      exact ⟨hP, fun i hi => hQ i _ (hs.client i hi), hs.gone, nofun⟩
  | leave hp hr => exact hs.phase _ nofun
  | interrupted hp =>
      apply hs.phase
      intro r left h
      split at h <;> cases h
  | failed hp => exact hs.phase _ nofun
  | listening hp hr hl => exact hs.phase _ nofun
  | quiet hp hr hl =>
      apply hs.phase
      rintro r left ⟨⟩
      exact Nat.le_refl _
  | acceptEnd hp =>
      apply hs.phase
      rintro r left ⟨⟩
      exact Nat.le_refl _
  | next hp => exact hs.phase _ nofun
  | @accept fd r hp hfd hlt =>
      obtain ⟨hP, hQ⟩ := hI.connect s.table.size s.world (s.table.slots s.table.size) fd hs.world
      refine ⟨hP, Table.forall_push hQ hs.client, hs.gone, ?_⟩
      intro r left hpass
      exact Nat.le_succ_of_le (hs.inPass r left hpass)
  | reject hp hfd hle => exact hs
  | @keep l r k c' w' hp hh =>
      have hk : k < s.table.size := hs.inPass r (k + 1) hp
      obtain ⟨hP, hQk, hQ⟩ := hI.keep s r k l c' w' hp hk hs.world hs.client hok hh
      refine ⟨hP, Table.forall_set hQk hQ, hs.gone, ?_⟩
      rintro r left ⟨⟩
      exact Nat.le_of_lt hk
  | @drop l r k c' w' hp hh =>
      -- the last client moves into slot `k`, which this pass does not visit again
      have hk : k < s.table.size := hs.inPass r (k + 1) hp
      obtain ⟨hP, hG, hQ, hmove⟩ := hI.drop s r k l c' w' hp hk hs.world hs.client hok hh
      refine ⟨hP, Table.forall_swapRemove hQ hmove, ?_, ?_⟩
      · intro c hc
        rcases List.mem_append.mp hc with hc | hc
        · exact hs.gone c hc
        · rw [List.mem_singleton] at hc
          exact hc ▸ hG
      · rintro r left ⟨⟩
        show k ≤ s.table.size - 1
        omega

/-- **Every run** whose steps satisfy `ok` keeps the invariant in all states on its way. -/
theorem holds_visited (hI : LocalInvariant S ok P Q G) {tr : List (LoopState C W × LoopAction A H)}
    {s : LoopState C W} (h : S.lts.Exec tr s) (hok : ∀ p ∈ tr, ok p.1 p.2) :
    ∀ t ∈ LTS.visited tr s, Holds P Q G t := by
  refine h.invariant_visited ok ?_ ?_ hok
  · rintro s rfl
    exact hI.start
  · intro s a t hs hok hstep
    exact hI.step hs hok hstep

theorem holds (hI : LocalInvariant S ok P Q G) {tr : List (LoopState C W × LoopAction A H)}
    {s : LoopState C W} (h : S.lts.Exec tr s) (hok : ∀ p ∈ tr, ok p.1 p.2) : Holds P Q G s :=
  hI.holds_visited h hok s (LTS.last_mem_visited tr s)

end LocalInvariant

/-! ## The work before `select`

Where what is done at the top of the loop keeps an invariant in some states only, the other steps
are those of a server that does nothing there. -/

/-- The server without its work at the top of the loop. -/
def still (S : SelectServer C W A H) : SelectServer C W A H := { S with turn := id }

theorem still_step {s : LoopState C W} {a : LoopAction A H} (ha : a ≠ .turn) :
    S.still.step s a = S.step s a := by
  obtain ⟨table, world, phase, gone⟩ := s
  cases a with
  | turn => exact absurd rfl ha
  | async a => rfl
  | select result => cases result <;> cases phase <;> rfl
  | accept fd => cases fd <;> cases phase <;> rfl
  | handle h =>
      cases phase with
      | pass r left => cases left <;> rfl
      | _ => rfl
  | next =>
      cases phase with
      | pass r left => cases left <;> rfl
      | _ => rfl

namespace LocalInvariant

variable {ok : LoopState C W → LoopAction A H → Prop} {P : ℕ → W → Prop} {Q : W → ℕ → C → Prop}
  {G : C → Prop}

/-- An invariant that the work at the top of the loop keeps whatever the clients are. -/
theorem of_still (hI : LocalInvariant S.still ok P Q G)
    (hturn : ∀ n w, P n w → P n (S.turn w) ∧ ∀ i c, Q w i c → Q (S.turn w) i c) :
    LocalInvariant S ok P Q G where
  init := hI.init
  connect := hI.connect
  turn := hturn
  async := hI.async
  keep := hI.keep
  drop := hI.drop

/-- **Every run** of an invariant that the work at the top of the loop keeps where `ok` allows
it. -/
theorem still_holds_visited (hI : LocalInvariant S.still ok P Q G)
    (hturn : ∀ s : LoopState C W, Holds P Q G s → ok s .turn → P s.table.size (S.turn s.world) ∧
      ∀ i < s.table.size, Q (S.turn s.world) i (s.table.slots i))
    {tr : List (LoopState C W × LoopAction A H)} {s : LoopState C W} (h : S.lts.Exec tr s)
    (hok : ∀ p ∈ tr, ok p.1 p.2) : ∀ t ∈ LTS.visited tr s, Holds P Q G t := by
  refine h.invariant_visited ok ?_ ?_ hok
  · rintro s rfl
    exact hI.start
  · intro s a t hs hok hstep
    by_cases ha : a = .turn
    · subst ha
      cases step_cases hstep with
      | turn hp hr =>
          obtain ⟨hP, hQ⟩ := hturn s hs hok
          exact ⟨hP, hQ, hs.gone, nofun⟩
      | leave hp hr => exact hs.phase _ nofun
    · exact hI.step hs hok ((still_step ha).trans hstep)

end LocalInvariant

/-! ## Descriptors -/

/-- A server that leaves the sockets of its clients alone. -/
structure Lawful (S : SelectServer C W A H) : Prop where
  connect : ∀ c fd, S.fd (S.connect c fd) = fd
  async : ∀ t w a t' w', S.async t w a = some (t', w') → t'.size = t.size ∧
    ∀ i, S.fd (t'.slots i) = S.fd (t.slots i) ∧
      S.wantsWrite (t'.slots i) = S.wantsWrite (t.slots i)
  keep : ∀ i rd wr c w h c' w', S.handle i rd wr c w h = some (.keep c' w') → S.fd c' = S.fd c

/-- The descriptors of a state: those of the clients are distinct, and those reported ready for
writing belong to clients that want to write. -/
structure Sockets (S : SelectServer C W A H) (s : LoopState C W) : Prop where
  distinct : ∀ i < s.table.size, ∀ j < s.table.size,
    S.fd (s.table.slots i) = S.fd (s.table.slots j) → i = j
  size_le : s.table.size ≤ S.maxClients
  accepting : ∀ r, s.phase = .accepting r →
    (∀ fd ∈ r.wr, ∃ i < s.table.size, S.fd (s.table.slots i) = fd) ∧
    ∀ i < s.table.size, S.fd (s.table.slots i) ∈ r.wr → S.wantsWrite (s.table.slots i) = true
  pass : ∀ r left, s.phase = .pass r left → left ≤ s.table.size ∧
    ∀ i < left, S.fd (s.table.slots i) ∈ r.wr → S.wantsWrite (s.table.slots i) = true

/-- Distinct descriptors make the report unambiguous. -/
theorem wantsWrite_of_requested {t : Table C} {r : Ready}
    (hd : ∀ i < t.size, ∀ j < t.size, S.fd (t.slots i) = S.fd (t.slots j) → i = j)
    (hr : S.requested t r = true) :
    (∀ fd ∈ r.wr, ∃ i < t.size, S.fd (t.slots i) = fd) ∧
    ∀ i < t.size, S.fd (t.slots i) ∈ r.wr → S.wantsWrite (t.slots i) = true := by
  have hwr : ∀ fd ∈ r.wr, ∃ i < t.size, S.wantsWrite (t.slots i) = true ∧
      S.fd (t.slots i) = fd := by
    intro fd hfd
    rw [requested, Bool.and_eq_true, List.all_eq_true, List.all_eq_true] at hr
    have hmem := of_decide_eq_true (hr.2 fd hfd)
    obtain ⟨c, hc, rfl⟩ := List.mem_map.mp hmem
    obtain ⟨hc, hw⟩ := List.mem_filter.mp hc
    obtain ⟨i, hi, rfl⟩ := Table.mem_entries.mp hc
    exact ⟨i, hi, hw, rfl⟩
  constructor
  · intro fd hfd
    obtain ⟨i, hi, -, hfd⟩ := hwr fd hfd
    exact ⟨i, hi, hfd⟩
  · intro i hi hfd
    obtain ⟨j, hj, hw, heq⟩ := hwr _ hfd
    exact hd j hj i hi heq ▸ hw

namespace Sockets

/-- Moving to a phase outside the pass. -/
theorem phase {s : LoopState C W} (h : Sockets S s) {ph : Phase}
    (ha : ∀ r, ph ≠ .accepting r) (hp : ∀ r left, ph ≠ .pass r left) :
    Sockets S { s with phase := ph } :=
  ⟨h.distinct, h.size_le, fun r hr => absurd hr (ha r), fun r left hr => absurd hr (hp r left)⟩

theorem push (hS : Lawful S) {s : LoopState C W} (h : Sockets S s) {r : Ready} {fd : ℕ}
    (hp : s.phase = .accepting r) (hfd : fd ∉ s.table.entries.map S.fd)
    (hlt : s.table.size < S.maxClients) :
    Sockets S { s with table := s.table.push (S.connect (s.table.slots s.table.size) fd) } := by
  have hnew : ∀ i < s.table.size, S.fd (s.table.slots i) ≠ fd := by
    rintro i hi rfl
    exact hfd (List.mem_map_of_mem (Table.mem_entries.mpr ⟨i, hi, rfl⟩))
  have hold : ∀ i < s.table.size,
      (s.table.push (S.connect (s.table.slots s.table.size) fd)).slots i = s.table.slots i := by
    intro i hi
    simp [Table.push, Nat.ne_of_lt hi]
  have hlast :
      S.fd ((s.table.push (S.connect (s.table.slots s.table.size) fd)).slots s.table.size) =
      fd := by
    simp [Table.push, hS.connect]
  -- `select` reported on the sockets of its moment, so the new one is not among the writable
  obtain ⟨hwr, hwants⟩ := h.accepting r hp
  refine ⟨?_, hlt, ?_, ?_⟩
  · intro i hi j hj heq
    have hi : i < s.table.size + 1 := hi
    have hj : j < s.table.size + 1 := hj
    rcases Nat.lt_succ_iff_lt_or_eq.mp hi with hi | rfl <;>
      rcases Nat.lt_succ_iff_lt_or_eq.mp hj with hj | rfl
    · rw [hold i hi, hold j hj] at heq
      exact h.distinct i hi j hj heq
    · rw [hold i hi, hlast] at heq
      exact absurd heq (hnew i hi)
    · rw [hold j hj, hlast] at heq
      exact absurd heq.symm (hnew j hj)
    · rfl
  · intro r' hr'
    obtain rfl : r = r' := by
      have := hp.symm.trans hr'
      cases this
      rfl
    constructor
    · intro fd' hfd'
      obtain ⟨i, hi, heq⟩ := hwr fd' hfd'
      exact ⟨i, Nat.lt_succ_of_lt hi, by rw [hold i hi]; exact heq⟩
    · intro i hi hmem
      have hi : i < s.table.size + 1 := hi
      rcases Nat.lt_succ_iff_lt_or_eq.mp hi with hi | rfl
      · rw [hold i hi] at hmem ⊢
        exact hwants i hi hmem
      · rw [hlast] at hmem
        obtain ⟨i, hi, heq⟩ := hwr fd hmem
        exact absurd heq (hnew i hi)
  · intro r' left hr'
    cases hp.symm.trans hr'

/-- What was known of the slots below `k` still holds after slot `k` has been visited. -/
theorem keep {s : LoopState C W} (h : Sockets S s) {r : Ready} {k : ℕ} {c' : C}
    {w' : W} (hp : s.phase = .pass r (k + 1)) (hfd : S.fd c' = S.fd (s.table.slots k)) :
    Sockets S { s with table := s.table.set k c', world := w', phase := .pass r k } := by
  have hslot : ∀ i, S.fd ((s.table.set k c').slots i) = S.fd (s.table.slots i) := by
    intro i
    by_cases hik : i = k
    · subst hik
      simpa [Table.set] using hfd
    · simp [Table.set, hik]
  obtain ⟨hle, hwants⟩ := h.pass r (k + 1) hp
  refine ⟨?_, h.size_le, nofun, ?_⟩
  · intro i hi j hj heq
    rw [hslot, hslot] at heq
    exact h.distinct i hi j hj heq
  · rintro r left ⟨⟩
    refine ⟨Nat.le_of_succ_le hle, fun i hi hmem => ?_⟩
    rw [hslot] at hmem
    have hw := hwants i (Nat.lt_succ_of_lt hi) hmem
    simpa [Table.set, Nat.ne_of_lt hi] using hw

/-- A removal moves an entry that has already been visited. -/
theorem drop {s : LoopState C W} (h : Sockets S s) {r : Ready} {k : ℕ} {w' : W} {gone : List C}
    (hp : s.phase = .pass r (k + 1)) :
    Sockets S ⟨s.table.swapRemove k, w', .pass r k, gone⟩ := by
  obtain ⟨hle, hwants⟩ := h.pass r (k + 1) hp
  have hslot : ∀ i, (s.table.swapRemove k).slots i =
      if i = k then s.table.slots (s.table.size - 1) else s.table.slots i := by
    intro i
    by_cases hik : i = k <;> simp [Table.swapRemove, hik]
  refine ⟨?_, Nat.le_trans (Nat.sub_le _ _) h.size_le, nofun, ?_⟩
  · intro i hi j hj heq
    have hi : i < s.table.size - 1 := hi
    have hj : j < s.table.size - 1 := hj
    simp only [hslot] at heq
    -- slot `k` holds the client that was last, whose socket differs from all the others
    split at heq <;> split at heq
    · omega
    · have := h.distinct _ (by omega) _ (by omega) heq
      omega
    · have := h.distinct _ (by omega) _ (by omega) heq
      omega
    · exact h.distinct _ (by omega) _ (by omega) heq
  · rintro r left ⟨⟩
    refine ⟨Nat.le_sub_one_of_lt hle, fun i hi hmem => ?_⟩
    rw [hslot, if_neg (Nat.ne_of_lt hi)] at hmem ⊢
    exact hwants i (Nat.lt_succ_of_lt hi) hmem

end Sockets

/-- **One step** keeps the descriptors apart. -/
theorem Lawful.sockets_step (hS : Lawful S) {s t : LoopState C W} {a : LoopAction A H}
    (hs : Sockets S s) (h : S.step s a = some t) : Sockets S t := by
  cases step_cases h with
  | @async a t w ha =>
      obtain ⟨hsize, hslot⟩ := hS.async _ _ _ _ _ ha
      obtain ⟨hd, hle, hacc, hpass⟩ := hs
      refine ⟨?_, hsize ▸ hle, ?_, ?_⟩
      · intro i hi j hj heq
        rw [(hslot i).1, (hslot j).1] at heq
        exact hd i (hsize ▸ hi) j (hsize ▸ hj) heq
      · intro r hr
        simp only [(hslot _).1, (hslot _).2, hsize]
        exact hacc r hr
      · intro r left hr
        simp only [(hslot _).1, (hslot _).2, hsize]
        exact hpass r left hr
  | turn hp hr =>
      exact ⟨hs.distinct, hs.size_le, nofun, nofun⟩
  | leave hp hr => exact hs.phase nofun nofun
  | interrupted hp =>
      apply hs.phase
      · intro r h
        split at h <;> cases h
      · intro r left h
        split at h <;> cases h
  | failed hp => exact hs.phase nofun nofun
  | listening hp hr hl =>
      refine ⟨hs.distinct, hs.size_le, ?_, nofun⟩
      rintro r ⟨⟩
      exact wantsWrite_of_requested hs.distinct hr
  | quiet hp hr hl =>
      refine ⟨hs.distinct, hs.size_le, nofun, ?_⟩
      rintro r left ⟨⟩
      exact ⟨Nat.le_refl _, (wantsWrite_of_requested hs.distinct hr).2⟩
  | acceptEnd hp =>
      refine ⟨hs.distinct, hs.size_le, nofun, ?_⟩
      rintro r left ⟨⟩
      exact ⟨Nat.le_refl _, (hs.accepting _ hp).2⟩
  | accept hp hfd hlt => exact hs.push hS hp hfd hlt
  | reject hp hfd hle => exact hs
  | next hp => exact hs.phase nofun nofun
  | keep hp hh => exact hs.keep hp (hS.keep _ _ _ _ _ _ _ _ hh)
  | drop hp hh => exact hs.drop hp

/-- **Every run** keeps the descriptors apart. -/
theorem Lawful.sockets (hS : Lawful S) {s : LoopState C W} (h : S.lts.Reachable s) :
    Sockets S s := by
  apply h.invariant
  · rintro s rfl
    exact ⟨fun i hi => absurd hi (Nat.not_lt_zero i), Nat.zero_le _, nofun, nofun⟩
  · intro s a t hs hstep
    exact hS.sockets_step hs hstep

/-- The client with a socket. -/
theorem Sockets.eq_of_fd {s : LoopState C W} (h : Sockets S s) {c d : C} (hc : c ∈ s.table.entries)
    (hd : d ∈ s.table.entries) (heq : S.fd c = S.fd d) : c = d := by
  obtain ⟨i, hi, rfl⟩ := Table.mem_entries.mp hc
  obtain ⟨j, hj, rfl⟩ := Table.mem_entries.mp hd
  rw [h.distinct i hi j hj heq]

/-- What a step makes of the client with a socket that is in use before and after it: nothing, what
happens outside the loop to its slot, or what the visit of its slot makes of it. -/
inductive Follows (S : SelectServer C W A H) (s : LoopState C W) (c : C) :
    LoopAction A H → LoopState C W → C → Prop
  | same {a : LoopAction A H} {t : LoopState C W} : Follows S s c a t c
  | async {a : A} {t : Table C} {w : W} {i : ℕ} (h : S.async s.table s.world a = some (t, w))
      (hi : i < s.table.size) (hc : s.table.slots i = c) :
      Follows S s c (.async a) { s with table := t, world := w } (t.slots i)
  | visit {h : H} {r : Ready} {k : ℕ} {c' : C} {w' : W} (hp : s.phase = .pass r (k + 1))
      (hc : s.table.slots k = c)
      (hh : S.handle k (decide (S.fd c ∈ r.rd)) (decide (S.fd c ∈ r.wr)) c s.world h =
        some (.keep c' w')) :
      Follows S s c (.handle h) { s with
        table := s.table.set k c', world := w', phase := .pass r k } c'

/-- **A client is followed by its socket** through every step. -/
theorem Lawful.follows_step (hS : Lawful S) {s t : LoopState C W} {a : LoopAction A H}
    (hs : Sockets S s) (h : S.step s a = some t) {c c' : C} (hc : c ∈ s.table.entries)
    (hc' : c' ∈ t.table.entries)
    (hfd : S.fd c' = S.fd c) : Follows S s c a t c' := by
  have hunique : ∀ d ∈ s.table.entries, S.fd d = S.fd c → d = c := fun d hd => hs.eq_of_fd hd hc
  have hsame : c' ∈ s.table.entries → Follows S s c a t c' := fun hmem => by
    rw [hunique c' hmem hfd]
    exact .same
  cases step_cases h with
  | @async a t w ha =>
      obtain ⟨hsize, hslot⟩ := hS.async _ _ _ _ _ ha
      obtain ⟨i, hi, rfl⟩ := Table.mem_entries.mp hc'
      have hi : i < s.table.size := hsize ▸ hi
      refine .async ha hi (hunique _ (Table.mem_entries.mpr ⟨i, hi, rfl⟩) ?_)
      rw [← (hslot i).1]
      exact hfd
  | accept hp hnew hlt =>
      obtain ⟨i, hi, rfl⟩ := Table.mem_entries.mp hc'
      have hi : i < s.table.size + 1 := hi
      rcases Nat.lt_succ_iff_lt_or_eq.mp hi with hi | rfl
      · refine hsame ?_
        simp only [Table.push, Function.update_of_ne (Nat.ne_of_lt hi)]
        exact Table.mem_entries.mpr ⟨i, hi, rfl⟩
      · -- the new socket was not in use
        simp only [Table.push, Function.update_self, hS.connect] at hfd
        rw [hfd] at hnew
        exact absurd (List.mem_map_of_mem hc) hnew
  | @keep e r k c₁ w₁ hp hh =>
      obtain ⟨i, hi, rfl⟩ := Table.mem_entries.mp hc'
      have hk : k < s.table.size := (hs.pass r (k + 1) hp).1
      by_cases hik : i = k
      · subst hik
        simp only [Table.set, Function.update_self] at hfd ⊢
        have hslot : s.table.slots i = c := by
          refine hunique _ (Table.mem_entries.mpr ⟨i, hk, rfl⟩) ?_
          rw [← hS.keep _ _ _ _ _ _ _ _ hh]
          exact hfd
        rw [hslot] at hh
        exact .visit hp hslot hh
      · refine hsame ?_
        simp only [Table.set, Function.update_of_ne hik]
        exact Table.mem_entries.mpr ⟨i, hi, rfl⟩
  | @drop e r k c₁ w₁ hp hh =>
      obtain ⟨i, hi, rfl⟩ := Table.mem_entries.mp hc'
      have hi : i < s.table.size - 1 := hi
      refine hsame ?_
      by_cases hik : i = k
      · subst hik
        simp only [Table.swapRemove, Function.update_self]
        exact Table.mem_entries.mpr ⟨s.table.size - 1, by omega, rfl⟩
      · simp only [Table.swapRemove, Function.update_of_ne hik]
        exact Table.mem_entries.mpr ⟨i, by omega, rfl⟩
  | turn hp hr => exact hsame hc'
  | leave hp hr => exact hsame hc'
  | interrupted hp => exact hsame hc'
  | failed hp => exact hsame hc'
  | listening hp hr hl => exact hsame hc'
  | quiet hp hr hl => exact hsame hc'
  | acceptEnd hp => exact hsame hc'
  | reject hp hfd hle => exact hsame hc'
  | next hp => exact hsame hc'

/-- A removed client has left the table. -/
theorem Sockets.fd_of_mem_swapRemove {s : LoopState C W} (h : Sockets S s) {k : ℕ}
    (hk : k < s.table.size) {c : C} (hc : c ∈ (s.table.swapRemove k).entries) :
    S.fd c ≠ S.fd (s.table.slots k) := by
  obtain ⟨i, hi, rfl⟩ := Table.mem_entries.mp hc
  have hi : i < s.table.size - 1 := hi
  intro heq
  by_cases hik : i = k
  · subst hik
    simp only [Table.swapRemove, Function.update_self] at heq
    have := h.distinct _ (by omega) _ hk heq
    omega
  · simp only [Table.swapRemove, Function.update_of_ne hik] at heq
    have := h.distinct _ (by omega) _ hk heq
    omega

/-! ## The visits of one client -/

/-- In a step the client with a socket is visited, with the results `h` of its system calls. -/
def Visited (S : SelectServer C W A H) (fd : ℕ) (h : H)
    (p : LoopState C W × LoopAction A H) : Prop :=
  p.2 = .handle h ∧ ∃ r k, p.1.phase = .pass r (k + 1) ∧ S.fd (p.1.table.slots k) = fd

/-- Since the socket was last accepted, its client has had a visit whose system calls satisfy
`bad`. -/
def HasHad (S : SelectServer C W A H) (bad : H → Prop) (fd : ℕ)
    (tr : List (LoopState C W × LoopAction A H)) : Prop :=
  ∃ p post, p :: post <:+ tr ∧ (∃ h, S.Visited fd h p ∧ bad h) ∧ ∀ q ∈ post, q.2 ≠ .accept (some fd)

/-- In a step the client is removed. -/
def Removes (S : SelectServer C W A H) (c : C) (p : LoopState C W × LoopAction A H) : Prop :=
  ∃ t, S.step p.1 p.2 = some t ∧ t.gone = p.1.gone ++ [c]

section

variable {bad : H → Prop} {fd : ℕ} {tr : List (LoopState C W × LoopAction A H)}
  {p : LoopState C W × LoopAction A H}

theorem hasHad_of_visited {h : H} (hp : S.Visited fd h p) (hbad : bad h) :
    S.HasHad bad fd (tr ++ [p]) :=
  ⟨p, [], List.suffix_append tr [p], ⟨h, hp, hbad⟩, fun _ hq => absurd hq List.not_mem_nil⟩

theorem HasHad.snoc (hhad : S.HasHad bad fd tr) (hp : p.2 ≠ .accept (some fd)) :
    S.HasHad bad fd (tr ++ [p]) := by
  obtain ⟨q, post, ⟨pre, rfl⟩, hq, hpost⟩ := hhad
  refine ⟨q, post ++ [p], ⟨pre, by simp⟩, hq, fun q' hq' => ?_⟩
  rcases List.mem_append.mp hq' with hq' | hq'
  · exact hpost q' hq'
  · exact List.mem_singleton.mp hq' ▸ hp

theorem HasHad.mono {bad' : H → Prop} (hhad : S.HasHad bad fd tr)
    (h : ∀ p ∈ tr, ∀ e, p.2 = .handle e → bad e → bad' e) : S.HasHad bad' fd tr := by
  obtain ⟨p, post, hsuffix, ⟨e, he, hbad⟩, hpost⟩ := hhad
  exact ⟨p, post, hsuffix, ⟨e, he, h p (hsuffix.subset List.mem_cons_self) e he.1 hbad⟩, hpost⟩

end

/-- A property `Q` of the clients that a visit keeps, up to `G` where it removes the client, unless
its system calls satisfy `bad`. The world satisfies `P`. -/
structure VisitRule (S : SelectServer C W A H) (bad : H → Prop) (P : W → Prop)
    (Q G : C → Prop) : Prop where
  connect : ∀ c fd, Q (S.connect c fd)
  async : ∀ t w a t' w', S.async t w a = some (t', w') → ∀ i, Q (t.slots i) → Q (t'.slots i)
  keep : ∀ i rd wr c w h c' w', P w → Q c → ¬bad h →
    S.handle i rd wr c w h = some (.keep c' w') → Q c'
  drop : ∀ i rd wr c w h c' w', P w → Q c → ¬bad h →
    S.handle i rd wr c w h = some (.drop c' w') → G c'
  drop_fd : ∀ i rd wr c w h c' w', S.handle i rd wr c w h = some (.drop c' w') → S.fd c' = S.fd c

/-- **A client depends on its own visits**: those since its socket was accepted, whatever the visits
of the other clients do. -/
theorem VisitRule.clients {bad : H → Prop} {P : W → Prop} {Q G : C → Prop} (hS : Lawful S)
    (hrule : VisitRule S bad P Q G) {tr : List (LoopState C W × LoopAction A H)} {s : LoopState C W}
    (h : S.lts.Exec tr s) (hP : ∀ p ∈ tr, P p.1.world) :
    (∀ i < s.table.size, ¬S.HasHad bad (S.fd (s.table.slots i)) tr → Q (s.table.slots i)) ∧
    ∀ c ∈ s.gone, ∃ pre p, pre ++ [p] <+: tr ∧ S.Removes c p ∧
      (¬S.HasHad bad (S.fd c) (pre ++ [p]) → G c) := by
  induction h with
  | start hs =>
      subst hs
      exact ⟨fun i hi => absurd hi (Nat.not_lt_zero i), fun c hc => absurd hc List.not_mem_nil⟩
  | @snoc tr s t a hexec hstep ih =>
      obtain ⟨hclient, hgone⟩ := ih fun p hp => hP p (List.mem_append_left _ hp)
      have hw : P s.world := hP (s, a) (by simp)
      have hsockets := hS.sockets ⟨tr, hexec⟩
      have hold : ∀ c ∈ s.gone, ∃ pre p, pre ++ [p] <+: tr ++ [(s, a)] ∧ S.Removes c p ∧
          (¬S.HasHad bad (S.fd c) (pre ++ [p]) → G c) := by
        intro c hc
        obtain ⟨pre, p, hpre, hrest⟩ := hgone c hc
        exact ⟨pre, p, hpre.trans (List.prefix_append _ _), hrest⟩
      -- a client that was there and has not changed
      have hsame : ∀ i < s.table.size, a ≠ .accept (some (S.fd (s.table.slots i))) →
          ¬S.HasHad bad (S.fd (s.table.slots i)) (tr ++ [(s, a)]) → Q (s.table.slots i) :=
        fun i hi ha hnot => hclient i hi fun hhad => hnot (hhad.snoc ha)
      cases step_cases hstep with
      | @async a t w ha =>
          obtain ⟨hsize, hslot⟩ := hS.async _ _ _ _ _ ha
          refine ⟨fun i hi hnot => ?_, hold⟩
          rw [(hslot i).1] at hnot
          exact hrule.async _ _ _ _ _ ha i (hsame i (hsize ▸ hi) nofun hnot)
      | @accept fd r hp hfd hlt =>
          refine ⟨Table.forall_push (p := fun _ c => ¬S.HasHad bad (S.fd c) _ → Q c)
            (fun _ => hrule.connect _ _) fun i hi => hsame i hi ?_, hold⟩
          rintro ⟨⟩
          exact hfd (List.mem_map_of_mem (Table.mem_entries.mpr ⟨i, hi, rfl⟩))
      | @reject fd r hp hfd hle =>
          refine ⟨fun i hi => hsame i hi ?_, hold⟩
          rintro ⟨⟩
          exact hfd (List.mem_map_of_mem (Table.mem_entries.mpr ⟨i, hi, rfl⟩))
      | @keep e r k c' w' hp hh =>
          have hk := (hsockets.pass r (k + 1) hp).1
          refine ⟨Table.forall_set (p := fun _ c => ¬S.HasHad bad (S.fd c) _ → Q c)
            (fun hnot => ?_) fun i hi _ => hsame i hi nofun, hold⟩
          rw [hS.keep _ _ _ _ _ _ _ _ hh] at hnot
          have hgood : ¬bad e := fun hbad => hnot (hasHad_of_visited ⟨rfl, r, k, hp, rfl⟩ hbad)
          exact hrule.keep _ _ _ _ _ _ _ _ hw (hsame k hk nofun hnot) hgood hh
      | @drop e r k c' w' hp hh =>
          have hk := (hsockets.pass r (k + 1) hp).1
          refine ⟨Table.forall_swapRemove (p := fun _ c => ¬S.HasHad bad (S.fd c) _ → Q c)
            (fun i hi _ => hsame i hi nofun) fun hlast => hsame _ (by omega) nofun, fun c hc => ?_⟩
          rcases List.mem_append.mp hc with hc | hc
          · exact hold c hc
          · obtain rfl := List.mem_singleton.mp hc
            refine ⟨tr, _, List.prefix_rfl, ⟨_, hstep, rfl⟩, fun hnot => ?_⟩
            rw [hrule.drop_fd _ _ _ _ _ _ _ _ hh] at hnot
            have hgood : ¬bad e := fun hbad => hnot (hasHad_of_visited ⟨rfl, r, k, hp, rfl⟩ hbad)
            exact hrule.drop _ _ _ _ _ _ _ _ hw (hsame k hk nofun hnot) hgood hh
      | turn hp hr => exact ⟨fun i hi => hsame i hi nofun, hold⟩
      | leave hp hr => exact ⟨fun i hi => hsame i hi nofun, hold⟩
      | interrupted hp => exact ⟨fun i hi => hsame i hi nofun, hold⟩
      | failed hp => exact ⟨fun i hi => hsame i hi nofun, hold⟩
      | listening hp hr hl => exact ⟨fun i hi => hsame i hi nofun, hold⟩
      | quiet hp hr hl => exact ⟨fun i hi => hsame i hi nofun, hold⟩
      | acceptEnd hp => exact ⟨fun i hi => hsame i hi nofun, hold⟩
      | next hp => exact ⟨fun i hi => hsame i hi nofun, hold⟩

end SelectServer

end Osvcp
