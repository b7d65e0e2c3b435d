import Mathlib.Logic.Function.Basic
import Osvcp.Lib.Transition

/-! # Read-through caches over a source that changes

A server answers requests from a cache or by reading a source, and may keep what it has read under
the key it read. The source changes between the steps, so every read is stamped with its time, and a
response from the cache carries the stamp of the read that filled the entry. `ReadThrough.Fresh`
says that no stamp is older than the last flush and that for each key the stamps of the responses
never decrease; `ReadThrough.Lawful.fresh` derives it from what the server does in one step.
-/

namespace Osvcp

variable {S A K V : Type*}

/-- What a step does: nothing with the source, a response from the entry of a key, a response from a
read of the source, or a flush. -/
inductive CacheEvent (K : Type*)
  | other
  | hit (k : K)
  | read (k : K)
  | flush

/-- A response that was sent: the key it is for, the time of the read its data is from, the time of
the last flush before it was sent, and the data. -/
structure Sent (K V : Type*) where
  key : K
  snapshot : ℕ
  flushed : ℕ
  body : V

/-- A server with a read-through cache. `cached s k v` says that `v` is cached under `k`, and
`carries t k v` that `v` has no data of the source but what was read for `k` at time `t`. Steps take
the time as an argument. -/
structure ReadThrough (S A K V : Type*) where
  start : S
  cached : S → K → V → Prop
  carries : ℕ → K → V → Prop
  step : ℕ → S → A → S
  event : S → A → CacheEvent K
  response : ℕ → S → A → V

namespace ReadThrough

/-- The state of a run: that of the server, the time, the time of the last flush, the time of the
last read for each key, and the responses. -/
structure Timed (S K V : Type*) where
  state : S
  now : ℕ
  flushed : ℕ
  readAt : K → ℕ
  log : List (Sent K V)

variable (M : ReadThrough S A K V)

/-- What a server has to do in one step. An entry comes from a read of its key in this step or was
there before; a read is only made for a key without an entry. -/
structure Lawful (M : ReadThrough S A K V) : Prop where
  start : ∀ k v, ¬ M.cached M.start k v
  other : ∀ now s a, M.event s a = .other → ∀ j v, M.cached (M.step now s a) j v → M.cached s j v
  hit : ∀ now s a k, M.event s a = .hit k →
    (∀ j v, M.cached (M.step now s a) j v → M.cached s j v) ∧
    ∃ v, M.cached s k v ∧ ∀ t, M.carries t k v → M.carries t k (M.response now s a)
  read : ∀ now s a k, M.event s a = .read k → (∀ v, ¬ M.cached s k v) ∧
    M.carries now k (M.response now s a) ∧
    ∀ j v, M.cached (M.step now s a) j v → M.cached s j v ∨ j = k ∧ M.carries now k v
  flush : ∀ now s a, M.event s a = .flush → ∀ j v, ¬ M.cached (M.step now s a) j v

/-- **Freshness.** Every entry was read after the last flush and no earlier than any response for
its key; every response carries data that was read after the last flush before it; and for each key
the times of the reads never decrease along the responses. -/
structure Fresh (x : Timed S K V) : Prop where
  cached : ∀ k v, M.cached x.state k v → x.flushed < x.readAt k ∧ x.readAt k < x.now ∧
    M.carries (x.readAt k) k v ∧ ∀ y ∈ x.log, y.key = k → y.snapshot ≤ x.readAt k
  sent : ∀ y ∈ x.log, y.flushed < y.snapshot ∧ y.snapshot < x.now ∧
    M.carries y.snapshot y.key y.body
  ordered : x.log.Pairwise fun y z => y.key = z.key → y.snapshot ≤ z.snapshot
  flushed_lt : x.flushed < x.now

variable {M} {x : Timed S K V}

/-- A step that keeps the entries and sends nothing of the source. -/
theorem Fresh.keep (h : M.Fresh x) {s : S} (hs : ∀ j v, M.cached s j v → M.cached x.state j v) :
    M.Fresh { x with state := s, now := x.now + 1 } where
  cached k v hv := by
    obtain ⟨hflushed, hnow, hcarries, hlog⟩ := h.cached k v (hs k v hv)
    exact ⟨hflushed, Nat.lt_succ_of_lt hnow, hcarries, hlog⟩
  sent y hy := by
    obtain ⟨hflushed, hnow, hcarries⟩ := h.sent y hy
    exact ⟨hflushed, Nat.lt_succ_of_lt hnow, hcarries⟩
  ordered := h.ordered
  flushed_lt := Nat.lt_succ_of_lt h.flushed_lt

/-- A flush leaves nothing that could be stale. -/
theorem Fresh.flush (h : M.Fresh x) {s : S} (hs : ∀ j v, ¬ M.cached s j v) :
    M.Fresh { x with state := s, now := x.now + 1, flushed := x.now } where
  cached k v hv := absurd hv (hs k v)
  sent y hy := by
    obtain ⟨hflushed, hnow, hcarries⟩ := h.sent y hy
    exact ⟨hflushed, Nat.lt_succ_of_lt hnow, hcarries⟩
  ordered := h.ordered
  flushed_lt := Nat.lt_succ_self _

/-- A response that is as new as the entry of its key and all responses before it. -/
theorem Fresh.send (h : M.Fresh x) {y : Sent K V} (hflushed : y.flushed < y.snapshot)
    (hnow : y.snapshot < x.now) (hcarries : M.carries y.snapshot y.key y.body)
    (hentry : ∀ v, M.cached x.state y.key v → y.snapshot ≤ x.readAt y.key)
    (hlog : ∀ z ∈ x.log, z.key = y.key → z.snapshot ≤ y.snapshot) :
    M.Fresh { x with log := x.log ++ [y] } where
  cached k v hv := by
    obtain ⟨hf, hn, hc, hl⟩ := h.cached k v hv
    refine ⟨hf, hn, hc, fun z hz hk => ?_⟩
    rcases List.mem_append.mp hz with hz | hz
    · exact hl z hz hk
    · rw [List.mem_singleton.mp hz] at hk ⊢
      subst hk
      exact hentry v hv
  sent z hz := by
    rcases List.mem_append.mp hz with hz | hz
    · exact h.sent z hz
    · rw [List.mem_singleton.mp hz]
      exact ⟨hflushed, hnow, hcarries⟩
  ordered := by
    rw [List.pairwise_append]
    refine ⟨h.ordered, List.pairwise_singleton _ _, fun z hz w hw hk => ?_⟩
    rw [List.mem_singleton.mp hw] at hk ⊢
    exact hlog z hz hk
  flushed_lt := h.flushed_lt

/-! ## Runs -/

variable [DecidableEq K]

variable (M) in
/-- One step, after which the time has passed. -/
def advance (x : Timed S K V) (a : A) : Timed S K V :=
  let s := M.step x.now x.state a
  let r := M.response x.now x.state a
  match M.event x.state a with
  | .other => { x with state := s, now := x.now + 1 }
  | .hit k =>
      { x with state := s, now := x.now + 1, log := x.log ++ [⟨k, x.readAt k, x.flushed, r⟩] }
  | .read k =>
      { x with
        state := s
        now := x.now + 1
        readAt := Function.update x.readAt k x.now
        log := x.log ++ [⟨k, x.now, x.flushed, r⟩] }
  | .flush => { x with state := s, now := x.now + 1, flushed := x.now }

variable (M) in
/-- The runs of the server. -/
def lts : LTS (Timed S K V) A where
  init x := x = ⟨M.start, 1, 0, fun _ => 0, []⟩
  step x a := some (M.advance x a)

theorem state_advance (x : Timed S K V) (a : A) :
    (M.advance x a).state = M.step x.now x.state a := by
  unfold advance
  cases M.event x.state a with
  | other => rfl
  | hit k => rfl
  | read k => rfl
  | flush => rfl

/-- What every step of the server keeps holds of its state in every run. -/
theorem state_invariant {P : S → Prop} (hstart : P M.start)
    (hstep : ∀ now s a, P s → P (M.step now s a)) (h : M.lts.Reachable x) : P x.state := by
  refine h.invariant (I := fun x => P x.state) ?_ ?_
  · rintro s rfl
    exact hstart
  · rintro s a t hs ⟨⟩
    rw [state_advance]
    exact hstep s.now s.state a hs

/-- A read of a key without an entry, which may become one. -/
theorem Fresh.fill (h : M.Fresh x) {s : S} {k : K} (hnone : ∀ v, ¬ M.cached x.state k v)
    (hs : ∀ j v, M.cached s j v → M.cached x.state j v ∨ j = k ∧ M.carries x.now k v) :
    M.Fresh
      { x with state := s, now := x.now + 1, readAt := Function.update x.readAt k x.now } where
  cached j v hv := by
    rcases hs j v hv with hold | ⟨rfl, hcarries⟩
    · have hj : j ≠ k := fun hjk => hnone v (hjk ▸ hold)
      obtain ⟨hf, hn, hc, hl⟩ := h.cached j v hold
      simp only [Function.update_of_ne hj]
      exact ⟨hf, Nat.lt_succ_of_lt hn, hc, hl⟩
    · simp only [Function.update_self]
      exact ⟨h.flushed_lt, Nat.lt_succ_self _, hcarries,
        fun y hy _ => Nat.le_of_lt (h.sent y hy).2.1⟩
  sent y hy := by
    obtain ⟨hflushed, hnow, hcarries⟩ := h.sent y hy
    exact ⟨hflushed, Nat.lt_succ_of_lt hnow, hcarries⟩
  ordered := h.ordered
  flushed_lt := Nat.lt_succ_of_lt h.flushed_lt

/-- **One step** keeps the cache fresh. -/
theorem Lawful.fresh_advance (hM : M.Lawful) (h : M.Fresh x) (a : A) : M.Fresh (M.advance x a) := by
  unfold advance
  cases he : M.event x.state a with
  | other => exact h.keep (hM.other x.now x.state a he)
  | flush => exact h.flush (hM.flush x.now x.state a he)
  | hit k =>
      -- the response is as old as the entry, and no response for the key is younger than that
      obtain ⟨hs, v, hv, hresponse⟩ := hM.hit x.now x.state a k he
      obtain ⟨hflushed, hnow, hcarries, hlog⟩ := h.cached k v hv
      exact (h.keep hs).send hflushed (Nat.lt_succ_of_lt hnow) (hresponse _ hcarries)
        (fun _ _ => Nat.le_refl _) hlog
  | read k =>
      obtain ⟨hnone, hcarries, hs⟩ := hM.read x.now x.state a k he
      refine (h.fill hnone hs).send h.flushed_lt (Nat.lt_succ_self _) hcarries ?_ ?_
      · intro v _
        simp only [Function.update_self]
        exact Nat.le_refl _
      · exact fun z hz _ => Nat.le_of_lt (h.sent z hz).2.1

/-- **Every run** of a lawful server is fresh in all its states. -/
theorem Lawful.fresh (hM : M.Lawful) (h : M.lts.Reachable x) : M.Fresh x := by
  refine h.invariant ?_ ?_
  · rintro s rfl
    exact ⟨fun k v hv => absurd hv (hM.start k v), fun _ hy => absurd hy List.not_mem_nil,
      List.Pairwise.nil, Nat.zero_lt_one⟩
  · rintro s a t hs ⟨⟩
    exact hM.fresh_advance hs a

end ReadThrough

end Osvcp
