import Osvcp.Semaphores.NsMutex
import Mathlib.Data.List.Nodup

/-! # Mutual exclusion of the starvation-free mutex

The lock changes hands in two ways: through the flag `locked`, or by a post of the private semaphore
of the next waiter while the flag stays set. `Owner` covers both, the time between that post and the
moment the waiter consumes it included. The invariant `Safe` is relative to the list `q` of nodes
reachable from `head`; it holds in every reachable state, also after the tail pointer has gone
stale.
-/

namespace Osvcp.NsMutex

variable {T : Type*}

/-- The thread is between its `Sem_wait` and its `Sem_post` of the guard. -/
def Pc.inside : Pc → Bool
  | .acqBody _ | .acqPostFast _ | .acqPostSlow _ | .relBody | .relHand _ | .relPost => true
  | _ => false

/-- The node that the thread's current `ns_mutex_acquire` allocated and has not freed. -/
def Pc.own : Pc → Option ℕ
  | .acqGuard n | .acqBody n | .acqPostFast n | .freeFast n | .acqPostSlow n | .acqWait n
  | .freeSlow n => some n
  | _ => none

/-- From the moment the lock is taken in `ns_mutex_acquire` until `ns_mutex_release` gives it up;
this includes all of the time between the return of the one and the call of the other. -/
def Pc.holds : Pc → Bool
  | .acqPostFast _ | .freeFast _ | .freeSlow _ | .critical | .relGuard | .relBody
  | .relHand _ => true
  | _ => false

/-- The node of a thread that has not reached its turn at the queue yet. -/
def Pc.unqueued : Pc → Option ℕ
  | .acqGuard n | .acqBody n => some n
  | _ => none

/-- The node of a thread that has joined the queue and has not been woken. -/
def Pc.queued : Pc → Option ℕ
  | .acqPostSlow n | .acqWait n => some n
  | _ => none

/-- The thread has been handed the lock by a post of its node that it has not consumed. -/
def Handed (s : State T) (t : T) : Prop := ∃ n, s.pc t = .acqWait n ∧ 0 < (s.node n).sem

/-- The thread holds the lock or has been handed it. -/
def Owner (s : State T) (t : T) : Prop := (s.pc t).holds = true ∨ Handed s t

theorem Pc.own_of_queued {p : Pc} {n : ℕ} (h : p.queued = some n) : p.own = some n := by
  cases p <;> simp_all [Pc.queued, Pc.own]

theorem Pc.own_of_unqueued {p : Pc} {n : ℕ} (h : p.unqueued = some n) : p.own = some n := by
  cases p <;> simp_all [Pc.unqueued, Pc.own]

/-! ## The guard and the nodes -/

/-- The guard semaphore is a lock: at most one thread is inside, and then it is zero. -/
structure GuardInv (s : State T) : Prop where
  le_one : s.guard ≤ 1
  inside : ∀ t, (s.pc t).inside = true → s.guard = 0
  unique : ∀ t u, (s.pc t).inside = true → (s.pc u).inside = true → t = u

/-- Nodes are private to the thread that allocated them. -/
structure NodeInv (s : State T) : Prop where
  lt_fresh : ∀ t n, (s.pc t).own = some n → n < s.fresh
  unique : ∀ t u n, (s.pc t).own = some n → (s.pc u).own = some n → t = u

section Steps

variable [DecidableEq T] {s s' : State T} {t : T}

/-- A step moves one thread. -/
theorem Fired.pc_of_ne (h : Fired s t s') {u : T} (hu : u ≠ t) : s'.pc u = s.pc u := by
  cases h <;> simp [hu]

/-- A step leaves the guard alone, or takes it on entry, or gives it back on exit. -/
theorem Fired.guard_effect (h : Fired s t s') :
    (s'.guard = s.guard ∧ (s'.pc t).inside = (s.pc t).inside) ∨
    (0 < s.guard ∧ s'.guard = s.guard - 1 ∧ (s'.pc t).inside = true) ∨
    (s'.guard = s.guard + 1 ∧ (s.pc t).inside = true ∧ (s'.pc t).inside = false) := by
  cases h <;> simp_all [Pc.inside]

/-- A step keeps or drops the thread's node, or gives it the next unused one. -/
theorem Fired.own_effect (h : Fired s t s') :
    (s'.fresh = s.fresh ∧ ∀ n, (s'.pc t).own = some n → (s.pc t).own = some n) ∨
    (s'.fresh = s.fresh + 1 ∧ (s'.pc t).own = some s.fresh) := by
  cases h <;> simp_all [Pc.own]

theorem GuardInv.step (hi : GuardInv s) (h : Fired s t s') : GuardInv s' := by
  obtain ⟨hle, hin, huniq⟩ := hi
  rcases h.guard_effect with ⟨hg, ht⟩ | ⟨hpos, hg, ht⟩ | ⟨hg, ht, ht'⟩
  · have hpc : ∀ u, (s'.pc u).inside = (s.pc u).inside := by
      intro u
      by_cases hu : u = t
      · rw [hu, ht]
      · rw [h.pc_of_ne hu]
    refine ⟨hg ▸ hle, fun u hu => ?_, fun u v hu hv => ?_⟩
    · rw [hg]; exact hin u (hpc u ▸ hu)
    · exact huniq u v (hpc u ▸ hu) (hpc v ▸ hv)
  · -- the guard was free, so nobody was inside
    have hnone : ∀ u, u ≠ t → (s'.pc u).inside = false := by
      intro u hu
      rw [h.pc_of_ne hu]
      by_contra hne
      have := hin u (by simpa using hne)
      omega
    refine ⟨by omega, fun u _ => by omega, fun u v hu hv => ?_⟩
    have hut : u = t := by by_contra hne; simp [hnone u hne] at hu
    have hvt : v = t := by by_contra hne; simp [hnone v hne] at hv
    rw [hut, hvt]
  · -- only `t` was inside, and it leaves
    have hnone : ∀ u, (s'.pc u).inside = false := by
      intro u
      by_cases hu : u = t
      · rw [hu, ht']
      · rw [h.pc_of_ne hu]
        by_contra hne
        exact hu (huniq u t (by simpa using hne) ht)
    have hzero := hin t ht
    refine ⟨by omega, fun u hu => ?_, fun u v hu _ => ?_⟩ <;> simp [hnone u] at hu

theorem NodeInv.step (hi : NodeInv s) (h : Fired s t s') : NodeInv s' := by
  obtain ⟨hlt, huniq⟩ := hi
  rcases h.own_effect with ⟨hf, ht⟩ | ⟨hf, ht⟩
  · have hown : ∀ u n, (s'.pc u).own = some n → (s.pc u).own = some n := by
      intro u n hu
      by_cases hut : u = t
      · subst hut; exact ht n hu
      · rwa [h.pc_of_ne hut] at hu
    refine ⟨fun u n hu => ?_, fun u v n hu hv => ?_⟩
    · rw [hf]; exact hlt u n (hown u n hu)
    · exact huniq u v n (hown u n hu) (hown v n hv)
  · -- the new node is different from all those in use
    have hother : ∀ u n, u ≠ t → (s'.pc u).own = some n → n < s.fresh := by
      intro u n hut hu
      rw [h.pc_of_ne hut] at hu
      exact hlt u n hu
    refine ⟨fun u n hu => ?_, fun u v n hu hv => ?_⟩
    · by_cases hut : u = t
      · rw [hut, ht] at hu
        cases hu
        omega
      · have := hother u n hut hu
        omega
    · by_cases hut : u = t <;> by_cases hvt : v = t
      · rw [hut, hvt]
      · rw [hut, ht] at hu
        cases hu
        exact absurd (hother v _ hvt hv) (Nat.lt_irrefl _)
      · rw [hvt, ht] at hv
        cases hv
        exact absurd (hother u _ hut hu) (Nat.lt_irrefl _)
      · rw [h.pc_of_ne hut] at hu
        rw [h.pc_of_ne hvt] at hv
        exact huniq u v n hu hv

end Steps

/-! ## The queue -/

/-- The link of a node, as a function for `Chain`. -/
def State.link (s : State T) (n : ℕ) : Option ℕ := (s.node n).next

/-- The tail pointer outlives the queue: `ns_mutex_release` has taken the last node off the head and
left the tail where it was. -/
def Stale (s : State T) : Prop := s.head = none ∧ s.tail ≠ none

instance (s : State T) : Decidable (Stale s) := inferInstanceAs (Decidable (_ ∧ _))

/-- `q` is the list reachable from `head`: nodes of sleeping threads, none of them posted. The
other fields fix where the stores of `append` and of `Sem_post(&next->sem)` can go. -/
structure QueueInv (s : State T) (q : List ℕ) : Prop where
  chain : Chain s.link s.head q
  nodup : q.Nodup
  tail_last : ∀ n, q.getLast? = some n → s.tail = some n
  tail_lt : ∀ n, s.tail = some n → n < s.fresh
  asleep : ∀ n ∈ q, (s.node n).sem = 0 ∧ ∃ t, (s.pc t).queued = some n
  handing : ∀ t n, s.pc t = .relHand n → n ∉ q ∧ (s.node n).sem = 0 ∧ ∃ u, (s.pc u).queued = some n
  posting : ∀ t n, s.pc t = .acqPostSlow n → (s.node n).sem = 0
  unqueued : ∀ t n, (s.pc t).unqueued = some n →
    (s.node n).sem = 0 ∧ (s.node n).next = none ∧ s.tail ≠ some n ∧ n ∉ q

/-- The list reachable from `head` after a step of thread `t`. A node appended behind a stale tail
does not become reachable. -/
def nextQueue (s : State T) (t : T) (q : List ℕ) : List ℕ :=
  match s.pc t with
  | .acqBody n => if s.locked = 0 ∨ Stale s then q else q ++ [n]
  | .relBody => q.tail
  | _ => q

theorem QueueInv.mem_lt_fresh {s : State T} {q : List ℕ} (hi : QueueInv s q) (hn : NodeInv s)
    {n : ℕ} (h : n ∈ q) : n < s.fresh := by
  obtain ⟨-, t, ht⟩ := hi.asleep n h
  exact hn.lt_fresh t n (Pc.own_of_queued ht)

/-- A queue with a head has its last node at the tail. -/
theorem QueueInv.eq_nil_of_not_tail {s : State T} {q : List ℕ} (hi : QueueInv s q)
    (h : s.tail = none) : q = [] := by
  cases hl : q.getLast? with
  | none => exact List.getLast?_eq_none_iff.mp hl
  | some n => rw [hi.tail_last n hl] at h; cases h

/-- A thread on one side of the queue does not share its node with a thread on the other side. -/
theorem NodeInv.ne_of_unqueued {s : State T} (hn : NodeInv s) {u v : T} {m n : ℕ}
    (hu : (s.pc u).unqueued = some m) (hv : (s.pc v).queued = some n) : m ≠ n := by
  rintro rfl
  have huv := hn.unique u v m (Pc.own_of_unqueued hu) (Pc.own_of_queued hv)
  subst huv
  cases hpc : s.pc u <;> simp_all [Pc.unqueued, Pc.queued]

/-- The list reachable from `head` after joining the queue. -/
theorem QueueInv.chain_append {s : State T} {q : List ℕ} (hi : QueueInv s q) {t : T} {n : ℕ}
    (hu : (s.pc t).unqueued = some n) :
    Chain (s.append n).link (s.append n).head (if Stale s then q else q ++ [n]) := by
  obtain ⟨-, hnext, htail, hnq⟩ := hi.unqueued t n hu
  have hn : (s.append n).link n = none := by
    simp only [State.link, append_next_of_ne s n htail, hnext]
  cases htl : s.tail with
  | none =>
      have hq := hi.eq_nil_of_not_tail htl
      rw [if_neg (by simp [Stale, htl]), hq, append_head_of_no_tail s n htl]
      refine .cons ?_
      rw [hn]
      exact .nil
  | some l =>
      rw [append_head_of_tail s n htl]
      cases hhd : s.head with
      | none =>
          rw [if_pos ⟨hhd, by simp [htl]⟩]
          have hq : q = [] := by simpa [hhd] using hi.chain
          simp [hq]
      | some h =>
          rw [if_neg (by simp [Stale, hhd])]
          -- the queue is not empty, so its last node is the one `append` stores into
          have hchain := hi.chain
          rw [hhd] at hchain
          obtain ⟨q₁, rfl, -⟩ := hchain.exists_of_some
          obtain ⟨q₀, z, hz⟩ := (List.eq_nil_or_concat (h :: q₁)).resolve_left (by simp)
          rw [List.concat_eq_append] at hz
          have hzl : z = l := by
            have := hi.tail_last z (by rw [hz]; simp)
            simpa [htl] using this.symm
          subst hzl
          rw [hz] at hchain ⊢
          have hnd : (q₀ ++ [z]).Nodup := hz ▸ hi.nodup
          have hlink : ∀ a ∈ q₀, (s.append n).link a = s.link a := by
            intro a ha
            have hne : a ≠ z := fun heq => List.disjoint_of_nodup_append hnd ha (by simp [heq])
            apply append_next_of_ne s n
            rw [htl]
            exact fun heq => hne (Option.some.inj heq).symm
          have happ : Chain (s.append n).link (some h) (q₀ ++ [z, n]) :=
            hchain.append_last (append_next_tail s n htl) hn hlink
          rwa [List.append_assoc]

section QueueSteps

variable [DecidableEq T] {s s' : State T} {t : T} {q : List ℕ}

/-- Steps that touch neither the queue nor a node keep `QueueInv`, if the thread does not change
its side of the queue. -/
theorem QueueInv.of_same (hi : QueueInv s q) (h : Fired s t s') (hhead : s'.head = s.head)
    (htail : s'.tail = s.tail) (hnode : s'.node = s.node) (hfresh : s'.fresh = s.fresh)
    (hq : (s'.pc t).queued = (s.pc t).queued) (hhand : ∀ n, s'.pc t ≠ .relHand n)
    (hpost : ∀ n, s'.pc t ≠ .acqPostSlow n)
    (hun : ∀ n, (s'.pc t).unqueued = some n → (s.pc t).unqueued = some n) : QueueInv s' q := by
  have hqueued : ∀ u, (s'.pc u).queued = (s.pc u).queued := by
    intro u
    by_cases hu : u = t
    · rw [hu, hq]
    · rw [h.pc_of_ne hu]
  have hlink : s'.link = s.link := by funext n; simp [State.link, hnode]
  refine ⟨by rw [hlink, hhead]; exact hi.chain, hi.nodup, by rw [htail]; exact hi.tail_last,
    by rw [htail, hfresh]; exact hi.tail_lt, fun n hn => ?_, fun u n hu => ?_, fun u n hu => ?_,
    fun u n hu => ?_⟩
  · simpa only [hnode, hqueued] using hi.asleep n hn
  · have hut : u ≠ t := fun heq => hhand n (heq ▸ hu)
    rw [h.pc_of_ne hut] at hu
    simpa only [hnode, hqueued] using hi.handing u n hu
  · have hut : u ≠ t := fun heq => hpost n (heq ▸ hu)
    rw [h.pc_of_ne hut] at hu
    simpa only [hnode] using hi.posting u n hu
  · have hu' : (s.pc u).unqueued = some n := by
      by_cases hut : u = t
      · subst hut; exact hun n hu
      · rwa [h.pc_of_ne hut] at hu
    simpa only [hnode, htail] using hi.unqueued u n hu'

theorem QueueInv.alloc (hi : QueueInv s q) (hn : NodeInv s) (ht : s.pc t = .idle) :
    QueueInv (s.allocNode.goto t (.acqGuard s.fresh)) q := by
  have hnode : ∀ u n, (s.pc u).own = some n → s.allocNode.node n = s.node n :=
    fun u n hu => alloc_node s (hn.lt_fresh u n hu)
  have hq : ∀ u n, (s.pc u).queued = some n →
      ((s.allocNode.goto t (.acqGuard s.fresh)).pc u).queued = some n := by
    intro u n hu
    have hut : u ≠ t := by rintro rfl; simp [ht, Pc.queued] at hu
    simpa [hut] using hu
  refine ⟨?chain, hi.nodup, hi.tail_last, ?tail_lt, ?asleep, ?handing, ?posting, ?unqueued⟩
  case chain =>
    refine hi.chain.congr fun n hnq => ?_
    simp [State.link, alloc_node s (hi.mem_lt_fresh hn hnq)]
  case tail_lt => exact fun n hnt => Nat.lt_succ_of_lt (hi.tail_lt n hnt)
  case asleep =>
    intro n hnq
    obtain ⟨hsem, u, hu⟩ := hi.asleep n hnq
    exact ⟨by simpa [alloc_node s (hi.mem_lt_fresh hn hnq)] using hsem, u, hq u n hu⟩
  case handing =>
    intro u n hu
    have hut : u ≠ t := by rintro rfl; simp at hu
    obtain ⟨hnq, hsem, v, hv⟩ := hi.handing u n (by simpa [hut] using hu)
    exact ⟨hnq, by simpa [hnode v n (Pc.own_of_queued hv)] using hsem, v, hq v n hv⟩
  case posting =>
    intro u n hu
    have hut : u ≠ t := by rintro rfl; simp at hu
    have hu' : s.pc u = .acqPostSlow n := by simpa [hut] using hu
    simpa [hnode u n (by simp [hu', Pc.own])] using hi.posting u n hu'
  case unqueued =>
    intro u n hu
    by_cases hut : u = t
    · have hfresh : s.fresh = n := by simpa [hut, Pc.unqueued] using hu
      subst hfresh
      -- the node is new, so neither the tail nor the queue knows it
      refine ⟨by simp, by simp, fun h => ?_, fun h => ?_⟩
      · exact absurd (hi.tail_lt _ h) (Nat.lt_irrefl _)
      · exact absurd (hi.mem_lt_fresh hn h) (Nat.lt_irrefl _)
    · have hu' : (s.pc u).unqueued = some n := by simpa [hut] using hu
      simpa [hnode u n (Pc.own_of_unqueued hu')] using hi.unqueued u n hu'

theorem QueueInv.enqueue (hi : QueueInv s q) (hn : NodeInv s) {n : ℕ} (ht : s.pc t = .acqBody n) :
    QueueInv ((s.append n).goto t (.acqPostSlow n)) (if Stale s then q else q ++ [n]) := by
  have hut : (s.pc t).unqueued = some n := by simp [ht, Pc.unqueued]
  obtain ⟨hsem, -, htail, hnq⟩ := hi.unqueued t n hut
  have hq : ∀ u m, (s.pc u).queued = some m →
      (((s.append n).goto t (.acqPostSlow n)).pc u).queued = some m := by
    intro u m hu
    have hne : u ≠ t := by rintro rfl; simp [ht, Pc.queued] at hu
    simpa [hne] using hu
  have hmem : ∀ m, m ∉ q → m ≠ n → m ∉ (if Stale s then q else q ++ [n]) := by
    intro m hmq hmn
    split <;> simp [hmq, hmn]
  refine ⟨hi.chain_append hut, ?nodup, ?tail_last, ?tail_lt, ?asleep, ?handing, ?posting, ?unqueued⟩
  case nodup =>
    split
    · exact hi.nodup
    · rw [List.nodup_append]
      exact ⟨hi.nodup, by simp, fun a ha b hb => by rintro rfl; simp at hb; exact hnq (hb ▸ ha)⟩
  case tail_last =>
    intro m hm
    split at hm
    · rename_i hst
      -- behind a stale tail the queue stays empty and has no last node
      have hq : q = [] := by simpa [hst.1] using hi.chain
      simp [hq] at hm
    · simpa using hm
  case tail_lt =>
    intro m hm
    have : n = m := by simpa using hm
    subst this
    simpa using hn.lt_fresh t n (by simp [ht, Pc.own])
  case asleep =>
    intro m hm
    have hm' : m ∈ q ∨ m = n := by
      split at hm
      · exact Or.inl hm
      · simpa using hm
    rcases hm' with hmq | rfl
    · obtain ⟨hs, u, hu⟩ := hi.asleep m hmq
      exact ⟨by simpa using hs, u, hq u m hu⟩
    · exact ⟨by simpa using hsem, t, by simp [Pc.queued]⟩
  case handing =>
    intro u m hu
    have hne : u ≠ t := by rintro rfl; simp at hu
    obtain ⟨hmq, hs, v, hv⟩ := hi.handing u m (by simpa [hne] using hu)
    exact ⟨hmem m hmq (hn.ne_of_unqueued hut hv).symm, by simpa using hs, v, hq v m hv⟩
  case posting =>
    intro u m hu
    by_cases hne : u = t
    · have : n = m := by simpa [hne] using hu
      subst this
      simpa using hsem
    · simpa using hi.posting u m (by simpa [hne] using hu)
  case unqueued =>
    intro u m hu
    have hne : u ≠ t := by rintro rfl; simp [Pc.unqueued] at hu
    have hu' : (s.pc u).unqueued = some m := by simpa [hne] using hu
    obtain ⟨hs, hnx, htl, hmq⟩ := hi.unqueued u m hu'
    have hmn : m ≠ n := by
      rintro rfl
      exact hne (hn.unique u t m (Pc.own_of_unqueued hu') (Pc.own_of_unqueued hut))
    refine ⟨by simpa using hs, ?_, by simpa using fun h => hmn h.symm, hmem m hmq hmn⟩
    simpa [append_next_of_ne s n htl] using hnx

theorem QueueInv.wake (hi : QueueInv s q) (hn : NodeInv s) {n v : ℕ} (ht : s.pc t = .acqWait n)
    (hpos : 0 < (s.node n).sem) : QueueInv ((s.setSem n v).goto t (.freeSlow n)) q := by
  -- a node of the queue has not been posted, and each thread sleeps on a node of its own
  have hnq : n ∉ q := fun h => by have := (hi.asleep n h).1; omega
  have hown : (s.pc t).own = some n := by simp [ht, Pc.own]
  have hne : ∀ u m, u ≠ t → (s.pc u).own = some m → m ≠ n := by
    rintro u m hut hu rfl
    exact hut (hn.unique u t m hu hown)
  refine ⟨?chain, hi.nodup, hi.tail_last, hi.tail_lt, ?asleep, ?handing, ?posting, ?unqueued⟩
  case chain => exact hi.chain.congr fun a _ => by simp [State.link]
  case asleep =>
    intro m hm
    obtain ⟨hs, u, hu⟩ := hi.asleep m hm
    have hmn : m ≠ n := fun h => hnq (h ▸ hm)
    have hut : u ≠ t := by rintro rfl; simp [ht, Pc.queued] at hu; exact hmn hu.symm
    exact ⟨by simpa [hmn] using hs, u, by simpa [hut] using hu⟩
  case handing =>
    intro u m hu
    have hut : u ≠ t := by rintro rfl; simp at hu
    obtain ⟨hmq, hs, w, hw⟩ := hi.handing u m (by simpa [hut] using hu)
    have hmn : m ≠ n := by rintro rfl; omega
    have hwt : w ≠ t := by rintro rfl; simp [ht, Pc.queued] at hw; exact hmn hw.symm
    exact ⟨hmq, by simpa [hmn] using hs, w, by simpa [hwt] using hw⟩
  case posting =>
    intro u m hu
    have hut : u ≠ t := by rintro rfl; simp at hu
    have hu' : s.pc u = .acqPostSlow m := by simpa [hut] using hu
    simpa [hne u m hut (by simp [hu', Pc.own])] using hi.posting u m hu'
  case unqueued =>
    intro u m hu
    have hut : u ≠ t := by rintro rfl; simp [Pc.unqueued] at hu
    have hu' : (s.pc u).unqueued = some m := by simpa [hut] using hu
    simpa [hne u m hut (Pc.own_of_unqueued hu')] using hi.unqueued u m hu'

theorem QueueInv.pop {n : ℕ} (hi : QueueInv s (n :: q)) (ht : s.pc t = .relBody) :
    QueueInv ({ s with head := (s.node n).next }.goto t (.relHand n)) q := by
  have hq : ∀ u m, (s.pc u).queued = some m →
      (({ s with head := (s.node n).next }.goto t (.relHand n)).pc u).queued = some m := by
    intro u m hu
    have hut : u ≠ t := by rintro rfl; simp [ht, Pc.queued] at hu
    simpa [hut] using hu
  -- `next->sem` is posted only after the store to `head`: the node is between queue and grant
  obtain ⟨hnq, hnd⟩ := List.nodup_cons.mp hi.nodup
  refine ⟨(Chain.cons_iff.mp hi.chain).2, hnd, ?tail_last, hi.tail_lt, ?asleep, ?handing, ?posting,
    ?unqueued⟩
  case tail_last =>
    intro m hm
    refine hi.tail_last m ?_
    rw [List.getLast?_cons, hm]
    rfl
  case asleep =>
    intro m hm
    obtain ⟨hs, u, hu⟩ := hi.asleep m (by simp [hm])
    exact ⟨hs, u, hq u m hu⟩
  case handing =>
    intro u m hu
    by_cases hut : u = t
    · have : n = m := by simpa [hut] using hu
      subst this
      obtain ⟨hs, w, hw⟩ := hi.asleep n (by simp)
      exact ⟨hnq, hs, w, hq w n hw⟩
    · obtain ⟨hmq, hs, w, hw⟩ := hi.handing u m (by simpa [hut] using hu)
      exact ⟨fun h => hmq (by simp [h]), hs, w, hq w m hw⟩
  case posting =>
    intro u m hu
    have hut : u ≠ t := by rintro rfl; simp at hu
    exact hi.posting u m (by simpa [hut] using hu)
  case unqueued =>
    intro u m hu
    have hut : u ≠ t := by rintro rfl; simp [Pc.unqueued] at hu
    obtain ⟨hs, hnx, htl, hmq⟩ := hi.unqueued u m (by simpa [hut] using hu)
    exact ⟨hs, hnx, htl, fun h => hmq (by simp [h])⟩

theorem QueueInv.hand (hi : QueueInv s q) (hg : GuardInv s) (hn : NodeInv s) {n v : ℕ}
    (ht : s.pc t = .relHand n) : QueueInv ((s.setSem n v).goto t .relPost) q := by
  obtain ⟨hnq, hsem, w, hw⟩ := hi.handing t n ht
  -- the guard is held, so nobody else is about to post a node or to sleep on one
  have hin : ∀ u, u ≠ t → (s.pc u).inside = false := by
    intro u hut
    by_contra hne
    exact hut (hg.unique u t (by simpa using hne) (by simp [ht, Pc.inside]))
  refine ⟨?chain, hi.nodup, hi.tail_last, hi.tail_lt, ?asleep, ?handing, ?posting, ?unqueued⟩
  case chain => exact hi.chain.congr fun a _ => by simp [State.link]
  case asleep =>
    intro m hm
    obtain ⟨hs, u, hu⟩ := hi.asleep m hm
    have hmn : m ≠ n := fun h => hnq (h ▸ hm)
    have hut : u ≠ t := by rintro rfl; simp [ht, Pc.queued] at hu
    exact ⟨by simpa [hmn] using hs, u, by simpa [hut] using hu⟩
  case handing =>
    intro u m hu
    have hut : u ≠ t := by rintro rfl; simp at hu
    have hu' : s.pc u = .relHand m := by simpa [hut] using hu
    simpa [hu', Pc.inside] using hin u hut
  case posting =>
    intro u m hu
    have hut : u ≠ t := by rintro rfl; simp at hu
    have hu' : s.pc u = .acqPostSlow m := by simpa [hut] using hu
    simpa [hu', Pc.inside] using hin u hut
  case unqueued =>
    intro u m hu
    have hut : u ≠ t := by rintro rfl; simp [Pc.unqueued] at hu
    have hu' : (s.pc u).unqueued = some m := by simpa [hut] using hu
    simpa [hn.ne_of_unqueued hu' hw] using hi.unqueued u m hu'

/-- **The queue is kept by every step**, and its list changes as `nextQueue` says. -/
theorem QueueInv.step (hi : QueueInv s q) (hg : GuardInv s) (hn : NodeInv s) (h : Fired s t s') :
    QueueInv s' (nextQueue s t q) := by
  have hfire := h
  cases h with
  | alloc ht => simpa [nextQueue, ht] using hi.alloc hn ht
  | enqueue ht hl => simpa [nextQueue, ht, hl] using hi.enqueue hn ht
  | wake ht hpos => simpa [nextQueue, ht] using hi.wake hn ht hpos
  -- the two cases that change `head`: the chain from `head` gives the shape of `q`
  | pop ht hhd =>
      have hchain := hi.chain
      rw [hhd] at hchain
      obtain ⟨q', rfl, -⟩ := hchain.exists_of_some
      simpa [nextQueue, ht] using hi.pop ht
  | hand ht => simpa [nextQueue, ht] using hi.hand hg hn ht
  | unlock ht hhd =>
      have hq : q = [] := by simpa [hhd] using hi.chain
      subst hq
      simp only [nextQueue, ht, List.tail_nil]
      exact hi.of_same hfire rfl rfl rfl rfl (by simp [ht, Pc.queued]) (by simp) (by simp)
        (by simp [Pc.unqueued])
  | take ht hl =>
      simp only [nextQueue, ht, hl, true_or, if_true]
      exact hi.of_same hfire rfl rfl rfl rfl (by simp [ht, Pc.queued]) (by simp) (by simp)
        (by simp [Pc.unqueued])
  | waitGuard ht _ | postFast ht | freeFast ht | postSlow ht | freeSlow ht | release ht
  | relWaitGuard ht _ | relPost ht =>
      simp only [nextQueue, ht]
      exact hi.of_same hfire rfl rfl rfl rfl (by simp [ht, Pc.queued]) (by simp) (by simp)
        (by simp [ht, Pc.unqueued])

end QueueSteps

/-! ## The lock -/

/-- At most one thread owns the lock, the flag is set while one does, and nobody queues for a free
lock. -/
structure LockInv (s : State T) (q : List ℕ) : Prop where
  unique : ∀ t u, Owner s t → Owner s u → t = u
  locked : ∀ t, Owner s t → s.locked = 1
  queue_locked : q ≠ [] → s.locked ≠ 0

section LockSteps

variable [DecidableEq T] {s s' : State T} {t : T} {q : List ℕ}

/-- A thread that goes where it neither has the lock nor waits on its node is not an owner. -/
theorem not_owner_goto {p : Pc} (hholds : p.holds = false) (hwait : ∀ n, p ≠ .acqWait n) :
    ¬Owner (s.goto t p) t := by
  rintro (h | ⟨n, h, -⟩)
  · rw [goto_pc, if_pos rfl, hholds] at h
    exact Bool.noConfusion h
  · rw [goto_pc, if_pos rfl] at h
    exact hwait n h

/-- A thread other than the one that steps is handed the lock only by a post of its own node. -/
theorem Fired.owner_of_ne (h : Fired s t s')
    (hsem : ∀ u n, u ≠ t → s.pc u = .acqWait n → (s'.node n).sem = (s.node n).sem) (u : T)
    (hut : u ≠ t) (hu : Owner s' u) : Owner s u := by
  rcases hu with hu | ⟨n, hu, hpos⟩
  · exact Or.inl (h.pc_of_ne hut ▸ hu)
  · rw [h.pc_of_ne hut] at hu
    exact Or.inr ⟨n, hu, hsem u n hut hu ▸ hpos⟩

/-- A step that does not make its own thread an owner makes none. -/
theorem Fired.owner_of_self (h : Fired s t s')
    (hsem : ∀ u n, u ≠ t → s.pc u = .acqWait n → (s'.node n).sem = (s.node n).sem)
    (hself : Owner s' t → Owner s t) (u : T) (hu : Owner s' u) : Owner s u := by
  by_cases hut : u = t
  · rw [hut] at hu ⊢
    exact hself hu
  · exact h.owner_of_ne hsem u hut hu

/-- A step leaves the lock with its owner, takes the free lock, gives it up while the queue is
empty, or passes it to the thread whose node it posts. -/
theorem Fired.owner_effect (h : Fired s t s') (hi : QueueInv s q) (hn : NodeInv s) :
    (s'.locked = s.locked ∧ ∀ u, Owner s' u → Owner s u) ∨
    (s.locked = 0 ∧ s'.locked = 1 ∧ ∀ u, Owner s' u → u = t ∨ Owner s u) ∨
    (Owner s t ∧ s.head = none ∧ ∀ u, Owner s' u → u ≠ t ∧ Owner s u) ∨
    (Owner s t ∧ s'.locked = s.locked ∧
      ∃ v, ∀ u, Owner s' u → u = v ∨ (u ≠ t ∧ Owner s u)) := by
  have hkeep := h.owner_of_ne
  have hstay := h.owner_of_self
  have hown : ∀ u m n, u ≠ t → s.pc u = .acqWait m → (s.pc t).own = some n → m ≠ n := by
    rintro u m n hut hu ht rfl
    exact hut (hn.unique u t m (by simp [hu, Pc.own]) ht)
  cases h with
  | alloc ht =>
      refine Or.inl ⟨rfl, hstay (fun v n _ hv => ?_) fun hu => ?_⟩
      · rw [goto_node, alloc_node s (hn.lt_fresh v n (by simp [hv, Pc.own]))]
      · exact absurd hu (not_owner_goto rfl (by simp))
  | take ht hl =>
      refine Or.inr (Or.inl ⟨hl, rfl, fun u hu => ?_⟩)
      by_cases hut : u = t
      · exact Or.inl hut
      · exact Or.inr (hkeep (fun _ _ _ _ => rfl) u hut hu)
  | enqueue ht hl =>
      refine Or.inl ⟨by simp, hstay (fun _ n _ _ => by simp) fun hu => ?_⟩
      exact absurd hu (not_owner_goto rfl (by simp))
  | postSlow ht =>
      refine Or.inl ⟨rfl, hstay (fun _ _ _ _ => rfl) ?_⟩
      rintro (hu | ⟨n, hu, hpos⟩)
      · simp [Pc.holds] at hu
      · have hsem := hi.posting t n (by simpa [ht] using hu)
        exact absurd hsem (by simpa using Nat.pos_iff_ne_zero.mp hpos)
  | @wake n ht hpos =>
      refine Or.inl ⟨rfl, hstay (fun v m hvt hv => ?_) fun _ => Or.inr ⟨n, ht, hpos⟩⟩
      simp [hown v m n hvt hv (by simp [ht, Pc.own])]
  | unlock ht hhd =>
      refine Or.inr (Or.inr (Or.inl ⟨Or.inl (by simp [ht, Pc.holds]), hhd, fun u hu => ?_⟩))
      have hut : u ≠ t := by
        rintro rfl
        exact absurd hu (not_owner_goto rfl (by simp))
      exact ⟨hut, hkeep (fun _ _ _ _ => rfl) u hut hu⟩
  | @hand n ht =>
      obtain ⟨-, -, v, hv⟩ := hi.handing t n ht
      refine Or.inr (Or.inr (Or.inr ⟨Or.inl (by simp [ht, Pc.holds]), rfl, v, fun u hu => ?_⟩))
      have hut : u ≠ t := by
        rintro rfl
        exact absurd hu (not_owner_goto rfl (by simp))
      by_cases huv : u = v
      · exact Or.inl huv
      · refine Or.inr ⟨hut, ?_⟩
        rcases hu with hu | ⟨m, hu, hpos⟩
        · exact Or.inl (by simpa [hut] using hu)
        · have hu' : s.pc u = .acqWait m := by simpa [hut] using hu
          have hmn : m ≠ n := by
            rintro rfl
            exact huv (hn.unique u v m (by simp [hu', Pc.own]) (Pc.own_of_queued hv))
          exact Or.inr ⟨m, hu', by simpa [hmn] using hpos⟩
  | postFast ht | freeFast ht | freeSlow ht | release ht | relWaitGuard ht _ | pop ht _ =>
      exact Or.inl ⟨rfl, hstay (fun _ _ _ _ => rfl) fun _ => Or.inl (by simp [ht, Pc.holds])⟩
  | waitGuard ht _ | relPost ht =>
      refine Or.inl ⟨rfl, hstay (fun _ _ _ _ => rfl) fun hu => ?_⟩
      exact absurd hu (not_owner_goto rfl (by simp))

/-- Threads join the queue only of a taken lock, which is given up only while the queue is empty. -/
theorem LockInv.queue_step (hl : LockInv s q) (hi : QueueInv s q) (h : Fired s t s') :
    nextQueue s t q ≠ [] → s'.locked ≠ 0 := by
  cases h with
  | take ht _ => intro _; simp
  | enqueue ht hlk => intro _; simpa using hlk
  | unlock ht hhd =>
      have hq : q = [] := by simpa [hhd] using hi.chain
      simp [nextQueue, ht, hq]
  | pop ht _ =>
      intro hne
      refine hl.queue_locked fun hq => hne ?_
      simp [nextQueue, ht, hq]
  | alloc ht | waitGuard ht _ | postFast ht | freeFast ht | postSlow ht | wake ht _ | freeSlow ht
  | release ht | relWaitGuard ht _ | hand ht | relPost ht =>
      simpa [nextQueue, ht] using hl.queue_locked

theorem LockInv.step (hl : LockInv s q) (hi : QueueInv s q) (hn : NodeInv s) (h : Fired s t s') :
    LockInv s' (nextQueue s t q) := by
  refine ⟨fun u v hu hv => ?_, fun u hu => ?_, hl.queue_step hi h⟩
  all_goals
    rcases h.owner_effect hi hn with ⟨hlk, hown⟩ | ⟨hz, hlk, hown⟩ | ⟨ht, hhd, hown⟩ |
      ⟨ht, hlk, w, hown⟩
  · exact hl.unique u v (hown u hu) (hown v hv)
  · -- the lock was free, so the only owner is the thread that took it
    have hnone : ∀ w, ¬ Owner s w := fun w hw => by simp [hl.locked w hw] at hz
    rw [(hown u hu).resolve_right (hnone u), (hown v hv).resolve_right (hnone v)]
  · exact hl.unique u v (hown u hu).2 (hown v hv).2
  · have hsame : ∀ x, Owner s' x → x = w := fun x hx =>
      (hown x hx).resolve_right fun h => h.1 (hl.unique x t h.2 ht)
    rw [hsame u hu, hsame v hv]
  · rw [hlk]; exact hl.locked u (hown u hu)
  · exact hlk
  · exact absurd (hl.unique u t (hown u hu).2 ht) (hown u hu).1
  · rw [hlk]; exact hl.locked t ht

end LockSteps

/-! ## All reachable states -/

/-- The invariant of the mutex, for the list `q` of nodes reachable from `head`. -/
structure Safe (s : State T) (q : List ℕ) : Prop where
  guard : GuardInv s
  nodes : NodeInv s
  queue : QueueInv s q
  lock : LockInv s q

theorem safe_init : Safe (nsMutexInit : State T) [] := by
  refine ⟨⟨by simp [nsMutexInit], ?_, ?_⟩, ⟨?_, ?_⟩,
    ⟨.nil, by simp, by simp, by simp [nsMutexInit], by simp, ?_, ?_, ?_⟩, ⟨?_, ?_, by simp⟩⟩
  all_goals simp [nsMutexInit, Pc.inside, Pc.own, Pc.unqueued, Owner, Handed, Pc.holds]

theorem Safe.step [DecidableEq T] {s s' : State T} {t : T} {q : List ℕ} (hi : Safe s q)
    (h : Fired s t s') : Safe s' (nextQueue s t q) :=
  ⟨hi.guard.step h, hi.nodes.step h, hi.queue.step hi.guard hi.nodes h,
    hi.lock.step hi.queue hi.nodes h⟩

theorem safe_of_reachable [DecidableEq T] {s : State T} (h : (nsMutex T).Reachable s) :
    ∃ q, Safe s q := by
  refine h.invariant (I := fun s => ∃ q, Safe s q) ?_ ?_
  · rintro _ rfl
    exact ⟨[], safe_init⟩
  · rintro s t s' ⟨q, hi⟩ hs
    exact ⟨_, hi.step (fired_of_step hs)⟩

/-- **Mutual exclusion.** In every reachable state at most one thread is between taking the lock in
`ns_mutex_acquire` and giving it up in `ns_mutex_release`, and `locked` is 1 in every guard-free
state in which some thread holds the lock or has been handed it. -/
theorem mutual_exclusion [DecidableEq T] {s : State T} (h : (nsMutex T).Reachable s) :
    (∀ t u, (s.pc t).holds = true → (s.pc u).holds = true → t = u) ∧
    (s.guard = 1 → ∀ t, (s.pc t).holds = true ∨ Handed s t → s.locked = 1) := by
  obtain ⟨q, hi⟩ := safe_of_reachable h
  refine ⟨fun t u ht hu => ?_, fun _ t ht => ?_⟩
  · exact hi.lock.unique t u (Or.inl ht) (Or.inl hu)
  · exact hi.lock.locked t ht

/-- Thread 0 locks, thread 1 queues, and thread 0 hands the lock to the sleeping thread 1. -/
def handOver : List (Fin 2) := [0, 0, 0, 0, 0, 1, 1, 1, 1, 0, 0, 0, 0, 0]

/-- After `handOver` the guard is free and thread 1 has been handed the lock, so the flag is set. -/
theorem mutual_exclusion_handOver :
    ∃ s : State (Fin 2), (nsMutex (Fin 2)).Reachable s ∧ s.guard = 1 ∧ Handed s 1 ∧
      s.locked = 1 := by
  obtain ⟨s, hex, hc⟩ := (nsMutex (Fin 2)).exec_of_run_any nsMutexInit handOver
    (fun s => s.guard == 1 && s.pc 1 == .acqWait 1 && (s.node 1).sem == 1) rfl (by decide)
  simp only [Bool.and_eq_true, beq_iff_eq] at hc
  have hh : Handed s 1 := ⟨1, hc.1.2, by omega⟩
  exact ⟨s, ⟨_, hex⟩, hc.1.1, hh, (mutual_exclusion ⟨_, hex⟩).2 hc.1.1 1 (Or.inr hh)⟩

end Osvcp.NsMutex
