import Osvcp.Semaphores.NsMutexSafety

/-! # The waiting queue of the starvation-free mutex

The purpose of the queue is stated over the history of an execution: which threads have joined the
queue, in which order, and which of them have been posted. `FifoQueue` compares that with the list
reachable from `head`. The source keeps them equal only as long as no thread joins through a stale
tail: `ns_mutex_release` advances `head` past the last node without resetting `tail`, so the next
waiter is linked behind a node that is no longer in the queue and is never found again.
-/

namespace Osvcp.NsMutex

variable {T : Type*}

/-! ## The history of the queue -/

/-- The thread joins the queue in this step, with its node. -/
def enqueueEvent (s : State T) (t : T) : Option (T × ℕ) :=
  match s.pc t with
  | .acqBody n => if s.locked = 0 then none else some (t, n)
  | _ => none

/-- The thread hands the lock to the owner of a node in this step. -/
def handEvent (s : State T) (t : T) : Option ℕ :=
  match s.pc t with
  | .relHand n => some n
  | _ => none

/-- The threads that have joined the queue, in this order, each with its node. -/
def enqueued (tr : List (State T × T)) : List (T × ℕ) := tr.filterMap fun p => enqueueEvent p.1 p.2

/-- The nodes that have been posted, in this order. -/
def handed (tr : List (State T × T)) : List ℕ := tr.filterMap fun p => handEvent p.1 p.2

/-- The threads that have joined the queue and have not been handed the lock. -/
def waiting (tr : List (State T × T)) : List (T × ℕ) :=
  (enqueued tr).filter fun p => p.2 ∉ handed tr

/-- What the queue is for: `head` leads through exactly the waiting threads in the order in which
they joined, nobody sleeps on an unposted node while the lock is free, and the lock is handed over
in the order of joining. -/
structure FifoQueue (tr : List (State T × T)) (s : State T) : Prop where
  reachable : Chain s.link s.head ((waiting tr).map Prod.snd)
  asleep : ∀ p ∈ waiting tr, s.pc p.1 = .acqWait p.2
  not_lost : s.locked = 0 → ∀ t n, s.pc t = .acqWait n → 0 < (s.node n).sem
  fifo : handed tr <+: (enqueued tr).map Prod.snd

/-- The thread joins the queue while the tail pointer is stale. -/
def JoinsStale (s : State T) (t : T) : Prop := (enqueueEvent s t).isSome ∧ Stale s

instance (s : State T) (t : T) : Decidable (JoinsStale s t) := inferInstanceAs (Decidable (_ ∧ _))

/-- The history agrees with the list `q` reachable from `head`; `mid` is the node that a release has
taken off the head and is about to post, if there is one. -/
structure HistInv (tr : List (State T × T)) (s : State T) (q mid : List ℕ) : Prop where
  split : (enqueued tr).map Prod.snd = handed tr ++ mid ++ q
  mid_hand : ∀ n ∈ mid, ∃ t, s.pc t = .relHand n
  hand_mid : ∀ t n, s.pc t = .relHand n → mid = [n]
  nodup : ((enqueued tr).map Prod.snd).Nodup
  lt_fresh : ∀ p ∈ enqueued tr, p.2 < s.fresh
  owner : ∀ p ∈ enqueued tr, p.2 ∈ q → (s.pc p.1).queued = some p.2
  unqueued : ∀ t n, (s.pc t).unqueued = some n → n ∉ (enqueued tr).map Prod.snd
  waiters : ∀ t n, (s.pc t).queued = some n → n ∈ q ∨ n ∈ mid ∨ 0 < (s.node n).sem

@[simp] theorem enqueued_snoc (tr : List (State T × T)) (s : State T) (t : T) :
    enqueued (tr ++ [(s, t)]) = enqueued tr ++ (enqueueEvent s t).toList := by
  cases h : enqueueEvent s t <;> simp [enqueued, h]

@[simp] theorem handed_snoc (tr : List (State T × T)) (s : State T) (t : T) :
    handed (tr ++ [(s, t)]) = handed tr ++ (handEvent s t).toList := by
  cases h : handEvent s t <;> simp [handed, h]

section Steps

variable [DecidableEq T] {tr : List (State T × T)} {s s' : State T} {t : T} {q mid : List ℕ}

/-- What a step keeps by which nobody joins the queue. -/
theorem HistInv.of_not_enqueue (hh : HistInv tr s q mid) {q' mid' : List ℕ}
    (he : enqueueEvent s t = none) (hpc : ∀ u, u ≠ t → s'.pc u = s.pc u)
    (hfresh : s.fresh ≤ s'.fresh)
    (hun : ∀ n, (s'.pc t).unqueued = some n → n ∉ (enqueued tr).map Prod.snd)
    (hsub : ∀ n ∈ q', n ∈ q)
    (hown : ∀ n ∈ q', (s.pc t).queued = some n → (s'.pc t).queued = some n)
    (hsplit : handed tr ++ mid ++ q = handed (tr ++ [(s, t)]) ++ mid' ++ q')
    (hmid : ∀ n ∈ mid', ∃ u, s'.pc u = .relHand n)
    (hhand : ∀ u n, s'.pc u = .relHand n → mid' = [n])
    (hwait : ∀ u n, (s'.pc u).queued = some n → n ∈ q' ∨ n ∈ mid' ∨ 0 < (s'.node n).sem) :
    HistInv (tr ++ [(s, t)]) s' q' mid' where
  split := by
    rw [← hsplit]
    simpa [he] using hh.split
  mid_hand := hmid
  hand_mid := hhand
  nodup := by simpa [he] using hh.nodup
  lt_fresh p hp := Nat.lt_of_lt_of_le (hh.lt_fresh p (by simpa [he] using hp)) hfresh
  owner p hp hpq := by
    have hold := hh.owner p (by simpa [he] using hp) (hsub p.2 hpq)
    by_cases hpt : p.1 = t
    · rw [hpt] at hold ⊢
      exact hown p.2 hpq hold
    · rw [hpc p.1 hpt]
      exact hold
  unqueued u n hu := by
    have hnot : n ∉ (enqueued tr).map Prod.snd := by
      by_cases hut : u = t
      · subst hut
        exact hun n hu
      · rw [hpc u hut] at hu
        exact hh.unqueued u n hu
    simpa [he] using hnot
  waiters := hwait

/-- Steps without an event keep the history, if the thread keeps its side of the queue and no
waiting node loses a post. -/
theorem HistInv.of_same (hh : HistInv tr s q mid) (h : Fired s t s')
    (he : enqueueEvent s t = none) (hd : handEvent s t = none)
    (hfresh : s.fresh ≤ s'.fresh) (hhand : ∀ n, s'.pc t ≠ .relHand n)
    (hq : (s'.pc t).queued = (s.pc t).queued)
    (hun : ∀ n, (s'.pc t).unqueued = some n →
      (s.pc t).unqueued = some n ∨ n ∉ (enqueued tr).map Prod.snd)
    (hsem : ∀ u n, (s.pc u).queued = some n → (s'.node n).sem = (s.node n).sem) :
    HistInv (tr ++ [(s, t)]) s' q mid := by
  have hqueued : ∀ u, (s'.pc u).queued = (s.pc u).queued := by
    intro u
    by_cases hu : u = t
    · rw [hu, hq]
    · rw [h.pc_of_ne hu]
  have ht : ∀ n, s.pc t ≠ .relHand n := by
    intro n hn
    simp [handEvent, hn] at hd
  -- nobody enters or leaves the window between the store to `head` and `Sem_post`
  have hrel : ∀ u n, s'.pc u = .relHand n ↔ s.pc u = .relHand n := by
    intro u n
    by_cases hu : u = t
    · subst hu; simp [hhand, ht]
    · rw [h.pc_of_ne hu]
  refine hh.of_not_enqueue he (fun u hu => h.pc_of_ne hu) hfresh ?_ (fun _ hn => hn) ?_ ?_ ?_ ?_ ?_
  · intro n hn
    rcases hun n hn with hold | hnew
    · exact hh.unqueued t n hold
    · exact hnew
  · exact fun n _ hn => hq.trans hn
  · simp [hd]
  · simpa only [hrel] using hh.mid_hand
  · simpa only [hrel] using hh.hand_mid
  · intro u n hu
    rw [hqueued] at hu
    rw [hsem u n hu]
    exact hh.waiters u n hu

theorem HistInv.enqueue (hh : HistInv tr s q mid) (hi : Safe s q) {n : ℕ}
    (ht : s.pc t = .acqBody n) (hl : s.locked ≠ 0) :
    HistInv (tr ++ [(s, t)]) ((s.append n).goto t (.acqPostSlow n)) (q ++ [n]) mid := by
  have hut : (s.pc t).unqueued = some n := by simp [ht, Pc.unqueued]
  have he : enqueueEvent s t = some (t, n) := by simp [enqueueEvent, ht, hl]
  have hd : handEvent s t = none := by simp [handEvent, ht]
  have hnew := hh.unqueued t n hut
  have hrel : ∀ u m, ((s.append n).goto t (.acqPostSlow n)).pc u = .relHand m ↔
      s.pc u = .relHand m := by
    intro u m
    by_cases hu : u = t
    · subst hu; simp [ht]
    · simp [hu]
  refine ⟨?split, ?mid_hand, ?hand_mid, ?nodup, ?lt_fresh, ?owner, ?unqueued, ?waiters⟩
  case split => simp [he, hd, hh.split]
  case mid_hand => simpa only [hrel] using hh.mid_hand
  case hand_mid => simpa only [hrel] using hh.hand_mid
  case nodup =>
    rw [enqueued_snoc, he, Option.toList_some, List.map_append, List.nodup_append]
    refine ⟨hh.nodup, by simp, fun a ha b hb => ?_⟩
    rintro rfl
    simp only [List.map_cons, List.map_nil, List.mem_singleton] at hb
    exact hnew (hb ▸ ha)
  case lt_fresh =>
    intro p hp
    simp only [enqueued_snoc, he, Option.toList_some, List.mem_append, List.mem_singleton] at hp
    rcases hp with hp | rfl
    · simpa using hh.lt_fresh p hp
    · simpa using hi.nodes.lt_fresh t n (Pc.own_of_unqueued hut)
  case owner =>
    intro p hp hpq
    simp only [enqueued_snoc, he, Option.toList_some, List.mem_append, List.mem_singleton] at hp
    rcases hp with hp | rfl
    · -- the node has just been allocated, so it is not one of those enqueued before
      have hpn : p.2 ≠ n := fun heq => hnew (heq ▸ List.mem_map_of_mem hp)
      have hown := hh.owner p hp (by simpa [hpn] using hpq)
      have hpt : p.1 ≠ t := by intro heq; simp [heq, ht, Pc.queued] at hown
      simpa [hpt] using hown
    · simp [Pc.queued]
  case unqueued =>
    intro u m hu
    have hne : u ≠ t := by rintro rfl; simp [Pc.unqueued] at hu
    have hu' : (s.pc u).unqueued = some m := by simpa [hne] using hu
    have hmn : m ≠ n := by
      rintro rfl
      exact hne (hi.nodes.unique u t m (Pc.own_of_unqueued hu') (Pc.own_of_unqueued hut))
    have hold := hh.unqueued u m hu'
    simp only [enqueued_snoc, he, Option.toList_some, List.map_append, List.mem_append, not_or]
    exact ⟨hold, by simpa using hmn⟩
  case waiters =>
    intro u m hu
    by_cases hne : u = t
    · have : n = m := by simpa [hne, Pc.queued] using hu
      simp [this]
    · rcases hh.waiters u m (by simpa [hne] using hu) with hm | hm | hm
      · exact Or.inl (by simp [hm])
      · exact Or.inr (Or.inl hm)
      · exact Or.inr (Or.inr (by simpa using hm))

theorem HistInv.wake (hh : HistInv tr s q mid) (hi : Safe s q) {n v : ℕ} (ht : s.pc t = .acqWait n)
    (hpos : 0 < (s.node n).sem) :
    HistInv (tr ++ [(s, t)]) ((s.setSem n v).goto t (.freeSlow n)) q mid := by
  have he : enqueueEvent s t = none := by simp [enqueueEvent, ht]
  have hd : handEvent s t = none := by simp [handEvent, ht]
  have hrel : ∀ u m, ((s.setSem n v).goto t (.freeSlow n)).pc u = .relHand m ↔
      s.pc u = .relHand m := by
    intro u m
    by_cases hu : u = t
    · subst hu; simp [ht]
    · simp [hu]
  refine hh.of_not_enqueue he (fun u hu => by simp [hu]) (Nat.le_refl _) (by simp [Pc.unqueued])
    (fun _ hm => hm) ?_ (by simp [hd]) ?_ ?_ ?_
  · -- a node in the queue has not been posted, so its thread is not the one that wakes
    intro m hm hmt
    have hnm : n = m := by simpa [ht, Pc.queued] using hmt
    have hzero := (hi.queue.asleep m hm).1
    rw [hnm, hzero] at hpos
    exact absurd hpos (Nat.lt_irrefl 0)
  · simpa only [hrel] using hh.mid_hand
  · simpa only [hrel] using hh.hand_mid
  · intro u m hu
    have hut : u ≠ t := by rintro rfl; simp [Pc.queued] at hu
    have hu' : (s.pc u).queued = some m := by simpa [hut] using hu
    have hmn : m ≠ n := by
      rintro rfl
      exact hut (hi.nodes.unique u t m (Pc.own_of_queued hu') (by simp [ht, Pc.own]))
    simpa [hmn] using hh.waiters u m hu'

theorem HistInv.pop {n : ℕ} (hh : HistInv tr s (n :: q) mid) (hi : Safe s (n :: q))
    (ht : s.pc t = .relBody) :
    HistInv (tr ++ [(s, t)]) ({ s with head := (s.node n).next }.goto t (.relHand n)) q [n] := by
  have he : enqueueEvent s t = none := by simp [enqueueEvent, ht]
  have hd : handEvent s t = none := by simp [handEvent, ht]
  -- no other thread is inside, so no other post is pending
  have hmid : mid = [] := by
    refine List.eq_nil_iff_forall_not_mem.mpr fun m hm => ?_
    obtain ⟨u, hu⟩ := hh.mid_hand m hm
    have hut := hi.guard.unique u t (by simp [hu, Pc.inside]) (by simp [ht, Pc.inside])
    simp [hut, ht] at hu
  subst hmid
  refine hh.of_not_enqueue he (fun u hu => by simp [hu]) (Nat.le_refl _) (by simp [Pc.unqueued])
    (fun _ hm => List.mem_cons_of_mem n hm) (by simp [ht, Pc.queued]) (by simp [hd]) ?_ ?_ ?_
  · intro m hm
    exact ⟨t, by simp [List.mem_singleton.mp hm]⟩
  · intro u m hu
    by_cases hut : u = t
    · simpa [hut] using hu
    · have hmid := hh.hand_mid u m (by simpa [hut] using hu)
      cases hmid
  · intro u m hu
    have hut : u ≠ t := by rintro rfl; simp [Pc.queued] at hu
    rcases hh.waiters u m (by simpa [hut] using hu) with hm | hm | hm
    · -- the first waiter leaves the queue and is about to be handed the lock
      rcases List.mem_cons.mp hm with rfl | hm
      · exact Or.inr (Or.inl (by simp))
      · exact Or.inl hm
    · cases hm
    · exact Or.inr (Or.inr hm)

theorem HistInv.hand (hh : HistInv tr s q mid) (hi : Safe s q) {n : ℕ} (ht : s.pc t = .relHand n) :
    HistInv (tr ++ [(s, t)]) ((s.setSem n ((s.node n).sem + 1)).goto t .relPost) q [] := by
  have he : enqueueEvent s t = none := by simp [enqueueEvent, ht]
  have hd : handEvent s t = some n := by simp [handEvent, ht]
  have hmid := hh.hand_mid t n ht
  subst hmid
  refine hh.of_not_enqueue he (fun u hu => by simp [hu]) (Nat.le_refl _) (by simp [Pc.unqueued])
    (fun _ hm => hm) (by simp [ht, Pc.queued]) (by simp [hd]) (by simp) ?_ ?_
  · intro u m hu
    have hut : u ≠ t := by rintro rfl; simp at hu
    have hu' : s.pc u = .relHand m := by simpa [hut] using hu
    -- two threads about to post would both be inside the guard
    exact absurd (hi.guard.unique u t (by simp [hu', Pc.inside]) (by simp [ht, Pc.inside])) hut
  · intro u m hu
    have hut : u ≠ t := by rintro rfl; simp [Pc.queued] at hu
    rcases hh.waiters u m (by simpa [hut] using hu) with hm | hm | hm
    · exact Or.inl hm
    · exact Or.inr (Or.inr (by simp [List.mem_singleton.mp hm]))
    · refine Or.inr (Or.inr ?_)
      simp only [goto_node, setSem_sem]
      split <;> omega

/-- A step that does not join through a stale tail keeps the history in agreement with `head`. -/
theorem HistInv.step (hh : HistInv tr s q mid) (hi : Safe s q) (h : Fired s t s')
    (hok : ¬ JoinsStale s t) :
    ∃ mid', HistInv (tr ++ [(s, t)]) s' (nextQueue s t q) mid' := by
  have hfire := h
  cases h with
  | enqueue ht hl =>
      have hst : ¬ Stale s := fun hst => hok ⟨by simp [enqueueEvent, ht, hl], hst⟩
      exact ⟨mid, by simpa [nextQueue, ht, hl, hst] using hh.enqueue hi ht hl⟩
  | wake ht hpos => exact ⟨mid, by simpa [nextQueue, ht] using hh.wake hi ht hpos⟩
  | @pop n ht hhd =>
      have hchain := hi.queue.chain
      rw [hhd] at hchain
      obtain ⟨q', rfl, -⟩ := hchain.exists_of_some
      exact ⟨[n], by simpa [nextQueue, ht] using hh.pop hi ht⟩
  | hand ht => exact ⟨[], by simpa [nextQueue, ht] using hh.hand hi ht⟩
  | alloc ht =>
      refine ⟨mid, ?_⟩
      simp only [nextQueue, ht]
      refine hh.of_same hfire (by simp [enqueueEvent, ht]) (by simp [handEvent, ht]) (by simp)
        (by simp) (by simp [ht, Pc.queued]) (fun n hn => Or.inr fun hmem => ?_) fun u n hu => ?_
      · have hn' : s.fresh = n := by simpa [Pc.unqueued] using hn
        obtain ⟨p, hp, hpn⟩ := List.mem_map.mp hmem
        have := hh.lt_fresh p hp
        omega
      · rw [goto_node, alloc_node s (hi.nodes.lt_fresh u n (Pc.own_of_queued hu))]
  | take ht hl =>
      refine ⟨mid, ?_⟩
      simp only [nextQueue, ht, hl, true_or, if_true]
      exact hh.of_same hfire (by simp [enqueueEvent, ht, hl]) (by simp [handEvent, ht])
        (Nat.le_refl _) (by simp) (by simp [ht, Pc.queued]) (by simp [Pc.unqueued]) (by simp)
  | unlock ht hhd =>
      have hq : q = [] := by simpa [hhd] using hi.queue.chain
      refine ⟨mid, ?_⟩
      simp only [nextQueue, ht, hq, List.tail_nil]
      exact (hq ▸ hh).of_same hfire (by simp [enqueueEvent, ht]) (by simp [handEvent, ht])
        (Nat.le_refl _) (by simp) (by simp [ht, Pc.queued]) (by simp [Pc.unqueued]) (by simp)
  | waitGuard ht _ | postFast ht | freeFast ht | postSlow ht | freeSlow ht | release ht
  | relWaitGuard ht _ | relPost ht =>
      refine ⟨mid, ?_⟩
      simp only [nextQueue, ht]
      exact hh.of_same hfire (by simp [enqueueEvent, ht]) (by simp [handEvent, ht]) (Nat.le_refl _)
        (by simp) (by simp [ht, Pc.queued]) (by simp [ht, Pc.unqueued]) (by simp)

/-! ## A join through a stale tail is never repaired -/

/-- The queue has been emptied behind the back of the tail pointer, and a thread that joined
it has not been posted. -/
structure Lost (tr : List (State T × T)) (s : State T) : Prop where
  stale : Stale s
  no_hand : ∀ t n, s.pc t ≠ .relHand n
  waiter : ∃ p ∈ enqueued tr, p.2 ∉ handed tr

/-- The tail pointer stays stale: only a thread that finds no tail sets the head. -/
theorem Stale.step (hs : Stale s) (h : Fired s t s') : Stale s' := by
  obtain ⟨hhd, htl⟩ := hs
  cases h with
  | @enqueue n ht hl =>
      obtain ⟨l, hl⟩ := Option.ne_none_iff_exists'.mp htl
      exact ⟨by simpa [append_head_of_tail s n hl] using hhd, by simp⟩
  | pop ht hn => rw [hhd] at hn; cases hn
  | alloc _ | waitGuard _ _ | take _ _ | postFast _ | freeFast _ | postSlow _ | wake _ _
  | freeSlow _ | release _ | relWaitGuard _ _ | unlock _ _ | hand _ | relPost _ => exact ⟨hhd, htl⟩

theorem Lost.step (hl : Lost tr s) (h : Fired s t s') : Lost (tr ++ [(s, t)]) s' := by
  obtain ⟨p, hp, hnot⟩ := hl.waiter
  have hd : handEvent s t = none := by
    unfold handEvent
    split
    · exact absurd ‹_› (hl.no_hand t _)
    · rfl
  refine ⟨hl.stale.step h, fun u n hu => ?_, p, by simp [hp], by simpa [hd] using hnot⟩
  by_cases hut : u = t
  · subst hut
    cases h with
    | pop ht hn => rw [hl.stale.1] at hn; cases hn
    | alloc _ | waitGuard _ _ | take _ _ | enqueue _ _ | postFast _ | freeFast _ | postSlow _
    | wake _ _ | freeSlow _ | release _ | relWaitGuard _ _ | unlock _ _ | hand _ | relPost _ =>
        simp at hu
  · exact hl.no_hand u n (h.pc_of_ne hut ▸ hu)

/-- The first join through a stale tail loses its thread. -/
theorem HistInv.lost (hh : HistInv tr s q mid) (hi : Safe s q) (h : Fired s t s')
    (hbad : JoinsStale s t) : Lost (tr ++ [(s, t)]) s' := by
  obtain ⟨hev, hst⟩ := hbad
  cases hpc : s.pc t <;> simp [enqueueEvent, hpc] at hev
  rename_i n
  have he : enqueueEvent s t = some (t, n) := by simp [enqueueEvent, hpc, hev]
  have hd : handEvent s t = none := by simp [handEvent, hpc]
  have hnew := hh.unqueued t n (by simp [hpc, Pc.unqueued])
  refine ⟨hst.step h, fun u m hu => ?_, (t, n), by simp [he], ?_⟩
  · have hin := hi.guard.step h
    have hut : u ≠ t := by
      rintro rfl
      cases h <;> simp_all
    rw [h.pc_of_ne hut] at hu
    exact hut (hi.guard.unique u t (by simp [hu, Pc.inside]) (by simp [hpc, Pc.inside]))
  · intro hmem
    refine hnew ?_
    rw [hh.split]
    simpa [hd] using Or.inl (by simpa [hd] using hmem)

end Steps

/-- Every execution either never joined through a stale tail and its history agrees with `head`, or
has lost a waiter. -/
theorem history_of_exec [DecidableEq T] {tr : List (State T × T)} {s : State T}
    (h : (nsMutex T).Exec tr s) :
    ((∀ p ∈ tr, ¬ JoinsStale p.1 p.2) ∧ ∃ q mid, Safe s q ∧ HistInv tr s q mid) ∨
    ((∃ p ∈ tr, JoinsStale p.1 p.2) ∧ Lost tr s) := by
  induction h with
  | start hs =>
      cases hs
      refine Or.inl ⟨by simp, [], [], safe_init, ⟨?_, ?_, ?_, ?_, ?_, ?_, ?_, ?_⟩⟩
      all_goals simp [enqueued, handed, nsMutexInit, Pc.queued]
  | @snoc tr s s' t hex hs ih =>
      have hf : Fired s t s' := fired_of_step hs
      rcases ih with ⟨hok, q, mid, hi, hh⟩ | ⟨⟨p, hp, hbad⟩, hl⟩
      · by_cases hbad : JoinsStale s t
        · exact Or.inr ⟨⟨(s, t), by simp, hbad⟩, hh.lost hi hf hbad⟩
        · obtain ⟨mid', hh'⟩ := hh.step hi hf hbad
          refine Or.inl ⟨fun p hp => ?_, _, mid', hi.step hf, hh'⟩
          rcases List.mem_append.mp hp with hp | hp
          · exact hok p hp
          · rw [List.mem_singleton.mp hp]
            exact hbad
      · exact Or.inr ⟨⟨p, by simp [hp], hbad⟩, hl.step hf⟩

/-- With the guard free, a history that agrees with `head` is a FIFO queue. -/
theorem HistInv.fifoQueue {tr : List (State T × T)} {s : State T} {q mid : List ℕ}
    (hh : HistInv tr s q mid) (hi : Safe s q) (hg : s.guard = 1) : FifoQueue tr s := by
  have hout : ∀ t, (s.pc t).inside ≠ true := fun t ht => by
    have := hi.guard.inside t ht
    omega
  have hmid : mid = [] := by
    refine List.eq_nil_iff_forall_not_mem.mpr fun m hm => ?_
    obtain ⟨t, ht⟩ := hh.mid_hand m hm
    exact hout t (by simp [ht, Pc.inside])
  subst hmid
  have hsplit : (enqueued tr).map Prod.snd = handed tr ++ q := by simpa using hh.split
  have hdisj : ∀ n ∈ q, n ∉ handed tr := by
    intro n hn hmem
    have hnd := hh.nodup
    rw [hsplit] at hnd
    exact List.disjoint_of_nodup_append hnd hmem hn
  have hwait : (waiting tr).map Prod.snd = q := by
    have hfilter : (waiting tr).map Prod.snd =
        ((enqueued tr).map Prod.snd).filter fun n => n ∉ handed tr := by
      rw [waiting, List.filter_map]
      rfl
    rw [hfilter, hsplit, List.filter_append, List.filter_eq_nil_iff.mpr, List.filter_eq_self.mpr]
    · simp
    · simpa using hdisj
    · simp
  have hasleep : ∀ t n, (s.pc t).queued = some n → s.pc t = .acqWait n := by
    intro t n ht
    cases hpc : s.pc t <;> simp [hpc, Pc.queued] at ht
    · exact absurd (by simp [hpc, Pc.inside]) (hout t)
    · rw [ht]
  refine ⟨by rw [hwait]; exact hi.queue.chain, fun p hp => ?_, fun hz t n ht => ?_,
    ⟨q, hsplit.symm⟩⟩
  · have hpq : p.2 ∈ q := hwait ▸ List.mem_map_of_mem hp
    exact hasleep _ _ (hh.owner p (List.mem_filter.mp hp).1 hpq)
  · rcases hh.waiters t n (by simp [ht, Pc.queued]) with hn | hn | hn
    · exact absurd hz (hi.lock.queue_locked (List.ne_nil_of_mem hn))
    · cases hn
    · exact hn

/-- **When the queue works.** At a guard-free end of any execution, the list reachable from `head`
is exactly the list of waiting threads in the order in which they joined, no waiter is lost and the
lock has been handed over in that order, if and only if no thread of the execution has joined the
queue through a stale tail. -/
theorem fifoQueue_iff_no_stale_join [DecidableEq T] {tr : List (State T × T)} {s : State T}
    (h : (nsMutex T).Exec tr s) (hg : s.guard = 1) :
    FifoQueue tr s ↔ ∀ p ∈ tr, ¬ JoinsStale p.1 p.2 := by
  rcases history_of_exec h with ⟨hok, q, mid, hi, hh⟩ | ⟨⟨p, hp, hbad⟩, hl⟩
  · exact ⟨fun _ => hok, fun _ => hh.fifoQueue hi hg⟩
  · refine ⟨fun hq => ?_, fun hok => absurd hbad (hok p hp)⟩
    -- `head` is null, but a thread is waiting
    obtain ⟨w, hw, hnot⟩ := hl.waiter
    have hreach := hq.reachable
    rw [hl.stale.1, Chain.none_iff, List.map_eq_nil_iff] at hreach
    have hmem : w ∈ waiting tr := List.mem_filter.mpr ⟨hw, by simpa using hnot⟩
    simp [hreach] at hmem

/-- No thread of `handOver` joins through a stale tail, and at its end the queue is as it should
be, with thread 1 handed the lock and nobody waiting. -/
theorem fifoQueue_handOver : ∃ s : State (Fin 2),
    (nsMutex (Fin 2)).Exec ((nsMutex (Fin 2)).trace nsMutexInit handOver) s ∧
      FifoQueue ((nsMutex (Fin 2)).trace nsMutexInit handOver) s := by
  obtain ⟨s, hex, hc⟩ := (nsMutex (Fin 2)).exec_of_run_any nsMutexInit handOver
    (fun s => s.guard == 1) rfl (by decide)
  have hok : ∀ p ∈ (nsMutex (Fin 2)).trace nsMutexInit handOver, ¬ JoinsStale p.1 p.2 := by decide
  exact ⟨s, hex, (fifoQueue_iff_no_stale_join hex (by simpa using hc)).mpr hok⟩

/-- Thread 1 queues behind thread 0 and is handed the lock, which empties the queue; then thread 2
queues behind thread 1, and thread 1 releases. -/
def lostWaiter : List (Fin 3) :=
  [0, 0, 0, 0, 0, 1, 1, 1, 1, 0, 0, 0, 0, 0, 1, 1, 2, 2, 2, 2, 1, 1, 1, 1]

/-- After `lostWaiter` the guard and the lock are free, but thread 2 sleeps on a node that nobody
has posted and that is not reachable from `head`. -/
theorem lostWaiter_not_fifoQueue : ∃ (tr : List (State (Fin 3) × Fin 3)) (s : State (Fin 3)),
    (nsMutex (Fin 3)).Exec tr s ∧ s.guard = 1 ∧ s.locked = 0 ∧ s.head = none ∧
      s.pc 2 = .acqWait 2 ∧ (s.node 2).sem = 0 ∧ ¬ FifoQueue tr s := by
  obtain ⟨s, hex, hc⟩ := (nsMutex (Fin 3)).exec_of_run_any nsMutexInit lostWaiter
    (fun s => s.guard == 1 && s.locked == 0 && s.head == none && s.pc 2 == .acqWait 2 &&
      (s.node 2).sem == 0) rfl (by decide)
  simp only [Bool.and_eq_true, beq_iff_eq] at hc
  obtain ⟨⟨⟨⟨hg, hl⟩, hh⟩, hpc⟩, hsem⟩ := hc
  refine ⟨_, s, hex, hg, hl, hh, hpc, hsem, fun hq => ?_⟩
  have := hq.not_lost hl 2 2 hpc
  omega

end Osvcp.NsMutex
