import Osvcp.Lib.Termination
import Osvcp.Semaphores.NsMutexQueue

/-! # The workers of `mutex-nostarve.c`

Each `worker` acquires the mutex once and releases it. No worker waits in a loop, so every run ends;
where it ends, exactly those workers have not returned that joined the queue through a stale tail.
Two workers never do that, and of three workers the third one can.
-/

namespace Osvcp.NsMutex

open Function (update)

variable {T : Type*}

/-! ## The mutex makes progress -/

/-- Who has taken the guard gives it back, and a taken lock has an owner. -/
structure Live (s : State T) : Prop where
  guard : s.guard = 0 → ∃ t, (s.pc t).inside = true
  locked : s.locked ≠ 0 → ∃ t, Owner s t

/-- The thread sleeps on a node that nobody will post. -/
structure Stranded (s : State T) (t : T) : Prop where
  stale : Stale s
  no_hand : ∀ u n, s.pc u ≠ .relHand n
  asleep : ∃ n, (s.pc t).queued = some n ∧ (s.node n).sem = 0

/-- A thread in the queue can be found from the head or is being posted, if it did not join through
a stale tail. -/
def Waits (stranded : T → Prop) (s : State T) (q : List ℕ) : Prop :=
  ∀ t n, (s.pc t).queued = some n → n ∈ q ∨ (∃ u, s.pc u = .relHand n) ∨
    0 < (s.node n).sem ∨ stranded t

section Steps

variable [DecidableEq T] {s s' : State T} {t : T} {q : List ℕ}

/-- The three places where a thread can be blocked. -/
theorem blocked_of_step_eq_none (h : step s t = none) :
    (((∃ n, s.pc t = .acqGuard n) ∨ s.pc t = .relGuard) ∧ s.guard = 0) ∨
      ∃ n, s.pc t = .acqWait n ∧ (s.node n).sem = 0 := by
  unfold step at h
  cases hpc : s.pc t <;> simp only [hpc, reduceCtorEq] at h
  case acqGuard n =>
    split at h
    · cases h
    · exact .inl ⟨.inl ⟨n, rfl⟩, by omega⟩
  case acqBody n => split at h <;> cases h
  case acqWait n =>
    split at h
    · cases h
    · exact .inr ⟨n, rfl, by omega⟩
  case relGuard =>
    split at h
    · cases h
    · exact .inl ⟨.inr rfl, by omega⟩
  case relBody => split at h <;> cases h

/-- The semaphore of a node in use changes by a post and by a wake only. -/
theorem Fired.sem_effect (h : Fired s t s') (hn : NodeInv s) {u : T} {n : ℕ}
    (hu : (s.pc u).own = some n) :
    (s'.node n).sem = (s.node n).sem ∨
    (s.pc t = .relHand n ∧ (s'.node n).sem = (s.node n).sem + 1) ∨
      (s.pc t = .acqWait n ∧ u = t) := by
  cases h with
  | alloc _ => exact .inl (by simp [alloc_node s (hn.lt_fresh u n hu)])
  | @wake m ht hpos =>
      by_cases hmn : n = m
      · subst hmn
        exact .inr (.inr ⟨ht, hn.unique u t n hu (by simp [ht, Pc.own])⟩)
      · exact .inl (by simp [hmn])
  | @hand m ht =>
      by_cases hmn : n = m
      · subst hmn
        exact .inr (.inl ⟨ht, by simp⟩)
      · exact .inl (by simp [hmn])
  | waitGuard _ _ | take _ _ | enqueue _ _ | postFast _ | freeFast _ | postSlow _
  | freeSlow _ | release _
  | relWaitGuard _ _ | unlock _ _ | pop _ _ | relPost _ => exact .inl (by simp)

theorem Live.guard_step (hl : Live s) (h : Fired s t s') :
    s'.guard = 0 → ∃ u, (s'.pc u).inside = true := by
  intro hzero
  rcases h.guard_effect with ⟨hg, hin⟩ | ⟨-, -, hin⟩ | ⟨hg, -, -⟩
  · obtain ⟨u, hu⟩ := hl.guard (by omega)
    refine ⟨u, ?_⟩
    by_cases hut : u = t
    · rw [hut, hin, ← hut]
      exact hu
    · rw [h.pc_of_ne hut]
      exact hu
  · exact ⟨t, hin⟩
  · omega

/-- An owner stays one until it gives up the lock or hands it on. -/
theorem Owner.step (ho : Owner s t) (hn : NodeInv s) {u : T} (h : Fired s u s')
    (hgive : u = t → s.pc t ≠ .relBody ∧ ∀ n, s.pc t ≠ .relHand n) : Owner s' t := by
  by_cases hut : t = u
  · subst hut
    obtain ⟨hbody, hhand⟩ := hgive rfl
    refine .inl ?_
    rcases ho with hholds | ⟨n, hpc, hsem⟩
    · cases h <;> simp_all [Pc.holds]
    · cases h <;> simp_all [Pc.holds]
  · rcases ho with hholds | ⟨n, hpc, hsem⟩
    · exact .inl (by rwa [h.pc_of_ne hut])
    · refine .inr ⟨n, by rwa [h.pc_of_ne hut], ?_⟩
      rcases h.sem_effect hn (u := t) (n := n) (by simp [hpc, Pc.own]) with hsame |
        ⟨-, hpost⟩ | ⟨-, heq⟩
      · rwa [hsame]
      · omega
      · exact absurd heq hut

theorem Live.locked_step (hl : Live s) (hi : Safe s q) (h : Fired s t s') :
    s'.locked ≠ 0 → ∃ u, Owner s' u := by
  intro hlocked
  have hfire := h
  cases h with
  | take ht _ => exact ⟨t, .inl (by simp [Pc.holds])⟩
  | unlock ht _ => simp at hlocked
  | pop ht _ => exact ⟨t, .inl (by simp [Pc.holds])⟩
  | @hand n ht =>
      -- the lock goes to the thread that sleeps on the node
      obtain ⟨-, -, u, hu⟩ := hi.queue.handing t n ht
      have hut : u ≠ t := by
        rintro rfl
        simp [ht, Pc.queued] at hu
      have hwait : s.pc u = .acqWait n := by
        cases hp : s.pc u <;> simp only [hp, Pc.queued, Option.some.injEq, reduceCtorEq] at hu
        · exact absurd (hi.guard.unique u t (by simp [hp, Pc.inside]) (by simp [ht, Pc.inside])) hut
        · rw [hu]
      exact ⟨u, .inr ⟨n, by simp [hut, hwait], by simp⟩⟩
  | alloc ht | waitGuard ht _ | enqueue ht _ | postFast ht | freeFast ht | postSlow ht | wake ht _
  | freeSlow ht | release ht | relWaitGuard ht _ | relPost ht =>
      obtain ⟨u, hu⟩ := hl.locked (by simpa using hlocked)
      refine ⟨u, hu.step hi.nodes hfire ?_⟩
      rintro rfl
      simp [ht]

theorem Live.step (hl : Live s) (hi : Safe s q) (h : Fired s t s') : Live s' :=
  ⟨hl.guard_step h, hl.locked_step hi h⟩

/-- A thread that joins through a stale tail is stranded. -/
theorem stranded_of_joinsStale (hi : Safe s q) (h : Fired s t s') (hbad : JoinsStale s t) :
    Stranded s' t := by
  obtain ⟨hev, hst⟩ := hbad
  have hstale := hst.step h
  cases hpc : s.pc t <;> simp [enqueueEvent, hpc] at hev
  rename_i n
  have hsem := (hi.queue.unqueued t n (by simp [hpc, Pc.unqueued])).1
  cases h with
  | @enqueue m ht _ =>
      obtain rfl : n = m := Pc.acqBody.inj (hpc.symm.trans ht)
      refine ⟨hstale, fun u k hu => ?_, n, by simp [Pc.queued], by simpa using hsem⟩
      -- whoever is about to post holds the guard, and `t` holds it
      have hut : u ≠ t := by
        rintro rfl
        simp at hu
      have hu' : s.pc u = .relHand k := by simpa [hut] using hu
      exact hut (hi.guard.unique u t (by simp [hu', Pc.inside]) (by simp [hpc, Pc.inside]))
  | take ht hz => exact absurd hz hev
  | alloc ht | waitGuard ht _ | postFast ht | freeFast ht | postSlow ht | wake ht _ | freeSlow ht
  | release ht | relWaitGuard ht _ | unlock ht _ | pop ht _ | hand ht | relPost ht =>
      simp [hpc] at ht

theorem Stranded.step (hs : Stranded s t) (hn : NodeInv s) {u : T} (h : Fired s u s') :
    Stranded s' t := by
  obtain ⟨n, hq, hsem⟩ := hs.asleep
  refine ⟨hs.stale.step h, fun v k hv => ?_, n, ?_, ?_⟩
  · by_cases hvu : v = u
    · subst hvu
      cases h with
      | pop ht hhead => rw [hs.stale.1] at hhead; cases hhead
      | alloc _ | waitGuard _ _ | take _ _ | enqueue _ _ | postFast _ | freeFast _ | postSlow _
      | wake _ _ | freeSlow _ | release _ | relWaitGuard _ _ | unlock _ _ | hand _ | relPost _ =>
          simp at hv
    · exact hs.no_hand v k (h.pc_of_ne hvu ▸ hv)
  · by_cases hut : t = u
    · subst hut
      cases h <;> simp_all [Pc.queued]
    · rw [h.pc_of_ne hut]
      exact hq
  · rcases h.sem_effect hn (Pc.own_of_queued hq) with hsame | ⟨hpost, -⟩ | ⟨hwait, rfl⟩
    · rw [hsame, hsem]
    · exact absurd hpost (hs.no_hand u n)
    · cases h <;> simp_all

/-- Who is in the queue after a step was in it, or has joined it. -/
theorem Fired.queued_before (h : Fired s t s') {u : T} {n : ℕ} (hu : (s'.pc u).queued = some n) :
    (s.pc u).queued = some n ∨ (u = t ∧ s.pc t = .acqBody n ∧ s.locked ≠ 0) := by
  by_cases hut : u = t
  · subst hut
    cases h <;> simp_all [Pc.queued]
  · rw [h.pc_of_ne hut] at hu
    exact .inl hu

/-- A node leaves the list reachable from the head only to be posted. -/
theorem mem_nextQueue (hi : QueueInv s q) (h : Fired s t s') {n : ℕ} (hmem : n ∈ q) :
    n ∈ nextQueue s t q ∨ s'.pc t = .relHand n := by
  cases h with
  | @enqueue m ht _ =>
      simp only [nextQueue, ht]
      split_ifs
      · exact .inl hmem
      · exact .inl (List.mem_append_left _ hmem)
  | unlock ht hhead =>
      have hnil : q = [] := by simpa [hhead] using hi.chain
      simp [hnil] at hmem
  | @pop m ht hhead =>
      obtain ⟨q', rfl, -⟩ := Chain.exists_of_some (hhead ▸ hi.chain)
      rcases List.mem_cons.mp hmem with rfl | hmem
      · exact .inr (by simp)
      · exact .inl (by simpa [nextQueue, ht] using hmem)
  | @take m ht hz => exact .inl (by simpa [nextQueue, ht, hz] using hmem)
  | alloc ht | waitGuard ht _ | postFast ht | freeFast ht | postSlow ht | wake ht _ | freeSlow ht
  | release ht | relWaitGuard ht _ | hand ht | relPost ht =>
      exact .inl (by simpa [nextQueue, ht] using hmem)

theorem Waits.step {stranded : T → Prop} (hw : Waits stranded s q) (hi : Safe s q)
    (h : Fired s t s') :
    Waits (fun u => stranded u ∨ u = t ∧ JoinsStale s t) s' (nextQueue s t q) := by
  intro u n hu
  rcases h.queued_before hu with hold | ⟨rfl, hpc, hlocked⟩
  · have hown := Pc.own_of_queued hold
    rcases hw u n hold with hmem | ⟨v, hv⟩ | hpos | hstr
    · exact (mem_nextQueue hi.queue h hmem).imp id fun hhand => .inl ⟨t, hhand⟩
    · by_cases hvt : v = t
      · subst hvt
        cases h <;> simp_all
      · exact .inr (.inl ⟨v, by rw [h.pc_of_ne hvt, hv]⟩)
    · rcases h.sem_effect hi.nodes hown with hsame | ⟨-, hpost⟩ | ⟨hwait, rfl⟩
      · exact .inr (.inr (.inl (hsame ▸ hpos)))
      · exact .inr (.inr (.inl (by omega)))
      · -- a woken thread is out of the queue
        cases h <;> simp_all [Pc.queued]
    · exact .inr (.inr (.inr (.inl hstr)))
  · by_cases hst : Stale s
    · exact .inr (.inr (.inr (.inr ⟨rfl, by simp [enqueueEvent, hpc, hlocked], hst⟩)))
    · exact .inl (by simp [nextQueue, hpc, hlocked, hst])

end Steps

/-! ## The workers -/

/-- The mutex, and which workers have returned. -/
structure Workers (T : Type*) where
  mutex : State T
  returned : T → Bool

/-- One step of `worker`, which returns after `ns_mutex_release`; `none` if it is blocked or has
returned. -/
def workerStep [DecidableEq T] (s : Workers T) (t : T) : Option (Workers T) :=
  if s.returned t then none
  else (step s.mutex t).map fun m =>
    ⟨m, if s.mutex.pc t = .relPost then update s.returned t true else s.returned⟩

/-- The workers that `main` starts. -/
def workers (T : Type*) [DecidableEq T] : LTS (Workers T) T where
  init s := s = ⟨nsMutexInit, fun _ => false⟩
  step := workerStep

/-- The worker has joined the queue through a stale tail. -/
def JoinedStale (tr : List (Workers T × T)) (t : T) : Prop :=
  ∃ p ∈ tr, p.2 = t ∧ JoinsStale p.1.mutex t

/-- The worker has had its turn at the flag. -/
def Entered (s : Workers T) (t : T) : Prop :=
  s.returned t = true ∨ (s.mutex.pc t ≠ .idle ∧ (s.mutex.pc t).unqueued = none)

/-- What a run of the workers keeps, for the list `q` of nodes reachable from `head`. A stale tail
is left by one worker, which handed the mutex to another. -/
structure WorkersInv (tr : List (Workers T × T)) (s : Workers T) (q : List ℕ) : Prop where
  safe : Safe s.mutex q
  live : Live s.mutex
  returned : ∀ t, s.returned t = true → s.mutex.pc t = .idle
  waits : Waits (JoinedStale tr) s.mutex q
  stranded : ∀ t, JoinedStale tr t → Stranded s.mutex t
  stale : Stale s.mutex → ∃ a b, a ≠ b ∧ Entered s a ∧ Entered s b

section Workers

variable [DecidableEq T] {tr : List (Workers T × T)} {s s' : Workers T} {t : T} {q : List ℕ}

theorem workerStep_cases (h : workerStep s t = some s') :
    s.returned t = false ∧ Fired s.mutex t s'.mutex ∧
      s'.returned = if s.mutex.pc t = .relPost then update s.returned t true else s.returned := by
  unfold workerStep at h
  split at h
  case isTrue hret => cases h
  case isFalse hret =>
    obtain ⟨m, hm, rfl⟩ := Option.map_eq_some_iff.mp h
    exact ⟨by simpa using hret, fired_of_step hm, rfl⟩

omit [DecidableEq T] in
theorem joinedStale_snoc {u : T} : JoinedStale (tr ++ [(s, t)]) u ↔ JoinedStale tr u ∨ u = t ∧
    JoinsStale s.mutex t := by
  constructor
  · rintro ⟨p, hp, rfl, hjoin⟩
    rcases List.mem_append.mp hp with hp | hp
    · exact .inl ⟨p, hp, rfl, hjoin⟩
    · rw [List.mem_singleton.mp hp] at hjoin ⊢
      exact .inr ⟨rfl, hjoin⟩
  · rintro (⟨p, hp, hu, hjoin⟩ | ⟨rfl, hjoin⟩)
    · exact ⟨p, List.mem_append_left _ hp, hu, hjoin⟩
    · exact ⟨(s, u), by simp, rfl, hjoin⟩

theorem Entered.step {u : T} (he : Entered s u) (h : workerStep s t = some s') : Entered s' u := by
  obtain ⟨hret, hfire, hret'⟩ := workerStep_cases h
  by_cases hut : u = t
  · subst hut
    rcases he with he | ⟨hidle, hun⟩
    · rw [hret] at he
      cases he
    · by_cases hpost : s.mutex.pc u = .relPost
      · exact .inl (by rw [hret', if_pos hpost, Function.update_self])
      · refine .inr ?_
        generalize s'.mutex = m at hfire
        cases hfire <;> simp_all [Pc.unqueued]
  · rcases he with he | ⟨hidle, hun⟩
    · refine .inl ?_
      rw [hret']
      split_ifs
      · rwa [Function.update_of_ne hut]
      · exact he
    · exact .inr (by rw [hfire.pc_of_ne hut]; exact ⟨hidle, hun⟩)

/-- The queue is emptied behind the back of the tail by a release that hands the mutex on. -/
theorem WorkersInv.stale_step (hI : WorkersInv tr s q) (h : workerStep s t = some s')
    (hst : Stale s'.mutex) :
    ∃ a b, a ≠ b ∧ Entered s' a ∧ Entered s' b := by
  obtain ⟨-, hfire, -⟩ := workerStep_cases h
  by_cases hold : Stale s.mutex
  · obtain ⟨a, b, hab, ha, hb⟩ := hI.stale hold
    exact ⟨a, b, hab, ha.step h, hb.step h⟩
  · generalize hm : s'.mutex = m at hfire hst
    cases hfire with
    | @pop n ht hhead =>
        obtain ⟨q', rfl, -⟩ := Chain.exists_of_some (hhead ▸ hI.safe.queue.chain)
        obtain ⟨-, u, hu⟩ := hI.safe.queue.asleep n List.mem_cons_self
        have hut : t ≠ u := by
          rintro rfl
          simp [ht, Pc.queued] at hu
        refine ⟨t, u, hut, Entered.step ?_ h, Entered.step ?_ h⟩
        · exact .inr (by simp [ht, Pc.unqueued])
        · refine .inr ?_
          cases hp : s.mutex.pc u <;> simp_all [Pc.queued, Pc.unqueued]
    | @enqueue n ht _ =>
        cases htail : s.mutex.tail with
        | none =>
            have hhead := hst.1
            rw [goto_head, append_head_of_no_tail _ _ htail] at hhead
            cases hhead
        | some l =>
            have hhead := hst.1
            rw [goto_head, append_head_of_tail _ _ htail] at hhead
            exact absurd ⟨hhead, by simp [htail]⟩ hold
    | alloc _ | waitGuard _ _ | take _ _ | postFast _ | freeFast _ | postSlow _ | wake _ _
    | freeSlow _ | release _ | relWaitGuard _ _ | unlock _ _ | hand _ | relPost _ =>
        exact absurd hst hold

theorem WorkersInv.step (hI : WorkersInv tr s q) (h : workerStep s t = some s') :
    WorkersInv (tr ++ [(s, t)]) s' (nextQueue s.mutex t q) := by
  obtain ⟨hret, hfire, hret'⟩ := workerStep_cases h
  refine ⟨hI.safe.step hfire, hI.live.step hI.safe hfire, fun u hu => ?_, fun u n hu => ?_,
    fun u hu => ?_, hI.stale_step h⟩
  · by_cases hut : u = t
    · subst hut
      have hpost : s.mutex.pc u = .relPost := by
        by_contra hpost
        rw [hret', if_neg hpost, hret] at hu
        cases hu
      generalize s'.mutex = m at hfire
      cases hfire <;> simp_all
    · rw [hfire.pc_of_ne hut]
      refine hI.returned u ?_
      rw [hret'] at hu
      split_ifs at hu
      · rwa [Function.update_of_ne hut] at hu
      · exact hu
  · rw [joinedStale_snoc]
    exact hI.waits.step hI.safe hfire u n hu
  · rcases joinedStale_snoc.mp hu with hold | ⟨rfl, hjoin⟩
    · exact (hI.stranded u hold).step hI.safe.nodes hfire
    · exact stranded_of_joinsStale hI.safe hfire hjoin

theorem workersInv_of_exec (h : (workers T).Exec tr s) : ∃ q, WorkersInv tr s q := by
  induction h with
  | start hs =>
      cases hs
      refine ⟨[], safe_init, ⟨nofun, nofun⟩, fun _ _ => rfl, nofun, ?_, ?_⟩
      · rintro t ⟨p, hp, -⟩
        cases hp
      · rintro ⟨-, htail⟩
        exact absurd rfl htail
  | snoc _ hs ih =>
      obtain ⟨q, hI⟩ := ih
      exact ⟨_, hI.step hs⟩

/-! ## Where a run ends -/

/-- What holds where no worker can go on. -/
structure Stuck (s : Workers T) : Prop where
  guard : s.mutex.guard = 1
  locked : s.mutex.locked = 0
  asleep : ∀ t, s.returned t = false → ∃ n, s.mutex.pc t = .acqWait n ∧ (s.mutex.node n).sem = 0

omit [DecidableEq T] in
theorem WorkersInv.not_returned (hI : WorkersInv tr s q) (ht : s.mutex.pc t ≠ .idle) :
    s.returned t = false := by
  by_contra hret
  exact ht (hI.returned t (by simpa using hret))

theorem WorkersInv.stuck (hI : WorkersInv tr s q) (hnone : ∀ t, workerStep s t = none) :
    Stuck s := by
  have hstep : ∀ t, s.returned t = false → NsMutex.step s.mutex t = none := fun t ht => by
    simpa [workerStep, ht] using hnone t
  have hguard : s.mutex.guard ≠ 0 := by
    intro hzero
    obtain ⟨t, hin⟩ := hI.live.guard hzero
    have hret : s.returned t = false :=
      hI.not_returned fun hidle => by simp [hidle, Pc.inside] at hin
    rcases blocked_of_step_eq_none (hstep t hret) with ⟨⟨n, hpc⟩ | hpc, -⟩ | ⟨n, hpc, -⟩ <;>
      simp [hpc, Pc.inside] at hin
  have hasleep : ∀ t, s.returned t = false → ∃ n, s.mutex.pc t = .acqWait n ∧
      (s.mutex.node n).sem = 0 := by
    intro t ht
    rcases blocked_of_step_eq_none (hstep t ht) with ⟨-, hzero⟩ | hwait
    · exact absurd hzero hguard
    · exact hwait
  refine ⟨?_, ?_, hasleep⟩
  · have hle := hI.safe.guard.le_one
    omega
  · by_contra hlocked
    obtain ⟨t, hown⟩ := hI.live.locked hlocked
    have hret : s.returned t = false := hI.not_returned fun hidle => by
      rcases hown with hown | ⟨n, hpc, -⟩
      · simp [hidle, Pc.holds] at hown
      · simp [hidle] at hpc
    obtain ⟨n, hpc, hsem⟩ := hasleep t hret
    rcases hown with hown | ⟨m, hpc', hpos⟩
    · simp [hpc, Pc.holds] at hown
    · obtain rfl : n = m := Pc.acqWait.inj (hpc.symm.trans hpc')
      omega

omit [DecidableEq T] in
/-- At the end exactly the workers that joined through a stale tail have not returned. -/
theorem WorkersInv.returned_iff (hI : WorkersInv tr s q) (hs : Stuck s) (t : T) :
    s.returned t = true ↔ ¬ JoinedStale tr t := by
  constructor
  · intro hret hjoined
    obtain ⟨n, hq, -⟩ := (hI.stranded t hjoined).asleep
    simp [hI.returned t hret, Pc.queued] at hq
  · intro hjoined
    by_contra hret
    obtain ⟨n, hpc, hsem⟩ := hs.asleep t (by simpa using hret)
    rcases hI.waits t n (by simp [hpc, Pc.queued]) with hmem | ⟨u, hu⟩ | hpos | hstale
    · exact hI.safe.lock.queue_locked (List.ne_nil_of_mem hmem) hs.locked
    · obtain ⟨m, hpc', -⟩ := hs.asleep u (hI.not_returned (by simp [hu]))
      simp [hu] at hpc'
    · omega
    · exact hjoined hstale

omit [DecidableEq T] in
/-- Who joins through a stale tail is the third worker. -/
theorem WorkersInv.two_lt_card [Fintype T] (hI : WorkersInv tr s q) (hjoin : JoinsStale s.mutex t) :
    2 < Fintype.card T := by
  obtain ⟨hev, hst⟩ := hjoin
  obtain ⟨a, b, hab, ha, hb⟩ := hI.stale hst
  have hnot : ¬ Entered s t := by
    unfold enqueueEvent at hev
    rintro (hret | ⟨-, hun⟩)
    · simp [hI.returned t hret] at hev
    · cases hpc : s.mutex.pc t <;> simp_all [Pc.unqueued]
  refine Fintype.two_lt_card_iff.mpr ⟨a, b, t, hab, ?_, ?_⟩
  · rintro rfl
    exact hnot ha
  · rintro rfl
    exact hnot hb

theorem exists_prefix_of_joinedStale (h : (workers T).Exec tr s) (hjoined : JoinedStale tr t) :
    ∃ tr' u, (workers T).Exec tr' u ∧ JoinsStale u.mutex t := by
  obtain ⟨p, hp, -, hjoin⟩ := hjoined
  obtain ⟨tr', -, hex⟩ := h.exists_prefix (t := p.1)
    (List.mem_append_left _ (List.mem_map_of_mem hp))
  exact ⟨tr', p.1, hex, hjoin⟩

/-! ## More workers -/

section Rename

variable {ι : Type*} [DecidableEq ι] {f : ι → T} {g : T → Option ι}

/-- The mutex with more threads: `g` gives the old name of a thread, and the new ones are at the
start. -/
def State.rename (g : T → Option ι) (s : State ι) : State T :=
  { s with pc := fun t => (g t).elim .idle s.pc }

def Workers.rename (g : T → Option ι) (s : Workers ι) : Workers T :=
  ⟨s.mutex.rename g, fun t => (g t).elim false s.returned⟩

theorem elim_update (hg : Function.IsPartialInv f g) {α : Type*} (h : ι → α) (e x : α) (i : ι) :
    (fun t => (g t).elim e (update h i x)) = update (fun t => (g t).elim e h) (f i) x := by
  funext t
  by_cases ht : t = f i
  · subst ht
    simp [(hg i (f i)).mpr rfl]
  · rw [Function.update_of_ne ht]
    cases hj : g t with
    | none => rfl
    | some j =>
        have hji : j ≠ i := fun heq => ht (heq ▸ ((hg j t).mp hj).symm)
        simp [hji]

theorem rename_goto (hg : Function.IsPartialInv f g) (s : State ι) (i : ι) (p : Pc) :
    (s.goto i p).rename g = (s.rename g).goto (f i) p := by
  simp only [State.rename, State.goto, elim_update hg]

omit [DecidableEq T] [DecidableEq ι] in
theorem rename_append (s : State ι) (n : ℕ) : (s.append n).rename g = (s.rename g).append n := by
  have htail : (s.rename g).tail = s.tail := rfl
  unfold State.append
  rw [htail]
  cases s.tail <;> rfl

/-- A step of an old thread is one with more threads. -/
theorem step_rename (hg : Function.IsPartialInv f g) (s : State ι) (i : ι) :
    step (s.rename g) (f i) = (step s i).map (State.rename g) := by
  have hpc : (s.rename g).pc (f i) = s.pc i := by simp [State.rename, (hg i (f i)).mpr rfl]
  unfold step
  rw [hpc]
  cases s.pc i <;> simp only [Option.map_some, rename_goto hg]
  case acqGuard n | relGuard =>
    by_cases hguard : 0 < s.guard
    · rw [if_pos hguard, Option.map_some, rename_goto hg]
      exact if_pos hguard
    · rw [if_neg hguard]
      exact if_neg hguard
  case acqBody n =>
    by_cases hlocked : s.locked = 0
    · rw [if_pos hlocked, Option.map_some, rename_goto hg]
      exact if_pos hlocked
    · rw [if_neg hlocked, Option.map_some, rename_goto hg, rename_append]
      exact if_neg hlocked
  case acqWait n =>
    by_cases hsem : 0 < (s.node n).sem
    · rw [if_pos hsem, Option.map_some, rename_goto hg]
      exact if_pos hsem
    · rw [if_neg hsem]
      exact if_neg hsem
  case relBody =>
    have hhead : (s.rename g).head = s.head := rfl
    rw [hhead]
    cases s.head <;> simp only [Option.map_some, rename_goto hg] <;> rfl
  all_goals rfl

theorem workerStep_rename (hg : Function.IsPartialInv f g) (s : Workers ι) (i : ι) :
    workerStep (s.rename g) (f i) = (workerStep s i).map (Workers.rename g) := by
  have hpc : (s.rename g).mutex.pc (f i) = s.mutex.pc i := by
    simp [Workers.rename, State.rename, (hg i (f i)).mpr rfl]
  have hret : (s.rename g).returned (f i) = s.returned i := by
    simp [Workers.rename, (hg i (f i)).mpr rfl]
  have hmutex : (s.rename g).mutex = s.mutex.rename g := rfl
  unfold workerStep
  rw [hret, hpc, hmutex, step_rename hg]
  by_cases hr : s.returned i = true
  · rw [if_pos hr, if_pos hr, Option.map_none]
  · rw [if_neg hr, if_neg hr, Option.map_map, Option.map_map]
    congr 1
    funext m
    simp only [Function.comp_apply, Workers.rename]
    split_ifs
    · rw [elim_update hg]
    · rfl

theorem run_rename (hg : Function.IsPartialInv f g) {s s' : Workers ι} {as : List ι}
    (h : (workers ι).run s as = some s') :
    (workers T).run (s.rename g) (as.map f) = some (s'.rename g) := by
  induction as generalizing s with
  | nil =>
      obtain rfl : s = s' := by simpa [LTS.run] using h
      rfl
  | cons i as ih =>
      rw [LTS.run, Option.bind_eq_some_iff] at h
      obtain ⟨m, hm, hrun⟩ := h
      have hstep : (workers T).step (s.rename g) (f i) = some (m.rename g) := by
        have hm' : workerStep s i = some m := hm
        exact (workerStep_rename hg s i).trans (by rw [hm', Option.map_some])
      rw [List.map_cons, LTS.run, hstep]
      exact ih hrun

omit [DecidableEq T] [DecidableEq ι] in
theorem joinsStale_rename (hg : Function.IsPartialInv f g) {s : Workers ι} {i : ι}
    (h : JoinsStale s.mutex i) : JoinsStale (s.rename g).mutex (f i) := by
  refine ⟨?_, h.2⟩
  have hpc : (s.rename g).mutex.pc (f i) = s.mutex.pc i := by
    simp [Workers.rename, State.rename, (hg i (f i)).mpr rfl]
  have hlocked : (s.rename g).mutex.locked = s.mutex.locked := rfl
  obtain ⟨hev, -⟩ := h
  unfold enqueueEvent at hev ⊢
  rw [hpc, hlocked]
  cases hp : s.mutex.pc i <;> simp_all

end Rename

/-- Three of the workers. -/
inductive Turn
  | first | second | third
  deriving DecidableEq, Repr

/-- The first worker has the mutex, the second one queues, and the first one hands it over and
returns; the third one is about to join. -/
def thirdJoins : List Turn :=
  List.replicate 5 .first ++ List.replicate 4 .second ++ List.replicate 5 .first ++
    List.replicate 2 .third

def three (a b c : T) : Turn → T
  | .first => a
  | .second => b
  | .third => c

/-- The turn of a worker, if it is one of the three. -/
def turn (a b c : T) (t : T) : Option Turn :=
  if t = a then some .first else if t = b then some .second else if t = c then some .third else none

theorem isPartialInv_three {a b c : T} (hab : a ≠ b) (hac : a ≠ c) (hbc : b ≠ c) :
    Function.IsPartialInv (three a b c) (turn a b c) := by
  intro i t
  cases i <;> grind [three, turn]

/-- A third worker can join through the tail that the hand-over between the first two left. -/
theorem exists_joinsStale {a b c : T} (hab : a ≠ b) (hac : a ≠ c) (hbc : b ≠ c) :
    ∃ tr s, (workers T).Exec tr s ∧ s.returned c = false ∧ JoinsStale s.mutex c := by
  have hg := isPartialInv_three hab hac hbc
  have hcheck : ((workers Turn).run ⟨nsMutexInit, fun _ => false⟩ thirdJoins).any
      (fun s => !s.returned .third && decide (JoinsStale s.mutex .third)) = true := by decide
  rw [Option.any_eq_true] at hcheck
  obtain ⟨s, hrun, hs⟩ := hcheck
  simp only [Bool.and_eq_true, Bool.not_eq_eq_eq_not, Bool.not_true, decide_eq_true_eq] at hs
  have hstart :
      (workers T).init ((⟨nsMutexInit, fun _ => false⟩ : Workers Turn).rename (turn a b c)) := by
    have hpc : ∀ (α : Type) (x : α), (fun t => (turn a b c t).elim x fun _ => x) = fun _ => x := by
      intro α x
      funext t
      cases turn a b c t <;> rfl
    simp [workers, Workers.rename, State.rename, nsMutexInit, hpc]
  refine ⟨_, _, (LTS.Exec.start hstart).run (run_rename hg hrun), ?_, joinsStale_rename hg hs.2⟩
  have hturn : turn a b c c = some .third := (hg .third c).mpr rfl
  simp [Workers.rename, hturn, hs.1]

/-! ## Every run ends -/

/-- The steps a worker has still to take, at most. -/
def Pc.left : Pc → ℕ
  | .idle => 11
  | .acqGuard _ => 10
  | .acqBody _ => 9
  | .acqPostFast _ | .acqPostSlow _ => 8
  | .freeFast _ | .acqWait _ => 7
  | .freeSlow _ => 6
  | .critical => 5
  | .relGuard => 4
  | .relBody => 3
  | .relHand _ => 2
  | .relPost => 1

def left (s : Workers T) (t : T) : ℕ := if s.returned t then 0 else (s.mutex.pc t).left

theorem left_lt (h : workerStep s t = some s') : left s' t < left s t := by
  obtain ⟨hret, hfire, hret'⟩ := workerStep_cases h
  rw [left, left, hret', hret]
  generalize s'.mutex = m at hfire
  cases hfire <;> simp_all [Pc.left]

theorem left_of_ne (h : workerStep s t = some s') {u : T} (hu : u ≠ t) : left s' u = left s u := by
  obtain ⟨-, hfire, hret'⟩ := workerStep_cases h
  rw [left, left, hret', hfire.pc_of_ne hu]
  split_ifs <;> simp_all

omit [DecidableEq T] in
theorem JoinedStale.append (h : JoinedStale tr t) (tr' : List (Workers T × T)) :
    JoinedStale (tr ++ tr') t := by
  obtain ⟨p, hp, heq, hjoin⟩ := h
  exact ⟨p, List.mem_append_left _ hp, heq, hjoin⟩

/-- A worker that is about to join does so. -/
theorem exists_step_of_joinsStale (hret : s.returned t = false) (hjoin : JoinsStale s.mutex t) :
    ∃ s', workerStep s t = some s' := by
  have hev := hjoin.1
  unfold enqueueEvent at hev
  cases hpc : s.mutex.pc t <;> simp [hpc] at hev
  simp [workerStep, hret, step, hpc, hev]

theorem workers_terminate [Fintype T] :
    (workers T).Terminates (Fintype.card T * 11) Stuck := by
  refine LTS.terminates_of_measure (fun s => ∑ t, left s t) ?_ (fun s t s' _ h => ?_)
    fun s hs hnone => ?_
  · rintro s rfl
    simp [left, nsMutexInit, Pc.left]
  · refine Finset.sum_lt_sum (fun u _ => ?_) ⟨t, Finset.mem_univ t, left_lt h⟩
    by_cases hu : u = t
    · subst hu
      exact (left_lt h).le
    · exact (left_of_ne h hu).le
  · obtain ⟨tr, hex⟩ := hs
    obtain ⟨q, hI⟩ := workersInv_of_exec hex
    exact hI.stuck hnone

end Workers

/-- **When `mutex-nostarve.c` hangs.** Every run of the workers ends after at most eleven steps for
each, with the mutex and its guard free, and then exactly those workers have not returned that
joined the queue through a stale tail. All workers return in every run if and only if there are at
most two of them. -/
theorem mutex_nostarve_ends_iff (T : Type*) [Fintype T] [DecidableEq T] :
    (∀ tr s, (workers T).Exec tr s → tr.length ≤ Fintype.card T * 11 ∧
      ((∀ t, (workers T).step s t = none) → s.mutex.locked = 0 ∧ s.mutex.guard = 1 ∧
        ∀ t, s.returned t = true ↔ ¬ JoinedStale tr t)) ∧
    ((∀ tr s, (workers T).Exec tr s → (∀ t, (workers T).step s t = none) →
      ∀ t, s.returned t = true) ↔ Fintype.card T ≤ 2) := by
  have hend : ∀ tr s, (workers T).Exec tr s → (∀ t, (workers T).step s t = none) →
      s.mutex.locked = 0 ∧ s.mutex.guard = 1 ∧ ∀ t, s.returned t = true ↔ ¬ JoinedStale tr t := by
    intro tr s hex hnone
    obtain ⟨q, hI⟩ := workersInv_of_exec hex
    have hstuck := hI.stuck hnone
    exact ⟨hstuck.locked, hstuck.guard, hI.returned_iff hstuck⟩
  refine ⟨fun tr s hex => ⟨workers_terminate.length_le hex, hend tr s hex⟩, fun hall => ?_,
    fun hcard tr s hex hnone t => ?_⟩
  · by_contra hcard
    obtain ⟨a, b, c, hab, hac, hbc⟩ := Fintype.two_lt_card_iff.mp (Nat.lt_of_not_le hcard)
    obtain ⟨tr, s, hex, hret, hjoin⟩ := exists_joinsStale hab hac hbc
    obtain ⟨s', hstep⟩ := exists_step_of_joinsStale hret hjoin
    have hjoined : JoinedStale (tr ++ [(s, c)]) c := joinedStale_snoc.mpr (.inr ⟨rfl, hjoin⟩)
    obtain ⟨as, u, hrun, hnone⟩ := workers_terminate.exists_stuck (hex.snoc hstep)
    have hexu := (hex.snoc hstep).run hrun
    have hreturned := ((hend _ u hexu hnone).2.2 c).mp (hall _ u hexu hnone c)
    exact hreturned (hjoined.append _)
  · refine ((hend tr s hex hnone).2.2 t).mpr fun hjoined => ?_
    obtain ⟨tr', u, hex', hjoin⟩ := exists_prefix_of_joinedStale hex hjoined
    obtain ⟨q, hI⟩ := workersInv_of_exec hex'
    have hlt := hI.two_lt_card hjoin
    omega

end Osvcp.NsMutex
