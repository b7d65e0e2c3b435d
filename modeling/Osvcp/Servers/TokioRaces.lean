import Osvcp.Servers.TokioServer

/-! # Races in the Tokio server

The lock of the cache is held for a lookup or an insertion, not from the one to the other: between
the read of a file and the insertion of the response a task may wait for its client as long as the
client likes. A clear in between has no effect on that response, so that content from before the
clear is cached after it. And of two tasks that miss on the same file, the one that read first may
insert last. The two run theorems say that nothing else goes wrong: clears take effect if none falls
between a read and its insertion, and content never goes back in time if no two tasks work on the
same missing entry at once.
-/

namespace Osvcp.Servers.TokioServer

/-- The connections after a step of task `i`. -/
theorem State.forall_conns {s : State} {i : ℕ} {op : Op} {e : Effect} {Q : ℕ → Conn → Prop}
    (h : ∀ j, j ≠ i → Q j (s.conns j))
    (hi : ∀ c, c = (s.conns i).begin s.now s.cleared op →
      Q i { c with pc := e.pc, sent := c.sent ++ e.sent }) :
    ∀ j, Q j ((s.apply i op e).conns j) := by
  intro j
  by_cases hj : j = i
  · subst hj
    simp only [apply, Function.update_self]
    exact hi _ rfl
  · simp only [apply, Function.update_of_ne hj]
    exact h j hj

/-- The deliveries after a step. -/
theorem State.mem_log {s : State} {i : ℕ} {op : Op} {e : Effect} {d : Delivery}
    (h : d ∈ (s.apply i op e).log) : d ∈ s.log ∨ ∃ p c, e.delivered = some p ∧
      c = (s.conns i).begin s.now s.cleared op ∧ d = ⟨p.1, c.started, c.cleared, s.now, p.2⟩ := by
  rcases List.mem_append.mp h with hold | hnew
  · exact .inl hold
  · obtain ⟨p, hp, rfl⟩ := Option.map_eq_some_iff.mp (Option.mem_toList.mp hnew)
    exact .inr ⟨p, _, hp, rfl, rfl⟩

/-- The entries after a step. -/
theorem State.get_apply {s : State} {i : ℕ} {op : Op} {e : Effect} {path : CanonPath}
    {entry : Entry} (h : (s.apply i op e).cache.get path = some entry) :
    s.cache.get path = some entry ∨ e.stored = some (path, entry) := by
  unfold apply at h
  cases hstored : e.stored with
  | none =>
      rw [hstored] at h
      exact .inl h
  | some p =>
      rw [hstored] at h
      rcases FileCache.get_insert h with hold | ⟨rfl, rfl⟩
      · exact .inl hold
      · exact .inr rfl

/-! ## Clears -/

/-- A clear takes effect: the entries were read after the last clear, and what was delivered for a
request was read after the last clear before the request. -/
structure ClearTakesEffect (s : State) : Prop where
  cache : ∀ path entry, s.cache.get path = some entry → s.cleared < entry.readAt ∧
    Stamped entry.readAt path.bytes entry.resp
  delivered : ∀ d ∈ s.log, d.cleared < d.stamp

/-- A clear comes only while no task has read a response that it has not stored. -/
def ClearsWhenStored (s : State) : Action → Prop
  | .clear => ∀ i, (s.conns i).pc.unstored = none
  | _ => True

/-- What a task holds was read after the last clear: what it may yet store, and, as seen from the
start of its request, what it is about to deliver. -/
structure ConnCurrent (cleared : ℕ) (c : Conn) : Prop where
  cleared_le : c.cleared ≤ cleared
  unstored : ∀ path entry, c.pc.unstored = some (path, entry) → cleared < entry.readAt ∧
    Stamped entry.readAt path.bytes entry.resp
  pending : ∀ path t, c.pc.pending = some (path, t) → c.cleared < t

/-- The invariant behind `ClearTakesEffect`. -/
structure Current (s : State) : Prop extends ClearTakesEffect s where
  cleared_lt : s.cleared < s.now
  conn : ∀ i, ConnCurrent s.cleared (s.conns i)

/-- The start of a request comes after the last clear. -/
theorem ConnCurrent.begin {s : State} {c : Conn} (h : ConnCurrent s.cleared c) (op : Op) :
    (c.begin s.now s.cleared op).cleared ≤ s.cleared := by
  cases op with
  | request name canonicalize => exact Nat.le_refl _
  | _ => exact h.cleared_le

theorem Current.apply {s : State} (hs : Current s) {i : ℕ} {op : Op} {e : Effect}
    (hmove : Move s.now s.cache (s.conns i).pc op e) : Current (s.apply i op e) := by
  have hi := hs.conn i
  refine ⟨⟨?_, ?_⟩, Nat.lt_succ_of_lt hs.cleared_lt, ?_⟩
  · intro path entry h
    rcases State.get_apply h with hold | hnew
    · exact hs.cache path entry hold
    · exact hi.unstored path entry (hmove.stored hnew)
  · intro d hd
    rcases State.mem_log hd with hold | ⟨p, c, hp, rfl, rfl⟩
    · exact hs.delivered d hold
    · obtain ⟨hpending, rs, rfl⟩ := hmove.delivered hp
      exact hi.pending p.1 p.2 hpending
  · refine State.forall_conns (Q := fun _ c => ConnCurrent s.cleared c) (fun j _ => hs.conn j) ?_
    rintro c rfl
    have hle := hi.begin op
    refine ⟨hle, fun path entry h => ?_, fun path t h => ?_⟩
    · rcases hmove.unstored h with hold | ⟨hread, hresp⟩
      · exact hi.unstored path entry hold
      · rw [hread]
        exact ⟨hs.cleared_lt, hresp⟩
    · -- a hit is of an entry that was read after the last clear, so after the start of the request
      rcases hmove.pending h with rfl | ⟨entry, hget, rfl⟩
      · exact Nat.lt_of_le_of_lt hle hs.cleared_lt
      · exact Nat.lt_of_le_of_lt hle (hs.cache path entry hget).1

/-- **Clears take effect** in every state of every run in which none comes between a read and the
insertion of the response. -/
theorem clearTakesEffect_of_clears_when_stored (root : DocRoot)
    {tr : List (State × Action)} {s : State} (h : (lts root).Exec tr s)
    (hok : ∀ p ∈ tr, ClearsWhenStored p.1 p.2) :
    ∀ t ∈ LTS.visited tr s, ClearTakesEffect t := by
  suffices hcurrent : ∀ t ∈ LTS.visited tr s, Current t from
    fun t ht => (hcurrent t ht).toClearTakesEffect
  refine h.invariant_visited ClearsWhenStored ?_ ?_ hok
  · rintro s rfl
    exact ⟨⟨nofun, nofun⟩, Nat.zero_lt_one, fun _ => ⟨Nat.le_refl _, nofun, nofun⟩⟩
  · intro s a t hs hok hstep
    cases a with
    | task i op =>
        obtain ⟨e, he, rfl⟩ := Option.map_eq_some_iff.mp hstep
        exact hs.apply (serve_cases he)
    | change =>
        cases hstep
        exact ⟨⟨hs.cache, hs.delivered⟩, Nat.lt_succ_of_lt hs.cleared_lt, hs.conn⟩
    | clear =>
        cases hstep
        refine ⟨⟨nofun, hs.delivered⟩, Nat.lt_succ_self _, fun i => ?_⟩
        have hi := hs.conn i
        refine ⟨Nat.le_trans hi.cleared_le (Nat.le_of_lt hs.cleared_lt), fun path entry h => ?_,
          hi.pending⟩
        exact absurd ((hok i).symm.trans h) nofun

/-- A request is answered and its response stored before (`early`) or after a clear; then the file
is asked for again. -/
def clearRun (early : Bool) : List Action :=
  Example.ask 0 ++ Example.read 0 104 ++
    (if early then Example.send 0 ++ Example.store 0 ++ [.clear]
      else [.clear] ++ Example.send 0 ++ Example.store 0) ++
    Example.ask 1 ++ (if early then Example.read 1 105 else []) ++ Example.send 1

/-- The two tasks of that run alone move, and neither holds a response unstored at a clear. -/
def clearsStored (p : State × Action) : Bool :=
  match p.2 with
  | .task i _ => decide (i < 2)
  | .clear => (List.range 2).all fun i => (p.1.conns i).pc.unstored.isNone
  | .change => true

/-- A clear after the insertion. -/
theorem clearTakesEffect_of_clears_when_stored_clearRun :
    ∃ s, (lts DocRoot.Example.root).Exec
      ((lts DocRoot.Example.root).trace Example.start (clearRun true)) s ∧
      s.cleared = 8 ∧ s.log.map Delivery.stamp = [5, 13] ∧ ClearTakesEffect s := by
  obtain ⟨s, hs, hcheck⟩ := LTS.exec_of_run_any (lts DocRoot.Example.root) Example.start
    (clearRun true) (fun s => s.cleared = 8 ∧ s.log.map Delivery.stamp = [5, 13]) rfl
    (by decide +kernel)
  obtain ⟨hcleared, hlog⟩ := of_decide_eq_true hcheck
  have hsteps : ((lts DocRoot.Example.root).trace Example.start (clearRun true)).all clearsStored =
      true := by
    decide +kernel
  have hunused := waiting_of_unused hs (n := 2) fun p hp i op hop => by
    have hstep := List.all_eq_true.mp hsteps p hp
    rw [clearsStored, hop] at hstep
    exact of_decide_eq_true hstep
  refine ⟨s, hs, hcleared, hlog, ?_⟩
  refine clearTakesEffect_of_clears_when_stored DocRoot.Example.root hs ?_ s
    (LTS.last_mem_visited _ _)
  rintro ⟨t, a⟩ hp
  have hstep := List.all_eq_true.mp hsteps (t, a) hp
  cases a with
  | clear =>
      intro i
      by_cases hi : i < 2
      · exact Option.isNone_iff_eq_none.mp (List.all_eq_true.mp hstep i (List.mem_range.mpr hi))
      · rw [hunused t (LTS.mem_visited_of_mem hp) i (by omega)]
        rfl
  | _ => trivial

/-- **The defect.** After a clear between the read and the insertion, what was read before it is
cached, and answers a request that starts later. -/
theorem clearRun_not_clearTakesEffect :
    ∃ s, (lts DocRoot.Example.root).Exec
      ((lts DocRoot.Example.root).trace Example.start (clearRun false)) s ∧
      s.cleared = 6 ∧ (s.cache.get DocRoot.Example.path).map Entry.readAt = some 5 ∧
      s.log.map (fun d => (d.started, d.stamp)) = [(1, 5), (9, 5)] ∧ ¬ClearTakesEffect s := by
  obtain ⟨s, hs, hcheck⟩ := LTS.exec_of_run_any (lts DocRoot.Example.root) Example.start
    (clearRun false) (fun s => s.cleared = 6 ∧
      (s.cache.get DocRoot.Example.path).map Entry.readAt = some 5 ∧
      s.log.map (fun d => (d.started, d.stamp)) = [(1, 5), (9, 5)]) rfl (by decide +kernel)
  obtain ⟨hcleared, hcache, hlog⟩ := of_decide_eq_true hcheck
  refine ⟨s, hs, hcleared, hcache, hlog, fun h => ?_⟩
  obtain ⟨entry, hget, hread⟩ := Option.map_eq_some_iff.mp hcache
  have hlt := (h.cache _ entry hget).1
  omega

/-! ## Overlapping misses -/

/-- Content never goes back in time: an insertion never replaces an entry by an older one, and what
is delivered for a request that started after a delivery for the same file was completed is not
older. -/
structure NoGoingBack (s : State) : Prop where
  insert : ∀ i path entry old, (s.conns i).pc = .insert path entry → s.cache.get path = some old →
    old.readAt ≤ entry.readAt
  deliver : ∀ a ∈ s.log, ∀ b ∈ s.log, a.path = b.path → a.completed < b.started → a.stamp ≤ b.stamp

/-- A lookup misses only while no other task works on the same missing entry. -/
def MissesAlone (s : State) : Action → Prop
  | .task i .lookup => ∀ path, (s.conns i).pc = .lookup path → s.cache.get path = none →
      ∀ j, (s.conns j).pc.missing ≠ some path
  | _ => True

/-- Everything that was or will be delivered from former entries of a file is at most as new as
`t`. -/
structure Settled (s : State) (path : CanonPath) (t : ℕ) : Prop where
  log : ∀ d ∈ s.log, d.path = path → d.stamp ≤ t
  hit : ∀ j entry, (s.conns j).pc = .hit path entry → entry.readAt ≤ t

/-- The invariant behind `NoGoingBack`: at most one task works on the missing entry of a file, and
what it has read, like the entry of a file, is at least as new as all that came before. -/
structure Ordered (s : State) : Prop where
  log : ∀ d ∈ s.log, d.stamp < s.now ∧ d.completed < s.now ∧ d.started < s.now
  deliver : ∀ a ∈ s.log, ∀ b ∈ s.log, a.path = b.path → a.completed < b.started → a.stamp ≤ b.stamp
  started : ∀ i, (s.conns i).started < s.now
  pending : ∀ i path t, (s.conns i).pc.pending = some (path, t) → t < s.now ∧
    ∀ d ∈ s.log, d.path = path → d.completed < (s.conns i).started → d.stamp ≤ t
  unstored : ∀ i path entry, (s.conns i).pc.unstored = some (path, entry) → entry.readAt < s.now ∧
    Settled s path entry.readAt
  cached : ∀ path entry, s.cache.get path = some entry → entry.readAt < s.now ∧
    Settled s path entry.readAt
  alone : ∀ i j path, (s.conns i).pc.missing = some path →
    (s.conns j).pc.missing = some path → i = j
  absent : ∀ i path, (s.conns i).pc.missing = some path → s.cache.get path = none

section

variable {s : State} {i : ℕ} {op : Op} {e : Effect} {path : CanonPath} {t : ℕ}

/-- A step delivers and hits nothing newer. -/
theorem Settled.apply (h : Settled s path t)
    (hdelivered : ∀ u, e.delivered = some (path, u) → u ≤ t)
    (hhit : ∀ entry, e.pc = .hit path entry → entry.readAt ≤ t) :
    Settled (s.apply i op e) path t where
  log d hd hpath := by
    rcases State.mem_log hd with hold | ⟨p, c, hp, -, rfl⟩
    · exact h.log d hold hpath
    · subst hpath
      exact hdelivered p.2 hp
  hit := State.forall_conns (Q := fun _ c => ∀ entry, c.pc = .hit path entry → entry.readAt ≤ t)
    (fun j _ => h.hit j) fun _ _ => hhit

/-- All that was read so far is older than what is read now. -/
theorem Ordered.settled_now (hs : Ordered s) (path : CanonPath) : Settled s path s.now where
  log d hd _ := Nat.le_of_lt (hs.log d hd).1
  hit j entry h := by
    have hpending : (s.conns j).pc.pending = some (path, entry.readAt) := by rw [h]; rfl
    exact Nat.le_of_lt (hs.pending j path _ hpending).1

/-- The step of a task whose effect is no newer than the entries and the reads of other tasks. -/
theorem Ordered.settled_apply (hs : Ordered s) (hmove : Move s.now s.cache (s.conns i).pc op e)
    (h : Settled s path t)
    (hnew : (∃ entry, s.cache.get path = some entry ∧ entry.readAt = t) ∨
      ∃ j entry, (s.conns j).pc.unstored = some (path, entry) ∧ entry.readAt = t) :
    Settled (s.apply i op e) path t := by
  -- a task that works on the missing entry of the file is the one that has read it
  have hwindow : (s.conns i).pc.missing = some path →
      ∃ entry, (s.conns i).pc.unstored = some (path, entry) ∧ entry.readAt = t := by
    intro hmissing
    rcases hnew with ⟨entry, hget, -⟩ | ⟨j, entry, hj, hread⟩
    · exact absurd ((hs.absent i path hmissing).symm.trans hget) nofun
    · obtain rfl := hs.alone i j path hmissing (Pc.missing_of_unstored hj)
      exact ⟨entry, hj, hread⟩
  generalize hpc : (s.conns i).pc = pc at hmove hwindow
  cases hmove with
  | quiet _ _ hpending hdelivered _ =>
      refine h.apply (fun u hu => absurd (hdelivered.symm.trans hu) nofun) fun entry he => ?_
      rw [he] at hpending
      cases hpending
  | hit hget =>
      refine h.apply nofun fun entry he => ?_
      cases he
      rcases hnew with ⟨entry', hget', hread⟩ | ⟨j, entry', hj, -⟩
      · obtain rfl := Option.some_inj.mp (hget.symm.trans hget')
        exact Nat.le_of_eq hread
      · exact absurd ((hs.absent j path (Pc.missing_of_unstored hj)).symm.trans hget) nofun
  | sendHit sent =>
      refine h.apply (fun u hu => ?_) nofun
      cases hu
      exact h.hit i _ hpc
  | send sent =>
      refine h.apply (fun u hu => ?_) nofun
      cases hu
      obtain ⟨entry, hentry, hread⟩ := hwindow rfl
      cases hentry
      exact Nat.le_of_eq hread
  | sendChunk sent =>
      refine h.apply (fun u hu => ?_) nofun
      cases hu
      obtain ⟨entry, hentry, -⟩ := hwindow rfl
      cases hentry
  | miss hget => exact h.apply nofun nofun
  | read body => exact h.apply nofun nofun
  | chunk chunk => exact h.apply nofun nofun
  | insert => exact h.apply nofun nofun

theorem Conn.begin_started_le (c : Conn) {now : ℕ} (h : c.started < now) (cleared : ℕ) (op : Op) :
    (c.begin now cleared op).started ≤ now := by
  cases op with
  | request name canonicalize => exact Nat.le_refl _
  | _ => exact Nat.le_of_lt h

/-- What a task works on as missing is not in the cache, and no other task works on it. -/
theorem Ordered.missing_apply (hs : Ordered s) (hok : MissesAlone s (.task i op))
    (hmove : Move s.now s.cache (s.conns i).pc op e) (h : e.pc.missing = some path) :
    s.cache.get path = none ∧ ∀ j, j ≠ i → (s.conns j).pc.missing ≠ some path := by
  rcases hmove.missing h with hold | ⟨hpc, rfl, hget⟩
  · exact ⟨hs.absent i path hold, fun j hj hj' => hj (hs.alone j i path hj' hold)⟩
  · exact ⟨hget, fun j _ => hok path hpc hget j⟩

theorem Ordered.log_apply (hs : Ordered s) (hmove : Move s.now s.cache (s.conns i).pc op e) :
    ∀ d ∈ (s.apply i op e).log, d.stamp < s.now + 1 ∧ d.completed < s.now + 1 ∧
      d.started < s.now + 1 := by
  have hstarted := (s.conns i).begin_started_le (hs.started i) s.cleared op
  intro d hd
  rcases State.mem_log hd with hold | ⟨p, c, hp, rfl, rfl⟩
  · obtain ⟨hstamp, hcompleted, hbegun⟩ := hs.log d hold
    exact ⟨Nat.lt_succ_of_lt hstamp, Nat.lt_succ_of_lt hcompleted, Nat.lt_succ_of_lt hbegun⟩
  · obtain ⟨hpending, -⟩ := hmove.delivered hp
    have hlt := (hs.pending i p.1 p.2 hpending).1
    exact ⟨Nat.lt_succ_of_lt hlt, Nat.lt_succ_self _, Nat.lt_succ_of_le hstarted⟩

theorem Ordered.deliver_apply (hs : Ordered s) (hmove : Move s.now s.cache (s.conns i).pc op e) :
    ∀ a ∈ (s.apply i op e).log, ∀ b ∈ (s.apply i op e).log, a.path = b.path →
      a.completed < b.started → a.stamp ≤ b.stamp := by
  have hstarted := (s.conns i).begin_started_le (hs.started i) s.cleared op
  intro a ha b hb hpath hlt
  rcases State.mem_log ha with hold | ⟨p, c, hp, rfl, rfl⟩
  · rcases State.mem_log hb with hold' | ⟨p, c, hp, rfl, rfl⟩
    · exact hs.deliver a hold b hold' hpath hlt
    · obtain ⟨hpending, rs, rfl⟩ := hmove.delivered hp
      exact (hs.pending i p.1 p.2 hpending).2 a hold hpath hlt
  · -- what is delivered now is completed after every request has started
    rcases State.mem_log hb with hold' | ⟨p', c', -, rfl, rfl⟩
    · exact absurd hlt (Nat.not_lt_of_lt (hs.log b hold').2.2)
    · exact absurd hlt (Nat.not_lt_of_le hstarted)

theorem Ordered.pending_apply (hs : Ordered s) (hmove : Move s.now s.cache (s.conns i).pc op e) :
    ∀ j path t, ((s.apply i op e).conns j).pc.pending = some (path, t) → t < s.now + 1 ∧
      ∀ d ∈ (s.apply i op e).log, d.path = path → d.completed < ((s.apply i op e).conns j).started →
        d.stamp ≤ t := by
  have hstarted := (s.conns i).begin_started_le (hs.started i) s.cleared op
  refine State.forall_conns (Q := fun _ c => ∀ path t, c.pc.pending = some (path, t) →
    t < s.now + 1 ∧ ∀ d ∈ (s.apply i op e).log, d.path = path → d.completed < c.started →
      d.stamp ≤ t) ?_ ?_
  · intro j _ path t h
    obtain ⟨hlt, hold⟩ := hs.pending j path t h
    refine ⟨Nat.lt_succ_of_lt hlt, fun d hd hpath hcompleted => ?_⟩
    rcases State.mem_log hd with hd | ⟨p, c, -, -, rfl⟩
    · exact hold d hd hpath hcompleted
    · have := hs.started j
      have hcompleted : s.now < (s.conns j).started := hcompleted
      omega
  · rintro c rfl path t h
    have hsettled : t ≤ s.now ∧ ∀ d ∈ s.log, d.path = path → d.stamp ≤ t := by
      rcases hmove.pending h with rfl | ⟨entry, hget, rfl⟩
      · exact ⟨Nat.le_refl _, (hs.settled_now path).log⟩
      · obtain ⟨hlt, hentry⟩ := hs.cached path entry hget
        exact ⟨Nat.le_of_lt hlt, hentry.log⟩
    refine ⟨Nat.lt_succ_of_le hsettled.1, fun d hd hpath hcompleted => ?_⟩
    rcases State.mem_log hd with hd | ⟨p, c, -, -, rfl⟩
    · exact hsettled.2 d hd hpath
    · have hcompleted : s.now < ((s.conns i).begin s.now s.cleared op).started := hcompleted
      omega

theorem Ordered.unstored_apply (hs : Ordered s) (hmove : Move s.now s.cache (s.conns i).pc op e) :
    ∀ j path entry, ((s.apply i op e).conns j).pc.unstored = some (path, entry) →
      entry.readAt < s.now + 1 ∧ Settled (s.apply i op e) path entry.readAt := by
  refine State.forall_conns (Q := fun _ c => ∀ path entry, c.pc.unstored = some (path, entry) →
    entry.readAt < s.now + 1 ∧ Settled (s.apply i op e) path entry.readAt) ?_ ?_
  · intro j _ path entry h
    obtain ⟨hlt, hsettled⟩ := hs.unstored j path entry h
    exact ⟨Nat.lt_succ_of_lt hlt, hs.settled_apply hmove hsettled (.inr ⟨j, entry, h, rfl⟩)⟩
  · rintro c rfl path entry h
    rcases hmove.unstored h with hold | ⟨hread, -⟩
    · obtain ⟨hlt, hsettled⟩ := hs.unstored i path entry hold
      exact ⟨Nat.lt_succ_of_lt hlt, hs.settled_apply hmove hsettled (.inr ⟨i, entry, hold, rfl⟩)⟩
    · rw [hread]
      refine ⟨Nat.lt_succ_self _, (hs.settled_now path).apply ?_ ?_⟩
      · intro u hu
        exact Nat.le_of_lt (hs.pending i path u (hmove.delivered hu).1).1
      · intro entry' he
        rw [he] at h
        cases h

theorem Ordered.cached_apply (hs : Ordered s) (hmove : Move s.now s.cache (s.conns i).pc op e) :
    ∀ path entry, (s.apply i op e).cache.get path = some entry →
      entry.readAt < s.now + 1 ∧ Settled (s.apply i op e) path entry.readAt := by
  intro path entry h
  rcases State.get_apply h with hold | hnew
  · obtain ⟨hlt, hsettled⟩ := hs.cached path entry hold
    exact ⟨Nat.lt_succ_of_lt hlt, hs.settled_apply hmove hsettled (.inl ⟨entry, hold, rfl⟩)⟩
  · have hunstored := hmove.stored hnew
    obtain ⟨hlt, hsettled⟩ := hs.unstored i path entry hunstored
    exact ⟨Nat.lt_succ_of_lt hlt,
      hs.settled_apply hmove hsettled (.inr ⟨i, entry, hunstored, rfl⟩)⟩

theorem Ordered.alone_apply (hs : Ordered s) (hok : MissesAlone s (.task i op))
    (hmove : Move s.now s.cache (s.conns i).pc op e) :
    ∀ j k path, ((s.apply i op e).conns j).pc.missing = some path →
      ((s.apply i op e).conns k).pc.missing = some path → j = k := by
  refine State.forall_conns (Q := fun j c => ∀ k path, c.pc.missing = some path →
    ((s.apply i op e).conns k).pc.missing = some path → j = k) ?_ ?_
  · intro j hj
    refine fun k => State.forall_conns (Q := fun k c => ∀ path, (s.conns j).pc.missing = some path →
      c.pc.missing = some path → j = k) (fun k _ path => hs.alone j k path) ?_ k
    rintro c - path hpath hi
    exact absurd hpath ((hs.missing_apply hok hmove hi).2 j hj)
  · rintro c -
    refine fun k => State.forall_conns (Q := fun k c => ∀ path, e.pc.missing = some path →
      c.pc.missing = some path → i = k) ?_ ?_ k
    · intro k hk path hi hpath
      exact absurd hpath ((hs.missing_apply hok hmove hi).2 k hk)
    · exact fun _ _ _ _ _ => rfl

theorem Ordered.absent_apply (hs : Ordered s) (hok : MissesAlone s (.task i op))
    (hmove : Move s.now s.cache (s.conns i).pc op e) :
    ∀ j path, ((s.apply i op e).conns j).pc.missing = some path →
      (s.apply i op e).cache.get path = none := by
  have hget : ∀ j path, s.cache.get path = none → ((s.conns i).pc.missing = some path → j = i) →
      (∀ entry, e.stored = some (path, entry) → j ≠ i) →
      (s.apply i op e).cache.get path = none := by
    intro j path hnone hj hstored
    cases h : (s.apply i op e).cache.get path with
    | none => rfl
    | some entry =>
        rcases State.get_apply h with hold | hnew
        · exact absurd (hnone.symm.trans hold) nofun
        · exact absurd (hj (Pc.missing_of_unstored (hmove.stored hnew))) (hstored entry hnew)
  refine State.forall_conns (Q := fun _ c => ∀ path, c.pc.missing = some path →
    (s.apply i op e).cache.get path = none) ?_ ?_
  · intro j hj path h
    exact hget j path (hs.absent j path h) (fun hi => hs.alone j i path h hi) fun _ _ => hj
  · rintro c - path h
    refine hget i path (hs.missing_apply hok hmove h).1 (fun _ => rfl) fun entry hstored => ?_
    -- the task that stores an entry is done with it
    generalize (s.conns i).pc = pc at hmove
    cases hmove with
    | quiet _ _ _ _ hnone => exact absurd (hnone.symm.trans hstored) nofun
    | insert => cases h
    | _ => cases hstored

/-- **One step of a task** keeps the order, if it does not miss on a file that another task works
on. -/
theorem Ordered.apply (hs : Ordered s) (hok : MissesAlone s (.task i op))
    (hmove : Move s.now s.cache (s.conns i).pc op e) : Ordered (s.apply i op e) where
  log := hs.log_apply hmove
  deliver := hs.deliver_apply hmove
  started := by
    refine State.forall_conns (Q := fun _ c => c.started < s.now + 1)
      (fun j _ => Nat.lt_succ_of_lt (hs.started j)) ?_
    rintro c rfl
    exact Nat.lt_succ_of_le ((s.conns i).begin_started_le (hs.started i) s.cleared op)
  pending := hs.pending_apply hmove
  unstored := hs.unstored_apply hmove
  cached := hs.cached_apply hmove
  alone := hs.alone_apply hok hmove
  absent := hs.absent_apply hok hmove

/-- Time passes. -/
theorem Ordered.tick (hs : Ordered s) : Ordered { s with now := s.now + 1 } where
  log d hd := by
    obtain ⟨hstamp, hcompleted, hbegun⟩ := hs.log d hd
    exact ⟨Nat.lt_succ_of_lt hstamp, Nat.lt_succ_of_lt hcompleted, Nat.lt_succ_of_lt hbegun⟩
  deliver := hs.deliver
  started i := Nat.lt_succ_of_lt (hs.started i)
  pending i path t h := ⟨Nat.lt_succ_of_lt (hs.pending i path t h).1, (hs.pending i path t h).2⟩
  unstored i path entry h := by
    obtain ⟨hlt, hlog, hhit⟩ := hs.unstored i path entry h
    exact ⟨Nat.lt_succ_of_lt hlt, hlog, hhit⟩
  cached path entry h := by
    obtain ⟨hlt, hlog, hhit⟩ := hs.cached path entry h
    exact ⟨Nat.lt_succ_of_lt hlt, hlog, hhit⟩
  alone := hs.alone
  absent := hs.absent

/-- **Content never goes back in time** in any state of any run without clears in which lookups miss
only while no other task works on the same missing entry. -/
theorem noGoingBack_of_misses_alone (root : DocRoot) {tr : List (State × Action)} {s : State}
    (h : (lts root).Exec tr s) (hclear : ∀ p ∈ tr, p.2 ≠ .clear)
    (hok : ∀ p ∈ tr, MissesAlone p.1 p.2) : ∀ t ∈ LTS.visited tr s, NoGoingBack t := by
  suffices hordered : ∀ t ∈ LTS.visited tr s, Ordered t by
    intro t ht
    have hs := hordered t ht
    refine ⟨fun i path entry old hpc hget => ?_, hs.deliver⟩
    have hnone := hs.absent i path (by rw [hpc]; rfl)
    exact absurd (hnone.symm.trans hget) nofun
  refine h.invariant_visited (fun s a => a ≠ .clear ∧ MissesAlone s a) ?_ ?_
    fun p hp => ⟨hclear p hp, hok p hp⟩
  · rintro s rfl
    exact ⟨nofun, nofun, fun _ => Nat.zero_lt_one, nofun, nofun, nofun, nofun, nofun⟩
  · rintro s a t hs ⟨hclear, hok⟩ hstep
    cases a with
    | task i op =>
        obtain ⟨e, he, rfl⟩ := Option.map_eq_some_iff.mp hstep
        exact hs.apply hok (serve_cases he)
    | change =>
        cases hstep
        exact hs.tick
    | clear => exact absurd rfl hclear

end

/-- Two tasks ask for a file that changes. They overlap or not; a third task asks after both. -/
def missRun (overlap : Bool) : List Action :=
  Example.ask 0 ++ Example.read 0 104 ++
    (if overlap then [.change] ++ Example.ask 1 ++ Example.read 1 105 ++ Example.send 1 ++
        Example.store 1 ++ Example.send 0 ++ Example.store 0
      else Example.send 0 ++ Example.store 0 ++ [.change] ++ Example.ask 1 ++ Example.send 1) ++
    Example.ask 2 ++ Example.send 2

/-- The three tasks of that run alone move, each looking a file up while none misses one. -/
def missesAlone (p : State × Action) : Bool :=
  match p.2 with
  | .task i .lookup => decide (i < 3) && (List.range 3).all fun j => (p.1.conns j).pc.missing.isNone
  | .task i _ => decide (i < 3)
  | .clear => false
  | .change => true

/-- One task after the other. -/
theorem noGoingBack_of_misses_alone_missRun :
    ∃ s, (lts DocRoot.Example.root).Exec
      ((lts DocRoot.Example.root).trace Example.start (missRun false)) s ∧
      s.log.map Delivery.stamp = [5, 5, 5] ∧ NoGoingBack s := by
  obtain ⟨s, hs, hcheck⟩ := LTS.exec_of_run_any (lts DocRoot.Example.root) Example.start
    (missRun false) (fun s => s.log.map Delivery.stamp = [5, 5, 5]) rfl (by decide +kernel)
  have hsteps : ((lts DocRoot.Example.root).trace Example.start (missRun false)).all missesAlone =
      true := by
    decide +kernel
  have hunused := waiting_of_unused hs (n := 3) fun p hp i op hop => by
    have hstep := List.all_eq_true.mp hsteps p hp
    rw [missesAlone, hop] at hstep
    cases op with
    | lookup => exact of_decide_eq_true (Bool.and_eq_true_iff.mp hstep).1
    | _ => exact of_decide_eq_true hstep
  refine ⟨s, hs, of_decide_eq_true hcheck, ?_⟩
  refine noGoingBack_of_misses_alone DocRoot.Example.root hs ?_ ?_ s (LTS.last_mem_visited _ _)
  · rintro ⟨t, a⟩ hp rfl
    have hstep := List.all_eq_true.mp hsteps (t, .clear) hp
    cases hstep
  · rintro ⟨t, a⟩ hp
    have hstep := List.all_eq_true.mp hsteps (t, a) hp
    cases a with
    | task i op =>
        cases op with
        | lookup =>
            intro path _ _ j hj
            have hnone : (t.conns j).pc.missing = none := by
              by_cases hlt : j < 3
              · have hall := List.all_eq_true.mp (Bool.and_eq_true_iff.mp hstep).2
                exact Option.isNone_iff_eq_none.mp (hall j (List.mem_range.mpr hlt))
              · rw [hunused t (LTS.mem_visited_of_mem hp) j (by omega)]
                rfl
            cases hnone.symm.trans hj
        | _ => trivial
    | _ => trivial

/-- **The defect.** The task that read first stores last: its entry replaces a newer one, and the
request that comes after both gets the older contents. -/
theorem missRun_not_noGoingBack :
    ∃ s, (lts DocRoot.Example.root).Exec
      ((lts DocRoot.Example.root).trace Example.start (missRun true)) s ∧
      s.log.map (fun d => (d.started, d.completed, d.stamp)) =
        [(7, 12, 11), (1, 14, 5), (16, 18, 5)] ∧
      ¬NoGoingBack s := by
  obtain ⟨s, hs, hcheck⟩ := LTS.exec_of_run_any (lts DocRoot.Example.root) Example.start
    (missRun true) (fun s => s.log = [⟨DocRoot.Example.path, 7, 0, 12, 11⟩,
      ⟨DocRoot.Example.path, 1, 0, 14, 5⟩,
      ⟨DocRoot.Example.path, 16, 0, 18, 5⟩]) rfl (by decide +kernel)
  have hlog := of_decide_eq_true hcheck
  refine ⟨s, hs, by rw [hlog]; rfl, fun h => ?_⟩
  have hle := h.deliver ⟨DocRoot.Example.path, 7, 0, 12, 11⟩ (by rw [hlog]; simp)
    ⟨DocRoot.Example.path, 16, 0, 18, 5⟩ (by rw [hlog]; simp) rfl (by decide)
  exact absurd hle (by decide)

end Osvcp.Servers.TokioServer
