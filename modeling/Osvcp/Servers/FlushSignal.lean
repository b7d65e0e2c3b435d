import Osvcp.Lib.PolledLoop
import Osvcp.Servers.Freshness

/-! # The flush signal of `file-server.c`

`event_loop` step by step, down to single `read`s and requests, with the signal handlers in between:
the loop is a `PolledLoop`. `select` returns `EINTR` only if a handler ran while it was blocked.
Next to the cache the model keeps the age of each entry, the number of times `handle_sigusr1` had
run when it was inserted; the server does not read it. `requests_handle` says that the steps for one
client add up to `FileServer.handle`.
-/

namespace Osvcp.Servers.FileServer

/-! ## What a request does to the cache -/

/-- `cache_insert` as seen by the ages of the entries. -/
def agesInsert (cache : List CacheEntry) (key : List Byte) (now : ℕ) (ages : List ℕ) : List ℕ :=
  match cache.findIdx? (·.key == key) with
  | some i => ages.set i now
  | none => (if cache.length = MAX_CACHE_ENTRIES then ages.drop 1 else ages) ++ [now]

/-- The age of the entry that `cache_lookup` finds. -/
def lookupAge (cache : List CacheEntry) (ages : List ℕ) (key : List Byte) : Option ℕ :=
  (cache.findIdx? (·.key == key)).bind fun i => ages[i]?

/-- The ages of the entries after a request. -/
def agesAfter (root : DocRoot) (e : ServeEnv) (name : List Byte) (w : World) (now : ℕ)
    (ages : List ℕ) : List ℕ :=
  match resolve root e name with
  | none => ages
  | some path =>
      if (cacheLookup w.cache path.bytes).isSome then ages
      else if (fills e path.bytes w).isSome then agesInsert w.cache path.bytes now ages
      else ages

section

variable {cache : List CacheEntry} {ages : List ℕ} {key : List Byte} {now age : ℕ}

theorem mem_agesInsert (h : age ∈ agesInsert cache key now ages) : age ∈ ages ∨ age = now := by
  unfold agesInsert at h
  split at h
  · exact List.mem_or_eq_of_mem_set h
  · rcases List.mem_append.mp h with hold | hnew
    · split at hold
      · exact .inl (List.mem_of_mem_drop hold)
      · exact .inl hold
    · exact .inr (List.mem_singleton.mp hnew)

theorem length_agesInsert (h : ages.length = cache.length) (resp : List Cell) :
    (agesInsert cache key now ages).length = (cacheInsert cache key resp).length := by
  unfold agesInsert cacheInsert
  cases cache.findIdx? (·.key == key) with
  | some i =>
      simp only
      rw [List.length_set, List.length_modify, h]
  | none =>
      simp only
      rw [List.length_append, List.length_append, List.length_singleton, List.length_singleton]
      split
      · rw [List.length_drop, List.length_drop, h]
      · rw [h]

theorem mem_of_lookupAge (h : lookupAge cache ages key = some age) : age ∈ ages := by
  obtain ⟨i, -, hi⟩ := Option.bind_eq_some_iff.mp h
  exact List.mem_of_getElem? hi

/-- Where every entry has an age, the lookups agree. -/
theorem isSome_lookupAge (h : ages.length = cache.length) :
    (lookupAge cache ages key).isSome = (cacheLookup cache key).isSome := by
  unfold lookupAge cacheLookup
  cases hi : cache.findIdx? (·.key == key) with
  | none =>
      rw [List.findIdx?_eq_none_iff] at hi
      rw [List.find?_eq_none.mpr fun entry hentry => by simp [hi entry hentry]]
      rfl
  | some i =>
      obtain ⟨hlt, hkey, -⟩ := List.findIdx?_eq_some_iff_getElem.mp hi
      have hfound : (cache.find? (·.key == key)).isSome = true := by
        rw [List.find?_isSome]
        exact ⟨cache[i], List.getElem_mem hlt, hkey⟩
      rw [hfound, Option.bind_some, List.getElem?_eq_getElem (h ▸ hlt)]
      rfl

end

section

variable {root : DocRoot} {e : ServeEnv} {name : List Byte} {w : World} {now age : ℕ}
  {ages : List ℕ}

theorem mem_agesAfter (h : age ∈ agesAfter root e name w now ages) : age ∈ ages ∨ age = now := by
  unfold agesAfter at h
  split at h
  · exact .inl h
  · split at h
    · exact .inl h
    · split at h
      · exact mem_agesInsert h
      · exact .inl h

/-- Every entry keeps its age. -/
theorem length_agesAfter (h : ages.length = w.cache.length) :
    (agesAfter root e name w now ages).length = (cacheAfter root e name w).length := by
  unfold agesAfter cacheAfter
  cases resolve root e name with
  | none => exact h
  | some path =>
      simp only
      cases cacheLookup w.cache path.bytes with
      | some entry => exact h
      | none =>
          cases fills e path.bytes w with
          | some resp => exact length_agesInsert h resp
          | none => exact h

end

/-! ## The loop -/

/-- What the loop works on, with the ages of the cache entries. -/
structure LoopData where
  table : Table Client
  world : World
  ages : List ℕ

/-- Where the loop stands behind `select`: in the accept loop, in the backward pass with the slots
below `left` still to visit, or in `process_requests` of the client in slot `k` after `calls`
requests. -/
inductive Work
  | accepting (r : Ready)
  | pass (r : Ready) (left : ℕ)
  | requests (r : Ready) (k calls : ℕ)

/-- The steps behind `select`, each with the results of its system calls. -/
inductive WorkAction
  | accept (fd : Option ℕ)
  | read (bytes : List Byte)
  | request (e : ServeEnv)
  | next

/-- One round of the loop in `process_requests`, for the client in slot `k`. -/
def requestStep (root : DocRoot) (now : ℕ) (x : LoopData) (r : Ready) (k calls : ℕ) (e : ServeEnv) :
    LoopData × Option Work :=
  let c := x.table.slots k
  match memchr c.buf.data LF c.buf.len with
  | none =>
      if REQ_BUF_SIZE - 1 ≤ c.buf.len then ({ x with table := x.table.swapRemove k },
        some (.pass r k))
      else (x, some (.pass r k))
  | some nl =>
      let line := c.buf.terminate true nl
      let name := cstr line.data
      let st : Serving := ⟨calls, c.sent, x.world⟩
      match serveLine root (fun _ => e) st (c.buf.data.take nl) name with
      | (st', true) =>
          let c' : Client := { c with buf := line, sent := st'.sent }
          (⟨(x.table.set k c').swapRemove k, st'.world, agesAfter root e name x.world now x.ages⟩,
            some (.pass r k))
      | (st', false) =>
          let c' : Client := { c with buf := line.consume (nl + 1), sent := st'.sent }
          (⟨x.table.set k c', st'.world, agesAfter root e name x.world now x.ages⟩,
            some (.requests r k (calls + 1)))

/-- One step behind `select`. -/
def work (root : DocRoot) (now : ℕ) (x : LoopData) (p : Work) (b : WorkAction) :
    Option (LoopData × Option Work) :=
  match b, p with
  | .accept none, .accepting r => some (x, some (.pass r x.table.size))
  | .accept (some fd), .accepting r =>
      if fd ∈ x.table.entries.map Client.fd then none
      else if x.table.size < MAX_CLIENTS then
        some
          ({ x with
              table := x.table.push ((server root).connect (x.table.slots x.table.size) fd) },
            some (.accepting r))
      else some (x, some (.accepting r))
  | .read bytes, .pass r (k + 1) =>
      let c := x.table.slots k
      if c.fd ∉ r.rd then some (x, some (.pass r k))
      else
        match bytes.take (REQ_BUF_SIZE - 1 - c.buf.len) with
        | [] => some ({ x with table := x.table.swapRemove k }, some (.pass r k))
        | bytes =>
            let c' : Client := { c with buf := c.buf.fill bytes, received := c.received ++ bytes }
            some ({ x with table := x.table.set k c' }, some (.requests r k 0))
  | .request e, .requests r k calls => some (requestStep root now x r k calls e)
  | .next, .pass _ 0 => some (x, none)
  | _, _ => none

/-- The age of the cache entry from which a step answers a request. -/
def hitAge (root : DocRoot) (x : LoopData) (p : Work) (b : WorkAction) : Option ℕ :=
  match b, p with
  | .request e, .requests _ k _ =>
      let buf := (x.table.slots k).buf
      (memchr buf.data LF buf.len).bind fun nl =>
        (resolve root e (cstr (buf.terminate true nl).data)).bind fun path =>
          lookupAge x.world.cache x.ages path.bytes
  | _, _ => none

/-- `event_loop` of `file-server.c`. -/
def polledLoop (root : DocRoot) : PolledLoop LoopData Work Ready WorkAction where
  start := ⟨⟨fun _ => (server root).blank, 0⟩, (server root).world₀, []⟩
  running x := x.world.running
  flag x := x.world.clearRequested
  raise x := { x with world := { x.world with clearRequested := true } }
  stop x := { x with world := { x.world with running := false } }
  lower x := { x with world := { x.world with clearRequested := false } }
  flush x :=
    { x with world := { x.world with cache := [], flushes := x.world.flushes + 1 }, ages := [] }
  wake x r :=
    if (server root).requested x.table r then
      some (if r.listen then .accepting r else .pass r x.table.size)
    else none
  work := work root
  ages := LoopData.ages
  hit := hitAge root

/-! ## The steps of one client -/

section

variable {root : DocRoot} {s : Polling LoopData Work} {r : Ready} {k : ℕ}

/-- What the requests of a client come to: it is kept with what is left in its buffer, or
removed. -/
structure Handled (k : ℕ) (r : Ready) (table : Table Client) (closed : Bool)
    (c : Client) (w : World) (t : Polling LoopData Work) : Prop where
  pc : t.pc = .work (.pass r k)
  world : t.data.world = w
  kept : closed = false → t.data.table = table.set k c
  removed : closed = true → t.data.table.entries = (table.swapRemove k).entries

/-- A removal forgets what the slot held. -/
theorem entries_set_swapRemove (table : Table Client) (k : ℕ) (c : Client) :
    ((table.set k c).swapRemove k).entries = (table.swapRemove k).entries := by
  unfold Table.entries
  refine List.map_congr_left fun i hi => ?_
  have hlt : i < table.size - 1 := List.mem_range.mp hi
  by_cases hik : i = k
  · subst hik
    have hlast : table.size - 1 ≠ i := Nat.ne_of_gt hlt
    simp [Table.swapRemove, Table.set, hlast]
  · simp [Table.swapRemove, Table.set, hik]

/-- The state after a round of `process_requests`. -/
def afterRequest (root : DocRoot) (s : Polling LoopData Work) (r : Ready) (k calls : ℕ)
    (e : ServeEnv) :
    Polling LoopData Work :=
  let q := requestStep root s.signals s.data r k calls e
  { s with
    data := q.1
    pc := q.2.elim .loop .work
    hits := s.hits ++ (hitAge root s.data (.requests r k calls) (.request e)).toList.map
      (⟨s.tested, s.returned, ·⟩) }

theorem step_request {calls : ℕ} (hpc : s.pc = .work (.requests r k calls)) (e : ServeEnv) :
    (polledLoop root).lts.step s (.work (.request e)) = some (afterRequest root s r k calls e) := by
  simp only [PolledLoop.lts, PolledLoop.step, hpc]
  rfl

theorem requestStep_of_none {x : LoopData} {calls : ℕ} (now : ℕ) (r : Ready) (e : ServeEnv)
    (hnl : memchr (x.table.slots k).buf.data LF (x.table.slots k).buf.len = none) :
    requestStep root now x r k calls e =
      if REQ_BUF_SIZE - 1 ≤ (x.table.slots k).buf.len then
        ({ x with table := x.table.swapRemove k }, some (.pass r k))
      else (x, some (.pass r k)) := by
  simp only [requestStep, hnl]

theorem requestStep_of_some {x : LoopData} {calls nl : ℕ} {st' : Serving} {closed : Bool} (now : ℕ)
    (r : Ready) (e : ServeEnv)
    (hnl : memchr (x.table.slots k).buf.data LF (x.table.slots k).buf.len = some nl)
    (hserve : serveLine root (fun _ => e) ⟨calls, (x.table.slots k).sent, x.world⟩
      ((x.table.slots k).buf.data.take nl) (cstr ((x.table.slots k).buf.terminate true nl).data) =
        (st', closed)) :
    let c := x.table.slots k
    let line := c.buf.terminate true nl
    let ages := agesAfter root e (cstr line.data) x.world now x.ages
    requestStep root now x r k calls e =
      if closed then
        (⟨(x.table.set k { c with buf := line, sent := st'.sent }).swapRemove k, st'.world, ages⟩,
          some (.pass r k))
      else
        (⟨x.table.set k { c with buf := line.consume (nl + 1), sent := st'.sent }, st'.world, ages⟩,
          some (.requests r k (calls + 1))) := by
  simp only [requestStep, hnl, hserve]
  cases closed <;> rfl

variable (root s) in
/-- **The rounds of `process_requests`** add up to `processRequests`. -/
theorem requests_run (serves : ℕ → ServeEnv) (table : Table Client) (c : Client) (st : Serving)
    (b : ReqBuf) (hpc : s.pc = .work (.requests r k st.calls)) (hworld : s.data.world = st.world)
    (htable : s.data.table = table.set k { c with buf := b, sent := st.sent }) :
    let res := processRequests (serveLine root serves) st b
    ∃ n t, (polledLoop root).lts.run s
        ((List.range' st.calls n).map fun i => .work (.request (serves i))) = some t ∧
      Handled k r table res.2.2 { c with buf := res.2.1, sent := res.1.sent } res.1.world t := by
  induction hn : b.len using Nat.strong_induction_on generalizing st b s with
  | _ n ih =>
  subst hn
  have hslot : s.data.table.slots k = { c with buf := b, sent := st.sent } := by
    simp [htable, Table.set]
  have hbuf : (s.data.table.slots k).buf = b := by rw [hslot]
  have hrun₁ : (polledLoop root).lts.run s
      ((List.range' st.calls 1).map fun i => .work (.request (serves i))) =
        some (afterRequest root s r k st.calls (serves st.calls)) := by
    simp [LTS.run, step_request hpc]
  cases hnl : memchr b.data LF b.len with
  | none =>
      refine ⟨1, _, hrun₁, ?_⟩
      rw [processRequests_of_none hnl, afterRequest,
        requestStep_of_none s.signals r (serves st.calls) (by rw [hbuf, hnl]), hbuf]
      split
      · rename_i hfull
        refine ⟨rfl, hworld, fun hopen => absurd hfull (of_decide_eq_false hopen), fun _ => ?_⟩
        show (s.data.table.swapRemove k).entries = _
        rw [htable, entries_set_swapRemove]
      · rename_i hroom
        exact ⟨rfl, hworld, fun _ => htable,
          fun hclosed => absurd (of_decide_eq_true hclosed) hroom⟩
  | some nl =>
      obtain ⟨st', closed, hserve⟩ : ∃ st' closed, serveLine root serves st (b.data.take nl)
          (cstr (b.terminate true nl).data) = (st', closed) := ⟨_, _, rfl⟩
      have hserve₁ : serveLine root (fun _ => serves st.calls)
          ⟨st.calls, (s.data.table.slots k).sent, s.data.world⟩
          ((s.data.table.slots k).buf.data.take nl)
          (cstr ((s.data.table.slots k).buf.terminate true nl).data) = (st', closed) := by
        rw [hslot, hworld]
        exact hserve
      have hround := requestStep_of_some s.signals r (serves st.calls) (hbuf ▸ hnl) hserve₁
      rw [hslot] at hround
      rw [processRequests_of_some hnl hserve]
      cases closed with
      | true =>
          refine ⟨1, _, hrun₁, ?_⟩
          rw [afterRequest, hround]
          refine ⟨rfl, rfl, fun hopen => ?_, fun _ => ?_⟩
          · cases hopen
          · show ((s.data.table.set k _).swapRemove k).entries = _
            rw [entries_set_swapRemove, htable, entries_set_swapRemove]
      | false =>
          have hcalls : st'.calls = st.calls + 1 := by
            obtain ⟨sent, touched, heq⟩ := serveFile_eq root (serves st.calls)
              (cstr (b.terminate true nl).data) { st with calls := st.calls + 1 }
            rw [serveLine] at hserve
            rw [hserve] at heq
            exact congrArg Serving.calls heq
          have hlt := LineBuf.lt_len_of_memchr hnl
          -- the rest of the buffer is shorter
          obtain ⟨n, t, hrun, ht⟩ :=
            ih _ (by simp only [LineBuf.consume, LineBuf.terminate_len]; omega)
            (afterRequest root s r k st.calls (serves st.calls)) st'
            ((b.terminate true nl).consume (nl + 1))
            (by rw [afterRequest, hround, hcalls]; rfl) (by rw [afterRequest, hround]; rfl)
            (by rw [afterRequest, hround, htable]; exact Table.set_set _ _ _ _) rfl
          refine ⟨n + 1, t, ?_, ht⟩
          rw [List.range'_succ, List.map_cons, LTS.run, step_request hpc,
            Option.bind_some, ← hcalls]
          exact hrun

/-- **The steps of one client** add up to the body of the pass. -/
theorem requests_handle (e : HandleEnv) (hpc : s.pc = .work (.pass r (k + 1)))
    (hready : (s.data.table.slots k).fd ∈ r.rd) :
    ∃ n t closed c' w', (polledLoop root).lts.run s
        (.work (.read e.read) :: (List.range n).map fun i => .work (.request (e.serves i))) =
          some t ∧
      handle root k true false (s.data.table.slots k) s.data.world e =
        some (if closed then .drop c' w' else .keep c' w') ∧
      Handled k r s.data.table closed c' w' t := by
  have hstep : (polledLoop root).lts.step s (.work (.read e.read)) =
      (work root s.signals s.data (.pass r (k + 1)) (.read e.read)).map fun q =>
        { s with data := q.1, pc := q.2.elim .loop .work, hits := s.hits ++ [] } := by
    simp only [PolledLoop.lts, PolledLoop.step, hpc]
    rfl
  simp only [work, hready, not_true, if_false] at hstep
  simp only [handle, Bool.true_eq_false, if_false]
  cases hread : e.read.take (REQ_BUF_SIZE - 1 - (s.data.table.slots k).buf.len) with
  | nil =>
      simp only [hread, Option.map_some, Option.elim_some] at hstep
      let t : Polling LoopData Work :=
        { s with
          data := { s.data with table := s.data.table.swapRemove k }
          pc := .work (.pass r k)
          hits := s.hits ++ [] }
      have ht : Handled k r s.data.table true (s.data.table.slots k) s.data.world t :=
        ⟨rfl, rfl, fun hopen => absurd hopen (by decide), fun _ => rfl⟩
      refine ⟨0, t, _, _, _, ?_, rfl, ht⟩
      rw [LTS.run, hstep, Option.bind_some]
      rfl
  | cons byte bytes =>
      simp only [hread, Option.map_some, Option.elim_some] at hstep
      set c : Client := s.data.table.slots k with hc
      let c₁ : Client :=
        { c with buf := c.buf.fill (byte :: bytes), received := c.received ++ byte :: bytes }
      let s₁ : Polling LoopData Work :=
        { s with
          data := { s.data with table := s.data.table.set k c₁ }
          pc := .work (.requests r k 0)
          hits := s.hits ++ [] }
      obtain ⟨n, t, hrun, ht⟩ := requests_run root s₁ e.serves s.data.table c₁
        ⟨0, c.sent, s.data.world⟩ c₁.buf rfl rfl rfl
      refine ⟨n, t, _, _, _, ?_, rfl, ht⟩
      rw [LTS.run, hstep, Option.bind_some, List.range_eq_range']
      exact hrun

end

/-! ## The loop is lawful -/

section

variable {root : DocRoot} {now : ℕ} {x : LoopData} {p : Work} {b : WorkAction}
  {q : LoopData × Option Work}

/-- What a round of `process_requests` leaves: the world is that of `serve_file`, or nothing was
left to serve. -/
theorem requestStep_spec (root : DocRoot) (now : ℕ) (x : LoopData) (r : Ready) (k calls : ℕ)
    (e : ServeEnv) :
    let q := (requestStep root now x r k calls e).1
    q.world = x.world ∧ q.ages = x.ages ∨
      ∃ name st, st.world = x.world ∧ q.world = (serveFile root e name st).1.world ∧
        q.ages = agesAfter root e name x.world now x.ages := by
  unfold requestStep
  simp only
  split
  · split <;> exact .inl ⟨rfl, rfl⟩
  · rename_i nl hnl
    right
    split
    · rename_i st' heq
      exact ⟨_, ⟨calls + 1, (x.table.slots k).sent, x.world⟩, rfl,
        (congrArg (fun r => r.1.world) heq).symm, rfl⟩
    · rename_i st' heq
      exact ⟨_, ⟨calls + 1, (x.table.slots k).sent, x.world⟩, rfl,
        (congrArg (fun r => r.1.world) heq).symm, rfl⟩

/-- Work changes the world and the ages in `serve_file` only. -/
theorem work_spec (h : work root now x p b = some q) :
    q.1.world = x.world ∧ q.1.ages = x.ages ∨
      ∃ e name st, st.world = x.world ∧ q.1.world = (serveFile root e name st).1.world ∧
        q.1.ages = agesAfter root e name x.world now x.ages := by
  unfold work at h
  split at h
  · cases h
    exact .inl ⟨rfl, rfl⟩
  · split at h
    · cases h
    · split at h <;> cases h <;> exact .inl ⟨rfl, rfl⟩
  · simp only at h
    split at h
    · cases h
      exact .inl ⟨rfl, rfl⟩
    · split at h <;> cases h <;> exact .inl ⟨rfl, rfl⟩
  · rename_i e r k calls
    cases h
    exact (requestStep_spec root now x r k calls e).imp_right fun hserve => ⟨e, hserve⟩
  · cases h
    exact .inl ⟨rfl, rfl⟩
  · cases h

end

/-- **`event_loop` is a lawful polled loop.** -/
theorem polledLoop_lawful (root : DocRoot) : (polledLoop root).Lawful where
  ages_start := rfl
  flag_raise _ := rfl
  ages_raise _ := rfl
  flag_stop _ := rfl
  ages_stop _ := rfl
  ages_lower _ := rfl
  ages_flush _ := rfl
  flag_work now x p b q h := by
    show q.1.world.clearRequested = x.world.clearRequested
    rcases work_spec h with ⟨hworld, -⟩ | ⟨e, name, st, hst, hworld, -⟩
    · rw [hworld]
    · obtain ⟨sent, touched, heq⟩ := serveFile_eq root e name st
      rw [hworld, heq, ← hst]
  ages_work now x p b q h age hage := by
    have hage : age ∈ q.1.ages := hage
    rcases work_spec h with ⟨-, hages⟩ | ⟨e, name, st, -, -, hages⟩
    · rw [hages] at hage
      exact .inl hage
    · rw [hages] at hage
      exact mem_agesAfter hage
  ages_hit x p b age h := by
    have h : hitAge root x p b = some age := h
    unfold hitAge at h
    split at h
    · obtain ⟨nl, -, h⟩ := Option.bind_eq_some_iff.mp h
      obtain ⟨path, -, h⟩ := Option.bind_eq_some_iff.mp h
      exact mem_of_lookupAge h
    · cases h

/-- Every entry has an age. -/
theorem length_ages (root : DocRoot) {s : Polling LoopData Work}
    (h : (polledLoop root).lts.Reachable s) :
    s.data.ages.length = s.data.world.cache.length := by
  refine h.invariant (I := fun s => s.data.ages.length = s.data.world.cache.length) ?_ ?_
  · rintro s rfl
    rfl
  · intro s a t hs hstep
    cases PolledLoop.step_cases hstep with
    | flush hpc => rfl
    | work hpc hwork =>
        rcases work_spec hwork with ⟨hworld, hages⟩ | ⟨e, name, st, hst, hworld, hages⟩
        · simp only [hworld, hages]
          exact hs
        · obtain ⟨sent, touched, heq⟩ := serveFile_eq root e name st
          simp only [hworld, hages, heq, hst]
          exact length_agesAfter hs
    | _ => exact hs

/-- Every request that the loop is about to answer from the cache is recorded with the age of the
entry. -/
def HitsRecorded (root : DocRoot) (s : Polling LoopData Work) : Prop :=
  ∀ (r : Ready) (k calls : ℕ) (e : ServeEnv) (nl : ℕ) (path : CanonPath) (entry : CacheEntry),
    memchr (s.data.table.slots k).buf.data LF (s.data.table.slots k).buf.len = some nl →
    resolve root e (cstr ((s.data.table.slots k).buf.terminate true nl).data) = some path →
    cacheLookup s.data.world.cache path.bytes = some entry →
    (hitAge root s.data (.requests r k calls) (.request e)).isSome = true

theorem hitsRecorded (root : DocRoot) {s : Polling LoopData Work}
    (h : (polledLoop root).lts.Reachable s) :
    HitsRecorded root s := by
  intro r k calls e nl path entry hnl hres hlook
  unfold hitAge
  simp only [hnl, hres, Option.bind_some]
  rw [isSome_lookupAge (length_ages root h), hlook]
  rfl

/-! ## The flush signal -/

/-- No request is answered from a cache entry that is older than a run of `handle_sigusr1` before
the return of the iteration's `select`. -/
def NoStaleAnswer (s : Polling LoopData Work) : Prop := ∀ hit ∈ s.hits, hit.returned ≤ hit.age

/-- No signal is swallowed: while `handle_sigusr1` has run since the last `cache_clear`, or an entry
is older than its last run, the flag is set or the loop stands before `cache_clear`. -/
def SignalKept (s : Polling LoopData Work) : Prop :=
  (s.flushed < s.signals ∨ ∃ age ∈ s.data.ages, age < s.signals) →
    s.data.world.clearRequested = true ∨ s.pc = .flush

/-- **The flush signal.** In every run no signal is swallowed, every answer from the cache is
recorded, and no request is answered from an entry that is older than a run of the handler before
the flag test of the iteration; where `select` only returns descriptors while the flag is clear,
none from one that is older than a run of the handler before `select` returned. -/
theorem flush_signal (root : DocRoot)
    {tr : List (Polling LoopData Work × PollAction Ready WorkAction)} {s : Polling LoopData Work}
    (h : (polledLoop root).lts.Exec tr s) :
    (∀ t ∈ LTS.visited tr s, SignalKept t ∧ HitsRecorded root t ∧ ∀ hit ∈ t.hits,
      hit.tested ≤ hit.age) ∧
    ((∀ p ∈ tr, ∀ r, p.2 = .ready r → p.1.data.world.clearRequested = false) →
      ∀ t ∈ LTS.visited tr s, NoStaleAnswer t) := by
  have hL := polledLoop_lawful root
  constructor
  · intro t ht
    obtain ⟨tr', -, htr'⟩ := h.exists_prefix ht
    have hkept := hL.kept ⟨tr', htr'⟩
    refine ⟨?_, hitsRecorded root ⟨tr', htr'⟩, hkept.hits⟩
    rintro (hflushed | ⟨age, hage, hlt⟩)
    · exact hkept.flushed hflushed
    · exact hkept.stale age hage hlt
  · intro hclear t ht
    exact (hL.current h hclear t ht).hits

namespace FlushSignal.Example

open DocRoot.Example

/-- The steps up to `select`, which returns `r`. -/
def round (r : Ready) : List (PollAction Ready WorkAction) := [.loop, .test, .prepare, .ready r]

/-- A client connects, and nothing else happens in the iteration. -/
def connect : List (PollAction Ready WorkAction) :=
  round ⟨true, [], []⟩ ++ [.work (.accept (some 5)), .work (.accept none), .work (.read []),
    .work .next]

/-- The client asks for the file `a`, and gets an answer. -/
def ask : List (PollAction Ready WorkAction) :=
  let e := (Freshness.Example.request 104).env
  [.work (.read [97, LF]), .work (.request e), .work (.request e), .work .next]

/-- The file is in the cache when the signal comes, before or after the flag test; then the client
asks for it twice. -/
def signalRun (early : Bool) : List (PollAction Ready WorkAction) :=
  connect ++ round ⟨false, [5], []⟩ ++ ask ++
    (if early then [.raise, .loop, .test, .reset, .flush, .prepare, .ready ⟨false, [5], []⟩]
      else [.loop, .test, .raise, .prepare, .ready ⟨false, [5], []⟩]) ++ ask ++
    (if early then round ⟨false, [5], []⟩ ++ ask else [])

/-- The start of the loop. -/
def start : Polling LoopData Work := ⟨(polledLoop root).start, .loop, 0, 0, 0, 0, []⟩

/-- `select` returns descriptors while the flag is clear. -/
def reportsClear (p : Polling LoopData Work × PollAction Ready WorkAction) : Bool :=
  match p.2 with
  | .ready _ => !p.1.data.world.clearRequested
  | _ => true

end FlushSignal.Example

open FlushSignal.Example in
/-- A signal before the flag test: the file is read again, and the next answer comes from the new
entry. -/
theorem flush_signal_signalRun :
    ∃ s, (polledLoop DocRoot.Example.root).lts.Exec
        ((polledLoop DocRoot.Example.root).lts.trace start (signalRun true)) s ∧
      s.hits = [⟨1, 1, 1⟩] ∧ SignalKept s ∧ NoStaleAnswer s := by
  obtain ⟨s, hs, hcheck⟩ := LTS.exec_of_run_any (polledLoop DocRoot.Example.root).lts start
    (signalRun true) (fun s => s.hits = [⟨1, 1, 1⟩]) rfl (by decide +kernel)
  have hsteps : ((polledLoop DocRoot.Example.root).lts.trace start (signalRun true)).all
      reportsClear = true := by decide +kernel
  obtain ⟨hkept, hanswer⟩ := flush_signal DocRoot.Example.root hs
  refine ⟨s, hs, of_decide_eq_true hcheck, (hkept s (LTS.last_mem_visited _ _)).1, ?_⟩
  refine hanswer (fun p hp r hr => ?_) s (LTS.last_mem_visited _ _)
  have hstep := List.all_eq_true.mp hsteps p hp
  rw [reportsClear, hr] at hstep
  exact Bool.not_eq_true' _ ▸ hstep

open FlushSignal.Example in
/-- **The defect.** A signal between the flag test and `select` does not interrupt anything: where
`select` has a descriptor to return, the request is answered from the entry that was there before
the signal. -/
theorem signalRun_not_noStaleAnswer :
    ∃ s, (polledLoop DocRoot.Example.root).lts.Exec
        ((polledLoop DocRoot.Example.root).lts.trace start (signalRun false)) s ∧
      s.hits = [⟨0, 1, 0⟩] ∧ ¬NoStaleAnswer s := by
  obtain ⟨s, hs, hcheck⟩ := LTS.exec_of_run_any (polledLoop DocRoot.Example.root).lts start
    (signalRun false) (fun s => s.hits = [⟨0, 1, 0⟩]) rfl (by decide +kernel)
  have hhits := of_decide_eq_true hcheck
  refine ⟨s, hs, hhits, fun h => ?_⟩
  have hle := h ⟨0, 1, 0⟩ (by rw [hhits]; exact List.mem_singleton_self _)
  exact absurd hle (by decide)

end Osvcp.Servers.FileServer
