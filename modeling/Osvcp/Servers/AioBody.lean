import Osvcp.Servers.AioServer

/-! # Reasoning about the body of the asynchronous server

`readStage_cases` says what the reading stage does in terms of the pending bytes and of `drain`.
`BodyRule` collects what the operations of the body have to satisfy so that a relation holds between
the client and world before and after it (`BodyRule.stages`). `LocalRule` instantiates the relation
for an invariant of the world and of each client, and gives the invariant of whole runs.
-/

namespace Osvcp.Servers.AioServer

/-! ## The reading stage -/

/-- The line loop over the bytes of the buffer. -/
def drainLines (root : DocRoot) (e : HandleEnv) (i : ℕ) (st : Serving) (buf : List Byte) :
    Serving × List Byte × Bool :=
  drain (fun st line =>
    let r := serveLine root e i st line (LineBuf.lineString true line)
    (r.1, r.2 != .next)) st buf

theorem serveLine_ne_close (root : DocRoot) (e : HandleEnv) (i : ℕ) (st : Serving)
    (line name : List Byte) : (serveLine root e i st line name).2 ≠ .close := by
  unfold serveLine
  simp only
  split <;> nofun

/-- **Loop rule** for the request lines: `I` holds before each of them, `J` after the last one. -/
theorem drainLines_rule {root : DocRoot} {e : HandleEnv} {i : ℕ} {I J : Serving → List Byte → Prop}
    (hend : ∀ st buf, I st buf → LF ∉ buf → J st buf)
    (hline : ∀ st line rest, I st (line ++ LF :: rest) → LF ∉ line →
      let st' := (serveLine root e i st line (LineBuf.lineString true line)).1
      (st'.client.state = .reading → I st' rest) ∧ (st'.client.state ≠ .reading → J st' rest))
    {st : Serving} {buf : List Byte} (hI : I st buf) :
    J (drainLines root e i st buf).1 (drainLines root e i st buf).2.1 := by
  have hverdict : ∀ st line name, ((serveLine root e i st line name).2 != .next) =
      !decide ((serveLine root e i st line name).1.client.state = .reading) := by
    intro st line name
    simp only [serveLine]
    split <;> simp_all
  refine drain_rule (I := I) (J := fun st buf _ => J st buf) hend ?_ ?_ hI
  · intro st st' line rest hI hlf heq
    obtain ⟨rfl, hstop⟩ := Prod.mk.inj heq
    rw [hverdict, Bool.not_eq_true', decide_eq_false_iff_not] at hstop
    exact (hline st line rest hI hlf).2 hstop
  · intro st st' line rest hI hlf heq
    obtain ⟨rfl, hnext⟩ := Prod.mk.inj heq
    rw [hverdict, Bool.not_eq_false', decide_eq_true_iff] at hnext
    exact (hline st line rest hI hlf).1 hnext

/-- **The reading stage** leaves the client as it is, removes it at the end of its stream, or
appends the bytes read and runs the line loop; then it removes the client if its buffer is full. -/
theorem readStage_cases (root : DocRoot) (e : HandleEnv) (i : ℕ) (readable : Bool) (c : Client)
    (w : World) :
    (¬(c.state = .reading ∧ readable = true) ∧ readStage root e i readable c w = .ok (c, w)) ∨
    (c.state = .reading ∧ readable = true ∧ readStage root e i readable c w = .error (c, w)) ∨
    (c.state = .reading ∧ readable = true ∧ ∃ bytes buf,
      bytes ≠ [] ∧ bytes = e.read.take (REQ_BUF_SIZE - 1 - c.reqBuf.len) ∧
      let d := drainLines root e i ⟨0, { c with received := c.received ++ bytes }, w⟩
        (c.reqBuf.pending ++ bytes)
      buf.pending = d.2.1 ∧
      readStage root e i readable c w =
        if REQ_BUF_SIZE - 1 ≤ buf.len then .error ({ d.1.client with reqBuf := buf }, d.1.world)
        else .ok ({ d.1.client with reqBuf := buf }, d.1.world)) := by
  unfold readStage
  by_cases hc : c.state = .reading ∧ readable = true
  · rw [if_pos hc]
    cases hb : e.read.take (REQ_BUF_SIZE - 1 - c.reqBuf.len) with
    | nil => exact .inr (.inl ⟨hc.1, hc.2, rfl⟩)
    | cons b bs =>
        refine .inr (.inr ⟨hc.1, hc.2, b :: bs, ?_⟩)
        have hlen : (b :: bs).length ≤ REQ_BUF_SIZE - c.reqBuf.len := by
          rw [← hb, List.length_take]
          omega
        have hfill := LineBuf.pending_fill c.reqBuf hlen
        have hloop := LineBuf.drainLoop_eq true (serveLine root e i)
          ⟨0, { c with received := c.received ++ b :: bs }, w⟩ (c.reqBuf.fill (b :: bs))
        rw [hfill] at hloop
        -- `begin_file_serve` has no result, so the loop of this server is never left by a close
        have hclose := LineBuf.drainLoop_ne (v := .close) true nofun (serveLine_ne_close root e i)
          ⟨0, { c with received := c.received ++ b :: bs }, w⟩ (c.reqBuf.fill (b :: bs))
        obtain ⟨hst, -, hpend⟩ := hloop
        refine ⟨_, List.cons_ne_nil b bs, rfl, hpend hclose, ?_⟩
        unfold drainLines
        rw [← hst]
  · rw [if_neg hc]
    exact .inl ⟨hc, rfl⟩

/-! ## Starting a response -/

/-- The reasons for which a request gets an error line. -/
inductive Refusal (root : DocRoot) (e : ServeEnv) (name : List Byte) : String → Prop
  | empty (h : name = []) : Refusal root e name "empty filename"
  | absolute (hne : name ≠ []) (h : name.head? = some SLASH) :
      Refusal root e name "absolute paths not allowed"
  | notFound (hne : name ≠ []) (hrel : name.head? ≠ some SLASH)
      (h : e.realpath (root.candidate name) = none) : Refusal root e name "not found"
  | denied {path : CanonPath} (hne : name ≠ []) (hrel : name.head? ≠ some SLASH)
      (hreal : e.realpath (root.candidate name) = some path)
      (h : root.accessOk path.bytes = false) : Refusal root e name "access denied"
  | notRegular {path : CanonPath} {size : ℕ} (hne : name ≠ []) (hrel : name.head? ≠ some SLASH)
      (hreal : e.realpath (root.candidate name) = some path)
      (hacc : root.accessOk path.bytes = true) (h : e.stat path.bytes = .ok false size) :
      Refusal root e name "not a regular file"
  | statFailed {path : CanonPath} {isReg : Bool} (h : e.stat path.bytes = .failed isReg) :
      Refusal root e name (if isReg then "stat failed" else "not a regular file")
  | openFailed {path : CanonPath} (h : e.openOk path.bytes = false) :
      Refusal root e name "open failed"
  | noMemory (h : e.malloc = false) : Refusal root e name "out of memory"
  | aioFailed (h : e.aioRead = false) : Refusal root e name "aio_read failed"

/-- An error line is one line. -/
theorem Refusal.line {root : DocRoot} {e : ServeEnv} {name : List Byte} {reason : String}
    (h : Refusal root e name reason) : LF ∉ ascii reason := by
  cases h with
  | @statFailed path isReg h => cases isReg <;> decide
  | _ => decide

/-- What a refused request may change besides the error line: the saved key, the leftovers of a
response that was not started, and what was opened, allocated and released again. -/
structure Quiet (root : DocRoot) (p q : Client × World) : Prop where
  sock : q.1.sock = p.1.sock
  state : q.1.state = p.1.state
  sent : q.1.sent = p.1.sent
  received : q.1.received = p.1.received
  requests : q.1.requests = p.1.requests
  resp : q.1.resp = p.1.resp ∨ q.1.resp = none
  sfFd : q.1.sfFd = p.1.sfFd
  cacheKey : q.1.cacheKey = p.1.cacheKey ∨
    ∃ path, root.accessOk path = true ∧ q.1.cacheKey = strncpyPath path
  cache : q.2.cache = p.2.cache
  pending : q.2.pending = p.2.pending
  flushes : q.2.flushes = p.2.flushes
  nextBuf : p.2.nextBuf ≤ q.2.nextBuf
  heap : ∀ id < p.2.nextBuf, q.2.heap id = p.2.heap id
  fresh : ∀ id, ∀ x ∈ q.2.heap id, x ∈ p.2.heap id ∨ ∀ src b, x ≠ .file src b
  touched : ∀ path ∈ q.2.touched, path ∈ p.2.touched ∨ root.accessOk path = true

/-- The world after `stat` and `open`. -/
def World.opened (w : World) (path : List Byte) : World :=
  (((w.touch path).touch path).openFile path).2

/-- **What `begin_file_serve` can do**: refuse, copy a cached response, start sending a large file,
or start the read of a small one. -/
inductive Begun (root : DocRoot) (e : ServeEnv) (i : ℕ) (name : List Byte) (c : Client)
    (w : World) :
    Client × World → Prop
  | refused {reason : String} {q : Client × World} (h : Refusal root e name reason)
      (hq : Quiet root (c, w) q) :
      Begun root e i name c w (q.1.reply e.sends (errLine reason), q.2)
  | cached {path : CanonPath} {entry : CacheEntry} (hne : name ≠ [])
      (hrel : name.head? ≠ some SLASH)
      (hreal : e.realpath (root.candidate name) = some path)
      (hacc : root.accessOk path.bytes = true)
      (hlook : cacheLookup w.cache path.bytes = some entry) :
      Begun root e i name c w
        (serveCached entry { c with cacheKey := strncpyPath path.bytes } w)
  | sendfile {path : CanonPath} {size : ℕ} (hne : name ≠ []) (hrel : name.head? ≠ some SLASH)
      (hreal : e.realpath (root.candidate name) = some path)
      (hacc : root.accessOk path.bytes = true) (hstat : e.stat path.bytes = .ok true size)
      (hsize : MAX_CACHE_FILE_SIZE < size) :
      Begun root e i name c w
        (startSendfile e ⟨w.nextFd, path.bytes⟩ size { c with cacheKey := strncpyPath path.bytes }
          (w.opened path.bytes))
  | aio {path : CanonPath} {size : ℕ} (hne : name ≠ []) (hrel : name.head? ≠ some SLASH)
      (hreal : e.realpath (root.candidate name) = some path)
      (hacc : root.accessOk path.bytes = true) (hstat : e.stat path.bytes = .ok true size)
      (hsize : size ≤ MAX_CACHE_FILE_SIZE)
      (hmalloc : e.malloc = true) (haio : e.aioRead = true) :
      Begun root e i name c w
        (startRead e i ⟨w.nextFd, path.bytes⟩ size { c with cacheKey := strncpyPath path.bytes }
          (w.opened path.bytes))

theorem okHeader_junk_not_file {size : ℕ} {x : Cell}
    (h : x ∈ okHeader size ++ List.replicate size .junk) (src : Source) (b : Byte) :
    x ≠ .file src b := by
  rintro rfl
  simp [okHeader, text] at h

/-- Nothing but the saved key, the opened file and the touched paths. -/
theorem Quiet.opened {root : DocRoot} (c : Client) (w : World) {path : List Byte}
    (hacc : root.accessOk path = true) (f : Handle) :
    Quiet root (c, w) ({ c with cacheKey := strncpyPath path }, (w.opened path).close f) := by
  refine ⟨rfl, rfl, rfl, rfl, rfl, .inl rfl, rfl, .inr ⟨path, hacc, rfl⟩, rfl, rfl, rfl,
    Nat.le_refl _, fun _ _ => rfl, fun _ _ hx => .inl hx, ?_⟩
  intro p hp
  simp only [World.close, World.opened, World.openFile, World.touch, List.mem_append,
    List.mem_singleton] at hp
  rcases hp with (hp | rfl) | rfl
  · exact .inl hp
  · exact .inr hacc
  · exact .inr hacc

/-- The read of a small file is started. -/
theorem startRead_of_ok {e : ServeEnv} (hmalloc : e.malloc = true) (haio : e.aioRead = true) (i : ℕ)
    (f : Handle) (size : ℕ) (c : Client) (w : World) :
    startRead e i f size c w =
      ({ c with
          fileFd := some f, resp := some w.nextBuf, respSize := (okHeader size).length + size,
          respSent := 0, aio := .inProgress, state := .aio },
        { w.alloc (okHeader size ++ List.replicate size .junk) with
          pending :=
            w.pending ++ [⟨i, w.nextBuf, (okHeader size).length, size, f, w.flushes⟩] }) := by
  unfold startRead
  rw [if_neg (by simp [hmalloc])]
  simp only
  rw [if_neg (by simp [haio])]
  rfl

theorem startRead_begun {root : DocRoot} {e : ServeEnv} {name : List Byte} {c : Client} {w : World}
    {path : CanonPath} (i : ℕ) {size : ℕ} (hne : name ≠ []) (hrel : name.head? ≠ some SLASH)
    (hreal : e.realpath (root.candidate name) = some path) (hacc : root.accessOk path.bytes = true)
    (hstat : e.stat path.bytes = .ok true size) (hsize : size ≤ MAX_CACHE_FILE_SIZE) :
    Begun root e i name c w
      (startRead e i ⟨w.nextFd, path.bytes⟩ size { c with cacheKey := strncpyPath path.bytes }
        (w.opened path.bytes)) := by
  have hq := Quiet.opened c w hacc ⟨w.nextFd, path.bytes⟩
  by_cases hmalloc : e.malloc = false
  · unfold startRead
    rw [if_pos hmalloc]
    exact .refused (.noMemory hmalloc) hq
  · by_cases haio : e.aioRead = false
    · unfold startRead
      simp only
      rw [if_neg hmalloc, if_pos haio]
      -- the buffer is freed again: it is a new one, and it holds no byte of a file
      refine .refused (.aioFailed haio) (q := (_, _)) ⟨rfl, rfl, rfl, rfl, rfl, .inr rfl, rfl,
        .inr ⟨path.bytes, hacc, rfl⟩, rfl, rfl, rfl, Nat.le_succ _, ?_, ?_, hq.touched⟩
      · intro id hid
        exact Function.update_of_ne (Nat.ne_of_lt hid) _ _
      · intro id x hx
        by_cases hid : id = w.nextBuf
        · subst hid
          right
          apply okHeader_junk_not_file
          simpa [World.close, World.free, World.alloc, World.opened, World.openFile, World.touch]
            using hx
        · left
          simpa [World.close, World.free, World.alloc, World.opened, World.openFile,
            World.touch, hid] using hx
    · exact .aio hne hrel hreal hacc hstat hsize (by simpa using hmalloc) (by simpa using haio)

theorem serveFromDisk_begun {root : DocRoot} {e : ServeEnv} {name : List Byte} {path : CanonPath}
    (i : ℕ) (c : Client) (w : World) (hne : name ≠ []) (hrel : name.head? ≠ some SLASH)
    (hreal : e.realpath (root.candidate name) = some path)
    (hacc : root.accessOk path.bytes = true) :
    Begun root e i name c w
      (serveFromDisk e i path.bytes { c with cacheKey := strncpyPath path.bytes } w) := by
  have hquiet : Quiet root (c, w) ({ c with cacheKey := strncpyPath path.bytes },
      w.touch path.bytes) := by
    refine ⟨rfl, rfl, rfl, rfl, rfl, .inl rfl, rfl, .inr ⟨path.bytes, hacc, rfl⟩, rfl, rfl, rfl,
      Nat.le_refl _, fun _ _ => rfl, fun _ _ hx => .inl hx, ?_⟩
    intro p hp
    rcases List.mem_append.mp hp with hp | hp
    · exact .inl hp
    · exact .inr (List.mem_singleton.mp hp ▸ hacc)
  -- a failed `open` leaves the path looked at twice and no descriptor
  have hquiet₂ : Quiet root (c, w) ({ c with cacheKey := strncpyPath path.bytes },
      (w.touch path.bytes).touch path.bytes) :=
    { Quiet.opened c w hacc ⟨w.nextFd, path.bytes⟩ with }
  unfold serveFromDisk
  simp only
  split
  · rename_i isReg hstat
    exact .refused (.statFailed hstat) hquiet
  · rename_i size hstat
    exact .refused (.notRegular hne hrel hreal hacc hstat) hquiet
  · rename_i size hstat
    split
    · rename_i hopen
      exact .refused (.openFailed hopen) hquiet₂
    · split
      · rename_i hsize
        exact .sendfile hne hrel hreal hacc hstat hsize
      · rename_i hsize
        exact startRead_begun i hne hrel hreal hacc hstat (Nat.le_of_not_lt hsize)

theorem beginFileServe_begun (root : DocRoot) (e : ServeEnv) (i : ℕ) (name : List Byte) (c : Client)
    (w : World) : Begun root e i name c w (beginFileServe root e i name c w) := by
  have hrefl : Quiet root (c, w) (c, w) :=
    ⟨rfl, rfl, rfl, rfl, rfl, .inl rfl, rfl, .inl rfl, rfl, rfl, rfl, Nat.le_refl _, fun _ _ => rfl,
      fun _ _ hx => .inl hx, fun _ hp => .inl hp⟩
  unfold beginFileServe
  split
  · rename_i hempty
    exact .refused (.empty hempty) hrefl
  · rename_i hne
    split
    · rename_i habs
      exact .refused (.absolute hne habs) hrefl
    · rename_i hrel
      split
      · rename_i hreal
        exact .refused (.notFound hne hrel hreal) hrefl
      · rename_i path hreal
        split
        · rename_i hacc
          exact .refused (.denied hne hrel hreal hacc) hrefl
        · rename_i hacc
          have hacc : root.accessOk path.bytes = true := by simpa using hacc
          simp only
          split
          · rename_i entry hlook
            split
            · exact .cached hne hrel hreal hacc hlook
            · -- no memory for the copy of a hit: the request goes on as a miss
              exact serveFromDisk_begun i c w hne hrel hreal hacc
          · exact serveFromDisk_begun i c w hne hrel hreal hacc

/-! ## Buffers -/

/-- Where the values of `f` are all different, those of the others differ from that of an entry. -/
theorem ne_of_mem_eraseIdx {α β : Type*} {f : α → β} {l : List α}
    (h : l.Pairwise fun a b => f a ≠ f b) {k : ℕ} {a b : α} (ha : l[k]? = some a)
    (hb : b ∈ l.eraseIdx k) : f b ≠ f a := by
  obtain ⟨j, hjk, hj⟩ := List.mem_eraseIdx_iff_getElem?.mp hb
  obtain ⟨hjlt, rfl⟩ := List.getElem?_eq_some_iff.mp hj
  obtain ⟨hklt, rfl⟩ := List.getElem?_eq_some_iff.mp ha
  have hpair := List.pairwise_iff_getElem.mp h
  rcases Nat.lt_or_gt_of_ne hjk with hlt | hgt
  · exact hpair j k hjlt hklt hlt
  · exact (hpair k j hklt hjlt hgt).symm

/-- The world after an operation that allocates, frees and starts reads into new buffers only. -/
structure World.Extends (w w' : World) : Prop where
  nextBuf : w.nextBuf ≤ w'.nextBuf
  heap : ∀ id < w.nextBuf, w'.heap id = w.heap id
  pending : ∀ r ∈ w'.pending, r ∈ w.pending ∨ w.nextBuf ≤ r.buf

theorem World.Extends.refl (w : World) : w.Extends w :=
  ⟨Nat.le_refl _, fun _ _ => rfl, fun _ hr => .inl hr⟩

/-- The buffers are the same, and no read is started. -/
theorem World.Extends.of_heap_eq {w w' : World} (hn : w'.nextBuf = w.nextBuf)
    (hheap : w'.heap = w.heap) (hp : ∀ r ∈ w'.pending, r ∈ w.pending) : w.Extends w' :=
  ⟨hn.ge, fun id _ => congrFun hheap id, fun r hr => .inl (hp r hr)⟩

/-- The end of a read stores into its own buffer. -/
theorem World.complete_heap_of_ne {w : World} {k id : ℕ} {r : AioRequest} (h : id ≠ r.buf)
    (result : AioResult) : (w.complete k r result).heap id = w.heap id := by
  cases result with
  | failed => rfl
  | delivered data => exact Function.update_of_ne h _ _

/-- `close` and `free` leave the buffers alone. -/
theorem World.extends_release (w : World) (f : Option Handle) (id : Option ℕ) :
    w.Extends ((w.close f).free id) := by
  refine .of_heap_eq (by simp) (by simp) fun r hr => ?_
  simpa using hr

/-- The reads in flight after the read of a small file has been started. -/
theorem mem_pending_startRead {e : ServeEnv} (hmalloc : e.malloc = true) (haio : e.aioRead = true)
    (i : ℕ) (f : Handle) (size : ℕ) (c : Client) (w : World) :
    ∀ r ∈ (startRead e i f size c w).2.pending,
      r ∈ w.pending ∨ r = ⟨i, w.nextBuf, (okHeader size).length, size, f, w.flushes⟩ := by
  intro r hr
  rw [startRead_of_ok hmalloc haio] at hr
  rcases List.mem_append.mp hr with hr | hr
  · exact .inl hr
  · exact .inr (List.mem_singleton.mp hr)

theorem Begun.extends {root : DocRoot} {e : ServeEnv} {i : ℕ} {name : List Byte} {c : Client}
    {w : World} {p : Client × World} (h : Begun root e i name c w p) : w.Extends p.2 := by
  cases h with
  | refused h hq => exact ⟨hq.nextBuf, hq.heap, fun r hr => .inl (hq.pending ▸ hr)⟩
  | cached hne hrel hreal hacc hlook =>
      exact ⟨Nat.le_succ _, fun id hid => Function.update_of_ne (Nat.ne_of_lt hid) _ _,
        fun r hr => .inl hr⟩
  | sendfile hne hrel hreal hacc hstat hsize =>
      exact .of_heap_eq rfl rfl fun r hr => hr
  | @aio path size hne hrel hreal hacc hstat hsize hmalloc haio =>
      refine ⟨?_, ?_, fun r hr => ?_⟩
      · rw [startRead_of_ok hmalloc haio]
        exact Nat.le_succ _
      · rw [startRead_of_ok hmalloc haio]
        exact fun id hid => Function.update_of_ne (Nat.ne_of_lt hid) _ _
      · rcases mem_pending_startRead hmalloc haio _ _ _ _ _ r hr with hr | rfl
        · exact .inl hr
        · exact .inr (Nat.le_refl _)

section

variable (e : HandleEnv) (c : Client) (w : World)

@[simp] theorem finishRead_pending : (finishRead e c w).2.pending = w.pending := by
  unfold finishRead
  simp only
  split <;> simp

@[simp] theorem finishRead_nextBuf : (finishRead e c w).2.nextBuf = w.nextBuf := by
  unfold finishRead
  simp only
  split <;> simp

@[simp] theorem finishRead_heap : (finishRead e c w).2.heap = w.heap := by
  unfold finishRead
  simp only
  split <;> simp

variable {e c w}

/-- The only new cache entry is the response of the client, under its saved key. -/
theorem mem_cache_finishRead {entry : CacheEntry} (h : entry ∈ (finishRead e c w).2.cache) :
    entry ∈ w.cache ∨ entry.resp = c.buffer w ∧
      (entry.key = c.cacheKey ∧ (∃ d ∈ w.cache, d.key = c.cacheKey) ∨
        entry.key = strncpyPath c.cacheKey) := by
  have hbuf : c.buffer (w.close c.fileFd) = c.buffer w := by
    unfold Client.buffer
    rw [World.close_heap]
  unfold finishRead at h
  simp only [hbuf, World.close_cache] at h
  split at h
  · exact mem_cacheInsert h
  · rw [World.close_cache] at h
    exact .inl h

end

theorem finishRead_extends (e : HandleEnv) (c : Client) (w : World) :
    w.Extends (finishRead e c w).2 :=
  .of_heap_eq (by simp) (by simp) fun r hr => by simpa using hr

@[simp] theorem checkAio_pending (e : HandleEnv) (c : Client) (w : World) :
    (checkAio e c w).2.pending = w.pending := by
  unfold checkAio
  split
  · rfl
  · simp [failRead]
  · exact finishRead_pending e c w

@[simp] theorem advanceWrite_pending (cells : List Cell) (c : Client) (w : World) :
    (advanceWrite cells c w).2.pending = w.pending := by
  unfold advanceWrite
  simp only
  split <;> simp

@[simp] theorem advanceSendfile_pending (data : List Byte) (c : Client) (w : World) :
    (advanceSendfile data c w).2.pending = w.pending := by
  unfold advanceSendfile
  simp only
  split <;> simp

theorem checkAio_extends (e : HandleEnv) (c : Client) (w : World) :
    w.Extends (checkAio e c w).2 := by
  unfold checkAio
  split
  · exact .refl w
  · exact w.extends_release _ _
  · exact finishRead_extends e c w

theorem advanceWrite_extends (cells : List Cell) (c : Client) (w : World) :
    w.Extends (advanceWrite cells c w).2 := by
  unfold advanceWrite
  simp only
  split
  · exact w.extends_release none _
  · exact .refl w

theorem advanceSendfile_extends (data : List Byte) (c : Client) (w : World) :
    w.Extends (advanceSendfile data c w).2 := by
  unfold advanceSendfile
  simp only
  split
  · exact w.extends_release _ none
  · exact .refl w

/-- A response is not longer than `resp_size`. -/
theorem Client.length_buffer_le (c : Client) (w : World) : (c.buffer w).length ≤ c.respSize := by
  unfold Client.buffer
  split
  · exact List.length_take_le _ _
  · exact Nat.zero_le _

/-- `sendfile` sends no more than it was asked for. -/
theorem length_le_of_sendfile {e : HandleEnv} {c : Client} {data : List Byte}
    (h : data = [] ∨ ∃ d, e.sendfile c.sfFd c.sfOffset = .sent d ∧ data = d.take c.sfRemaining) :
    data.length ≤ c.sfRemaining := by
  rcases h with rfl | ⟨d, -, rfl⟩
  · exact Nat.zero_le _
  · exact List.length_take_le _ _

/-! ## Removing a client -/

/-- **What `remove_client` does to the world**: it waits for nothing if the client's control block
is not in progress, or a read registered at the slot is cancelled or ends; then it closes and
frees. -/
theorem removeClient_cases {i : ℕ} {wait : WaitResult} {c : Client} {w w' : World}
    (h : removeClient i wait c w = some w') :
    ∃ w₁ f id, w' = (w₁.close f).free id ∧
      (w₁ = w ∧ ¬(c.state = .aio ∧ c.aio = .inProgress) ∨
        ∃ k r, w.pending[k]? = some r ∧ r.slot = i ∧
          (w₁ = { w with pending := w.pending.eraseIdx k } ∨
            ∃ result, wait = .completed k result ∧ w₁ = w.complete k r result)) := by
  have hawait : ∀ w₁, awaitAio i wait c w = some w₁ →
      w₁ = w ∧ ¬(c.state = .aio ∧ c.aio = .inProgress) ∨
        ∃ k r, w.pending[k]? = some r ∧ r.slot = i ∧
          (w₁ = { w with pending := w.pending.eraseIdx k } ∨
            ∃ result, wait = .completed k result ∧ w₁ = w.complete k r result) := by
    intro w₁ h
    cases wait with
    | cancelled =>
        simp only [awaitAio] at h
        split at h
        · rename_i k hk
          cases h
          obtain ⟨hlt, hr, -⟩ := List.findIdx?_eq_some_iff_getElem.mp hk
          rw [decide_eq_true_iff] at hr
          exact .inr ⟨k, _, List.getElem?_eq_getElem hlt, hr.1, .inl rfl⟩
        · split at h
          · cases h
          · rename_i haio
            cases h
            exact .inl ⟨rfl, fun hc => haio hc.2⟩
    -- `aio_cancel` comes too late, and the loop on `aio_error` waits for the end of the read
    | completed k result =>
        simp only [awaitAio] at h
        split at h
        · split at h
          · rename_i r hr
            split at h
            · rename_i hslot
              cases h
              exact .inr ⟨k, r, hr, hslot, .inr ⟨result, rfl, rfl⟩⟩
            · cases h
          · cases h
        · rename_i haio
          cases h
          exact .inl ⟨rfl, fun hc => haio hc.2⟩
  unfold removeClient at h
  split at h
  · obtain ⟨w₁, hw₁, rfl⟩ := Option.map_eq_some_iff.mp h
    exact ⟨w₁, c.fileFd, c.resp, rfl, hawait w₁ hw₁⟩
  · rename_i hst
    cases h
    exact ⟨w, c.sfFd, c.resp, rfl, .inl ⟨rfl, by simp [hst]⟩⟩
  · rename_i hst
    cases h
    exact ⟨w, none, c.resp, rfl, .inl ⟨rfl, by simp [hst]⟩⟩
  · rename_i hst
    cases h
    exact ⟨w, none, c.resp, rfl, .inl ⟨rfl, by simp [hst]⟩⟩

theorem stages_of_keep {root : DocRoot} {i : ℕ} {readable writable : Bool} {c c' : Client}
    {w w' : World} {e : HandleEnv}
    (h : handle root i readable writable c w e = some (.keep c' w')) :
    stages root e i readable writable c w = .ok (c', w') := by
  unfold handle at h
  split at h
  · rename_i hst
    cases h
    exact hst
  · obtain ⟨w₁, -, heq⟩ := Option.map_eq_some_iff.mp h
    cases heq

theorem stages_of_drop {root : DocRoot} {i : ℕ} {readable writable : Bool} {c c' : Client}
    {w w' : World} {e : HandleEnv}
    (h : handle root i readable writable c w e = some (.drop c' w')) :
    ∃ w₁, stages root e i readable writable c w = .error (c', w₁) ∧
      removeClient i e.wait c' w₁ = some w' := by
  unfold handle at h
  split at h
  · cases h
  · rename_i c₁ w₁ hst
    obtain ⟨w₂, hrm, heq⟩ := Option.map_eq_some_iff.mp h
    cases heq
    exact ⟨w₁, hst, hrm⟩

theorem Stage.exists_of_bind_eq_ok {x : Stage} {f : Client × World → Stage} {q : Client × World}
    (h : (x >>= f) = .ok q) : ∃ p, x = .ok p ∧ f p = .ok q := by
  cases x with
  | error p => cases h
  | ok p => exact ⟨p, rfl, h⟩

/-- The stages up to the last one, where none of them removes the client. -/
theorem stages_eq_sendfileStage {root : DocRoot} {e : HandleEnv} {i : ℕ} {readable writable : Bool}
    {c c₁ c₂ c₃ : Client} {w w₁ w₂ w₃ : World}
    (hprobe : ¬(readable = true ∧ c.state ≠ .reading ∧ e.hangup = true))
    (haio : aioStage e c w = .ok (c₁, w₁))
    (hread : readStage root e i readable c₁ w₁ = .ok (c₂, w₂))
    (hwrite : writeStage e writable c₂ w₂ = .ok (c₃, w₃)) :
    stages root e i readable writable c w = sendfileStage e writable c₃ w₃ := by
  have hprobe : probe e readable c w = .ok (c, w) := if_neg hprobe
  unfold stages
  rw [hprobe]
  show (aioStage e c w >>= _) = _
  rw [haio]
  show (readStage root e i readable c₁ w₁ >>= _) = _
  rw [hread]
  show (writeStage e writable c₂ w₂ >>= _) = _
  rw [hwrite]
  rfl

/-- The stages a client goes through that is kept. -/
theorem stages_of_ok {root : DocRoot} {e : HandleEnv} {i : ℕ} {readable writable : Bool}
    {c c' : Client} {w w' : World} (h : stages root e i readable writable c w = .ok (c', w')) :
    ∃ c₁ w₁ c₂ w₂ c₃ w₃, ¬(readable = true ∧ c.state ≠ .reading ∧ e.hangup = true) ∧
      aioStage e c w = .ok (c₁, w₁) ∧ readStage root e i readable c₁ w₁ = .ok (c₂, w₂) ∧
      writeStage e writable c₂ w₂ = .ok (c₃, w₃) ∧
      sendfileStage e writable c₃ w₃ = .ok (c', w') := by
  unfold stages at h
  obtain ⟨⟨c₀, w₀⟩, hprobe, h₁⟩ := Stage.exists_of_bind_eq_ok h
  obtain ⟨⟨c₁, w₁⟩, haio, h₂⟩ := Stage.exists_of_bind_eq_ok h₁
  obtain ⟨⟨c₂, w₂⟩, hread, h₃⟩ := Stage.exists_of_bind_eq_ok h₂
  obtain ⟨⟨c₃, w₃⟩, hwrite, hsend⟩ := Stage.exists_of_bind_eq_ok h₃
  unfold probe at hprobe
  split at hprobe
  · cases hprobe
  · rename_i hhang
    cases hprobe
    exact ⟨c₁, w₁, c₂, w₂, c₃, w₃, hhang, haio, hread, hwrite, hsend⟩

/-! ## Relations between before and after -/

/-- The client and the world after a stage, kept or removed. -/
def Stage.result : Stage → Client × World
  | .ok p => p
  | .error p => p

/-- A relation between the client and world before and after the body, and what makes it one: it is
reflexive and transitive, it does not look at the input, and the operations of the body satisfy
it. -/
structure BodyRule (root : DocRoot) (e : HandleEnv) (i : ℕ)
    (R : Client × World → Client × World → Prop) : Prop where
  refl : ∀ p, R p p
  trans : ∀ {p q r}, R p q → R q r → R p r
  input : ∀ (c : Client) w buf received,
    R (c, w) ({ c with reqBuf := buf, received := received }, w)
  checkAio : ∀ c w, c.state = .aio → R (c, w) (checkAio e c w)
  beginFileServe : ∀ k c w line, c.state = .reading →
    R (c, w) (beginFileServe root (e.serves k) i (LineBuf.lineString true line)
      { c with requests := c.requests ++ [line] } w)
  advanceWrite : ∀ c w cells, c.state = .writing →
    nbWrite e.write ((c.buffer w).drop c.respSent) = some cells → R (c, w) (advanceWrite cells c w)
  advanceSendfile : ∀ c w data, c.state = .sendfile →
    (data = [] ∨ ∃ d, e.sendfile c.sfFd c.sfOffset = .sent d ∧ data = d.take c.sfRemaining) →
    R (c, w) (advanceSendfile data c w)

namespace BodyRule

variable {root : DocRoot} {e : HandleEnv} {i : ℕ} {R : Client × World → Client × World → Prop}

theorem bind (hR : BodyRule root e i R) {p : Client × World} {x : Stage}
    {f : Client × World → Stage} (hx : R p x.result) (hf : ∀ q, x = .ok q → R q (f q).result) :
    R p (Stage.result (x >>= f)) := by
  cases x with
  | error q => exact hx
  | ok q => exact hR.trans hx (hf q rfl)

theorem probe (hR : BodyRule root e i R) (readable : Bool) (c : Client) (w : World) :
    R (c, w) (Stage.result (probe e readable c w)) := by
  unfold AioServer.probe
  split
  · exact hR.refl _
  · exact hR.refl _

theorem aioStage (hR : BodyRule root e i R) (c : Client) (w : World) :
    R (c, w) (Stage.result (aioStage e c w)) := by
  unfold AioServer.aioStage
  split
  · rename_i h
    exact hR.checkAio c w h
  · exact hR.refl _

/-- The line loop: every request is begun by a reading client. -/
theorem drainLines (hR : BodyRule root e i R) {c : Client} (w : World) (buf : List Byte)
    (hc : c.state = .reading) :
    R (c, w) ((drainLines root e i ⟨0, c, w⟩ buf).1.client,
      (drainLines root e i ⟨0, c, w⟩ buf).1.world) := by
  refine drainLines_rule
    (I := fun (st : Serving) _ => st.client.state = .reading ∧ R (c, w) (st.client, st.world))
    (J := fun (st : Serving) _ => R (c, w) (st.client, st.world)) ?_ ?_ ⟨hc, hR.refl _⟩
  · exact fun st buf hI _ => hI.2
  · rintro st line rest ⟨hst, hI⟩ - st'
    have hR' := hR.trans hI (hR.beginFileServe st.calls st.client st.world line hst)
    exact ⟨fun h => ⟨h, hR'⟩, fun _ => hR'⟩

theorem readStage (hR : BodyRule root e i R) (readable : Bool) (c : Client) (w : World) :
    R (c, w) (Stage.result (readStage root e i readable c w)) := by
  rcases readStage_cases root e i readable c w with ⟨-, h⟩ | ⟨-, -, h⟩ |
    ⟨hc, -, bytes, buf, -, -, -, h⟩
  · rw [h]
    exact hR.refl _
  · rw [h]
    exact hR.refl _
  · have hin : R (c, w) ({ c with received := c.received ++ bytes }, w) :=
      hR.input c w c.reqBuf (c.received ++ bytes)
    have hloop := hR.drainLines (c := { c with received := c.received ++ bytes }) w
      (c.reqBuf.pending ++ bytes) hc
    have hout := hR.input (AioServer.drainLines root e i
      ⟨0, { c with received := c.received ++ bytes }, w⟩ (c.reqBuf.pending ++ bytes)).1.client
      (AioServer.drainLines root e i
        ⟨0, { c with received := c.received ++ bytes }, w⟩ (c.reqBuf.pending ++ bytes)).1.world buf
      (AioServer.drainLines root e i
        ⟨0, { c with received := c.received ++ bytes }, w⟩
        (c.reqBuf.pending ++ bytes)).1.client.received
    rw [h]
    split
    · exact hR.trans hin (hR.trans hloop hout)
    · exact hR.trans hin (hR.trans hloop hout)

theorem writeStage (hR : BodyRule root e i R) (writable : Bool) (c : Client) (w : World) :
    R (c, w) (Stage.result (writeStage e writable c w)) := by
  unfold AioServer.writeStage
  split
  · rename_i h
    split
    · exact hR.refl _
    · rename_i cells hcells
      exact hR.advanceWrite c w cells h.1 hcells
  · exact hR.refl _

theorem sendfileStage (hR : BodyRule root e i R) (writable : Bool) (c : Client) (w : World) :
    R (c, w) (Stage.result (sendfileStage e writable c w)) := by
  unfold AioServer.sendfileStage
  split
  · rename_i h
    split
    · exact hR.refl _
    · exact hR.advanceSendfile c w [] h.1 (.inl rfl)
    · rename_i data hdata
      exact hR.advanceSendfile c w _ h.1 (.inr ⟨data, hdata, rfl⟩)
  · exact hR.refl _

/-- **The whole body** satisfies the relation. -/
theorem stages (hR : BodyRule root e i R) (readable writable : Bool) (c : Client) (w : World) :
    R (c, w) (Stage.result (stages root e i readable writable c w)) := by
  unfold AioServer.stages
  apply hR.bind (hR.probe readable c w)
  rintro ⟨c, w⟩ -
  apply hR.bind (hR.aioStage c w)
  rintro ⟨c, w⟩ -
  apply hR.bind (hR.readStage readable c w)
  rintro ⟨c, w⟩ -
  apply hR.bind (hR.writeStage writable c w)
  rintro ⟨c, w⟩ -
  exact hR.sendfileStage writable c w

end BodyRule

/-! ## Invariants of the world and of each client -/

/-- The relation that keeps `P` and the `Q` of the client in slot `i`, and the `Q` of all others. -/
def Keeps (P : World → Prop) (Q : World → ℕ → Client → Prop) (i : ℕ)
    (p q : Client × World) : Prop :=
  P p.2 ∧ Q p.2 i p.1 →
    (P q.2 ∧ Q q.2 i q.1) ∧ ∀ j d, j ≠ i → Q p.2 j d → Q q.2 j d

section Keeps

variable {P : World → Prop} {Q : World → ℕ → Client → Prop} {i : ℕ}

theorem Keeps.refl (p : Client × World) : Keeps P Q i p p := fun h => ⟨h, fun _ _ _ hd => hd⟩

theorem Keeps.trans {p q r : Client × World} (h₁ : Keeps P Q i p q) (h₂ : Keeps P Q i q r) :
    Keeps P Q i p r := by
  intro hp
  obtain ⟨hq, hframe₁⟩ := h₁ hp
  obtain ⟨hr, hframe₂⟩ := h₂ hq
  exact ⟨hr, fun j d hj hd => hframe₂ j d hj (hframe₁ j d hj hd)⟩

/-- A change of the client alone. -/
theorem Keeps.of_world_eq {c c' : Client} {w : World} (h : P w → Q w i c → Q w i c') :
    Keeps P Q i (c, w) (c', w) :=
  fun ⟨hP, hQ⟩ => ⟨⟨hP, h hP hQ⟩, fun _ _ _ hd => hd⟩

/-- An operation that leaves the buffers of the others alone. -/
theorem Keeps.of_extends {p q : Client × World} (hext : p.2.Extends q.2)
    (hmono : ∀ {w w' : World} {j : ℕ} {d : Client}, Q w j d → w.Extends w' → Q w' j d)
    (h : P p.2 → Q p.2 i p.1 → P q.2 ∧ Q q.2 i q.1) : Keeps P Q i p q :=
  fun ⟨hP, hQ⟩ => ⟨h hP hQ, fun _ _ _ hd => hmono hd hext⟩

/-- Two invariants, of which the second one may rely on the world of the first. -/
theorem Keeps.and {P' : World → Prop} {Q' : World → ℕ → Client → Prop} {p q : Client × World}
    (h : Keeps P Q i p q) (h' : P p.2 → Keeps P' Q' i p q) :
    Keeps (fun w => P w ∧ P' w) (fun w j c => Q w j c ∧ Q' w j c) i p q := by
  rintro ⟨⟨hP, hP'⟩, hQ, hQ'⟩
  obtain ⟨⟨hP₁, hQ₁⟩, hframe⟩ := h ⟨hP, hQ⟩
  obtain ⟨⟨hP₂, hQ₂⟩, hframe'⟩ := h' hP ⟨hP', hQ'⟩
  exact ⟨⟨⟨hP₁, hP₂⟩, hQ₁, hQ₂⟩, fun j d hj hd => ⟨hframe j d hj hd.1, hframe' j d hj hd.2⟩⟩

/-- A property of the client alone on top of an invariant. -/
theorem Keeps.and_client {R : Client → Prop} {p q : Client × World} (h : Keeps P Q i p q)
    (hR : P p.2 → Q p.2 i p.1 → R p.1 → R q.1) : Keeps P (fun w j c => Q w j c ∧ R c) i p q := by
  rintro ⟨hP, hQ, hp⟩
  obtain ⟨⟨hP', hQ'⟩, hframe⟩ := h ⟨hP, hQ⟩
  exact ⟨⟨hP', hQ', hR hP hQ hp⟩, fun j d hj hd => ⟨hframe j d hj hd.1, hd.2⟩⟩

end Keeps

/-- What the server's operations other than `cache_clear` have to do to keep `P` of the number of
clients and the world, `Q` of each client in its slot and `G` of each removed client, in steps that
satisfy `ok`. -/
structure VisitRule (root : DocRoot) (ok : State → Action → Prop) (P : ℕ → World → Prop)
    (Q : World → ℕ → Client → Prop) (G : Client → Prop) : Prop where
  init : P 0 .init
  connect : ∀ n w fd, P n w → P (n + 1) w ∧ Q w n (.init fd)
  flags : ∀ n w running clear, P n w →
    P n { w with running := running, clearRequested := clear } ∧
      ∀ i c, Q w i c → Q { w with running := running, clearRequested := clear } i c
  aioDone : ∀ (s : State) k r result, s.world.pending[k]? = some r →
    ok s (.async (.aioDone k result)) → P s.table.size s.world →
    (∀ i < s.table.size, Q s.world i (s.table.slots i)) →
    P s.table.size (s.world.complete k r result) ∧
    ∀ i < s.table.size, Q (s.world.complete k r result) i
      (if i = r.slot then { s.table.slots i with
        aio := World.status r result } else s.table.slots i)
  body : ∀ (s : State) e i, ok s (.handle e) → i < s.table.size →
    BodyRule root e i (Keeps (P s.table.size) Q i)
  remove : ∀ (s : State) e i c w w', ok s (.handle e) → P s.table.size w → Q w i c →
    removeClient i e.wait c w = some w' →
    (P s.table.size w' ∧ Q w' i (.init 0)) ∧ G c ∧ ∀ j d, j ≠ i → Q w j d → Q w' j d
  shrink : ∀ (s : State) r k e w', s.phase = .pass r (k + 1) → k < s.table.size →
    ok s (.handle e) → P s.table.size w' → Q w' k (.init 0) →
    (∀ j < s.table.size, j ≠ k → Q w' j (s.table.slots j)) →
    (∃ c', handle root k (decide ((s.table.slots k).sock ∈ r.rd))
      (decide ((s.table.slots k).sock ∈ r.wr)) (s.table.slots k) s.world e = some (.drop c' w')) →
    P (s.table.size - 1) w' ∧
      (k < s.table.size - 1 → Q w' k (s.table.slots (s.table.size - 1)))

/-- What all operations of the server have to do. -/
structure LocalRule (root : DocRoot) (ok : State → Action → Prop) (P : ℕ → World → Prop)
    (Q : World → ℕ → Client → Prop) (G : Client → Prop) : Prop extends VisitRule root ok P Q G where
  clear : ∀ n w, P n w → P n { w with cache := [], flushes := w.flushes + 1 } ∧
    ∀ i c, Q w i c → Q { w with cache := [], flushes := w.flushes + 1 } i c

section

variable {root : DocRoot} {ok : State → Action → Prop} {P : ℕ → World → Prop}
  {Q : World → ℕ → Client → Prop} {G : Client → Prop}

namespace VisitRule

theorem event (hR : VisitRule root ok P Q G) (s : State) (a : Event) (t : Table Client) (w : World)
    (hP : P s.table.size s.world) (hQ : ∀ i < s.table.size, Q s.world i (s.table.slots i))
    (hok : ok s (.async a)) (h : event s.table s.world a = some (t, w)) :
    t.size = s.table.size ∧ P s.table.size w ∧ ∀ i < s.table.size, Q w i (t.slots i) := by
  cases a with
  | sigint =>
      cases h
      obtain ⟨hP', hQ'⟩ := hR.flags _ _ false s.world.clearRequested hP
      exact ⟨rfl, hP', fun i hi => hQ' i _ (hQ i hi)⟩
  | sigusr1 =>
      cases h
      obtain ⟨hP', hQ'⟩ := hR.flags _ _ s.world.running true hP
      exact ⟨rfl, hP', fun i hi => hQ' i _ (hQ i hi)⟩
  | aioDone k result =>
      simp only [AioServer.event] at h
      split at h
      · cases h
      · rename_i r hr
        cases h
        obtain ⟨hP', hQ'⟩ := hR.aioDone s k r result hr hok hP hQ
        refine ⟨rfl, hP', fun i hi => ?_⟩
        have hi' := hQ' i hi
        by_cases his : i = r.slot
        · subst his
          simpa [Table.set] using hi'
        · simpa [Table.set, his] using hi'

/-- The stages keep the invariant, whether the client is kept or removed. -/
theorem stages (hR : VisitRule root ok P Q G) {s : State} {e : HandleEnv} {i : ℕ}
    (hok : ok s (.handle e)) (hi : i < s.table.size) {readable writable : Bool} {c c' : Client}
    {w w' : World} (hP : P s.table.size w) (hQ : Q w i c) {st : Stage}
    (h : stages root e i readable writable c w = st) (hst : st.result = (c', w')) :
    (P s.table.size w' ∧ Q w' i c') ∧ ∀ j d, j ≠ i → Q w j d → Q w' j d := by
  have hkeeps := (hR.body s e i hok hi).stages readable writable c w ⟨hP, hQ⟩
  rw [h, hst] at hkeeps
  exact hkeeps

/-- **From one step to all runs** in which the cache is not cleared. -/
theorem still (hR : VisitRule root ok P Q G) : (server root).still.LocalInvariant ok P Q G where
  init := hR.init
  connect n w _ fd hP := hR.connect n w fd hP
  turn _ _ hP := ⟨hP, fun _ _ hQ => hQ⟩
  async := hR.event
  keep := by
    intro s r k e c' w' hp hk hP hQ hok hh
    obtain ⟨⟨hP', hQ'⟩, hframe⟩ := hR.stages hok hk hP (hQ k hk) (stages_of_keep hh) rfl
    exact ⟨hP', hQ', fun i hi hik => hframe i _ hik (hQ i hi)⟩
  drop := by
    intro s r k e c' w' hp hk hP hQ hok hh
    obtain ⟨w₁, hst, hrm⟩ := stages_of_drop hh
    obtain ⟨⟨hP₁, hQ₁⟩, hframe₁⟩ := hR.stages hok hk hP (hQ k hk) hst rfl
    obtain ⟨⟨hP₂, hfree⟩, hG, hframe₂⟩ := hR.remove s e k c' w₁ w' hok hP₁ hQ₁ hrm
    have hothers : ∀ j < s.table.size, j ≠ k → Q w' j (s.table.slots j) :=
      fun j hj hjk => hframe₂ j _ hjk (hframe₁ j _ hjk (hQ j hj))
    obtain ⟨hP₃, hmove⟩ := hR.shrink s r k e w' hp hk hok hP₂ hfree hothers ⟨c', hh⟩
    exact ⟨hP₃, hG, hothers, hmove⟩

end VisitRule

namespace LocalRule

theorem turn (hR : LocalRule root ok P Q G) (n : ℕ) (w : World) (hP : P n w) :
    P n (turn w) ∧ ∀ i c, Q w i c → Q (AioServer.turn w) i c := by
  unfold AioServer.turn
  split
  · obtain ⟨hP₁, hQ₁⟩ := hR.clear n w hP
    obtain ⟨hP₂, hQ₂⟩ := hR.flags n _ w.running false hP₁
    exact ⟨hP₂, fun i c hQ => hQ₂ i c (hQ₁ i c hQ)⟩
  · exact ⟨hP, fun _ _ hQ => hQ⟩

/-- **From one step to all runs**: the invariant of the event loop. -/
theorem localInvariant (hR : LocalRule root ok P Q G) : (server root).LocalInvariant ok P Q G :=
  hR.still.of_still hR.turn

/-- A property of each client alone on top of an invariant. -/
theorem and_client (hR : LocalRule root ok P Q G) {ok' : State → Action → Prop} {R : Client → Prop}
    (hok : ∀ s a, ok' s a → ok s a) (hinit : ∀ fd, R (.init fd))
    (haio : ∀ (s : State) k r result, s.world.pending[k]? = some r →
      ok' s (.async (.aioDone k result)) → ∀ c, R c → R { c with aio := World.status r result })
    (hbody : ∀ (s : State) e i, ok' s (.handle e) → i < s.table.size →
      BodyRule root e i (Keeps (P s.table.size) (fun w j c => Q w j c ∧ R c) i)) :
    LocalRule root ok' P (fun w j c => Q w j c ∧ R c) G where
  init := hR.init
  connect n w fd hP := by
    obtain ⟨hP', hQ⟩ := hR.connect n w fd hP
    exact ⟨hP', hQ, hinit fd⟩
  flags n w running clear hP := by
    obtain ⟨hP', hQ⟩ := hR.flags n w running clear hP
    exact ⟨hP', fun i c hc => ⟨hQ i c hc.1, hc.2⟩⟩
  clear n w hP := by
    obtain ⟨hP', hQ⟩ := hR.clear n w hP
    exact ⟨hP', fun i c hc => ⟨hQ i c hc.1, hc.2⟩⟩
  aioDone s k r result hr hok' hP hQ := by
    obtain ⟨hP', hQ'⟩ := hR.aioDone s k r result hr (hok s _ hok') hP fun i hi => (hQ i hi).1
    refine ⟨hP', fun i hi => ⟨hQ' i hi, ?_⟩⟩
    split
    · exact haio s k r result hr hok' _ (hQ i hi).2
    · exact (hQ i hi).2
  body := hbody
  remove s e i c w w' hok' hP hQ h := by
    obtain ⟨⟨hP', hQ'⟩, hG, hframe⟩ := hR.remove s e i c w w' (hok s _ hok') hP hQ.1 h
    exact ⟨⟨hP', hQ', hinit 0⟩, hG, fun j d hj hd => ⟨hframe j d hj hd.1, hd.2⟩⟩
  shrink s r k e w' hp hk hok' hP hQ hothers hdrop := by
    obtain ⟨hP', hmove⟩ := hR.shrink s r k e w' hp hk (hok s _ hok') hP hQ.1
      (fun j hj hjk => (hothers j hj hjk).1) hdrop
    exact ⟨hP', fun hlt => ⟨hmove hlt, (hothers _ (by omega) (by omega)).2⟩⟩

end LocalRule

end

/-- An invariant of each client alone: new clients have it, the status in the control block does not
matter, and a visit keeps it. -/
theorem clientInvariant {root : DocRoot} {ok : State → Action → Prop} {R : Client → Prop}
    (hinit : ∀ fd, R (.init fd)) (haio : ∀ (c : Client) status, R c → R { c with aio := status })
    (hstages : ∀ (s : State) r k e c' w', ok s (.handle e) → s.phase = .pass r (k + 1) →
      R (s.table.slots k) →
      stages root e k (decide ((s.table.slots k).sock ∈ r.rd))
        (decide ((s.table.slots k).sock ∈ r.wr)) (s.table.slots k) s.world = .ok (c', w') → R c') :
    (server root).LocalInvariant ok (fun _ _ => True) (fun _ _ c => R c) (fun _ => True) where
  init := trivial
  connect _ _ _ fd _ := ⟨trivial, hinit fd⟩
  turn _ _ _ := ⟨trivial, fun _ _ hc => hc⟩
  async s a t w _ hc _ h := by
    cases a with
    | sigint =>
        cases h
        exact ⟨rfl, trivial, hc⟩
    | sigusr1 =>
        cases h
        exact ⟨rfl, trivial, hc⟩
    | aioDone k result =>
        simp only [server, AioServer.event] at h
        split at h
        · cases h
        · rename_i r hr
          cases h
          refine ⟨rfl, trivial, fun i hi => ?_⟩
          by_cases his : i = r.slot
          · subst his
            simpa [Table.set] using haio _ (World.status r result) (hc _ hi)
          · simpa [Table.set, his] using hc i hi
  keep s r k e c' w' hp hk _ hc hok hh :=
    ⟨trivial, hstages s r k e c' w' hok hp (hc k hk) (stages_of_keep hh), fun i hi _ => hc i hi⟩
  drop s r k e c' w' _ hk _ hc _ _ :=
    ⟨trivial, trivial, fun i hi _ => hc i hi, fun _ => hc _ (by omega)⟩

end Osvcp.Servers.AioServer
