import Osvcp.Servers.RustEventLoop
import Osvcp.Servers.TokioServer

/-! # One response to a request: `tokio-file-server`

`serve_file` of a task runs interleaved with the other tasks and with clears of the cache, but what
it sends depends only on what it is given at its own steps: `follow` runs a task by itself, and
`follow_of_run` finds it in the runs of the server. From there on the argument is that for
`rust-file-server`. The cache is complete in every run because what a task stores is what it has
read as a whole, a few steps before.
-/

namespace Osvcp.Servers

namespace TokioServer

/-! ## A task by itself -/

/-- A step of a task: the time, the cache at that time, and what it is given. -/
structure Moment where
  now : ℕ
  cache : FileCache CanonPath Entry
  op : Op

/-- A task by itself: where its steps lead, and what it sends on the way. -/
def follow (root : DocRoot) : Pc → List Moment → Option (Pc × List Cell)
  | pc, [] => some (pc, [])
  | pc, m :: ms =>
      (serve root m.now m.cache pc m.op).bind fun e =>
        (follow root e.pc ms).map fun r => (r.1, e.sent ++ r.2)

/-- A step of the system as a step of task `i`. -/
def momentOf (i : ℕ) (p : State × Action) : Option Moment :=
  match p.2 with
  | .task j op => if j = i then some ⟨p.1.now, p.1.cache, op⟩ else none
  | .clear => none
  | .change => none

/-- If all steps are steps of task `i`, it is given what they are given. -/
theorem map_op_moments {i : ℕ} {tr : List (State × Action)} {ops : List Op}
    (h : tr.map Prod.snd = ops.map (.task i)) :
    (tr.filterMap (momentOf i)).map Moment.op = ops := by
  induction ops generalizing tr with
  | nil =>
      rw [List.map_eq_nil_iff.mp h]
      rfl
  | cons op ops ih =>
      obtain ⟨⟨s, a⟩, tr, rfl, rfl, htr⟩ := List.map_eq_cons_iff.mp h
      have hmoment : momentOf i (s, .task i op) = some ⟨s.now, s.cache, op⟩ := if_pos rfl
      rw [List.filterMap_cons_some hmoment, List.map_cons, ih htr]

section

variable {root : DocRoot}

theorem follow_cons {pc pc' : Pc} {m : Moment} {ms : List Moment} {cells : List Cell}
    (h : follow root pc (m :: ms) = some (pc', cells)) :
    ∃ e rest, serve root m.now m.cache pc m.op = some e ∧ follow root e.pc ms = some (pc', rest) ∧
      cells = e.sent ++ rest := by
  rw [follow] at h
  obtain ⟨e, he, h⟩ := Option.bind_eq_some_iff.mp h
  obtain ⟨⟨pc'', rest⟩, hrest, heq⟩ := Option.map_eq_some_iff.mp h
  cases heq
  exact ⟨e, rest, he, hrest, rfl⟩

/-- A step of a task goes where its effect says and adds what it sends. -/
theorem conns_apply_self (s : State) (i : ℕ) (op : Op) (e : Effect) :
    ((s.apply i op e).conns i).pc = e.pc ∧
      ((s.apply i op e).conns i).sent = (s.conns i).sent ++ e.sent := by
  have hconn : (s.apply i op e).conns i =
      { (s.conns i).begin s.now s.cleared op with
        pc := e.pc, sent := ((s.conns i).begin s.now s.cleared op).sent ++ e.sent } :=
    Function.update_self ..
  have hbegin : ((s.conns i).begin s.now s.cleared op).sent = (s.conns i).sent := by
    cases op <;> rfl
  rw [hconn, hbegin]
  exact ⟨rfl, rfl⟩

theorem conns_apply_of_ne (s : State) {i j : ℕ} (hj : i ≠ j) (op : Op) (e : Effect) :
    (s.apply j op e).conns i = s.conns i :=
  Function.update_of_ne hj ..

/-- **Every task of a run is a task by itself**, given what it was given in the run. -/
theorem follow_of_run (i : ℕ) {s t : State} {as : List Action} (h : (lts root).run s as = some t) :
    ∃ cells, follow root (s.conns i).pc (((lts root).trace s as).filterMap (momentOf i)) =
        some ((t.conns i).pc, cells) ∧ (t.conns i).sent = (s.conns i).sent ++ cells := by
  induction as generalizing s with
  | nil =>
      cases h
      exact ⟨[], rfl, (List.append_nil _).symm⟩
  | cons a as ih =>
      obtain ⟨u, hu, h⟩ := Option.bind_eq_some_iff.mp h
      obtain ⟨cells, hfollow, hsent⟩ := ih h
      rw [LTS.trace, hu, Option.elim_some]
      cases a with
      | clear =>
          cases hu
          exact ⟨cells, hfollow, hsent⟩
      | change =>
          cases hu
          exact ⟨cells, hfollow, hsent⟩
      | task j op =>
          obtain ⟨e, he, rfl⟩ := Option.map_eq_some_iff.mp hu
          by_cases hj : j = i
          · subst hj
            have hmoment : momentOf j (s, .task j op) = some ⟨s.now, s.cache, op⟩ := if_pos rfl
            obtain ⟨hpc, hadd⟩ := conns_apply_self s j op e
            rw [hpc] at hfollow
            rw [hadd] at hsent
            rw [List.filterMap_cons_some hmoment, follow, he]
            refine ⟨e.sent ++ cells, ?_, ?_⟩
            · simp only [Option.bind_some]
              rw [hfollow]
              rfl
            · rw [hsent, List.append_assoc]
          · have hmoment : momentOf i (s, .task j op) = none := if_neg hj
            rw [conns_apply_of_ne s (Ne.symm hj)] at hfollow hsent
            rw [List.filterMap_cons_none hmoment]
            exact ⟨cells, hfollow, hsent⟩

/-! ## The cache -/

/-- Every cached response is a complete one. -/
def CacheComplete (cache : FileCache CanonPath Entry) : Prop :=
  ∀ path entry, cache.get path = some entry → OneResponse (values entry.resp)

/-- At a step of the run, task `i` read the whole file into this entry. -/
def ReadWhole (i : ℕ) (path : CanonPath) (entry : Entry) (p : State × Action) : Prop :=
  ∃ size reads body, (p.1.conns i).pc = .readBody path size ∧ p.2 = .task i (.readBody reads) ∧
    readExact reads size = some body ∧ body.length = size ∧
    entry = ⟨p.1.now, okHeader size ++ fileCells ⟨path.bytes, p.1.now⟩ body⟩

theorem ReadWhole.oneResponse {i : ℕ} {path : CanonPath} {entry : Entry} {p : State × Action}
    (h : ReadWhole i path entry p) : OneResponse (values entry.resp) := by
  obtain ⟨size, reads, body, -, -, -, hlen, rfl⟩ := h
  rw [oneResponse_okHeader_iff, fileCells, List.length_map]
  exact hlen

/-- What a task holds after a step it held before, or it has just read it. -/
theorem unstored_of_serve {s : State} {i : ℕ} {op : Op} {e : Effect} {path : CanonPath}
    {entry : Entry} (h : serve root s.now s.cache (s.conns i).pc op = some e)
    (hp : e.pc.unstored = some (path, entry)) :
    (s.conns i).pc.unstored = some (path, entry) ∨ ReadWhole i path entry (s, .task i op) := by
  have hmove := serve_cases h
  generalize hpc : (s.conns i).pc = pc at h hmove
  cases hmove with
  | quiet _ hunstored _ _ _ => exact absurd (hunstored.symm.trans hp) (by simp)
  | @read path' size reads body =>
      simp only [serve] at h
      split at h
      · cases h
      · rename_i body' hbody
        cases hp
        have hresp := congrArg (fun e : Option Effect => e.bind (·.pc.unstored)) h
        simp only [Effect.goto, Pc.unstored, Option.bind_some, Option.some_inj, Prod.mk.injEq,
          Entry.mk.injEq, true_and] at hresp
        rw [← hresp]
        exact .inr ⟨size, reads, body', hpc, rfl, hbody, length_of_readExact hbody, rfl⟩
  | send sent =>
      cases hp
      exact .inl rfl
  | _ => cases hp

/-- **What a task is about to store** it has read as a whole. -/
theorem readWhole_of_unstored {tr : List (State × Action)} {s : State}
    (h : (lts root).Exec tr s) {i : ℕ} {path : CanonPath} {entry : Entry}
    (hp : (s.conns i).pc.unstored = some (path, entry)) :
    ∃ p ∈ tr, ReadWhole i path entry p := by
  induction h with
  | start hs =>
      subst hs
      cases hp
  | @snoc tr s t a hex hstep ih =>
      have hlater : (s.conns i).pc.unstored = some (path, entry) →
          ∃ p ∈ tr ++ [(s, a)], ReadWhole i path entry p := by
        intro hold
        obtain ⟨p, hmem, hread⟩ := ih hold
        exact ⟨p, List.mem_append_left _ hmem, hread⟩
      cases a with
      | clear =>
          cases hstep
          exact hlater hp
      | change =>
          cases hstep
          exact hlater hp
      | task j op =>
          obtain ⟨e, he, rfl⟩ := Option.map_eq_some_iff.mp hstep
          by_cases hj : i = j
          · subst hj
            rw [(conns_apply_self s i op e).1] at hp
            rcases unstored_of_serve he hp with hold | hread
            · exact hlater hold
            · exact ⟨_, List.mem_append_right _ List.mem_cons_self, hread⟩
          · rw [conns_apply_of_ne s hj] at hp
            exact hlater hp

/-- A step of a task leaves the cache as it was, or stores what the task has read as a whole. -/
theorem cache_of_step {tr : List (State × Action)} {s t : State} (h : (lts root).Exec tr s)
    {i : ℕ} {op : Op} (hstep : (lts root).step s (.task i op) = some t) :
    t.cache = s.cache ∨ ∃ path entry, t.cache = s.cache.insert path entry ∧
      ∃ p ∈ tr, ReadWhole i path entry p := by
  obtain ⟨e, he, rfl⟩ := Option.map_eq_some_iff.mp hstep
  cases hstored : e.stored with
  | none =>
      left
      rw [State.apply, hstored]
      rfl
  | some q =>
      right
      obtain ⟨path, entry⟩ := q
      have hunstored := (serve_cases he).stored hstored
      refine ⟨path, entry, ?_, readWhole_of_unstored h hunstored⟩
      rw [State.apply, hstored]
      rfl

/-- In every run the cached responses are complete. -/
theorem cacheComplete_of_exec {tr : List (State × Action)} {s : State} (h : (lts root).Exec tr s) :
    CacheComplete s.cache := by
  induction h with
  | start hs =>
      subst hs
      intro path entry hget
      cases hget
  | @snoc tr s t a hex hstep ih =>
      cases a with
      | clear =>
          cases hstep
          intro path entry hget
          cases hget
      | change =>
          cases hstep
          exact ih
      | task i op =>
          rcases cache_of_step hex hstep with hsame | ⟨path, entry, hinsert, p, -, hread⟩
          · rw [hsame]
            exact ih
          · rw [hinsert]
            intro path' entry' hget
            rcases FileCache.get_insert hget with hold | ⟨-, rfl⟩
            · exact ih path' entry' hold
            · exact hread.oneResponse

/-! ## One call -/

/-- Inside a call of `serve_file` no further line is read. -/
def Op.Inside : Op → Prop
  | .request _ _ => False
  | .hangup => False
  | _ => True

/-- No write fails, and the texts of errors are on one line. -/
def Op.Plain : Op → Prop
  | .wrote rs => Succeeds rs
  | .metadata (.error msg) => LF ∉ ascii msg
  | .opened (some msg) => LF ∉ ascii msg
  | _ => True

/-- A read of a chunk of a large file. -/
def Op.chunkRead : Op → Option FileRead
  | .readChunk read => some read
  | _ => none

/-- `serve_file` has returned. -/
def Pc.returned : Pc → Bool
  | .waiting => true
  | .closed => true
  | _ => false

/-- The connection is closed. -/
def Pc.isClosed : Pc → Bool
  | .closed => true
  | _ => false

/-- If a large file was opened and no read of it failed, the reads before the first one that gave
nothing gave as many bytes as `metadata` had reported. -/
def StreamsSize (ops : List Op) : Prop :=
  ∀ size bytes, .metadata (.ok (true, size)) ∈ ops → .opened none ∈ ops →
    MAX_CACHE_FILE_BYTES < size →
    RustServer.streamed (ops.filterMap Op.chunkRead) = some bytes → bytes.length = size

/-- A step of a call with succeeding writes. -/
structure Moment.Normal (m : Moment) : Prop where
  inside : m.op.Inside
  plain : m.op.Plain
  cache : CacheComplete m.cache

theorem Effect.write_of_succeeds {rs : List WriteResult} (h : Succeeds rs)
    (msg : List Cell) (pc : Pc)
    (delivered : Option (CanonPath × ℕ)) :
    Effect.write rs msg pc delivered = ⟨pc, msg, delivered, none⟩ := by
  unfold Effect.write
  rw [writeAllOrZero_of_succeeds h]
  rfl

variable {ms : List Moment} {pc' : Pc} {cells : List Cell}

/-- At its return a call has no further steps. -/
theorem follow_waiting (hms : ∀ m ∈ ms, m.Normal)
    (h : follow root .waiting ms = some (pc', cells)) :
    ms = [] ∧ pc' = .waiting ∧ cells = [] := by
  cases ms with
  | nil =>
      cases h
      exact ⟨rfl, rfl, rfl⟩
  | cons m ms =>
      obtain ⟨e, rest, he, -, -⟩ := follow_cons h
      have hinside := (hms m List.mem_cons_self).inside
      generalize m.op = op at he hinside
      cases op <;> first | exact hinside.elim | cases he

theorem follow_closed (h : follow root .closed ms = some (pc', cells)) :
    ms = [] ∧ pc' = .closed ∧ cells = [] := by
  cases ms with
  | nil =>
      cases h
      exact ⟨rfl, rfl, rfl⟩
  | cons m ms =>
      obtain ⟨e, rest, he, -, -⟩ := follow_cons h
      generalize m.op = op at he
      cases op <;> cases he

/-- The next step of a task at `pc` writes `msg` and leads to `next`. -/
structure Pc.Writes (root : DocRoot) (pc : Pc) (msg : List Cell) (next : Pc) : Prop where
  running : pc.returned = false
  step : ∀ {now cache op e}, serve root now cache pc op = some e →
    ∃ rs delivered, op = .wrote rs ∧ e = .write rs msg next delivered

namespace Pc

variable (root)

theorem writes_refuse (msg : List Cell) : Writes root (.refuse msg) msg .waiting where
  running := rfl
  step {now cache op e} h := by
    cases op <;> cases h
    exact ⟨_, _, rfl, rfl⟩

theorem writes_hit (path : CanonPath) (entry : Entry) :
    Writes root (.hit path entry) entry.resp .waiting where
  running := rfl
  step {now cache op e} h := by
    cases op <;> cases h
    exact ⟨_, _, rfl, rfl⟩

theorem writes_write (path : CanonPath) (entry : Entry) :
    Writes root (.write path entry) entry.resp (.insert path entry) where
  running := rfl
  step {now cache op e} h := by
    cases op <;> cases h
    exact ⟨_, _, rfl, rfl⟩

theorem writes_header (path : CanonPath) (size : ℕ) :
    Writes root (.header path size) (okHeader size) (.readChunk path) where
  running := rfl
  step {now cache op e} h := by
    cases op <;> cases h
    exact ⟨_, _, rfl, rfl⟩

theorem writes_writeChunk (path : CanonPath) (readAt : ℕ) (chunk : List Byte) :
    Writes root (.writeChunk path readAt chunk) (fileCells ⟨path.bytes, readAt⟩ chunk)
      (.readChunk path) where
  running := rfl
  step {now cache op e} h := by
    cases op <;> cases h
    exact ⟨_, _, rfl, rfl⟩

end Pc

/-- A task that has not returned yet has a next step. -/
theorem follow_running {pc : Pc} (hpc : pc.returned = false) (hret : pc'.returned = true)
    (h : follow root pc ms = some (pc', cells)) :
    ∃ m ms' e rest, ms = m :: ms' ∧ serve root m.now m.cache pc m.op = some e ∧
      follow root e.pc ms' = some (pc', rest) ∧ cells = e.sent ++ rest := by
  cases ms with
  | nil =>
      cases h
      rw [hpc] at hret
      cases hret
  | cons m ms =>
      obtain ⟨e, rest, he, hrest, hcells⟩ := follow_cons h
      exact ⟨m, ms, e, rest, rfl, he, hrest, hcells⟩

/-- The next step of a task that writes. -/
theorem follow_writes {pc next : Pc} {msg : List Cell} (hpc : pc.Writes root msg next)
    (hms : ∀ m ∈ ms, m.Normal) (hret : pc'.returned = true)
    (h : follow root pc ms = some (pc', cells)) :
    ∃ m rs ms' rest, ms = m :: ms' ∧ m.op = .wrote rs ∧ follow root next ms' = some (pc', rest) ∧
      cells = msg ++ rest := by
  obtain ⟨m, ms', e, rest, rfl, he, hrest, rfl⟩ := follow_running hpc.running hret h
  obtain ⟨rs, delivered, hop, rfl⟩ := hpc.step he
  have hplain := (hms m List.mem_cons_self).plain
  rw [hop] at hplain
  rw [Effect.write_of_succeeds hplain] at hrest ⊢
  exact ⟨m, rs, ms', rest, rfl, hop, hrest, rfl⟩

/-- A message that is followed by the return is all that is sent. -/
theorem follow_last {pc : Pc} {msg : List Cell} (hpc : pc.Writes root msg .waiting)
    (hms : ∀ m ∈ ms, m.Normal) (hret : pc'.returned = true)
    (h : follow root pc ms = some (pc', cells)) :
    pc' = .waiting ∧ cells = msg ∧ ∃ rs, ms.map Moment.op = [.wrote rs] := by
  obtain ⟨m, rs, ms', rest, rfl, hop, hrest, rfl⟩ := follow_writes hpc hms hret h
  obtain ⟨rfl, rfl, rfl⟩ := follow_waiting (fun m hm => hms m (List.mem_cons_of_mem _ hm)) hrest
  exact ⟨rfl, List.append_nil msg, rs, by rw [List.map_singleton, hop]⟩

/-- A message that is one response and is followed by the return: no size of a file comes into
it. -/
theorem follow_answer {pc : Pc} {msg : List Cell} (hpc : pc.Writes root msg .waiting)
    (hone : OneResponse (values msg)) (hms : ∀ m ∈ ms, m.Normal) (hret : pc'.returned = true)
    (h : follow root pc ms = some (pc', cells)) :
    Completes [] cells pc'.isClosed ∧ ∀ r, .metadata r ∉ ms.map Moment.op := by
  obtain ⟨rfl, rfl, rs, hops⟩ := follow_last hpc hms hret h
  refine ⟨completes_nil_iff.mpr hone, fun r hr => ?_⟩
  rw [hops, List.mem_singleton] at hr
  cases hr

/-- The condition says nothing about a call that does not come to a file. -/
theorem streamsSize_of_no_file {ops : List Op} (h : ∀ size, .metadata (.ok (true, size)) ∉ ops) :
    StreamsSize ops :=
  fun size _ hmeta => absurd hmeta (h size)

/-- The errors of `resolve_path` are on one line. -/
theorem lf_notMem_resolvePath {canonicalize : List Byte → Option CanonPath} {name : List Byte}
    {msg : String} (h : resolvePath root canonicalize name = .error msg) : LF ∉ ascii msg := by
  unfold resolvePath at h
  split at h
  · cases h
    decide
  · split at h
    · cases h
      decide
    · split at h
      · cases h
        decide
      · split at h
        · cases h
        · cases h
          decide

/-- How the loop for a large file ends: with the end of the file, when everything it has read is
sent, or with a read that fails. -/
def StreamEnds (reads : List FileRead) (pc : Pc) (cells : List Cell) : Prop :=
  match RustServer.streamed reads with
  | none => pc = .closed
  | some bytes => pc = .waiting ∧ cells.length = bytes.length

theorem StreamEnds.cons {reads : List FileRead} (h : StreamEnds reads pc' cells) (src : Source)
    {bytes chunk : List Byte} {b : Byte} (htake : bytes.take FILE_CHUNK = b :: chunk) :
    StreamEnds (.data bytes :: reads) pc' (fileCells src (b :: chunk) ++ cells) := by
  unfold StreamEnds at h ⊢
  rw [RustServer.streamed, htake]
  simp only
  cases hs : RustServer.streamed reads with
  | none =>
      rw [hs] at h
      exact h
  | some rest =>
      rw [hs] at h
      obtain ⟨hpc, hlen⟩ := h
      refine ⟨hpc, ?_⟩
      rw [List.length_append, List.length_append, fileCells, List.length_map, hlen]

/-- Behind the header, the loop completes the response exactly if it has read the size of the file
or has failed. -/
theorem StreamEnds.completes_iff {reads : List FileRead} (h : StreamEnds reads pc' cells)
    (size : ℕ) :
    Completes [] (okHeader size ++ cells) pc'.isClosed ↔
      ∀ bytes, RustServer.streamed reads = some bytes → bytes.length = size := by
  unfold StreamEnds at h
  cases hs : RustServer.streamed reads with
  | none =>
      rw [hs] at h
      rw [h]
      exact iff_of_true completes_of_closed fun _ hb => by cases hb
  | some bytes =>
      rw [hs] at h
      obtain ⟨rfl, hlen⟩ := h
      refine completes_nil_iff.trans ?_
      rw [oneResponse_okHeader_iff, hlen]
      constructor
      · rintro hsize _ ⟨⟩
        exact hsize
      · exact fun hsize => hsize bytes rfl

/-- **The loop for a large file.** -/
theorem follow_readChunk (path : CanonPath) (hms : ∀ m ∈ ms, m.Normal) (hret : pc'.returned = true)
    (h : follow root (.readChunk path) ms = some (pc', cells)) :
    (∀ r, .metadata r ∉ ms.map Moment.op) ∧
      StreamEnds ((ms.map Moment.op).filterMap Op.chunkRead) pc' cells := by
  induction hn : ms.length using Nat.strongRecOn generalizing ms cells with
  | _ n ih =>
    obtain ⟨m, ms, e, rest, rfl, he, hrest, rfl⟩ := follow_running rfl hret h
    have hms' : ∀ m ∈ ms, m.Normal := fun m hm => hms m (List.mem_cons_of_mem _ hm)
    obtain ⟨now, cache, op⟩ := m
    cases op with
    | readChunk read =>
        cases read with
        | interrupted =>
            cases he
            obtain ⟨rfl, rfl, rfl⟩ := follow_closed hrest
            exact ⟨by simp, rfl⟩
        | failed =>
            cases he
            obtain ⟨rfl, rfl, rfl⟩ := follow_closed hrest
            exact ⟨by simp, rfl⟩
        | data bytes =>
            simp only [serve] at he
            cases htake : bytes.take FILE_CHUNK with
            | nil =>
                rw [htake] at he
                cases he
                obtain ⟨rfl, rfl, rfl⟩ := follow_waiting hms' hrest
                refine ⟨by simp, ?_⟩
                simp [StreamEnds, Op.chunkRead, RustServer.streamed, htake, Effect.goto]
            | cons b chunk =>
                -- the chunk is written, and the loop goes on with the steps behind that
                rw [htake] at he
                cases he
                obtain ⟨m₂, rs, ms, rest, rfl, hop, hloop, rfl⟩ :=
                  follow_writes (Pc.writes_writeChunk root path now (b :: chunk)) hms' hret hrest
                have hlt : ms.length < n := by
                  rw [← hn, List.length_cons, List.length_cons]
                  omega
                obtain ⟨hmeta, hends⟩ :=
                  ih ms.length hlt (fun m hm => hms' m (List.mem_cons_of_mem _ hm)) hloop rfl
                refine ⟨fun r hr => ?_, ?_⟩
                · simp only [List.map_cons, hop, List.mem_cons, reduceCtorEq, false_or] at hr
                  exact hmeta r hr
                · simp only [List.map_cons, hop]
                  exact hends.cons _ htake
    | _ => cases he

/-- A file that is read as a whole: one response, unless the read fails. -/
theorem follow_readBody {path : CanonPath} {size : ℕ} (hms : ∀ m ∈ ms, m.Normal)
    (hret : pc'.returned = true) (h : follow root (.readBody path size) ms = some (pc', cells)) :
    (∀ r, .metadata r ∉ ms.map Moment.op) ∧ Completes [] cells pc'.isClosed := by
  obtain ⟨m, ms, e, rest, rfl, he, hrest, rfl⟩ := follow_running rfl hret h
  have hms' : ∀ m ∈ ms, m.Normal := fun m hm => hms m (List.mem_cons_of_mem _ hm)
  obtain ⟨now, cache, op⟩ := m
  cases op with
  | readBody reads =>
      simp only [serve] at he
      split at he
      · cases he
        obtain ⟨rfl, rfl, rfl⟩ := follow_closed hrest
        exact ⟨by simp, completes_of_closed⟩
      · rename_i body hbody
        cases he
        obtain ⟨m₂, rs, ms, rest, rfl, hop, hinsert, rfl⟩ :=
          follow_writes (Pc.writes_write root path _) hms' hret hrest
        obtain ⟨m₃, ms, e, rest, rfl, he, hlast, rfl⟩ := follow_running rfl hret hinsert
        obtain ⟨now₃, cache₃, op₃⟩ := m₃
        cases op₃ with
        | insert =>
            cases he
            obtain ⟨rfl, rfl, rfl⟩ := follow_waiting
              (fun m hm => hms' m (List.mem_cons_of_mem _ (List.mem_cons_of_mem _ hm))) hlast
            refine ⟨by simp [hop], ?_⟩
            refine completes_nil_iff.mpr ?_
            show OneResponse (values (okHeader size ++ fileCells ⟨path.bytes, now⟩ body ++ []))
            rw [List.append_nil, oneResponse_okHeader_iff, fileCells, List.length_map]
            exact length_of_readExact hbody
        | _ => cases he
  | _ => cases he

/-- From the `open` on, only the loop for large files can break the frame. -/
theorem follow_openFile {path : CanonPath} {size : ℕ} (hms : ∀ m ∈ ms, m.Normal)
    (hret : pc'.returned = true) (h : follow root (.openFile path size) ms = some (pc', cells)) :
    (∀ r, .metadata r ∉ ms.map Moment.op) ∧
      (Completes [] cells pc'.isClosed ↔
        (.opened none ∈ ms.map Moment.op → MAX_CACHE_FILE_BYTES < size →
        ∀ bytes, RustServer.streamed ((ms.map Moment.op).filterMap Op.chunkRead) = some bytes →
          bytes.length = size)) := by
  obtain ⟨m, ms, e, rest, rfl, he, hrest, rfl⟩ := follow_running rfl hret h
  have hms' : ∀ m ∈ ms, m.Normal := fun m hm => hms m (List.mem_cons_of_mem _ hm)
  have hplain := (hms m List.mem_cons_self).plain
  obtain ⟨now, cache, op⟩ := m
  cases op with
  | opened error =>
      cases error with
      | some msg =>
          cases he
          obtain ⟨rfl, rfl, rs, hops⟩ := follow_last (Pc.writes_refuse root _) hms' hret hrest
          rw [List.map_cons, hops]
          refine ⟨by simp, iff_of_true ?_ (by simp)⟩
          exact completes_nil_iff.mpr
            (oneResponse_errLine (lf_notMem_ascii_append (by decide) hplain))
      | none =>
          simp only [serve] at he
          by_cases hsize : size ≤ MAX_CACHE_FILE_BYTES
          · rw [if_pos hsize] at he
            cases he
            obtain ⟨hmeta, hdone⟩ := follow_readBody hms' hret hrest
            refine ⟨fun r hr => ?_, iff_of_true hdone fun _ hlarge => by omega⟩
            rw [List.map_cons, List.mem_cons] at hr
            rcases hr with hr | hr
            · cases hr
            · exact hmeta r hr
          · rw [if_neg hsize] at he
            cases he
            obtain ⟨m₂, rs, ms, rest, rfl, hop, hloop, rfl⟩ :=
              follow_writes (Pc.writes_header root path size) hms' hret hrest
            obtain ⟨hmeta, hends⟩ :=
              follow_readChunk path (fun m hm => hms' m (List.mem_cons_of_mem _ hm)) hret hloop
            have hlarge : MAX_CACHE_FILE_BYTES < size := not_le.mp hsize
            simp only [List.map_cons, hop, List.mem_cons, reduceCtorEq, false_or, true_or,
              true_implies, hlarge, Effect.goto, List.nil_append]
            exact ⟨hmeta, hends.completes_iff size⟩
  | _ => cases he

/-- From the `metadata` on. -/
theorem follow_metadata {path : CanonPath} (hms : ∀ m ∈ ms, m.Normal) (hret : pc'.returned = true)
    (h : follow root (.metadata path) ms = some (pc', cells)) :
    Completes [] cells pc'.isClosed ↔ StreamsSize (ms.map Moment.op) := by
  obtain ⟨m, ms, e, rest, rfl, he, hrest, rfl⟩ := follow_running rfl hret h
  have hms' : ∀ m ∈ ms, m.Normal := fun m hm => hms m (List.mem_cons_of_mem _ hm)
  have hplain := (hms m List.mem_cons_self).plain
  obtain ⟨now, cache, op⟩ := m
  cases op with
  | metadata result =>
      cases result with
      | error msg =>
          cases he
          obtain ⟨hdone, hmeta⟩ := follow_answer (Pc.writes_refuse root _)
            (oneResponse_errLine (lf_notMem_ascii_append (by decide) hplain)) hms' hret hrest
          exact iff_of_true hdone (streamsSize_of_no_file (by simp [hmeta]))
      | ok file =>
          obtain ⟨isFile, size⟩ := file
          cases isFile with
          | false =>
              cases he
              obtain ⟨hdone, hmeta⟩ := follow_answer (Pc.writes_refuse root _)
                (oneResponse_errLine (by decide)) hms' hret hrest
              exact iff_of_true hdone (streamsSize_of_no_file (by simp [hmeta]))
          | true =>
              cases he
              -- the size is that of this step: no later one is a `metadata`
              obtain ⟨hmeta, hiff⟩ := follow_openFile hms' hret hrest
              refine hiff.trans ?_
              unfold StreamsSize
              simp only [List.map_cons, List.mem_cons, reduceCtorEq, false_or, Op.metadata.injEq,
                Except.ok.injEq, Prod.mk.injEq, true_and, hmeta, or_false]
              constructor
              · rintro h size' bytes rfl hopen hlarge hs
                exact h hopen hlarge bytes hs
              · exact fun h hopen hlarge bytes hs => h size bytes rfl hopen hlarge hs
  | _ => cases he

/-- From the lookup on. -/
theorem follow_lookup {path : CanonPath} (hms : ∀ m ∈ ms, m.Normal) (hret : pc'.returned = true)
    (h : follow root (.lookup path) ms = some (pc', cells)) :
    Completes [] cells pc'.isClosed ↔ StreamsSize (ms.map Moment.op) := by
  obtain ⟨m, ms, e, rest, rfl, he, hrest, rfl⟩ := follow_running rfl hret h
  have hms' : ∀ m ∈ ms, m.Normal := fun m hm => hms m (List.mem_cons_of_mem _ hm)
  have hcache := (hms m List.mem_cons_self).cache
  obtain ⟨now, cache, op⟩ := m
  cases op with
  | lookup =>
      simp only [serve] at he
      split at he
      · rename_i entry hget
        cases he
        obtain ⟨hdone, hmeta⟩ := follow_answer (Pc.writes_hit root path entry)
          (hcache path entry hget) hms' hret hrest
        exact iff_of_true hdone (streamsSize_of_no_file (by simp [hmeta]))
      · cases he
        refine (follow_metadata hms' hret hrest).trans ?_
        unfold StreamsSize
        simp only [List.map_cons, List.mem_cons, reduceCtorEq, false_or, Op.chunkRead,
          List.filterMap_cons]
  | _ => cases he

/-- **A call of `serve_file`** keeps the connection only after one response exactly if its steps
meet `StreamsSize`. -/
theorem follow_request {name : List Byte} {canonicalize : List Byte → Option CanonPath} {now : ℕ}
    {cache : FileCache CanonPath Entry} (hms : ∀ m ∈ ms, m.Normal) (hret : pc'.returned = true)
    {pc : Pc}
    (h : follow root pc (⟨now, cache, .request name canonicalize⟩ :: ms) = some (pc', cells)) :
    Completes [] cells pc'.isClosed ↔ StreamsSize (ms.map Moment.op) := by
  obtain ⟨e, rest, he, hrest, rfl⟩ := follow_cons h
  cases pc with
  | waiting =>
      simp only [serve] at he
      split at he
      · rename_i msg hmsg
        cases he
        obtain ⟨hdone, hmeta⟩ := follow_answer (Pc.writes_refuse root _)
          (oneResponse_errLine (lf_notMem_resolvePath hmsg)) hms hret hrest
        exact iff_of_true hdone (streamsSize_of_no_file fun size => hmeta (.ok (true, size)))
      · cases he
        exact follow_lookup hms hret hrest
  | _ => cases he

end

/-- One call of `serve_file` in a run of the server: from the state in which task `i` gets the
request to one in which the call has returned, with the steps `ms` of the task inside the call. -/
structure Call (root : DocRoot) (i : ℕ) (s t : State) (as : List Action)
    (ms : List Moment) : Prop where
  run : (lts root).run s as = some t
  steps : ∃ now cache name canonicalize, ((lts root).trace s as).filterMap (momentOf i) =
    ⟨now, cache, .request name canonicalize⟩ :: ms
  inside : ∀ m ∈ ms, m.op.Inside
  returned : (t.conns i).pc.returned = true

/-- The caches a task sees in a run are complete. -/
theorem cacheComplete_of_mem_trace {root : DocRoot} {s t : State} (hs : (lts root).Reachable s)
    {as : List Action} (h : (lts root).run s as = some t) {p : State × Action}
    (hp : p ∈ (lts root).trace s as) : CacheComplete p.1.cache := by
  obtain ⟨tr, hex⟩ := hs
  have hmem := LTS.mem_visited_of_mem (s := t) (List.mem_append_right tr hp)
  have hall := hex.run h
  obtain ⟨tr', -, hex'⟩ := hall.exists_prefix hmem
  exact cacheComplete_of_exec hex'

theorem cache_of_momentOf {i : ℕ} {p : State × Action} {m : Moment} (h : momentOf i p = some m) :
    m.cache = p.1.cache := by
  unfold momentOf at h
  split at h
  · split at h
    · cases h
      rfl
    · cases h
  · cases h
  · cases h

/-- **A call in a run of the server.** -/
theorem call_completes_iff {root : DocRoot} {i : ℕ} {s t : State} {as : List Action}
    {ms : List Moment} (hs : (lts root).Reachable s) (hcall : Call root i s t as ms)
    (hplain : ∀ m ∈ ms, m.op.Plain) :
    Completes (s.conns i).sent (t.conns i).sent (t.conns i).pc.isClosed ↔
      StreamsSize (ms.map Moment.op) := by
  obtain ⟨hrun, ⟨now, cache, name, canonicalize, hsteps⟩, hinside, hret⟩ := hcall
  have hms : ∀ m ∈ ms, m.Normal := by
    intro m hm
    have hmem : m ∈ ((lts root).trace s as).filterMap (momentOf i) := by
      rw [hsteps]
      exact List.mem_cons_of_mem _ hm
    obtain ⟨p, hp, hpm⟩ := List.mem_filterMap.mp hmem
    refine ⟨hinside m hm, hplain m hm, ?_⟩
    rw [cache_of_momentOf hpm]
    exact cacheComplete_of_mem_trace hs hrun hp
  obtain ⟨cells, hfollow, hsent⟩ := follow_of_run i hrun
  rw [hsteps] at hfollow
  rw [hsent, ← follow_request hms hret hfollow]
  cases (t.conns i).pc.isClosed with
  | true => exact iff_of_true completes_of_closed completes_of_closed
  | false => exact completes_append_iff.trans completes_nil_iff.symm

end TokioServer

/-! ## Both servers -/

/-- **When the Rust servers keep the connection.** Whatever was requested and flushed, all cached
responses are complete, and a call stores only a response that was built from a read of exactly the
size it announces. With no failing write and with error texts of one line, `serve_file` returns `Ok`
only after exactly one response if and only if, where a large file is sent and no read of it fails,
the reads give as many bytes as `metadata` reported; this holds for `rust-file-server` in any state
of its cache and for the calls of each task of `tokio-file-server`, whatever the other tasks do
meanwhile. `process_client` tears the connection down if and only if it comes to a line on which
`serve_file` returns an error or too much is left behind the lines, and a task of
`tokio-file-server` closes its connection where `serve_file` returns an error. -/
theorem rust_servers_one_response_iff (root : DocRoot) :
    (∀ x, (RustServer.readThrough root).lts.Reachable x → RustServer.CacheComplete x.state) ∧
    (∀ (e : FileEnv) (name : List Byte) (st : RustServer.Serving),
      RustServer.InsertsWhole e st (RustServer.serveFile root e name st).1 ∧
      (RustServer.CacheComplete st.cache → (∀ k, Succeeds (e.writes k)) → e.PlainErrors →
        (Completes st.sent (RustServer.serveFile root e name st).1.sent
            (RustServer.serveFile root e name st).2 ↔
            RustServer.StreamsSize root e name st.cache))) ∧
    (∀ (envs : ℕ → FileEnv) (st : RustServer.Processing) (buf : List Byte),
      (processClient (RustServer.serveLine root envs) st buf).2.2 = true ↔
        (∃ st' line rest,
          ComesTo (RustServer.serveLine root envs) st buf st' (line ++ LF :: rest) ∧ LF ∉ line ∧
          (RustServer.serveLine root envs st' (stripCr line)).2 = true) ∨
        ∃ st' rest, ComesTo (RustServer.serveLine root envs) st buf st' rest ∧ LF ∉ rest ∧
          REQ_BUF_SIZE - 1 ≤ rest.length) ∧
    (∀ tr s i op t, (TokioServer.lts root).Exec tr s →
      (TokioServer.lts root).step s (.task i op) = some t →
      t.cache = s.cache ∨ ∃ path entry, t.cache = s.cache.insert path entry ∧
        ∃ p ∈ tr, TokioServer.ReadWhole i path entry p) ∧
    ∀ s, (TokioServer.lts root).Reachable s → TokioServer.CacheComplete s.cache ∧
      ∀ i t as ms, TokioServer.Call root i s t as ms → (∀ m ∈ ms, m.op.Plain) →
        (Completes (s.conns i).sent (t.conns i).sent (t.conns i).pc.isClosed ↔
          TokioServer.StreamsSize (ms.map TokioServer.Moment.op)) := by
  refine ⟨?_, ?_, ?_, ?_, ?_⟩
  · exact fun x hx => RustServer.cacheComplete_of_reachable root hx
  · intro e name st
    refine ⟨RustServer.serveFile_insertsWhole root e name st, fun hcache hw he => ?_⟩
    exact RustServer.serveFile_completes_iff hcache hw he
  · exact fun envs st buf => processClient_torn_iff
  · exact fun tr s i op t hex hstep => TokioServer.cache_of_step hex hstep
  · intro s hs
    refine ⟨?_, fun i t as ms hcall hplain => TokioServer.call_completes_iff hs hcall hplain⟩
    obtain ⟨tr, hex⟩ := hs
    exact TokioServer.cacheComplete_of_exec hex

namespace OneResponse.Example

open DocRoot.Example

/-- The file according to `metadata`, and the reads that give what it holds now. -/
def fileEnv (size : ℕ) (reads : List FileRead) : FileEnv where
  canonicalize _ := some path
  metadata _ := .ok (true, size)
  openError _ := none
  reads _ := reads
  writes _ := []

/-- Nothing was sent or cached yet. -/
def idle : RustServer.Serving := ⟨[], .new, 1⟩

/-- A request for a large file: the header is sent, and the first read gives nothing. -/
def emptied : List TokioServer.Action :=
  TokioServer.Example.ask 0 ++
    [.task 0 (.metadata (.ok (true, 70000))), .task 0 (.opened none), .task 0 (.wrote []),
      .task 0 (.readChunk (.data []))]

/-- The steps of the call. -/
def emptiedSteps : List TokioServer.Moment :=
  [⟨2, .new, .lookup⟩, ⟨3, .new, .metadata (.ok (true, 70000))⟩, ⟨4, .new, .opened none⟩,
    ⟨5, .new, .wrote []⟩, ⟨6, .new, .readChunk (.data [])⟩]

/-- What a call for a small file is given. -/
def small : List TokioServer.Op :=
  [.lookup, .metadata (.ok (true, 1)), .opened none, .readBody [.data [104]], .wrote [], .insert]

/-- The chunks of a file of 70000 bytes. -/
def chunks : List (List Byte) :=
  List.replicate 17 (List.replicate FILE_CHUNK 104) ++ [List.replicate 368 104]

/-- What a call for this file is given, which is read as it is. -/
def large : List TokioServer.Op :=
  [.lookup, .metadata (.ok (true, 70000)), .opened none, .wrote []] ++
    chunks.flatMap (fun c => [.readChunk (.data c), .wrote []]) ++ [.readChunk (.data [])]

/-- The first task asks for the file and is given this. -/
def request (ops : List TokioServer.Op) : List TokioServer.Action :=
  (.request [97] (fun _ => some path) :: ops).map (.task 0)

theorem cacheComplete_new : RustServer.CacheComplete .new := fun _ _ h => by cases h

theorem plainErrors_fileEnv (size : ℕ) (reads : List FileRead) :
    (fileEnv size reads).PlainErrors where
  metadata _ _ h := by cases h
  openError _ _ h := by cases h

theorem reachable_start : (TokioServer.lts root).Reachable TokioServer.Example.start :=
  ⟨[], .start rfl⟩

theorem chunks_fit : ∀ c ∈ chunks, c ≠ [] ∧ c.length ≤ FILE_CHUNK := by
  intro c hc
  rcases List.mem_append.mp hc with hc | hc
  · obtain ⟨-, rfl⟩ := List.mem_replicate.mp hc
    exact ⟨List.ne_nil_of_length_pos (by rw [List.length_replicate]; decide),
      (List.length_replicate ..).le⟩
  · rw [List.mem_singleton] at hc
    rw [hc]
    exact ⟨List.ne_nil_of_length_pos (by rw [List.length_replicate]; decide),
      (List.length_replicate ..).le.trans (by decide)⟩

theorem length_chunks : chunks.flatten.length = 70000 := by
  rw [chunks, List.flatten_append, List.length_append, List.length_flatten, List.map_replicate,
    List.length_replicate, List.sum_replicate, List.flatten_singleton, List.length_replicate]
  rfl

theorem mem_large_iff {op : TokioServer.Op} : op ∈ large ↔
    (op = .lookup ∨ op = .metadata (.ok (true, 70000)) ∨ op = .opened none ∨ op = .wrote []) ∨
      (∃ c ∈ chunks, op = .readChunk (.data c) ∨ op = .wrote []) ∨ op = .readChunk (.data []) := by
  simp only [large, List.mem_append, List.mem_flatMap, List.mem_cons, List.not_mem_nil,
    or_false, or_assoc]

theorem chunkReads_large :
    large.filterMap TokioServer.Op.chunkRead = chunks.map .data ++ [.data []] := by
  have hloop : ∀ cs : List (List Byte),
      (cs.flatMap fun c => [TokioServer.Op.readChunk (.data c), .wrote []]).filterMap
        TokioServer.Op.chunkRead = cs.map .data := by
    intro cs
    induction cs with
    | nil => rfl
    | cons c cs ih => exact congrArg (FileRead.data c :: ·) ih
  rw [large, List.filterMap_append, List.filterMap_append, hloop]
  rfl

/-- What the first task is given alone is a call of it, if it returns. -/
theorem exists_call {ops : List TokioServer.Op}
    (hrun : ((TokioServer.lts root).run TokioServer.Example.start (request ops)).any
      (fun t => (t.conns 0).pc.returned && !(t.conns 0).pc.isClosed) = true)
    (hinside : ∀ op ∈ ops, op.Inside) :
    ∃ t ms, TokioServer.Call root 0 TokioServer.Example.start t (request ops) ms ∧
      ms.map TokioServer.Moment.op = ops ∧ (t.conns 0).pc.isClosed = false := by
  obtain ⟨t, ht, hret⟩ := (Option.any_eq_true _ _).mp hrun
  rw [Bool.and_eq_true, Bool.not_eq_true'] at hret
  have hops : (((TokioServer.lts root).trace TokioServer.Example.start (request ops)).filterMap
      (TokioServer.momentOf 0)).map TokioServer.Moment.op =
      .request [97] (fun _ => some path) :: ops :=
    TokioServer.map_op_moments (LTS.map_snd_trace _ ht)
  obtain ⟨m, ms, hsteps, hm, hms⟩ := List.map_eq_cons_iff.mp hops
  refine ⟨t, ms, ⟨ht, ?_, ?_, hret.1⟩, hms, hret.2⟩
  · obtain ⟨now, cache, op⟩ := m
    cases hm
    exact ⟨now, cache, _, _, hsteps⟩
  · exact fun m hm => hinside m.op (hms ▸ List.mem_map_of_mem hm)

theorem emptied_call :
    ∃ t, TokioServer.Call root 0 TokioServer.Example.start t emptied emptiedSteps ∧
    (t.conns 0).pc.isClosed = false := by
  refine ⟨_, ⟨rfl, ⟨_, _, _, _, rfl⟩, ?_, rfl⟩, rfl⟩
  simp [emptiedSteps, TokioServer.Op.Inside]

theorem emptied_plain : ∀ m ∈ emptiedSteps, m.op.Plain := by
  simp [emptiedSteps, TokioServer.Op.Plain, succeeds_nil]

end OneResponse.Example

open DocRoot.Example OneResponse.Example in
/-- A small file, and a large one that is read in full, are answered by one response, and both
servers keep the connection. -/
theorem rust_servers_one_response_iff_full :
    (∀ e ∈ [fileEnv 1 [.data [104]], fileEnv 70000 (chunks.map .data)],
      RustServer.StreamsSize root e [97] idle.cache ∧
      (RustServer.serveFile root e [97] idle).2 = false ∧
      Completes [] (RustServer.serveFile root e [97] idle).1.sent false) ∧
    ∀ ops ∈ [small, large], ∃ t ms,
      TokioServer.Call root 0 TokioServer.Example.start t (request ops) ms ∧
      ms.map TokioServer.Moment.op = ops ∧ (t.conns 0).pc.isClosed = false ∧
      Completes [] (t.conns 0).sent false := by
  obtain ⟨-, hrust, -, -, htokio⟩ := rust_servers_one_response_iff root
  constructor
  · intro e he
    have hsize : RustServer.StreamsSize root e [97] idle.cache ∧
        (RustServer.serveFile root e [97] idle).2 = false ∧ (∀ k, e.writes k = []) ∧
        e.PlainErrors := by
      rcases List.mem_pair.mp he with rfl | rfl
      · refine ⟨fun path size bytes _ _ hmeta _ hlarge _ => ?_, by decide +kernel, fun _ => rfl,
          plainErrors_fileEnv _ _⟩
        cases hmeta
        exact absurd hlarge (by decide)
      · refine ⟨fun path size bytes _ _ hmeta _ _ hs => ?_, by decide +kernel, fun _ => rfl,
          plainErrors_fileEnv _ _⟩
        cases hmeta
        have hall := RustServer.streamed_chunks chunks_fit []
        rw [List.append_nil] at hall
        cases hall.symm.trans hs
        exact (congrArg List.length (List.append_nil _)).trans length_chunks
    obtain ⟨hsize, hkept, hwrites, hplain⟩ := hsize
    have hdone :=
      ((hrust e [97] idle).2 cacheComplete_new (fun k => hwrites k ▸ succeeds_nil) hplain).mpr hsize
    rw [hkept] at hdone
    exact ⟨hsize, hkept, hdone⟩
  · intro ops hops
    have hrun : ((TokioServer.lts root).run TokioServer.Example.start (request ops)).any
        (fun t => (t.conns 0).pc.returned && !(t.conns 0).pc.isClosed) = true ∧
        (∀ op ∈ ops, op.Inside ∧ op.Plain) ∧ TokioServer.StreamsSize ops := by
      rcases List.mem_pair.mp hops with rfl | rfl
      · refine ⟨by decide +kernel, by simp [small, TokioServer.Op.Inside, TokioServer.Op.Plain,
          succeeds_nil], fun size bytes hmeta _ hlarge _ => ?_⟩
        simp only [small, List.mem_cons, reduceCtorEq, false_or, or_false,
          TokioServer.Op.metadata.injEq, Except.ok.injEq, Prod.mk.injEq, true_and,
          List.not_mem_nil] at hmeta
        rw [hmeta] at hlarge
        exact absurd hlarge (by decide)
      · refine ⟨by decide +kernel, ?_, fun size bytes hmeta _ _ hs => ?_⟩
        · intro op hop
          rcases mem_large_iff.mp hop with (rfl | rfl | rfl | rfl) | ⟨c, -, rfl | rfl⟩ | rfl
          all_goals simp [TokioServer.Op.Inside, TokioServer.Op.Plain, succeeds_nil]
        · have hsize : size = 70000 := by
            simpa using mem_large_iff.mp hmeta
          have hall := RustServer.streamed_chunks chunks_fit [.data []]
          rw [chunkReads_large] at hs
          cases hall.symm.trans hs
          rw [hsize]
          exact (congrArg List.length (List.append_nil _)).trans length_chunks
    obtain ⟨hrun, hgiven, hsize⟩ := hrun
    obtain ⟨t, ms, hcall, hms, hopen⟩ := exists_call hrun fun op hop => (hgiven op hop).1
    have hplain : ∀ m ∈ ms, m.op.Plain := by
      intro m hm
      exact (hgiven m.op (hms ▸ List.mem_map_of_mem hm)).2
    have hdone := ((htokio _ reachable_start).2 0 t (request ops) ms hcall hplain).mpr
      (hms.symm ▸ hsize)
    rw [hopen] at hdone
    exact ⟨t, ms, hcall, hms, hopen, hdone⟩

open DocRoot.Example OneResponse.Example in
/-- A large file that was emptied after `metadata`: 70000 bytes are announced, none is sent, and
both servers keep the connection. -/
theorem emptied_not_one_response :
    (RustServer.CacheComplete idle.cache ∧ (∀ k, Succeeds ((fileEnv 70000 []).writes k)) ∧
      (fileEnv 70000 []).PlainErrors ∧
      (RustServer.serveFile root (fileEnv 70000 []) [97] idle).2 = false ∧
      values (RustServer.serveFile root (fileEnv 70000 []) [97] idle).1.sent = ascii "+OK 70000\n" ∧
      ¬ Completes [] (RustServer.serveFile root (fileEnv 70000 []) [97] idle).1.sent
        (RustServer.serveFile root (fileEnv 70000 []) [97] idle).2) ∧
    ∃ t, TokioServer.Call root 0 TokioServer.Example.start t emptied emptiedSteps ∧
      (∀ m ∈ emptiedSteps, m.op.Plain) ∧ (t.conns 0).pc.isClosed = false ∧
      ¬ Completes [] (t.conns 0).sent (t.conns 0).pc.isClosed := by
  constructor
  · refine ⟨cacheComplete_new, fun _ => succeeds_nil, plainErrors_fileEnv _ _, by decide +kernel,
      by decide +kernel, fun h => ?_⟩
    have hsize := (RustServer.serveFile_completes_iff cacheComplete_new (fun _ => succeeds_nil)
      (plainErrors_fileEnv _ _)).mp h path 70000 [] (by decide +kernel) rfl rfl rfl (by decide) rfl
    exact absurd hsize (by decide)
  · obtain ⟨t, hcall, hopen⟩ := emptied_call
    refine ⟨t, hcall, emptied_plain, hopen, fun h => ?_⟩
    have hsize := (TokioServer.call_completes_iff reachable_start hcall emptied_plain).mp h 70000 []
      (by simp [emptiedSteps]) (by simp [emptiedSteps]) (by decide) rfl
    exact absurd hsize (by decide)

end Osvcp.Servers
