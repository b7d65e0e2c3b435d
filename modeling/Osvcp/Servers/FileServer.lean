import Osvcp.Lib.SelectLoop
import Osvcp.Servers.Cache
import Osvcp.Servers.Framing

/-! # The synchronous file server

`file-server.c`: `serve_file` answers a request with blocking writes, from the cache, from one
`pread` of the whole file, or by streaming it; `process_requests` runs it on every complete line;
the event loop is that of `SelectServer`. The results of the system calls are parameters of each
step. The client's `received` and `sent`, the world's `touched` paths and its count of `flushes`
record what happened and are not read by the server.
-/

namespace Osvcp.Servers

/-- The size of the chunks in which large files are streamed. -/
def FILE_BUF_SIZE : ℕ := 4096

/-- The number of clients. -/
def MAX_CLIENTS : ℕ := 64

/-- The result of `stat`. When it fails, `st_mode` is whatever the stack held: `isReg` says what
`S_ISREG` makes of that. -/
inductive StatResult
  | failed (isReg : Bool)
  | ok (isReg : Bool) (size : ℕ)

namespace FileServer

/-- The system calls of one `serve_file`: `realpath`, `stat`, `open`, `malloc` of the response, the
bytes `pread` returns (`none` on error), those of the successive `read`s of the file up to the one
that returns 0 or fails, and the `write`s of the successive calls of `write_all`. -/
structure ServeEnv where
  realpath : List Byte → Option CanonPath
  stat : List Byte → StatResult
  openOk : List Byte → Bool
  malloc : Bool
  pread : List Byte → Option (List Byte)
  reads : List Byte → List (List Byte)
  writes : ℕ → List WriteResult

/-- What the clients share. -/
structure World where
  cache : List CacheEntry
  running : Bool
  clearRequested : Bool
  flushes : ℕ
  touched : List (List Byte)

/-- A client. -/
structure Client where
  fd : ℕ
  buf : ReqBuf
  received : List Byte
  sent : List Cell

/-- The state of `process_requests`: the requests served in this call, what was sent, and the
world. -/
structure Serving where
  calls : ℕ
  sent : List Cell
  world : World

namespace Serving

/-- `write_all` to the client. The flag is `true` where `write_all` fails. -/
def write (st : Serving) (rs : List WriteResult) (msg : List Cell) : Serving × Bool :=
  ({ st with sent := st.sent ++ (writeAll rs msg).1 }, !(writeAll rs msg).2)

/-- `send_error`: failures of the write are ignored. -/
def sendError (st : Serving) (rs : List WriteResult) (reason : String) : Serving × Bool :=
  ((st.write rs (errLine reason)).1, false)

/-- A path is passed to `stat` or `open`. -/
def touch (st : Serving) (path : List Byte) : Serving :=
  { st with world := { st.world with touched := st.world.touched ++ [path] } }

/-- `cache_insert` of a response. -/
def insert (st : Serving) (key : List Byte) (resp : List Cell) : Serving :=
  { st with world := { st.world with cache := cacheInsert st.world.cache key resp } }

/-- What a file read now carries. -/
def source (st : Serving) (path : List Byte) : Source := ⟨path, st.world.flushes⟩

end Serving

/-- The streaming loop of `serve_file`: each chunk read from the file is written before the next one
is read. `k` counts the calls of `write_all`. -/
def stream (writes : ℕ → List WriteResult) (src : Source) :
    ℕ → List (List Byte) → Serving → Serving × Bool
  | _, [], st => (st, false)
  | k, chunk :: chunks, st =>
      match chunk.take FILE_BUF_SIZE with
      | [] => (st, false)
      | bytes =>
          match st.write (writes k) (fileCells src bytes) with
          | (st', true) => (st', true)
          | (st', false) => stream writes src (k + 1) chunks st'

/-- The whole file in one buffer: the file is small enough, the buffer could be allocated, and
`pread` returned exactly the size that `stat` had reported. -/
def readWhole (e : ServeEnv) (resolved : List Byte) (size : ℕ) : Option (List Byte) :=
  if size ≤ MAX_CACHE_FILE_SIZE ∧ e.malloc = true then
    match if 0 < size then (e.pread resolved).map (·.take size) else some [] with
    | some data => if data.length = size then some data else none
    | none => none
  else none

/-- The part of `serve_file` behind the cache. -/
def serveFromDisk (e : ServeEnv) (resolved : List Byte) (st : Serving) : Serving × Bool :=
  let st := st.touch resolved
  match e.stat resolved with
  | .failed _ => st.sendError (e.writes 0) "stat failed"
  | .ok false _ => st.sendError (e.writes 0) "not a regular file"
  | .ok true size =>
      let st := st.touch resolved
      if e.openOk resolved = false then st.sendError (e.writes 0) "open failed"
      else
        match readWhole e resolved size with
        | some data =>
            let resp := okHeader size ++ fileCells (st.source resolved) data
            match st.write (e.writes 0) resp with
            | (st', true) => (st', true)
            | (st', false) => (st'.insert resolved resp, false)
        | none =>
            match st.write (e.writes 0) (okHeader size) with
            | (st', true) => (st', true)
            | (st', false) => stream e.writes (st.source resolved) 1 (e.reads resolved) st'

/-- `serve_file`. The flag is `true` where the source returns -1. -/
def serveFile (root : DocRoot) (e : ServeEnv) (filename : List Byte) (st : Serving) :
    Serving × Bool :=
  if filename = [] then st.sendError (e.writes 0) "empty filename"
  else if filename.head? = some SLASH then
    st.sendError (e.writes 0) "absolute paths not allowed"
  else
    match e.realpath (root.candidate filename) with
    | none => st.sendError (e.writes 0) "not found"
    | some path =>
        if root.accessOk path.bytes = false then st.sendError (e.writes 0) "access denied"
        else
          match cacheLookup st.world.cache path.bytes with
          | some entry => st.write (e.writes 0) entry.resp
          | none => serveFromDisk e path.bytes st

/-- One request line of `process_requests`: the `calls`-th `serve_file` of this call. -/
def serveLine (root : DocRoot) (envs : ℕ → ServeEnv) (st : Serving) (_line name : List Byte) :
    Serving × Bool :=
  serveFile root (envs st.calls) name { st with calls := st.calls + 1 }

/-- The system calls made for one ready client: what `read` returns, nothing at the end of the
stream or on an error, and those of each `serve_file`. -/
structure HandleEnv where
  read : List Byte
  serves : ℕ → ServeEnv

/-- The body of the pass over the clients. -/
def handle (root : DocRoot) (_i : ℕ) (readable _writable : Bool) (c : Client) (w : World)
    (e : HandleEnv) : Option (Outcome Client World) :=
  if readable = false then some (.keep c w)
  else
    match e.read.take (REQ_BUF_SIZE - 1 - c.buf.len) with
    | [] => some (.drop c w)
    | bytes =>
        match processRequests (serveLine root e.serves) ⟨0, c.sent, w⟩ (c.buf.fill bytes) with
        | (st, buf, closed) =>
            let c' := { c with buf := buf, received := c.received ++ bytes, sent := st.sent }
            some (if closed then .drop c' st.world else .keep c' st.world)

/-- The signals the server handles. -/
inductive Signal
  | sigint
  | sigusr1

/-- `handle_sigint` and `handle_sigusr1`. -/
def signal (t : Table Client) (w : World) : Signal → Option (Table Client × World)
  | .sigint => some (t, { w with running := false })
  | .sigusr1 => some (t, { w with clearRequested := true })

/-- The top of the loop: run a requested `cache_clear`. -/
def turn (w : World) : World :=
  if w.clearRequested then
    { w with clearRequested := false, cache := [], flushes := w.flushes + 1 }
  else w

/-- `file-server.c`. `add_client` resets the length of the buffer, not its contents. -/
def server (root : DocRoot) : SelectServer Client World Signal HandleEnv where
  fd := Client.fd
  wantsWrite _ := false
  maxClients := MAX_CLIENTS
  stopsAtMax := false
  eintrStops := false
  blank := ⟨0, .empty REQ_BUF_SIZE, [], []⟩
  connect c fd := ⟨fd, { c.buf with len := 0, len_le := Nat.zero_le _ }, [], []⟩
  world₀ := ⟨[], true, false, 0, []⟩
  running := World.running
  turn := turn
  async := signal
  handle := handle root

/-! ## What a request does -/

/-- The path a request is resolved to, if it passes the checks before the cache. -/
def resolve (root : DocRoot) (e : ServeEnv) (name : List Byte) : Option CanonPath :=
  if name = [] ∨ name.head? = some SLASH then none
  else (e.realpath (root.candidate name)).filter fun path => root.accessOk path.bytes

/-- The response that `serve_file` puts into the cache when it goes to the disk. -/
def fills (e : ServeEnv) (path : List Byte) (w : World) : Option (List Cell) :=
  match e.stat path with
  | .ok true size =>
      if e.openOk path = false then none
      else
        match readWhole e path size with
        | some data =>
            let resp := okHeader size ++ fileCells ⟨path, w.flushes⟩ data
            if (writeAll (e.writes 0) resp).2 then some resp else none
        | none => none
  | _ => none

/-- The cache after a request. -/
def cacheAfter (root : DocRoot) (e : ServeEnv) (name : List Byte) (w : World) : List CacheEntry :=
  match resolve root e name with
  | none => w.cache
  | some path =>
      if (cacheLookup w.cache path.bytes).isSome then w.cache
      else
        match fills e path.bytes w with
        | some resp => cacheInsert w.cache path.bytes resp
        | none => w.cache

section

variable {root : DocRoot} {e : ServeEnv} {name : List Byte} {st : Serving}

/-- A request that does not pass the checks gets an error line. -/
theorem serveFile_of_resolve_none (st : Serving) (h : resolve root e name = none) :
    ∃ reason, LF ∉ ascii reason ∧ serveFile root e name st = st.sendError (e.writes 0) reason := by
  unfold resolve at h
  unfold serveFile
  by_cases hempty : name = []
  · exact ⟨"empty filename", by decide, if_pos hempty⟩
  · by_cases habs : name.head? = some SLASH
    · exact ⟨"absolute paths not allowed", by decide, by rw [if_neg hempty, if_pos habs]⟩
    · rw [if_neg (not_or.mpr ⟨hempty, habs⟩)] at h
      rw [if_neg hempty, if_neg habs]
      cases hreal : e.realpath (root.candidate name) with
      | none => exact ⟨"not found", by decide, rfl⟩
      | some path =>
          rw [hreal, Option.filter_eq_none_iff] at h
          have hacc : root.accessOk path.bytes = false := by simpa using h path rfl
          exact ⟨"access denied", by decide, if_pos hacc⟩

/-- The checks are passed by the name and by what it is resolved to. -/
theorem resolve_eq_some {path : CanonPath} (h : resolve root e name = some path) :
    name ≠ [] ∧ name.head? ≠ some SLASH ∧ e.realpath (root.candidate name) = some path ∧
      root.accessOk path.bytes = true := by
  unfold resolve at h
  split at h
  · cases h
  · rename_i hname
    obtain ⟨hempty, habs⟩ := not_or.mp hname
    exact ⟨hempty, habs, Option.filter_eq_some_iff.mp h⟩

/-- A request that passes them is answered from the cache. -/
theorem serveFile_hit {path : CanonPath} (h : resolve root e name = some path) {entry : CacheEntry}
    (hlook : cacheLookup st.world.cache path.bytes = some entry) :
    serveFile root e name st = st.write (e.writes 0) entry.resp := by
  obtain ⟨hempty, habs, hreal, hacc⟩ := resolve_eq_some h
  simp only [serveFile, hempty, habs, hreal, hacc, hlook, if_false, Bool.true_eq_false]

/-- Or from the disk. -/
theorem serveFile_miss {path : CanonPath} (h : resolve root e name = some path)
    (hlook : cacheLookup st.world.cache path.bytes = none) :
    serveFile root e name st = serveFromDisk e path.bytes st := by
  obtain ⟨hempty, habs, hreal, hacc⟩ := resolve_eq_some h
  simp only [serveFile, hempty, habs, hreal, hacc, hlook, if_false, Bool.true_eq_false]

end

section

variable (root : DocRoot) (e : ServeEnv) (name : List Byte) (st : Serving)

theorem stream_eq (writes : ℕ → List WriteResult) (src : Source) (k : ℕ)
    (chunks : List (List Byte)) :
    ∃ sent, (stream writes src k chunks st).1 = { st with sent := sent } := by
  induction chunks generalizing k st with
  | nil => exact ⟨_, rfl⟩
  | cons chunk chunks ih =>
      rw [stream]
      split
      · exact ⟨_, rfl⟩
      · split
        · rename_i st' heq
          exact ⟨_, congrArg Prod.fst heq.symm⟩
        · rename_i st' heq
          obtain ⟨sent, hsent⟩ := ih st' (k + 1)
          obtain rfl : _ = st' := congrArg Prod.fst heq
          exact ⟨sent, hsent⟩

/-- `serve_file` behind the cache changes what was sent, the cache and the record of its paths. -/
theorem serveFromDisk_eq (path : List Byte) :
    ∃ sent touched, (serveFromDisk e path st).1 =
      ⟨st.calls, sent,
        { st.world with
          cache := match fills e path st.world with
            | some resp => cacheInsert st.world.cache path resp
            | none => st.world.cache
          touched := touched }⟩ := by
  unfold serveFromDisk fills
  cases hstat : e.stat path with
  | failed isReg => exact ⟨_, _, rfl⟩
  | ok isReg size =>
      cases isReg with
      | false => exact ⟨_, _, rfl⟩
      | true =>
          simp only
          cases hopen : e.openOk path with
          | false => exact ⟨_, _, rfl⟩
          | true =>
              simp only [Bool.true_eq_false, if_false]
              cases hread : readWhole e path size with
              | none =>
                  simp only [Serving.write]
                  cases hw : (writeAll (e.writes 0) (okHeader size)).2 with
                  | false => exact ⟨_, _, rfl⟩
                  | true =>
                      simp only [Bool.not_true]
                      obtain ⟨sent, hsent⟩ := stream_eq _ e.writes _ 1 (e.reads path)
                      exact ⟨sent, _, hsent⟩
              | some data =>
                  -- the response is cached where it could be written
                  have hsrc : ((st.touch path).touch path).source path =
                      ⟨path, st.world.flushes⟩ := rfl
                  simp only [Serving.write, hsrc]
                  cases hw : (writeAll (e.writes 0)
                    (okHeader size ++ fileCells ⟨path, st.world.flushes⟩ data)).2 with
                  | false => exact ⟨_, _, rfl⟩
                  | true => exact ⟨_, _, rfl⟩

/-- **What a request changes**: what was sent, the cache, and the record of its paths. -/
theorem serveFile_eq :
    ∃ sent touched, (serveFile root e name st).1 =
      ⟨st.calls, sent, { st.world with
        cache := cacheAfter root e name st.world, touched := touched }⟩ := by
  unfold cacheAfter
  cases hres : resolve root e name with
  | none =>
      obtain ⟨reason, -, heq⟩ := serveFile_of_resolve_none st hres
      rw [heq]
      exact ⟨_, _, rfl⟩
  | some path =>
      cases hlook : cacheLookup st.world.cache path.bytes with
      | some entry =>
          simp only [serveFile_hit hres hlook, hlook, Option.isSome_some, if_true]
          exact ⟨_, _, rfl⟩
      | none =>
          simp only [serveFile_miss hres hlook, hlook, Option.isSome_none,
            Bool.false_eq_true, if_false]
          exact serveFromDisk_eq e st path.bytes

theorem cache_serveFile :
    (serveFile root e name st).1.world.cache = cacheAfter root e name st.world := by
  obtain ⟨sent, touched, heq⟩ := serveFile_eq root e name st
  rw [heq]

variable {root e name st} {w : World}

/-- At most one response is inserted. -/
theorem cacheAfter_cases (root : DocRoot) (e : ServeEnv) (name : List Byte) (w : World) :
    cacheAfter root e name w = w.cache ∨ ∃ path resp, resolve root e name = some path ∧
      fills e path.bytes w = some resp ∧
      cacheAfter root e name w = cacheInsert w.cache path.bytes resp := by
  unfold cacheAfter
  cases resolve root e name with
  | none => exact .inl rfl
  | some path =>
      simp only
      split
      · exact .inl rfl
      · split
        · rename_i resp hfills
          exact .inr ⟨path, resp, rfl, hfills, rfl⟩
        · exact .inl rfl

/-- What is inserted is the file, read as a whole. -/
theorem fills_eq_some {path : List Byte} {resp : List Cell} (h : fills e path w = some resp) :
    ∃ size data, e.stat path = .ok true size ∧ e.openOk path = true ∧
      readWhole e path size = some data ∧
      resp = okHeader size ++ fileCells ⟨path, w.flushes⟩ data := by
  unfold fills at h
  split at h
  · rename_i size hstat
    split at h
    · cases h
    · rename_i hopen
      split at h
      · rename_i data hread
        simp only at h
        split at h
        · cases h
          exact ⟨size, data, hstat, by simpa using hopen, hread, rfl⟩
        · cases h
      · cases h
  · cases h

/-- The buffer for a whole file is used only when it was filled. -/
theorem length_of_readWhole {path data : List Byte} {size : ℕ}
    (h : readWhole e path size = some data) :
    data.length = size := by
  unfold readWhole at h
  split at h
  · split at h
    · split at h
      · rename_i hlen
        cases h
        exact hlen
      · cases h
    · cases h
  · cases h

end

/-! ## Properties of the world -/

/-- What every `serve_file` whose system calls satisfy `ok` keeps, the body of the pass keeps. -/
theorem handle_world {P : World → Prop} {ok : ServeEnv → Prop} {root : DocRoot}
    (hserve : ∀ e name (st : Serving), ok e → P st.world → P (serveFile root e name st).1.world)
    (i : ℕ) (writable : Bool) {readable : Bool} {c : Client} {w : World} {e : HandleEnv}
    (hok : ∀ k, ok (e.serves k)) (hw : P w) {o : Outcome Client World}
    (h : handle root i readable writable c w e = some o) : P o.world := by
  unfold handle at h
  split at h
  · cases h
    exact hw
  · split at h
    · cases h
      exact hw
    · have hst : P (Serving.mk 0 c.sent w).world := hw
      have hloop := processRequests_rule (I := fun st => P st.world) (serveLine root e.serves)
        (fun st line name hst =>
          hserve (e.serves st.calls) name { st with calls := st.calls + 1 } (hok st.calls) hst)
        hst (c.buf.fill (e.read.take (REQ_BUF_SIZE - 1 - c.buf.len)))
      split at h
      rename_i st buf closed heq
      rw [heq] at hloop
      cases h
      cases closed with
      | true => exact hloop
      | false => exact hloop

/-- The system calls of a step, where it serves files. -/
def Serves (ok : ServeEnv → Prop) : LoopAction Signal HandleEnv → Prop
  | .handle e => ∀ k, ok (e.serves k)
  | _ => True

theorem serves_of_forall {ok : ServeEnv → Prop} (h : ∀ e, ok e) (a : LoopAction Signal HandleEnv) :
    Serves ok a := by
  cases a with
  | handle e => exact fun k => h (e.serves k)
  | _ => trivial

/-- A property of the world that holds at the start, and that every `serve_file`, a `cache_clear`
and the signals keep, holds in every run. -/
theorem world_invariant {P : World → Prop} (ok : ServeEnv → Prop) (root : DocRoot)
    (hinit : P ⟨[], true, false, 0, []⟩) (hturn : ∀ w, P w → P (turn w))
    (hsignal : ∀ w, P w → P { w with running := false } ∧ P { w with clearRequested := true })
    (hserve : ∀ e name (st : Serving), ok e → P st.world → P (serveFile root e name st).1.world) :
    (server root).LocalInvariant (fun _ a => Serves ok a) (fun _ => P) (fun _ _ _ => True)
      (fun _ => True) where
  init := hinit
  connect _ _ _ _ hw := ⟨hw, trivial⟩
  turn _ w hw := ⟨hturn w hw, fun _ _ _ => trivial⟩
  async s a t w hw _ _ h := by
    cases a with
    | sigint =>
        cases h
        exact ⟨rfl, (hsignal s.world hw).1, fun _ _ => trivial⟩
    | sigusr1 =>
        cases h
        exact ⟨rfl, (hsignal s.world hw).2, fun _ _ => trivial⟩
  keep s r k e c' w' _ _ hw _ hok hh :=
    ⟨handle_world hserve k false hok hw hh, trivial, fun _ _ _ => trivial⟩
  drop s r k e c' w' _ _ hw _ hok hh :=
    ⟨handle_world hserve k false hok hw hh, trivial, fun _ _ _ => trivial, fun _ => trivial⟩

/-- The invariant for the cache alone: a `cache_clear` empties it. -/
theorem cache_invariant {P : List CacheEntry → Prop} (ok : ServeEnv → Prop) (root : DocRoot)
    (hnil : P [])
    (hserve : ∀ e name (st : Serving), ok e → P st.world.cache →
      P (cacheAfter root e name st.world)) :
    (server root).LocalInvariant (fun _ a => Serves ok a) (fun _ w => P w.cache) (fun _ _ _ => True)
      (fun _ => True) := by
  refine world_invariant ok root hnil (fun w hw => ?_) (fun w hw => ⟨hw, hw⟩)
    fun e name st hok hst => ?_
  · unfold turn
    split
    · exact hnil
    · exact hw
  · rw [cache_serveFile]
    exact hserve e name st hok hst

end FileServer

end Osvcp.Servers
