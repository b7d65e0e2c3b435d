import Osvcp.Servers.FileServer

/-! # The asynchronous file server

`aio-file-server.c`: every client is a state machine that reads requests, waits for an `aio_read`,
writes a response from memory or sends a large file. A response buffer is a block of the heap, known
by a number that is never used again; a descriptor of a file carries the path it was opened by. An
outstanding `aio_read` is recorded with the slot whose control block was given to it: a completion
stores into the buffer and into the control block that is then in that slot.

The results of the system calls are parameters of each step. The client's `received`, `sent` and
`requests` (the lines given to `begin_file_serve`), and the world's `touched`, `closed`, `freed` and
`flushes` record what happened and are not read by the server.
-/

namespace Osvcp.Servers.AioServer

/-- An open file. -/
structure Handle where
  num : ℕ
  path : List Byte
  deriving DecidableEq, Repr

/-- What a control block says: `aio_error` and `aio_return`. A zeroed one says that 0 bytes were
read. -/
inductive AioStatus
  | inProgress
  | done (n : ℕ)
  | failed
  deriving DecidableEq, Repr

/-- An outstanding `aio_read`: the slot of the control block, the buffer with the offset to store
at, the bytes asked for, and the file. -/
structure AioRequest where
  slot : ℕ
  buf : ℕ
  off : ℕ
  nbytes : ℕ
  file : Handle
  flushes : ℕ
  deriving DecidableEq, Repr

/-- `ClientState`. -/
inductive ClientState
  | reading
  | aio
  | writing
  | sendfile
  deriving DecidableEq, Repr

/-- A client. -/
structure Client where
  sock : ℕ
  reqBuf : ReqBuf
  state : ClientState
  fileFd : Option Handle
  resp : Option ℕ
  respSize : ℕ
  respSent : ℕ
  aio : AioStatus
  sfFd : Option Handle
  sfOffset : ℕ
  sfRemaining : ℕ
  cacheKey : List Byte
  received : List Byte
  sent : List Cell
  requests : List (List Byte)

/-- What the clients share, and the outstanding reads. -/
structure World where
  cache : List CacheEntry
  heap : ℕ → List Cell
  nextBuf : ℕ
  nextFd : ℕ
  pending : List AioRequest
  running : Bool
  clearRequested : Bool
  flushes : ℕ
  touched : List (List Byte)
  closed : List ℕ
  freed : List ℕ

/-- The result of an `aio_read`. -/
inductive AioResult
  | delivered (data : List Byte)
  | failed
  deriving DecidableEq, Repr

namespace World

/-- `malloc`, and what is stored into the block. The block gets a new number, so that a store into a
block that has been freed hits nobody; `buf_notMem_freed` says when there are no such stores. -/
def alloc (w : World) (cells : List Cell) : World :=
  { w with heap := Function.update w.heap w.nextBuf cells, nextBuf := w.nextBuf + 1 }

/-- `free`. -/
def free (w : World) : Option ℕ → World
  | none => w
  | some id => { w with freed := w.freed ++ [id] }

/-- `open`. -/
def openFile (w : World) (path : List Byte) : Handle × World :=
  (⟨w.nextFd, path⟩, { w with nextFd := w.nextFd + 1 })

/-- `close` of a file. -/
def close (w : World) : Option Handle → World
  | none => w
  | some f => { w with closed := w.closed ++ [f.num] }

/-- A path is passed to `stat` or `open`. -/
def touch (w : World) (path : List Byte) : World := { w with touched := w.touched ++ [path] }

/-- Store cells into a block. -/
def store (w : World) (id off : ℕ) (cells : List Cell) : World :=
  { w with
    heap := Function.update w.heap id
      ((w.heap id).take off ++ cells ++ (w.heap id).drop (off + cells.length)) }

/-- The status a result leaves in the control block. -/
def status (r : AioRequest) : AioResult → AioStatus
  | .delivered data => .done (data.take r.nbytes).length
  | .failed => .failed

/-- The `k`-th outstanding read ends: what it delivers is stored. -/
def complete (w : World) (k : ℕ) (r : AioRequest) (result : AioResult) : World :=
  let w := { w with pending := w.pending.eraseIdx k }
  match result with
  | .delivered data =>
      w.store r.buf r.off (fileCells ⟨r.file.path, r.flushes⟩ (data.take r.nbytes))
  | .failed => w

section

variable (w : World) (f : Option Handle) (id : Option ℕ)

@[simp] theorem free_cache : (w.free id).cache = w.cache := by cases id <;> rfl
@[simp] theorem free_heap : (w.free id).heap = w.heap := by cases id <;> rfl
@[simp] theorem free_nextBuf : (w.free id).nextBuf = w.nextBuf := by cases id <;> rfl
@[simp] theorem free_pending : (w.free id).pending = w.pending := by cases id <;> rfl
@[simp] theorem close_cache : (w.close f).cache = w.cache := by cases f <;> rfl
@[simp] theorem close_heap : (w.close f).heap = w.heap := by cases f <;> rfl
@[simp] theorem close_nextBuf : (w.close f).nextBuf = w.nextBuf := by cases f <;> rfl
@[simp] theorem close_pending : (w.close f).pending = w.pending := by cases f <;> rfl

@[simp] theorem complete_pending (k : ℕ) (r : AioRequest) (result : AioResult) :
    (w.complete k r result).pending = w.pending.eraseIdx k := by cases result <;> rfl

@[simp] theorem complete_nextBuf (k : ℕ) (r : AioRequest) (result : AioResult) :
    (w.complete k r result).nextBuf = w.nextBuf := by cases result <;> rfl

@[simp] theorem complete_cache (k : ℕ) (r : AioRequest) (result : AioResult) :
    (w.complete k r result).cache = w.cache := by cases result <;> rfl

end

end World

namespace Client

/-- `sock_send` to the client. -/
def reply (c : Client) (rs : List WriteResult) (msg : List Cell) : Client :=
  { c with sent := c.sent ++ sockSend rs msg }

/-- The response buffer. -/
def buffer (c : Client) (w : World) : List Cell :=
  match c.resp with
  | some id => (w.heap id).take c.respSize
  | none => []

end Client

/-! ## Starting a response -/

/-- The system calls of one `begin_file_serve`: `realpath`, the `malloc` for a copy of a cached
response, `stat`, `open`, the `malloc` of the response, `aio_read`, and the writes of
`sock_send`. -/
structure ServeEnv where
  realpath : List Byte → Option CanonPath
  mallocCopy : Bool
  stat : List Byte → StatResult
  openOk : List Byte → Bool
  malloc : Bool
  aioRead : Bool
  sends : List WriteResult

/-- `begin_file_serve` on a cache hit. -/
def serveCached (entry : CacheEntry) (c : Client) (w : World) : Client × World :=
  ({ c with
      resp := some w.nextBuf, respSize := entry.resp.length, respSent := 0, state := .writing },
    w.alloc entry.resp)

/-- `begin_file_serve` for a large file: the header is sent at once. -/
def startSendfile (e : ServeEnv) (f : Handle) (size : ℕ) (c : Client) (w : World) :
    Client × World :=
  ({ c.reply e.sends (okHeader size) with
      sfFd := some f, sfOffset := 0, sfRemaining := size, state := .sendfile }, w)

/-- `begin_file_serve` for a small file of the client in slot `i`: allocate the response, store the
header and start the read of the rest. -/
def startRead (e : ServeEnv) (i : ℕ) (f : Handle) (size : ℕ) (c : Client) (w : World) :
    Client × World :=
  if e.malloc = false then (c.reply e.sends (errLine "out of memory"), w.close f)
  else
    let id := w.nextBuf
    let w := w.alloc (okHeader size ++ List.replicate size .junk)
    let c := { c with
      fileFd := some f, resp := some id, respSize := (okHeader size).length + size, respSent := 0,
      aio := .done 0 }
    if e.aioRead = false then
      ({ c with resp := none }.reply e.sends (errLine "aio_read failed"),
        (w.free (some id)).close f)
    else
      ({ c with aio := .inProgress, state := .aio },
        { w with
          pending := w.pending ++ [⟨i, id, (okHeader size).length, size, f, w.flushes⟩] })

/-- `begin_file_serve` behind the cache. -/
def serveFromDisk (e : ServeEnv) (i : ℕ) (resolved : List Byte) (c : Client) (w : World) :
    Client × World :=
  let w := w.touch resolved
  match e.stat resolved with
  | .failed isReg =>
      -- the message depends on an `st_mode` that `stat` has not set
      (c.reply e.sends (errLine (if isReg then "stat failed" else "not a regular file")), w)
  | .ok false _ => (c.reply e.sends (errLine "not a regular file"), w)
  | .ok true size =>
      let w := w.touch resolved
      if e.openOk resolved = false then (c.reply e.sends (errLine "open failed"), w)
      else
        let f := (w.openFile resolved).1
        let w := (w.openFile resolved).2
        if MAX_CACHE_FILE_SIZE < size then startSendfile e f size c w
        else startRead e i f size c w

/-- `begin_file_serve` for the client in slot `i`. -/
def beginFileServe (root : DocRoot) (e : ServeEnv) (i : ℕ) (filename : List Byte) (c : Client)
    (w : World) : Client × World :=
  if filename = [] then (c.reply e.sends (errLine "empty filename"), w)
  else if filename.head? = some SLASH then
    (c.reply e.sends (errLine "absolute paths not allowed"), w)
  else
    match e.realpath (root.candidate filename) with
    | none => (c.reply e.sends (errLine "not found"), w)
    | some path =>
        if root.accessOk path.bytes = false then (c.reply e.sends (errLine "access denied"), w)
        else
          let c := { c with cacheKey := strncpyPath path.bytes }
          match cacheLookup w.cache path.bytes with
          | some entry =>
              if e.mallocCopy then serveCached entry c w else serveFromDisk e i path.bytes c w
          | none => serveFromDisk e i path.bytes c w

/-! ## The body of the pass over the clients -/

/-- The result of `sendfile`. -/
inductive SendfileResult
  | sent (data : List Byte)
  | eagain
  | error
  deriving DecidableEq, Repr

/-- How `remove_client` gets rid of an outstanding read: `aio_cancel` cancels it, or a read
registered in this slot ends while it waits. -/
inductive WaitResult
  | cancelled
  | completed (k : ℕ) (result : AioResult)
  deriving DecidableEq, Repr

/-- The system calls made for one client: whether the `recv` of one byte reports the end of the
stream or an error, the writes and the `malloc` of `check_aio`, what `read` returns (nothing at the
end of the stream or on an error), those of each `begin_file_serve`, the `write` of a response, the
`sendfile` from a file at an offset, and the wait in `remove_client`. -/
structure HandleEnv where
  hangup : Bool
  aioSends : List WriteResult
  mallocCache : Bool
  read : List Byte
  serves : ℕ → ServeEnv
  write : WriteResult
  sendfile : Option Handle → ℕ → SendfileResult
  wait : WaitResult

/-- `check_aio` after the completion of the read: the response is cached and sent. -/
def finishRead (e : HandleEnv) (c : Client) (w : World) : Client × World :=
  let w := w.close c.fileFd
  let w := if c.respSize ≤ MAX_CACHE_FILE_SIZE + 64 ∧ c.cacheKey ≠ [] ∧ e.mallocCache = true then
    { w with cache := cacheInsert w.cache c.cacheKey (c.buffer w) } else w
  ({ c with fileFd := none, state := .writing }, w)

/-- `check_aio` after a failed read. -/
def failRead (e : HandleEnv) (c : Client) (w : World) : Client × World :=
  ({ c with fileFd := none, resp := none, state := .reading }.reply e.aioSends
    (errLine "read error"), (w.close c.fileFd).free c.resp)

/-- `check_aio`. -/
def checkAio (e : HandleEnv) (c : Client) (w : World) : Client × World :=
  match c.aio with
  | .inProgress => (c, w)
  | .failed => failRead e c w
  | .done _ => finishRead e c w

/-- The state of the loop over the request lines. -/
structure Serving where
  calls : ℕ
  client : Client
  world : World

/-- One request line. The loop is left when the client is no longer reading. -/
def serveLine (root : DocRoot) (e : HandleEnv) (i : ℕ) (st : Serving) (line name : List Byte) :
    Serving × Verdict :=
  let c := { st.client with requests := st.client.requests ++ [line] }
  let p := beginFileServe root (e.serves st.calls) i name c st.world
  (⟨st.calls + 1, p.1, p.2⟩, if p.1.state = .reading then .next else .pause)

/-- A part of the body: the client is kept, or (`error`) it is to be removed and the rest is
skipped. -/
abbrev Stage := Except (Client × World) (Client × World)

/-- The end of the stream is noticed in any state. -/
def probe (e : HandleEnv) (readable : Bool) (c : Client) (w : World) : Stage :=
  if readable = true ∧ c.state ≠ .reading ∧ e.hangup = true then .error (c, w) else .ok (c, w)

/-- `STATE_AIO`. -/
def aioStage (e : HandleEnv) (c : Client) (w : World) : Stage :=
  if c.state = .aio then .ok (checkAio e c w) else .ok (c, w)

/-- `STATE_READING`. -/
def readStage (root : DocRoot) (e : HandleEnv) (i : ℕ) (readable : Bool) (c : Client) (w : World) :
    Stage :=
  if c.state = .reading ∧ readable = true then
    match e.read.take (REQ_BUF_SIZE - 1 - c.reqBuf.len) with
    | [] => .error (c, w)
    | bytes =>
        let c := { c with received := c.received ++ bytes }
        match (c.reqBuf.fill bytes).drainLoop true (serveLine root e i) ⟨0, c, w⟩ with
        | (st, buf, _) =>
            let c' := { st.client with reqBuf := buf }
            if REQ_BUF_SIZE - 1 ≤ buf.len then .error (c', st.world) else .ok (c', st.world)
  else .ok (c, w)

/-- `STATE_WRITING`, after `nb_write` has sent `cells`. -/
def advanceWrite (cells : List Cell) (c : Client) (w : World) : Client × World :=
  let c := { c with respSent := c.respSent + cells.length, sent := c.sent ++ cells }
  if c.respSent = c.respSize then ({ c with resp := none, state := .reading }, w.free c.resp)
  else (c, w)

/-- `STATE_WRITING`. -/
def writeStage (e : HandleEnv) (writable : Bool) (c : Client) (w : World) : Stage :=
  if c.state = .writing ∧ writable = true then
    match nbWrite e.write ((c.buffer w).drop c.respSent) with
    | none => .error (c, w)
    | some cells => .ok (advanceWrite cells c w)
  else .ok (c, w)

/-- `STATE_SENDFILE`, after `sendfile` has sent `data`. -/
def advanceSendfile (data : List Byte) (c : Client) (w : World) : Client × World :=
  let path := (c.sfFd.map Handle.path).getD []
  let c := { c with
    sfOffset := c.sfOffset + data.length, sfRemaining := c.sfRemaining - data.length,
    sent := c.sent ++ fileCells ⟨path, w.flushes⟩ data }
  if c.sfRemaining = 0 then ({ c with sfFd := none, state := .reading }, w.close c.sfFd) else (c, w)

/-- `STATE_SENDFILE`. -/
def sendfileStage (e : HandleEnv) (writable : Bool) (c : Client) (w : World) : Stage :=
  if c.state = .sendfile ∧ writable = true then
    match e.sendfile c.sfFd c.sfOffset with
    | .error => .error (c, w)
    | .eagain => .ok (advanceSendfile [] c w)
    | .sent data => .ok (advanceSendfile (data.take c.sfRemaining) c w)
  else .ok (c, w)

/-- The body of the pass: the stages one after the other. -/
def stages (root : DocRoot) (e : HandleEnv) (i : ℕ) (readable writable : Bool) (c : Client)
    (w : World) : Stage := do
  let (c, w) ← probe e readable c w
  let (c, w) ← aioStage e c w
  let (c, w) ← readStage root e i readable c w
  let (c, w) ← writeStage e writable c w
  sendfileStage e writable c w

/-! ## Removing a client -/

/-- The wait of `remove_client` for the read of the client in slot `i`: `aio_cancel` looks for a
read registered in this slot on the client's file; then the control block in the slot is polled
until it is no longer in progress, which takes a read registered in this slot. -/
def awaitAio (i : ℕ) (wait : WaitResult) (c : Client) (w : World) : Option World :=
  match wait with
  | .cancelled =>
      match w.pending.findIdx? fun r => r.slot = i ∧ c.fileFd = some r.file with
      | some k => some { w with pending := w.pending.eraseIdx k }
      | none => if c.aio = .inProgress then none else some w
  | .completed k result =>
      if c.aio = .inProgress then
        match w.pending[k]? with
        | some r => if r.slot = i then some (w.complete k r result) else none
        | none => none
      else some w

/-- `remove_client`, up to the copy of the last slot. It does not return if the control block stays
in progress. -/
def removeClient (i : ℕ) (wait : WaitResult) (c : Client) (w : World) : Option World :=
  match c.state with
  | .aio => (awaitAio i wait c w).map fun w => (w.close c.fileFd).free c.resp
  | .sendfile => some ((w.close c.sfFd).free c.resp)
  | .reading => some (w.free c.resp)
  | .writing => some (w.free c.resp)

/-- The body of the pass with the removal. -/
def handle (root : DocRoot) (i : ℕ) (readable writable : Bool) (c : Client) (w : World)
    (e : HandleEnv) : Option (Outcome Client World) :=
  match stages root e i readable writable c w with
  | .ok (c, w) => some (.keep c w)
  | .error (c, w) => (removeClient i e.wait c w).map (.drop c)

/-! ## The server -/

/-- What happens outside the loop: the signals, and the end of the `k`-th outstanding read. -/
inductive Event
  | sigint
  | sigusr1
  | aioDone (k : ℕ) (result : AioResult)
  deriving DecidableEq, Repr

/-- The signal handlers, and the completion of a read. -/
def event (t : Table Client) (w : World) : Event → Option (Table Client × World)
  | .sigint => some (t, { w with running := false })
  | .sigusr1 => some (t, { w with clearRequested := true })
  | .aioDone k result =>
      match w.pending[k]? with
      | none => none
      | some r =>
          some (t.set r.slot { t.slots r.slot with aio := World.status r result },
            w.complete k r result)

/-- The top of the loop: run a requested `cache_clear`. -/
def turn (w : World) : World :=
  if w.clearRequested then
    { w with clearRequested := false, cache := [], flushes := w.flushes + 1 }
  else w

/-- A zeroed client with a socket. -/
def Client.init (sock : ℕ) : Client where
  sock := sock
  reqBuf := .empty REQ_BUF_SIZE
  state := .reading
  fileFd := none
  resp := none
  respSize := 0
  respSent := 0
  aio := .done 0
  sfFd := none
  sfOffset := 0
  sfRemaining := 0
  cacheKey := []
  received := []
  sent := []
  requests := []

/-- The world before the first client. -/
def World.init : World := ⟨[], fun _ => [], 0, 0, [], true, false, 0, [], [], []⟩

/-- `aio-file-server.c`. -/
def server (root : DocRoot) : SelectServer Client World Event HandleEnv where
  fd := Client.sock
  wantsWrite c := c.state = .writing ∨ c.state = .sendfile
  maxClients := MAX_CLIENTS
  stopsAtMax := true
  eintrStops := false
  blank := .init 0
  connect _ fd := .init fd
  world₀ := .init
  running := World.running
  turn := turn
  async := event
  handle := handle root

/-- A state of the server. -/
abbrev State := LoopState Client World

/-- A step of the server. -/
abbrev Action := LoopAction Event HandleEnv

/-! ## Concrete runs

The document root `/d` with one file `/d/a`, the system calls of a client that has nothing to do,
and rounds of the event loop. They are used to evaluate the server on fixed inputs. -/

namespace Example

/-- The document root `/d`. -/
def root : DocRoot := ⟨⟨[[100]], by decide⟩, by decide⟩

/-- The file `/d/a`. -/
def path : CanonPath := ⟨[[100], [97]], by decide⟩

/-- A request for the file, which has `size` bytes, with all system calls successful. -/
def serve (size : ℕ) : ServeEnv :=
  ⟨fun _ => some path, true, fun _ => .ok true size, fun _ => true, true, true, []⟩

/-- Nothing to read, nothing to write. -/
def idle : HandleEnv :=
  ⟨false, [], true, [], fun _ => serve 1, .eagain, fun _ _ => .eagain, .cancelled⟩

/-- One round of the loop without new connections. -/
def round (rd wr : List ℕ) (clients : List HandleEnv) : List Action :=
  [.turn, .select (.ready ⟨false, rd, wr⟩)] ++ clients.map .handle ++ [.next]

/-- One round of the loop that accepts connections, with `n` clients in the pass. -/
def accept (fds : List ℕ) (n : ℕ) : List Action :=
  [.turn, .select (.ready ⟨true, [], []⟩)] ++ fds.map (fun fd => .accept (some fd)) ++
    [.accept none] ++ List.replicate n (.handle idle) ++ [.next]

end Example

end Osvcp.Servers.AioServer
