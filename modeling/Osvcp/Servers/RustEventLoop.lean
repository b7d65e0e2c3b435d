import Osvcp.Lib.SelectPass
import Osvcp.Lib.Text
import Osvcp.Servers.RustOneResponse

/-! # The event loop of the Rust select server

`event_loop` of `rust-file-server/src/main.rs` is the loop of `SelectServer`: `CACHE_CLEAR` is
swapped at its top, the accept loop stops at `MAX_CLIENTS` before it calls `accept`, and the pass
reads up to `REQ_BUF_SIZE` bytes from each ready client, appends them to its vector and runs
`process_client`. A client is removed with `swap_remove`. As in `FileServer`, the results of the
system calls are parameters of each step, and a client's `received` and `sent` and the count of
`flushes` record what happened and are not read by the server.
-/

namespace Osvcp.Servers.RustServer

open FileServer (Signal)

/-! ## The server -/

/-- What the clients share: the cache, and the flags `RUNNING` and `CACHE_CLEAR`. -/
structure World where
  cache : FileCache CanonPath (List Cell)
  running : Bool
  clearRequested : Bool
  flushes : ℕ

/-- A client. -/
structure Client where
  fd : ℕ
  buf : List Byte
  received : List Byte
  sent : List Cell

/-- The state of `process_client`: the requests served in this call, and what they changed. -/
structure Processing where
  calls : ℕ
  serving : Serving

/-- One line of `process_client`: the `calls`-th `serve_file` of this call, with the line as
text. -/
def serveLine (root : DocRoot) (envs : ℕ → FileEnv) (st : Processing) (line : List Byte) :
    Processing × Bool :=
  match serveFile root (envs st.calls) (fromUtf8Lossy line) st.serving with
  | (serving, failed) => (⟨st.calls + 1, serving⟩, failed)

/-- The system calls made for one ready client: what `read` returns, nothing at the end of the
stream or on an error, and those of each `serve_file`. -/
structure HandleEnv where
  read : List Byte
  serves : ℕ → FileEnv

/-- The body of the pass over the clients. -/
def handle (root : DocRoot) (_i : ℕ) (readable _writable : Bool) (c : Client) (w : World)
    (e : HandleEnv) : Option (Outcome Client World) :=
  if readable = false then some (.keep c w)
  else
    match e.read.take REQ_BUF_SIZE with
    | [] => some (.drop c w)
    | bytes =>
        match processClient (serveLine root e.serves) ⟨0, c.sent, w.cache, w.flushes⟩
          (c.buf ++ bytes) with
        | (st, buf, closed) =>
            let c' :=
              { c with buf := buf, received := c.received ++ bytes, sent := st.serving.sent }
            let w' := { w with cache := st.serving.cache }
            some (if closed then .drop c' w' else .keep c' w')

/-- `handle_sigint` and `handle_sigusr1`. -/
def signal (t : Table Client) (w : World) : Signal → Option (Table Client × World)
  | .sigint => some (t, { w with running := false })
  | .sigusr1 => some (t, { w with clearRequested := true })

/-- The top of the loop: `CACHE_CLEAR.swap`, and `cache.clear` where it was set. -/
def turn (w : World) : World :=
  if w.clearRequested then
    { w with clearRequested := false, cache := w.cache.clear, flushes := w.flushes + 1 }
  else w

/-- `event_loop`. A new client starts with an empty vector. -/
def server (root : DocRoot) : SelectServer Client World Signal HandleEnv where
  fd := Client.fd
  wantsWrite _ := false
  maxClients := MAX_CLIENTS
  stopsAtMax := true
  eintrStops := false
  blank := ⟨0, [], [], []⟩
  connect _ fd := ⟨fd, [], [], []⟩
  world₀ := ⟨.new, true, false, 0⟩
  running := World.running
  turn := turn
  async := signal
  handle := handle root

/-! ## One client of the pass -/

/-- **`process_client`, line by line.** `I` of the state and the rest of the vector is kept by the
lines that are served, and `J` is what a line that ends the connection leaves. -/
theorem processClient_rule {σ : Type*} {serveFile : σ → List Byte → σ × Bool}
    {I : σ → List Byte → Prop} {J : σ → Prop}
    (hkeep : ∀ st st' line rest, I st (line ++ LF :: rest) → LF ∉ line →
      serveFile st (stripCr line) = (st', false) → I st' rest)
    (hstop : ∀ st st' line rest, I st (line ++ LF :: rest) → LF ∉ line →
      serveFile st (stripCr line) = (st', true) → J st')
    {st st' : σ} {buf buf' : List Byte} {closed : Bool} (hI : I st buf)
    (h : processClient serveFile st buf = (st', buf', closed)) :
    (closed = false → I st' buf' ∧ LF ∉ buf') ∧ (J st' ∨ I st' buf' ∧ LF ∉ buf') := by
  have hdrain := drain_rule (h := fun st line => serveFile st (stripCr line)) (I := I)
    (J := fun st rest stopped => if stopped then J st else I st rest ∧ LF ∉ rest)
    (fun st buf hI hlf => ⟨hI, hlf⟩) hstop hkeep hI
  obtain ⟨hst, hclosed, hbuf⟩ := processClientLoop_eq serveFile st buf
  rw [← hst, ← hclosed] at hdrain
  unfold processClient at h
  split at h
  · rename_i hloop
    cases h
    rw [hloop] at hdrain
    exact ⟨nofun, .inl hdrain⟩
  · rename_i hloop
    cases h
    rw [← hbuf (by rw [hloop]), hloop] at hdrain
    exact ⟨fun _ => hdrain, .inr hdrain⟩

/-- What handling a client comes to: it was not ready, its connection has ended, or its requests
were processed. -/
inductive Handled (root : DocRoot) (c : Client) (w : World) (e : HandleEnv) :
    Outcome Client World → Prop
  | idle : Handled root c w e (.keep c w)
  | ended : Handled root c w e (.drop c w)
  | processed {bytes buf : List Byte} {st : Processing} {closed : Bool}
      (hread : bytes ≠ [] ∧ bytes.length ≤ REQ_BUF_SIZE)
      (h : processClient (serveLine root e.serves) ⟨0, c.sent, w.cache, w.flushes⟩
        (c.buf ++ bytes) = (st, buf, closed)) :
      Handled root c w e
        (if closed then .drop ⟨c.fd, buf, c.received ++ bytes, st.serving.sent⟩
            { w with cache := st.serving.cache }
          else .keep ⟨c.fd, buf, c.received ++ bytes, st.serving.sent⟩
            { w with cache := st.serving.cache })

theorem handle_cases {root : DocRoot} (i : ℕ) (writable : Bool) {readable : Bool}
    {c : Client} {w : World}
    {e : HandleEnv} {o : Outcome Client World}
    (h : handle root i readable writable c w e = some o) :
    Handled root c w e o := by
  unfold handle at h
  split at h
  · cases h
    exact .idle
  · split at h
    · cases h
      exact .ended
    · rename_i hne
      have hlen : (e.read.take REQ_BUF_SIZE).length ≤ REQ_BUF_SIZE := by
        rw [List.length_take]
        exact Nat.min_le_left ..
      generalize hp : processClient (serveLine root e.serves) ⟨0, c.sent, w.cache, w.flushes⟩
        (c.buf ++ e.read.take REQ_BUF_SIZE) = r at h
      obtain ⟨st, buf, closed⟩ := r
      cases h
      exact .processed ⟨hne, hlen⟩ hp

/-- The `read` of `event_loop`, and what a client has received. -/
def reader : SelectServer.Reader Client HandleEnv Byte where
  read _ e := e.read.take REQ_BUF_SIZE
  received := Client.received

/-- The visit of a ready client ends in the state its bytes lead to: nothing was read and the client
is removed, or what was read is received. -/
theorem received_of_handle {root : DocRoot} (i : ℕ) (writable : Bool) {c : Client} {w : World}
    {e : HandleEnv} {o : Outcome Client World} (h : handle root i true writable c w e = some o) :
    (∀ c' w', o = .keep c' w' → c'.received = c.received ++ reader.read c e ∧
      reader.read c e ≠ []) ∧
      ∀ c' w', o = .drop c' w' → c'.received = c.received ++ reader.read c e := by
  unfold handle at h
  rw [if_neg (by decide)] at h
  split at h
  · rename_i hnil
    cases h
    refine ⟨nofun, ?_⟩
    rintro c' w' ⟨⟩
    exact ((congrArg (c.received ++ ·) hnil).trans (List.append_nil _)).symm
  · rename_i hne
    simp only [Option.some_inj] at h
    subst h
    constructor
    · intro c' w' ho
      split at ho
      · cases ho
      · cases ho
        exact ⟨rfl, hne⟩
    · intro c' w' ho
      split at ho
      · cases ho
        rfl
      · cases ho

/-- `event_loop` leaves the table to the loop and reads once from a ready client. -/
theorem server_steady (root : DocRoot) : SelectServer.Steady (server root) reader where
  connect c fd := rfl
  async t w a t' w' h := by
    have h : signal t w a = some (t', w') := h
    cases a <;> cases h <;> exact ⟨rfl, fun i => ⟨rfl, rfl⟩⟩
  keep i rd wr c w e c' w' h := by
    generalize ho : Outcome.keep c' w' = o at h
    cases handle_cases i wr h with
    | idle =>
        cases ho
        rfl
    | ended => cases ho
    | @processed bytes buf st closed hread hp =>
        cases closed with
        | true => cases ho
        | false =>
            cases ho
            rfl
  async_table t w a t' w' h := by
    have h : signal t w a = some (t', w') := h
    cases a <;> cases h <;> rfl
  idle i wr c w e := rfl
  read_keep i wr c w e c' w' h := (received_of_handle i wr h).1 c' w' rfl
  read_drop i wr c w e c' w' h := (received_of_handle i wr h).2 c' w' rfl

/-- **The client table.** The descriptors of the clients are pairwise distinct and at most 64
clients are in the table; every iteration reads once from each client that was in the table when
`select` was called and was reported ready, so that exactly what this `read` returns is added to
what was received from it and the end of its stream removes it, and from no other; and it leaves the
old clients that were not removed and the new ones in the table, each as its own visit left it. -/
theorem rust_client_table (root : DocRoot) :
    (server root).KeepsClients reader ∧ (server root).maxClients = 64 :=
  ⟨(server_steady root).keepsClients, rfl⟩

end Osvcp.Servers.RustServer
