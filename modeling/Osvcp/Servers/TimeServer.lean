import Osvcp.Lib.SelectLoop
import Osvcp.Servers.FileServer

/-! # The time server

`select-server.c`: each line of a client is answered with the time of day; the event loop is that of
`SelectServer`. The server does not ignore `SIGPIPE`, so that a `write` to a connection that was
reset may end the process; the results of the system calls and the text of the time are parameters
of each step. The client's `received` and `sent` record what happened and are not read by the
server.
-/

namespace Osvcp.Servers.TimeServer

/-- What the clients share. -/
structure World where
  running : Bool

/-- A client. -/
structure Client where
  fd : ℕ
  buf : ReqBuf
  received : List Byte
  sent : List Byte

/-- The result of the one `write` for a response. -/
inductive WriteEnd
  | wrote (n : ℕ)
  | failed
  | sigpipe

/-- The system calls made for one ready client: what `read` returns, nothing at the end of the
stream or on an error, and the time and the `write` for each line. -/
structure HandleEnv where
  read : List Byte
  times : ℕ → List Byte
  writes : ℕ → WriteEnd

/-- The state of `process_client_data`: the lines answered in this call, what was sent, and whether
the process was killed. -/
structure Serving where
  calls : ℕ
  sent : List Byte
  killed : Bool

/-- The response to a line. -/
def response (time : List Byte) : List Byte := ascii "Current time: " ++ time ++ [LF]

/-- One line of `process_client_data`. A short `write` is not continued. -/
def respond (e : HandleEnv) (st : Serving) (_line _name : List Byte) : Serving × Bool :=
  match e.writes st.calls with
  | .wrote n =>
      ({ st with calls := st.calls + 1, sent := st.sent ++ (response (e.times st.calls)).take n },
        false)
  | .failed => ({ st with calls := st.calls + 1 }, true)
  | .sigpipe => ({ st with calls := st.calls + 1, killed := true }, true)

/-- The body of the pass over the clients. -/
def handle (_i : ℕ) (readable _writable : Bool) (c : Client) (w : World) (e : HandleEnv) :
    Option (Outcome Client World) :=
  if readable = false then some (.keep c w)
  else
    match e.read.take (REQ_BUF_SIZE - 1 - c.buf.len) with
    | [] => some (.drop c w)
    | bytes =>
        match processClientData (respond e) ⟨0, c.sent, false⟩ (c.buf.fill bytes) with
        | (st, buf, closed) =>
            let c' := { c with buf := buf, received := c.received ++ bytes, sent := st.sent }
            if st.killed then none
            else some (if closed then .drop c' w else .keep c' w)

/-- `handle_sigint`. -/
def signal (t : Table Client) (_w : World) (_ : Unit) : Option (Table Client × World) :=
  some (t, ⟨false⟩)

/-- `select-server.c`. `add_client` resets the length of the buffer, not its contents; an
interrupted `select` ends the loop. -/
def server : SelectServer Client World Unit HandleEnv where
  fd := Client.fd
  wantsWrite _ := false
  maxClients := MAX_CLIENTS
  stopsAtMax := false
  eintrStops := true
  blank := ⟨0, .empty REQ_BUF_SIZE, [], []⟩
  connect c fd := ⟨fd, { c.buf with len := 0, len_le := Nat.zero_le _ }, [], []⟩
  world₀ := ⟨true⟩
  running := World.running
  turn := id
  async := signal
  handle := handle

end Osvcp.Servers.TimeServer
