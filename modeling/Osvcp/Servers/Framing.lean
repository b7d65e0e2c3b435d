import Osvcp.Lib.Framer
import Osvcp.Lib.LineBuffer

/-! # Request framing in the C select servers

`process_requests` (`file-server.c`) and `process_client_data` (`select-server.c`) run the same
in-place line loop over a buffer of `REQ_BUF_SIZE` bytes; only the first strips carriage returns.
The event loop reads at most `REQ_BUF_SIZE - 1 - buf_len` bytes behind the pending ones and calls
them. The buffer never holds more than the limit on a line, so the result does not depend on how the
stream is cut into reads: it is `frame` of the stream.

The handler of a request is a parameter: it gets the raw line and the C string made of it, and
returns `true` where the source returns -1.
-/

namespace Osvcp.Servers

variable {σ : Type*}

/-- The size of a client's request buffer. -/
def REQ_BUF_SIZE : ℕ := 512

/-- A client's request buffer. -/
abbrev ReqBuf := LineBuf REQ_BUF_SIZE

/-- The verdict of a handler that closes the connection or goes on. -/
def closeIf (h : σ → List Byte → List Byte → σ × Bool) (st : σ) (line name : List Byte) :
    σ × Verdict :=
  match h st line name with
  | (st', true) => (st', .close)
  | (st', false) => (st', .next)

/-- The line loop and the overflow check after it. The last component says whether the connection
is to be torn down. -/
def processLines (crlf : Bool) (h : σ → List Byte → List Byte → σ × Bool) (st : σ) (b : ReqBuf) :
    σ × ReqBuf × Bool :=
  match b.drainLoop crlf (closeIf h) st with
  | (st', b', .close) => (st', b', true)
  | (st', b', _) => (st', b', decide (REQ_BUF_SIZE - 1 ≤ b'.len))

/-- `process_requests` of `file-server.c`, over its `serve_file`. -/
def processRequests (serveFile : σ → List Byte → List Byte → σ × Bool) :
    σ → ReqBuf → σ × ReqBuf × Bool :=
  processLines true serveFile

/-- `process_client_data` of `select-server.c`, over the response it writes for a line. -/
def processClientData (respond : σ → List Byte → List Byte → σ × Bool) :
    σ → ReqBuf → σ × ReqBuf × Bool :=
  processLines false respond

theorem closeIf_fst (h : σ → List Byte → List Byte → σ × Bool) (st : σ) (line name : List Byte) :
    (closeIf h st line name).1 = (h st line name).1 := by
  unfold closeIf
  split
  · rename_i heq; rw [heq]
  · rename_i heq; rw [heq]

theorem closeIf_snd (h : σ → List Byte → List Byte → σ × Bool) (st : σ) (line name : List Byte) :
    ((closeIf h st line name).1, (closeIf h st line name).2 != .next) = h st line name := by
  unfold closeIf
  split
  · rename_i heq; rw [heq]; rfl
  · rename_i heq; rw [heq]; rfl

/-- `process_requests` without a complete line. -/
theorem processRequests_of_none {serveFile : σ → List Byte → List Byte → σ × Bool} {st : σ}
    {b : ReqBuf} (hnl : memchr b.data LF b.len = none) :
    processRequests serveFile st b = (st, b, decide (REQ_BUF_SIZE - 1 ≤ b.len)) := by
  rw [processRequests, processLines, LineBuf.drainLoop_of_none hnl]

/-- One round of `process_requests`. -/
theorem processRequests_of_some {serveFile : σ → List Byte → List Byte → σ × Bool} {st st' : σ}
    {b : ReqBuf} {nl : ℕ} {closed : Bool} (hnl : memchr b.data LF b.len = some nl)
    (hserve : serveFile st (b.data.take nl) (cstr (b.terminate true nl).data) = (st', closed)) :
    processRequests serveFile st b =
      if closed then (st', b.terminate true nl, true)
      else processRequests serveFile st' ((b.terminate true nl).consume (nl + 1)) := by
  rw [processRequests, processLines, LineBuf.drainLoop_of_some hnl, closeIf, hserve]
  cases closed <;> rfl

/-- **Loop rule** for `process_requests`: what every request keeps, all of them keep. -/
theorem processRequests_rule {I : σ → Prop} (serveFile : σ → List Byte → List Byte → σ × Bool)
    (hserve : ∀ st line name, I st → I (serveFile st line name).1) {st : σ} (hI : I st)
    (b : ReqBuf) : I (processRequests serveFile st b).1 := by
  obtain ⟨hst, -, -⟩ := LineBuf.drainLoop_eq true (closeIf serveFile) st b
  have hloop : I (LineBuf.drainLoop true (closeIf serveFile) st b).1 := by
    rw [hst]
    refine drain_rule (I := fun st _ => I st) (J := fun st _ _ => I st) (fun _ _ h _ => h) ?_ ?_ hI
    · rintro st st' line rest hI - heq
      obtain rfl : _ = st' := congrArg Prod.fst heq
      exact closeIf_fst serveFile st line _ ▸ hserve st line _ hI
    · rintro st st' line rest hI - heq
      obtain rfl : _ = st' := congrArg Prod.fst heq
      exact closeIf_fst serveFile st line _ ▸ hserve st line _ hI
  unfold processRequests processLines
  split
  · rename_i heq
    rw [heq] at hloop
    exact hloop
  · rename_i heq
    rw [heq] at hloop
    exact hloop

/-- **Loop rule** for `process_requests` where the handler never closes: `I` holds before each line
and of what is left, in which there is no line. -/
theorem processRequests_open_rule {I : σ → List Byte → Prop}
    (serveFile : σ → List Byte → List Byte → σ × Bool)
    (hline : ∀ st line rest, I st (line ++ LF :: rest) → LF ∉ line →
      let r := serveFile st line (LineBuf.lineString true line)
      r.2 = false ∧ I r.1 rest)
    (st : σ) (b : ReqBuf) (hI : I st b.pending) :
    let r := processRequests serveFile st b
    I r.1 r.2.1.pending ∧ LF ∉ r.2.1.pending := by
  have hloop := LineBuf.drainLoop_eq true (closeIf serveFile) st b
  simp only [closeIf_snd] at hloop
  obtain ⟨hst, hstop, hpend⟩ := hloop
  have hdrain := drain_rule (h := fun st line => serveFile st line (LineBuf.lineString true line))
    (I := I) (J := fun st buf stop => stop = false ∧ I st buf ∧ LF ∉ buf)
    (fun _ _ hI hlf => ⟨rfl, hI, hlf⟩) ?_ ?_ hI
  · rw [← hst, ← hstop] at hdrain
    obtain ⟨hnext, hend⟩ := hdrain
    have hnext : (LineBuf.drainLoop true (closeIf serveFile) st b).2.2 =
        .next := by simpa using hnext
    rw [← hpend (by rw [hnext]; nofun)] at hend
    unfold processRequests processLines
    split
    · rename_i heq
      rw [heq] at hend
      exact hend
    · rename_i heq
      rw [heq] at hend
      exact hend
  · intro st st' line rest hI hlf heq
    have hopen := (hline st line rest hI hlf).1
    rw [heq] at hopen
    cases hopen
  · intro st st' line rest hI hlf heq
    have hkeep := (hline st line rest hI hlf).2
    rwa [heq] at hkeep

/-- The handling of a ready client in the event loops: `read` is asked for the free space but one
byte, and what it returns is processed. -/
def selectFramer (process : σ → ReqBuf → σ × ReqBuf × Bool) : Framer ReqBuf σ where
  empty := .empty REQ_BUF_SIZE
  space b := REQ_BUF_SIZE - 1 - b.len
  extend b bytes := b.fill (bytes.take (REQ_BUF_SIZE - 1 - b.len))
  process := process

/-- The framer of `file-server.c`. -/
def fileServerFramer (serveFile : σ → List Byte → List Byte → σ × Bool) : Framer ReqBuf σ :=
  selectFramer (processRequests serveFile)

/-- The framer of `select-server.c`. -/
def selectServerFramer (respond : σ → List Byte → List Byte → σ × Bool) : Framer ReqBuf σ :=
  selectFramer (processClientData respond)

theorem closeIf_ne_pause (h : σ → List Byte → List Byte → σ × Bool) (st : σ)
    (line name : List Byte) : (closeIf h st line name).2 ≠ .pause := by
  unfold closeIf
  split <;> simp

/-- Both event loops drain their buffer, which holds at most `REQ_BUF_SIZE - 1` bytes. -/
theorem selectFramer_drains (crlf : Bool) (h : σ → List Byte → List Byte → σ × Bool) :
    (selectFramer (processLines crlf h)).Drains (REQ_BUF_SIZE - 1) (REQ_BUF_SIZE - 1)
      (fun st line => h st line (LineBuf.lineString crlf line)) LineBuf.pending where
  pending_empty := LineBuf.pending_empty
  limit_pos := by decide
  space_pos b hb := by
    show 1 ≤ REQ_BUF_SIZE - 1 - b.len
    rw [LineBuf.length_pending] at hb
    omega
  space_le b hb := by
    show b.pending.length + (REQ_BUF_SIZE - 1 - b.len) ≤ REQ_BUF_SIZE - 1
    rw [LineBuf.length_pending] at hb ⊢
    omega
  process st b bytes hb hbytes := by
    have hspace : bytes.length ≤ REQ_BUF_SIZE - 1 - b.len := hbytes
    have hfill : (b.fill bytes).pending = b.pending ++ bytes :=
      LineBuf.pending_fill b (by omega)
    have hext : (selectFramer (processLines crlf h)).extend b bytes = b.fill bytes := by
      simp only [selectFramer, List.take_of_length_le hspace]
    rw [hext, ← hfill]
    have hloop := LineBuf.drainLoop_eq crlf (closeIf h) st (b.fill bytes)
    simp only [closeIf_snd] at hloop
    obtain ⟨hst, hstop, hpend⟩ := hloop
    -- `process_requests` has no way to stop and keep the connection
    have hpause := LineBuf.drainLoop_ne (v := .pause) crlf nofun (closeIf_ne_pause h) st
      (b.fill bytes)
    show let r := processLines crlf h st (b.fill bytes)
      r.1 = _ ∧ r.2.2 = _ ∧ (r.2.2 = false → r.2.1.pending = _)
    rw [processLines]
    generalize LineBuf.drainLoop crlf (closeIf h) st (b.fill bytes) = r at *
    obtain ⟨st', b', verdict⟩ := r
    cases verdict with
    | close => exact Framer.drains_of_loop (r := (st', b', true)) rfl ⟨hst, hstop, nofun⟩
    | pause => exact absurd rfl hpause
    | next =>
        refine Framer.drains_of_loop (r := (st', b', false)) ?_ ⟨hst, hstop, fun _ => hpend nofun⟩
        simp [LineBuf.length_pending]

/-- **Framing in the select servers**, for both line loops: the handler's state and the decision to
close are those of the reference, and between reads at most 510 bytes are pending. -/
theorem selectFramer_feed (crlf : Bool) (h : σ → List Byte → List Byte → σ × Bool) (st : σ)
    {reads : List (List Byte)}
    (hv : (selectFramer (processLines crlf h)).ValidReads
      ((selectFramer (processLines crlf h)).start st) reads) :
    let F := selectFramer (processLines crlf h)
    let c := F.feed (F.start st) reads
    (c.st, c.closed) =
        frame 511 (fun st line => h st line (LineBuf.lineString crlf line)) st reads.flatten ∧
      (c.closed = false → c.buf.len ≤ 510) := by
  have hF := selectFramer_drains crlf h
  constructor
  · have hfeed := hF.feed_eq_frame (hF.idle_start st) rfl hv (lateLine_self _ _ _)
    rw [show LineBuf.pending ((selectFramer (processLines crlf h)).start st).buf = [] from
      hF.pending_empty] at hfeed
    exact hfeed
  · intro hopen
    have hroom := (hF.idle_feed (hF.idle_start st) rfl hv hopen).room
    rw [LineBuf.length_pending] at hroom
    exact Nat.le_of_lt_succ hroom

/-- **Request framing.** For every stream, every way of cutting it into reads and every handler, the
handler calls and the decision to close in `file-server.c` and in `select-server.c` are those of the
reference `frame`: cut at the line feeds, handle the lines of at most 510 bytes in order, close at
511 bytes without a line feed or when the handler does. In `file-server.c` the name given to
`serve_file` is the line with one trailing carriage return removed, cut at its first NUL. Between
reads at most 510 bytes are pending. -/
theorem request_framing (serveFile respond : σ → List Byte → List Byte → σ × Bool) (st : σ)
    (reads : List (List Byte)) :
    (∀ F, F = fileServerFramer serveFile → F.ValidReads (F.start st) reads →
      let c := F.feed (F.start st) reads
      (c.st, c.closed) =
          frame 511 (fun st line => serveFile st line (cstr (stripCr line))) st reads.flatten ∧
        (c.closed = false → c.buf.len ≤ 510)) ∧
    (∀ F, F = selectServerFramer respond → F.ValidReads (F.start st) reads →
      let c := F.feed (F.start st) reads
      (c.st, c.closed) = frame 511 (fun st line => respond st line (cstr line)) st reads.flatten ∧
        (c.closed = false → c.buf.len ≤ 510)) := by
  constructor
  · rintro _ rfl hv
    exact selectFramer_feed true serveFile st hv
  · rintro _ rfl hv
    exact selectFramer_feed false respond st hv

/-- A name and its CR LF read byte by byte, with handlers that log what they get. -/
theorem request_framing_bytes :
    let F := fileServerFramer fun (st : List (List Byte)) _ name => (st ++ [name], false)
    let G := selectServerFramer fun (st : List (List Byte)) _ name => (st ++ [name], false)
    (F.feed (F.start []) [[97], [CR], [LF]]).st = [[97]] ∧
      (G.feed (G.start []) [[97], [CR], [LF]]).st = [[97, CR]] := by
  intro F G
  have h := request_framing (fun st _ name => (st ++ [name], false))
    (fun st _ name => (st ++ [name], false)) ([] : List (List Byte)) [[97], [CR], [LF]]
  have hF := selectFramer_drains true fun (st : List (List Byte)) _ name => (st ++ [name], false)
  have hG := selectFramer_drains false fun (st : List (List Byte)) _ name => (st ++ [name], false)
  obtain ⟨h1, -⟩ := h.1 F rfl (hF.validReads_bytes (fun _ => hF.idle_start []) [97, CR, LF])
  obtain ⟨h2, -⟩ := h.2 G rfl (hG.validReads_bytes (fun _ => hG.idle_start []) [97, CR, LF])
  have hs : splitLine [97, CR, LF] = some ([97, CR], []) := by decide
  rw [show List.flatten [[97], [CR], [LF]] = [97, CR, LF] from rfl,
    frame_of_keep hs (by decide) rfl, frame_of_open (by decide) (by decide)] at h1 h2
  exact ⟨congrArg Prod.fst h1, congrArg Prod.fst h2⟩

end Osvcp.Servers
