import Osvcp.Servers.Framing

/-! # Request framing in the Rust select server

`rust-file-server/src/main.rs` mirrors the C server, but keeps the pending bytes in a growable
vector and always reads up to `REQ_BUF_SIZE` bytes. The length of a line is checked only after the
complete lines have been drained, so a line of 511 to 1021 bytes is served when its end arrives in
the read that made it too long, and closes the connection otherwise. `rust_framing_iff` says that
this is the only difference to the C server.

Both handlers are logs here: what is compared is the lines they get and the decision to close.
-/

namespace Osvcp.Servers

variable {σ : Type*}

/-- The loop of `process_client`: drain the bytes up to the first line feed, remove it and one
carriage return before it, and hand the line to `serve_file`. -/
def processClientLoop (serveFile : σ → List Byte → σ × Bool) (st : σ) (buf : List Byte) :
    σ × List Byte × Bool :=
  match _hm : buf.findIdx? (· == LF) with
  | none => (st, buf, false)
  | some nl =>
      match serveFile st (stripCr (buf.take nl)) with
      | (st', true) => (st', buf.drop (nl + 1), true)
      | (st', false) => processClientLoop serveFile st' (buf.drop (nl + 1))
termination_by buf.length
decreasing_by
  have := (List.findIdx?_eq_some_iff_getElem.mp _hm).1
  rw [List.length_drop]
  omega

/-- `process_client`. The last component is the negation of the source's result: whether the
connection is to be torn down. -/
def processClient (serveFile : σ → List Byte → σ × Bool) (st : σ) (buf : List Byte) :
    σ × List Byte × Bool :=
  match processClientLoop serveFile st buf with
  | (st', buf', true) => (st', buf', true)
  | (st', buf', false) => (st', buf', decide (REQ_BUF_SIZE - 1 ≤ buf'.length))

/-- The handling of a ready client in the event loop: a read of up to `REQ_BUF_SIZE` bytes into a
temporary array, appended to the client's vector. -/
def rustFramer (serveFile : σ → List Byte → σ × Bool) : Framer (List Byte) σ where
  empty := []
  space _ := REQ_BUF_SIZE
  extend buf bytes := buf ++ bytes.take REQ_BUF_SIZE
  process := processClient serveFile

/-- Finding the first line feed is taking off the first line. -/
theorem findIdx?_lf {buf : List Byte} :
    (buf.findIdx? (· == LF) = none ↔ splitLine buf = none) ∧
    ∀ nl, buf.findIdx? (· == LF) = some nl →
      splitLine buf = some (buf.take nl, buf.drop (nl + 1)) := by
  constructor
  · rw [List.findIdx?_eq_none_iff, splitLine_eq_none_iff]
    constructor
    · intro h hm
      have := h LF hm
      simp at this
    · intro h b hb
      rw [beq_eq_false_iff_ne]
      rintro rfl
      exact h hb
  · intro nl h
    rw [List.findIdx?_eq_some_iff_getElem] at h
    obtain ⟨hlt, hnl, hbefore⟩ := h
    rw [splitLine_eq_some_iff]
    constructor
    · conv_lhs => rw [← List.take_append_drop nl buf]
      rw [List.drop_eq_getElem_cons hlt]
      congr 2
      simpa using hnl
    · intro hmem
      obtain ⟨i, hi, hget⟩ := List.getElem_of_mem hmem
      have hi' : i < nl := by
        rw [List.length_take] at hi
        omega
      have := hbefore i hi'
      rw [List.getElem_take] at hget
      simp [hget] at this

/-- The loop computes `drain`. -/
theorem processClientLoop_eq (serveFile : σ → List Byte → σ × Bool) (st : σ) (buf : List Byte) :
    let r := processClientLoop serveFile st buf
    let d := drain (fun st line => serveFile st (stripCr line)) st buf
    r.1 = d.1 ∧ r.2.2 = d.2.2 ∧ (r.2.2 = false → r.2.1 = d.2.1) := by
  induction hn : buf.length using Nat.strongRecOn generalizing st buf with
  | _ n ih =>
    rw [processClientLoop]
    split
    · rename_i hm
      rw [drain_of_none (findIdx?_lf.1.mp hm)]
      exact ⟨rfl, rfl, fun _ => rfl⟩
    · rename_i nl hm
      have hs := findIdx?_lf.2 nl hm
      have hlen := splitLine_length hs
      cases hh : serveFile st (stripCr (buf.take nl)) with
      | mk st' c =>
        cases c with
        | true =>
            rw [drain_of_stop hs hh]
            exact ⟨rfl, rfl, fun hf => by cases hf⟩
        | false =>
            rw [drain_of_keep hs hh]
            exact ih _ (by omega) st' _ rfl

/-- The Rust server drains its buffer too, but the buffer can hold 1022 bytes. -/
theorem rustFramer_drains (serveFile : σ → List Byte → σ × Bool) :
    (rustFramer serveFile).Drains 511 1022 (fun st line => serveFile st (stripCr line)) id where
  pending_empty := rfl
  limit_pos := by decide
  space_pos _ _ := by
    show 1 ≤ REQ_BUF_SIZE
    decide
  space_le b hb := by
    show b.length + 512 ≤ 1022
    have : b.length < 511 := hb
    omega
  process st b bytes _ hbytes := by
    have hext : (rustFramer serveFile).extend b bytes = b ++ bytes := by
      show b ++ bytes.take REQ_BUF_SIZE = b ++ bytes
      rw [List.take_of_length_le (show bytes.length ≤ REQ_BUF_SIZE from hbytes)]
    rw [hext]
    refine Framer.drains_of_loop ?_ (processClientLoop_eq serveFile st (b ++ bytes))
    show processClient serveFile st (b ++ bytes) = _
    rw [processClient]
    obtain ⟨st', b', closed⟩ := processClientLoop serveFile st (b ++ bytes)
    cases closed with
    | true => rfl
    | false => rfl

/-! ## The end of a connection -/

/-- `process_client` comes to this state with this rest of the vector: the lines before it have been
served. -/
abbrev ComesTo (serveFile : σ → List Byte → σ × Bool) : σ → List Byte → σ → List Byte → Prop :=
  Reaches fun st line => serveFile st (stripCr line)

/-- **When `process_client` tears the connection down**: when it comes to a line on which
`serve_file` returns an error, or when what is left behind the lines is too long. -/
theorem processClient_torn_iff {serveFile : σ → List Byte → σ × Bool} {st : σ} {buf : List Byte} :
    (processClient serveFile st buf).2.2 = true ↔
      (∃ st' line rest, ComesTo serveFile st buf st' (line ++ LF :: rest) ∧ LF ∉ line ∧
        (serveFile st' (stripCr line)).2 = true) ∨
      ∃ st' rest, ComesTo serveFile st buf st' rest ∧ LF ∉ rest ∧
        REQ_BUF_SIZE - 1 ≤ rest.length := by
  let h := fun st line => serveFile st (stripCr line)
  obtain ⟨-, hclosed, hbuf⟩ := processClientLoop_eq serveFile st buf
  unfold processClient
  split
  · rename_i hloop
    rw [hloop] at hclosed
    exact iff_of_true rfl (.inl (drain_stops_iff.mp hclosed.symm))
  · rename_i hloop
    rw [hloop] at hclosed hbuf
    have hrest := hbuf rfl
    simp only at hclosed hrest
    obtain ⟨hreaches, hlf⟩ := (reaches_drain h st buf).1 hclosed.symm
    rw [← hrest] at hreaches hlf
    rw [decide_eq_true_iff]
    constructor
    · exact fun hlen => .inr ⟨_, _, hreaches, hlf, hlen⟩
    · rintro (hstop | ⟨st', rest, hr, hlf', hlen⟩)
      · exact absurd (hclosed.trans (drain_stops_iff.mpr hstop)) Bool.false_ne_true
      · -- only the end of the loop is without a line
        have hend := hr.drain_eq.trans (drain_of_none (splitLine_eq_none_iff.mpr hlf'))
        rwa [hrest, hend]

/-! ## The two servers compared -/

/-- A handler that logs the raw request lines and never asks to close. -/
def logLine (log : List (List Byte)) (line : List Byte) : List (List Byte) × Bool :=
  (log ++ [line], false)

/-- The C server with a handler that logs the raw line without its carriage return. -/
def cLog : Framer ReqBuf (List (List Byte)) :=
  fileServerFramer fun log line _ => logLine log (stripCr line)

/-- The Rust server with a handler that logs the line. -/
def rustLog : Framer (List Byte) (List (List Byte)) := rustFramer logLine

/-- The reference for both logs. -/
def frameLog (log : List (List Byte)) (s : List Byte) : List (List Byte) × Bool :=
  frame 511 (fun log line => logLine log (stripCr line)) log s

/-- On the stream `s` both servers log the same lines and make the same decision to close, however
the stream is cut into reads for either of them. -/
def FramingAgrees (s : List Byte) : Prop :=
  ∀ cReads rustReads : List (List Byte), cReads.flatten = s → rustReads.flatten = s →
    cLog.ValidReads (cLog.start []) cReads → rustLog.ValidReads (rustLog.start []) rustReads →
    (cLog.feed (cLog.start []) cReads).st = (rustLog.feed (rustLog.start []) rustReads).st ∧
    (cLog.feed (cLog.start []) cReads).closed = (rustLog.feed (rustLog.start []) rustReads).closed

theorem cLog_drains : cLog.Drains 511 511 (fun log line => logLine log (stripCr line))
    LineBuf.pending :=
  selectFramer_drains true fun log line _ => logLine log (stripCr line)

theorem rustLog_drains : rustLog.Drains 511 1022 (fun log line => logLine log (stripCr line)) id :=
  rustFramer_drains logLine

/-- The C server does what the reference does. -/
theorem cLog_feed {reads : List (List Byte)} (hv : cLog.ValidReads (cLog.start []) reads) :
    ((cLog.feed (cLog.start []) reads).st, (cLog.feed (cLog.start []) reads).closed) =
      frameLog [] reads.flatten :=
  (selectFramer_feed true (fun log line _ => logLine log (stripCr line)) [] hv).1

/-- The Rust server does what the reference does, unless a line is too long when its end arrives. -/
theorem rustLog_feed {reads : List (List Byte)} (hv : rustLog.ValidReads (rustLog.start []) reads)
    (hlate : lateLine 511 1022 0 reads.flatten = false) :
    ((rustLog.feed (rustLog.start []) reads).st, (rustLog.feed (rustLog.start []) reads).closed) =
      frameLog [] reads.flatten :=
  rustLog_drains.feed_eq_frame (rustLog_drains.idle_start []) rfl hv hlate

/-! ## Where the two differ -/

/-- The connection of the Rust server that holds an incomplete line. -/
def rustConn (log : List (List Byte)) (buf : List Byte) : Conn (List Byte) (List (List Byte)) :=
  ⟨log, buf, false⟩

/-- What a read drains without closing. -/
theorem rustLog_read {log log' : List (List Byte)} {buf bytes rest : List Byte}
    (hbuf : buf.length < 511) (hbytes : bytes.length ≤ 512) (hrest : rest.length < 511)
    (hd : drain (fun log line => logLine log (stripCr line)) log (buf ++ bytes) =
      (log', rest, false)) :
    rustLog.read (rustConn log buf) bytes = rustConn log' rest := by
  have hspec := rustLog_drains.process log buf bytes hbuf hbytes
  simp only [id_eq, hd, Bool.false_or, decide_eq_false (Nat.not_le_of_lt hrest)] at hspec
  obtain ⟨hst, hcl, hp⟩ := hspec
  rw [Framer.read_of_open bytes rfl]
  show Conn.mk _ _ _ = Conn.mk _ _ _
  rw [Conn.mk.injEq]
  exact ⟨hst, hp hcl, hcl⟩

/-- A read without a line feed that leaves the line short is buffered. -/
theorem rustLog_read_buffer {log : List (List Byte)} {buf bytes : List Byte}
    (hlf : LF ∉ buf ++ bytes) (hlen : (buf ++ bytes).length < 511) :
    rustLog.read (rustConn log buf) bytes = rustConn log (buf ++ bytes) := by
  have hadd := hlen
  rw [List.length_append] at hadd
  apply rustLog_read (by omega) (by omega) hlen
  exact drain_of_none (splitLine_eq_none_iff.mpr hlf)

/-- A read that brings the end of the line, and nothing behind it, serves the line however long it
has become. -/
theorem rustLog_read_line {log : List (List Byte)} {buf bytes : List Byte}
    (hlf : LF ∉ buf ++ bytes) (hbuf : buf.length < 511) (hlen : bytes.length < 512) :
    rustLog.read (rustConn log buf) (bytes ++ [LF]) =
      rustConn (log ++ [stripCr (buf ++ bytes)]) [] := by
  have hs : splitLine (buf ++ (bytes ++ [LF])) = some (buf ++ bytes, []) :=
    splitLine_eq_some_iff.mpr ⟨by simp, hlf⟩
  apply rustLog_read hbuf (by rw [List.length_append]; exact hlen) (by decide)
  rw [drain_of_keep hs rfl, drain_of_none (by rfl)]

/-- Logs only grow. -/
theorem drain_log_grows (log : List (List Byte)) (buf : List Byte) :
    log <+: (drain (fun log line => logLine log (stripCr line)) log buf).1 := by
  induction hn : buf.length using Nat.strongRecOn generalizing log buf with
  | _ n ih =>
    cases hs : splitLine buf with
    | none => simp [drain_of_none hs]
    | some p =>
      obtain ⟨line, rest⟩ := p
      have hlen := splitLine_length hs
      rw [drain_of_keep hs rfl]
      exact (List.prefix_append log _).trans (ih _ (by omega) _ rest rfl)

theorem rustLog_feed_grows (reads : List (List Byte)) {c : Conn (List Byte) (List (List Byte))}
    (hc : c.closed = false → Framer.Idle 511 id c) (hv : rustLog.ValidReads c reads) :
    c.st <+: (rustLog.feed c reads).st := by
  induction reads generalizing c with
  | nil => exact List.prefix_rfl
  | cons bytes reads ih =>
      rw [Framer.feed_cons]
      cases ho : c.closed with
      | true => simp [Framer.read_of_closed bytes ho, Framer.feed_of_closed reads ho]
      | false =>
          have hb := (hv.1 ho).2
          refine List.IsPrefix.trans ?_ (ih (rustLog_drains.idle_read (hc ho) ho hb) hv.2)
          rw [Framer.read_of_open bytes ho]
          show c.st <+: (rustLog.process c.st (rustLog.extend c.buf bytes)).1
          rw [(rustLog_drains.process c.st c.buf bytes (hc ho).room hb).1]
          exact drain_log_grows _ _

/-- One read per byte, as a cut of the stream. -/
theorem flatten_bytes (s : List Byte) : (s.map fun b => [b]).flatten = s := by
  rw [← List.flatMap_def]
  exact List.flatMap_singleton' s

/-- A line of 511 to 1021 bytes is served when its first 510 bytes come in one read and the others
with the line feed in the next. -/
theorem rustLog_read_long (log : List (List Byte)) {line : List Byte} (hlf : LF ∉ line)
    (hlong : 511 ≤ line.length) (hlate : line.length < 1022) :
    rustLog.feed (rustConn log []) [line.take 510, line.drop 510 ++ [LF]] =
        rustConn (log ++ [stripCr line]) [] ∧
      (∀ reads, rustLog.ValidReads (rustConn (log ++ [stripCr line]) []) reads →
        rustLog.ValidReads (rustConn log [])
          (line.take 510 :: (line.drop 510 ++ [LF]) :: reads)) := by
  have hcut : line.take 510 ++ line.drop 510 = line := List.take_append_drop 510 line
  -- 510 bytes pass the length check, and the next read brings the rest of the line with its LF
  have hr1 : rustLog.read (rustConn log []) (line.take 510) = rustConn log (line.take 510) := by
    apply rustLog_read_buffer
    · exact fun hm => hlf (List.mem_of_mem_take hm)
    · rw [List.nil_append, List.length_take]
      omega
  have hr2 : rustLog.read (rustConn log (line.take 510)) (line.drop 510 ++ [LF]) =
      rustConn (log ++ [stripCr line]) [] := by
    have hread := @rustLog_read_line log (line.take 510) (line.drop 510) (by rwa [hcut])
      (by rw [List.length_take]; omega) (by rw [List.length_drop]; omega)
    rwa [hcut] at hread
  constructor
  · rw [Framer.feed_cons, Framer.feed_cons, hr1, hr2]
    rfl
  · intro reads hv
    refine ⟨fun _ => ?_, fun _ => ?_, ?_⟩
    · show 1 ≤ (line.take 510).length ∧ (line.take 510).length ≤ 512
      rw [List.length_take]
      omega
    · show 1 ≤ (line.drop 510 ++ [LF]).length ∧ (line.drop 510 ++ [LF]).length ≤ 512
      rw [List.length_append, List.length_drop, List.length_singleton]
      omega
    · rw [hr1, hr2]
      exact hv

/-- **Lines that end late are served.** If an overlong line of the stream ends within 1022 bytes,
then the stream can be cut into reads for which the Rust server logs more than the reference. -/
theorem rustLog_serves_late {s : List Byte} (hlate : lateLine 511 1022 0 s = true)
    (log : List (List Byte)) :
    ∃ reads : List (List Byte), reads.flatten = s ∧ rustLog.ValidReads (rustConn log []) reads ∧
      (frameLog log s).1 ≠ (rustLog.feed (rustConn log []) reads).st := by
  induction hn : s.length using Nat.strongRecOn generalizing s log with
  | _ n ih =>
    cases hs : splitLine s with
    | none =>
        rw [lateLine_of_none hs] at hlate
        cases hlate
    | some p =>
      obtain ⟨line, rest⟩ := p
      have hrest := splitLine_length hs
      rw [lateLine_of_split hs] at hlate
      obtain ⟨rfl, hlf⟩ := splitLine_eq_some_iff.mp hs
      split at hlate
      · -- the overlong line: served, and what follows it is read byte by byte
        rename_i hlong
        rw [decide_eq_true_iff] at hlate
        obtain ⟨hfeed, hvalid⟩ := rustLog_read_long log hlf hlong hlate
        have hidle : Framer.Idle 511 id (rustConn (log ++ [stripCr line]) []) :=
          rustLog_drains.idle_start (log ++ [stripCr line])
        have hvrest := rustLog_drains.validReads_bytes (fun _ => hidle) rest
        refine ⟨[line.take 510, line.drop 510 ++ [LF]] ++ rest.map fun b => [b], ?_,
          hvalid _ hvrest, ?_⟩
        · have hline : [line.take 510, line.drop 510 ++ [LF]].flatten = line ++ [LF] := by
            simp [← List.append_assoc]
          rw [List.flatten_append, flatten_bytes, hline, List.append_assoc]
          rfl
        · have hgrow := (rustLog_feed_grows _ (fun _ => hidle) hvrest).length_le
          rw [Framer.feed_append, hfeed, frameLog,
            frame_of_long (by rw [firstLine_append_lf rest hlf]; exact hlong)]
          intro heq
          rw [← heq] at hgrow
          have hgrow : (log ++ [stripCr line]).length ≤ log.length := hgrow
          rw [List.length_append, List.length_singleton] at hgrow
          omega
      · -- a short line is served in one read by both
        rename_i hshort
        obtain ⟨reads, hflat, hv, hne⟩ :=
          ih rest.length (by omega) hlate (log ++ [stripCr line]) rfl
        have hread : rustLog.read (rustConn log []) (line ++ [LF]) =
            rustConn (log ++ [stripCr line]) [] :=
          rustLog_read_line (by simpa using hlf) (by decide) (by omega)
        refine ⟨(line ++ [LF]) :: reads, ?_, ⟨fun _ => ?_, ?_⟩, ?_⟩
        · rw [List.flatten_cons, hflat]
          simp
        · show 1 ≤ (line ++ [LF]).length ∧ (line ++ [LF]).length ≤ 512
          rw [List.length_append, List.length_singleton]
          omega
        · rw [hread]
          exact hv
        · rw [Framer.feed_cons, hread, frameLog, frame_of_keep hs (by omega) rfl]
          exact hne

/-- A stream with an overlong line that ends within 1022 bytes tells the servers apart. -/
theorem not_framingAgrees {s : List Byte} (hlate : lateLine 511 1022 0 s = true) :
    ¬FramingAgrees s := by
  intro hag
  obtain ⟨reads, hflat, hv, hne⟩ := rustLog_serves_late hlate []
  have hvc := cLog_drains.validReads_bytes (fun _ => cLog_drains.idle_start []) s
  have hc := cLog_feed hvc
  rw [flatten_bytes] at hc
  have heq := (hag _ reads (flatten_bytes s) hflat hvc hv).1
  exact hne ((congrArg Prod.fst hc).symm.trans heq)

/-- **When the Rust server frames like the C one.** The two servers log the same lines and make the
same decision to close on a stream, for all ways of cutting it into reads, if and only if the first
line of more than 510 bytes does not end within 1022 bytes. -/
theorem rust_framing_iff (s : List Byte) : FramingAgrees s ↔ lateLine 511 1022 0 s = false := by
  constructor
  · intro hag
    rw [← Bool.not_eq_true]
    exact fun hlate => not_framingAgrees hlate hag
  · rintro hlate cReads rustReads rfl hflat hvc hvr
    have hc := cLog_feed hvc
    have hr := rustLog_feed hvr (hflat ▸ hlate)
    rw [hflat, ← hc, Prod.mk.injEq] at hr
    exact ⟨hr.1.symm, hr.2.symm⟩

/-- A line of 600 bytes. -/
theorem not_framingAgrees_600 : ¬FramingAgrees (List.replicate 600 97 ++ [LF]) := by
  apply not_framingAgrees
  have hlf : LF ∉ List.replicate 600 (97 : Byte) := by
    rw [List.mem_replicate]
    exact fun h => absurd h.2 (by decide)
  rw [lateLine_append 0 _ hlf, List.length_replicate]
  decide

end Osvcp.Servers
