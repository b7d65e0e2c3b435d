import Osvcp.Servers.AioStates
import Osvcp.Servers.AioStream
import Osvcp.Servers.Responses

/-! # Clients that have finished sending

A client that shuts down its side of the connection still reads. The asynchronous server learns of
the end of the stream from `read`, in `STATE_READING`, and from a `recv` of one byte in the other
states, and removes the client in both cases. When it hears of it, `received` is all the client has
sent. The requests have then all been answered if it was `read` that told and no complete line was
left in the request buffer (`answered_at_eof_iff`): the `recv` comes while a response is under way,
and a line that waits behind a response is looked at again only after the next `read`. That is so as
long as no client has been moved while its read was in flight. `file-server.c` answers all lines
before it reads again.
-/

namespace Osvcp.Servers.AioServer

/-! ## The property -/

/-- Every complete line of the input has been taken for a request, and for every request the client
has been sent a whole response. -/
def Answered (c : Client) : Prop :=
  (∀ l ∈ c.requests, LF ∉ l) ∧ (∃ rest, c.received = unlines c.requests ++ rest ∧ LF ∉ rest) ∧
    ∃ rs : List Response, rs.length = c.requests.length ∧ c.sent = rs.flatMap Response.encode

/-- The `recv` of one byte reports the end of the stream, in any state but `STATE_READING`. -/
def RecvEof (e : HandleEnv) (readable : Bool) (c : Client) : Prop :=
  readable = true ∧ c.state ≠ .reading ∧ e.hangup = true

/-- `read` reports the end of the stream, in `STATE_READING` or right after a failed `aio_read` has
led there. -/
def ReadEof (e : HandleEnv) (readable : Bool) (c : Client) : Prop :=
  readable = true ∧ ¬RecvEof e readable c ∧
    (c.state = .reading ∨ c.state = .aio ∧ c.aio = .failed) ∧ e.read = []

/-- The step visits the client `c`, with system calls for which `p` holds. -/
def Visits (p : HandleEnv → Bool → Client → Prop) (s : State) (a : Action) (c : Client) : Prop :=
  ∃ e r k, a = .handle e ∧ s.phase = .pass r (k + 1) ∧ c = s.table.slots k ∧
    p e (decide (c.sock ∈ r.rd)) c

/-- The server hears of the end of the client's stream. -/
def Eof (e : HandleEnv) (readable : Bool) (c : Client) : Prop :=
  RecvEof e readable c ∨ ReadEof e readable c

/-- It hears of it from `read`, with no complete line in the request buffer. -/
def QuietEof (e : HandleEnv) (readable : Bool) (c : Client) : Prop :=
  ReadEof e readable c ∧ LF ∉ c.reqBuf.pending

/-! ## Responses end where they say -/

/-- The status line of a response, without its line feed. -/
def Response.status : Response → List Cell
  | .error reason _ => text "-ERR " ++ text reason
  | .ok _ body => text "+OK " ++ (Nat.toDigits 10 body.length).map fun ch =>
      Cell.text (UInt8.ofNat ch.toNat)

/-- What follows the status line. -/
def Response.body : Response → List Cell
  | .error _ _ => []
  | .ok _ body => body

theorem Response.encode_eq (r : Response) : r.encode = r.status ++ Cell.text LF :: r.body := by
  have hlf : text "\n" = [Cell.text LF] := by decide
  cases r with
  | error reason h => simp [Response.encode, errLine, hlf, Response.status, Response.body]
  | ok path body => simp [Response.encode, okHeader, hlf, Response.status, Response.body]

theorem Response.lf_notMem_status (r : Response) : Cell.text LF ∉ r.status := by
  intro hmem
  have hlf : LF ∈ values r.status := List.mem_map_of_mem (f := Cell.value) hmem
  cases r with
  | error reason h =>
      rw [Response.status, values_append, values_text, values_text] at hlf
      rcases List.mem_append.mp hlf with hlf | hlf
      · exact absurd hlf (by decide)
      · exact h hlf
  | ok path body =>
      rw [Response.status, values_append, values_text, values_digits] at hlf
      rcases List.mem_append.mp hlf with hlf | hlf
      · exact absurd hlf (by decide)
      · exact absurd (isDigit_of_mem_decimal hlf) (by decide)

/-- The size in the status line tells where the body ends. -/
theorem prefixCode_encode : PrefixCode Response.encode := by
  intro r r' s t h
  rw [Response.encode_eq, Response.encode_eq, List.append_assoc, List.append_assoc,
    List.cons_append, List.cons_append] at h
  obtain ⟨hstatus, hrest⟩ := eq_of_append_cons_eq r.lf_notMem_status r'.lf_notMem_status h
  suffices hbody : r.body = r'.body ∧ s = t by
    refine ⟨?_, hbody.2⟩
    rw [Response.encode_eq, Response.encode_eq, hstatus, hbody.1]
  cases r with
  | error reason h =>
      cases r' with
      | error reason' h' => exact ⟨rfl, hrest⟩
      | ok path' body' =>
          exact absurd (congrArg List.head? hstatus) (by simp [Response.status, text, ascii])
  | ok path body =>
      cases r' with
      | error reason' h' =>
          exact absurd (congrArg List.head? hstatus) (by simp [Response.status, text, ascii])
      | ok path' body' =>
          have hdigits : decimal body.length = decimal body'.length := by
            have hvalues := congrArg values (List.append_cancel_left hstatus)
            rwa [values_digits, values_digits] at hvalues
          have hlen : body.length = body'.length := by
            have hparse := congrArg parseDecimal hdigits
            rw [parseDecimal_decimal, parseDecimal_decimal] at hparse
            exact Option.some.inj hparse
          exact List.append_inj hrest hlen

/-! ## What a client has been sent in each state -/

/-- A complete line behind the requests has not been taken for one. -/
theorem not_answered_of_line {c : Client} {rest : List Byte}
    (hreceived : c.received = unlines c.requests ++ rest) (hlf : LF ∈ rest) : ¬Answered c := by
  rintro ⟨-, ⟨rest', hreceived', hrest⟩, -⟩
  rw [hreceived] at hreceived'
  rw [← List.append_cancel_left hreceived'] at hrest
  exact hrest hlf

/-- Every response has at least its line feed. -/
theorem not_answered_of_sent_nil {c : Client} (hreq : c.requests ≠ []) (hsent : c.sent = []) :
    ¬Answered c := by
  rintro ⟨-, -, rs, hlen, hrs⟩
  have hpos : 0 < rs.length := hlen ▸ List.length_pos_iff.mpr hreq
  obtain ⟨r, rs', rfl⟩ := List.exists_cons_of_length_pos hpos
  rw [hsent, List.flatMap_cons, Response.encode_eq] at hrs
  exact absurd hrs (by simp)

section

variable {F : List Byte → ℕ → Byte → Prop} {root : DocRoot} {e : HandleEnv} {i : ℕ}
  {readable writable : Bool} {c : Client} {w : World}

/-- A reading client has been answered up to the lines that are left in its buffer. -/
theorem answered_iff_of_reading (hflow : Flow F w c) (hframed : Framed c)
    (hst : c.state = .reading) :
    Answered c ↔ LF ∉ c.reqBuf.pending := by
  constructor
  · intro hanswered hlf
    exact not_answered_of_line hframed.received hlf hanswered
  · intro hlf
    obtain ⟨rs, hsent, -, hlen⟩ := hflow.responses hst
    exact ⟨fun l hl => (hframed.lines l hl).1, ⟨_, hframed.received, hlf⟩, rs, hlen, hsent⟩

/-- A client in another state has not been sent all of the response to its last request. -/
theorem not_answered_of_ne_reading (hflow : Flow F w c) (hholding : Holding w c)
    (hst : c.state ≠ .reading) : ¬Answered c := by
  rintro ⟨-, -, rs', hlen', hsent'⟩
  obtain ⟨rs, p, hsent, -, hlen, hprog⟩ := hflow
  rw [if_neg hst] at hlen
  have hone : rs'.length = rs.length + 1 := by omega
  obtain ⟨r, hr⟩ := prefixCode_encode.exists_last hone (hsent'.symm.trans hsent)
  -- the part that was sent would be a whole response, and a response does not go on behind its end
  cases hprog with
  | reading h => exact hst h
  | aio h =>
      rw [Response.encode_eq] at hr
      exact absurd hr.symm (by simp)
  | @writing id path body h hb hs =>
      obtain ⟨_, -, hless, -, -⟩ := hholding.of_writing h
      have hsize : (c.buffer w).length = c.respSize := by
        rw [hb.buffer, List.length_append, hb.respSize]
      have hwhole : r.encode = (Response.ok path body).encode := by
        refine prefixCode_encode.eq_of_prefix ?_
        rw [← hr, Response.encode, ← hb.buffer]
        exact List.take_prefix _ _
      have hlength := congrArg List.length hwhole
      rw [Response.encode, ← hb.buffer, hsize, ← hr, List.length_take, hsize] at hlength
      omega
  | @sendfile f body h hf hb hs =>
      obtain ⟨f', -, -, -, hrem⟩ := hholding.of_sendfile h
      have hwhole : r.encode =
          (Response.ok f.path (body ++ List.replicate c.sfRemaining Cell.junk)).encode := by
        refine prefixCode_encode.eq_of_prefix ⟨List.replicate c.sfRemaining Cell.junk, ?_⟩
        rw [← hr, Response.encode, List.length_append, List.length_replicate, List.append_assoc, hs]
      have hlength := congrArg List.length hwhole
      rw [← hr] at hlength
      simp only [Response.encode, List.length_append, List.length_replicate, hs] at hlength
      omega

/-! ## Visits at the end of the stream -/

theorem stages_of_recvEof (h : RecvEof e readable c) :
    stages root e i readable writable c w = .error (c, w) := by
  have hprobe : probe e readable c w = .error (c, w) := if_pos h
  unfold stages
  rw [hprobe]
  rfl

theorem stages_of_read_error {c₁ : Client} {w₁ : World} {q : Client × World}
    (hrecv : ¬RecvEof e readable c) (haio : aioStage e c w = .ok (c₁, w₁))
    (hread : readStage root e i readable c₁ w₁ = .error q) :
    stages root e i readable writable c w = .error q := by
  have hprobe : probe e readable c w = .ok (c, w) := if_neg hrecv
  unfold stages
  rw [hprobe]
  show (aioStage e c w >>= _) = _
  rw [haio]
  show (readStage root e i readable c₁ w₁ >>= _) = _
  rw [hread]
  rfl

/-- `read` is reached with a reading client, which has the same input as before. -/
theorem stages_of_readEof (root : DocRoot) (i : ℕ) (writable : Bool) (w : World)
    (h : ReadEof e readable c) :
    ∃ c₁ w₁, stages root e i readable writable c w = .error (c₁, w₁) ∧ c₁.state = .reading ∧
      SameInput c c₁ ∧ ((c₁, w₁) = (c, w) ∨ c.state = .aio ∧ (c₁, w₁) = checkAio e c w) := by
  obtain ⟨hreadable, hrecv, hst, hread⟩ := h
  have heof : ∀ d w', d.state = .reading → readStage root e i readable d w' = .error (d, w') := by
    intro d w' hd
    unfold readStage
    rw [if_pos ⟨hd, hreadable⟩, hread, List.take_nil]
  rcases hst with hst | ⟨hst, haio⟩
  · have hskip : aioStage e c w = .ok (c, w) := if_neg (by simp [hst])
    exact ⟨c, w, stages_of_read_error hrecv hskip (heof c w hst), hst, ⟨rfl, rfl, rfl⟩, .inl rfl⟩
  · have hcheck : checkAio e c w = failRead e c w := by
      unfold checkAio
      rw [haio]
    have hfail : aioStage e c w = .ok (failRead e c w) := by
      rw [aioStage, if_pos hst, hcheck]
    exact ⟨(failRead e c w).1, (failRead e c w).2,
      stages_of_read_error hrecv hfail (heof _ _ rfl), rfl,
      aioStage_sameInput hfail, .inr ⟨hst, hcheck.symm⟩⟩

/-- **One visit**: the client is to be removed, and it has been answered exactly if the end of the
stream was a quiet one. -/
theorem stages_of_eof (root : DocRoot) (i : ℕ) (writable : Bool) (hw : Shapes F w)
    (hflow : Flow F w c)
    (hframed : Framed c) (hholding : Holding w c) (he : NoFailure e.aioSends)
    (heof : Eof e readable c) :
    ∃ c' w', stages root e i readable writable c w = .error (c', w') ∧
      (Answered c' ↔ QuietEof e readable c) := by
  rcases heof with hrecv | hread
  · refine ⟨c, w, stages_of_recvEof hrecv, iff_of_false ?_ ?_⟩
    · exact not_answered_of_ne_reading hflow hholding hrecv.2.1
    · exact fun h => h.1.2.1 hrecv
  · obtain ⟨c₁, w₁, hstages, hst, hinput, hfrom⟩ := stages_of_readEof root i writable w hread
    have hflow₁ : Flow F w₁ c₁ := by
      rcases hfrom with hsame | ⟨hst, hcheck⟩
      · cases hsame
        exact hflow
      · have hnext := (checkAio_flow he hst hw hflow).2
        rwa [← hcheck] at hnext
    refine ⟨c₁, w₁, hstages, ?_⟩
    rw [answered_iff_of_reading hflow₁ (hframed.congr hinput) hst, hinput.2.2]
    exact ⟨fun hlf => ⟨hread, hlf⟩, fun h => h.2⟩

/-- A client whose stages end in an error is the last one removed. -/
theorem gone_of_stages_error {s t : State} {r : Ready} {k : ℕ} {c' : Client} {w' : World}
    (hp : s.phase = .pass r (k + 1)) (hstep : (server root).step s (.handle e) = some t)
    (h : stages root e k (decide ((s.table.slots k).sock ∈ r.rd))
      (decide ((s.table.slots k).sock ∈ r.wr)) (s.table.slots k) s.world = .error (c', w')) :
    t.gone = s.gone ++ [c'] := by
  cases SelectServer.step_cases hstep with
  | keep hp' hh =>
      cases hp.symm.trans hp'
      cases h.symm.trans (stages_of_keep hh)
  | drop hp' hh =>
      cases hp.symm.trans hp'
      obtain ⟨w₁, hst, -⟩ := stages_of_drop hh
      cases h.symm.trans hst
      rfl

end

/-! ## Runs -/

/-- **The end of the input.** In every run of `aio-file-server.c` in which no write of `sock_send`
fails and no client has been moved while its read was in flight, whenever the server hears of the
end of a client's stream it removes the client, and the client has been answered if and only if the
server heard of it from `read`, with no complete line in the request buffer. In every run of
`file-server.c` over a static file system and with successful writes, the clients that are removed
have been sent the answers to all complete lines of their input. -/
theorem answered_at_eof_iff (root : DocRoot) :
    (∀ (tr : List (State × Action)) (s : State), (server root).lts.Exec tr s →
      (∀ p ∈ tr, SendsComplete p.2 ∧ ¬MovesInFlight root p.1 p.2) →
      ∀ a t c, (server root).lts.step s a = some t → SendsComplete a → Visits Eof s a c →
      ∃ c', t.gone = s.gone ++ [c'] ∧ (Answered c' ↔ Visits QuietEof s a c)) ∧
    (∀ (d : Disk) (tr : List (LoopState FileServer.Client FileServer.World ×
        LoopAction FileServer.Signal FileServer.HandleEnv))
      (s : LoopState FileServer.Client FileServer.World), (FileServer.server root).lts.Exec tr s →
      (∀ p ∈ tr, FileServer.Shows d p.2) → ∀ c ∈ s.gone, FileServer.Responded d root c) := by
  refine ⟨?_, fun d tr s h hok c hc => FileServer.responded_of_shows h hok (.inr hc)⟩
  rintro tr s h hok a t c hstep ha ⟨e, r, k, rfl, hphase, hc, heof⟩
  have hstream := (stream_rule root (Delivered tr)).localInvariant.holds h fun p hp =>
    ⟨(hok p hp).1, (hok p hp).2, fun path j b hd => ⟨p, hp, hd⟩⟩
  have hframed := (framed root).holds h fun _ _ => trivial
  have hholding := (holding_rule root).localInvariant.holds h fun _ _ => trivial
  have hk : k < s.table.size := hstream.inPass r (k + 1) hphase
  subst hc
  obtain ⟨c', w', hstages, hiff⟩ := stages_of_eof root k
    (decide ((s.table.slots k).sock ∈ r.wr)) hstream.world.2 (hstream.client k hk).2
    (hframed.client k hk) (hholding.client k hk) ha.1 heof
  refine ⟨c', gone_of_stages_error hphase hstep hstages, hiff.trans ⟨fun hq => ?_, ?_⟩⟩
  · exact ⟨e, r, k, rfl, hphase, rfl, hq⟩
  · rintro ⟨e', r', k', ha', hphase', -, hq⟩
    cases ha'
    cases hphase.symm.trans hphase'
    exact hq

/-- A run up to the visit of the client of socket 5, and the visit. -/
theorem exists_removed_of_run (as : List Action) (e : HandleEnv) (before after : Client → Bool)
    (h : ((server Example.root).lts.run (server Example.root).start as).any (fun s =>
      (decide (s.phase = .pass ⟨false, [5], []⟩ 1 ∧ (s.table.slots 0).sock = 5 ∧
        s.gone.length = 0) && before (s.table.slots 0)) &&
      ((server Example.root).step s (.handle e)).any fun t =>
        decide (t.gone.length = 1) && t.gone.all after) = true) :
    ∃ s t c, (server Example.root).lts.Exec
        ((server Example.root).lts.trace (server Example.root).start as) s ∧ s.gone = [] ∧
      (server Example.root).step s (.handle e) = some t ∧ t.gone = [c] ∧ after c = true ∧
      before (s.table.slots 0) = true ∧
      ∀ p : HandleEnv → Bool → Client → Prop, p e true (s.table.slots 0) →
        Visits p s (.handle e) (s.table.slots 0) := by
  obtain ⟨s, hs, hcheck⟩ :=
    LTS.exec_of_run_any (server Example.root).lts (server Example.root).start as
    _ rfl h
  obtain ⟨hbefore, hafter⟩ := Bool.and_eq_true_iff.mp hcheck
  obtain ⟨hphase, hbefore⟩ := Bool.and_eq_true_iff.mp hbefore
  obtain ⟨hphase, hsock, hgone⟩ := of_decide_eq_true hphase
  obtain ⟨t, ht, hafter⟩ := (Option.any_eq_true _ _).mp hafter
  obtain ⟨hlen, hafter⟩ := Bool.and_eq_true_iff.mp hafter
  obtain ⟨c, hc⟩ := List.length_eq_one_iff.mp (of_decide_eq_true hlen)
  refine ⟨s, t, c, hs, List.length_eq_zero_iff.mp hgone, ht, hc,
    List.all_eq_true.mp hafter c (by simp [hc]), hbefore, fun p hp => ?_⟩
  exact ⟨e, _, 0, rfl, hphase, rfl, by simpa [hsock] using hp⟩

/-- A client sends `input`, the response to its first line is sent to it, and its socket is readable
again. -/
def answeredRun (input : List Byte) : List Action :=
  Example.accept [5] 1 ++ Example.round [5] [] [{ Example.idle with read := input }] ++
    [.async (.aioDone 0 (.delivered [104]))] ++ Example.round [] [] [Example.idle] ++
    Example.round [] [5] [{ Example.idle with write := .wrote 7 }] ++
    [.turn, .select (.ready ⟨false, [5], []⟩)]

/-- At the end of the stream the client has been answered. -/
theorem answered_at_eof_iff_answeredRun :
    ∃ s t c, (server Example.root).lts.Exec
        ((server Example.root).lts.trace (server Example.root).start (answeredRun [97, LF])) s ∧
      (server Example.root).lts.step s (.handle Example.idle) = some t ∧ t.gone = [c] ∧
      c.received = [97, LF] ∧ Answered c := by
  obtain ⟨s, t, c, hs, hgone₀, ht, hgone, hreceived, hbefore, hvisit⟩ := exists_removed_of_run
    (answeredRun [97, LF]) Example.idle
    (fun c => decide (c.state = .reading ∧ LF ∉ c.reqBuf.pending))
    (fun c => decide (c.received = [97, LF])) (by decide +kernel)
  obtain ⟨hst, hlf⟩ := of_decide_eq_true hbefore
  refine ⟨s, t, c, hs, ht, hgone, of_decide_eq_true hreceived, ?_⟩
  have hread : ReadEof Example.idle true (s.table.slots 0) :=
    ⟨rfl, fun h => h.2.1 hst, .inl hst, rfl⟩
  have hall : ∀ a ∈ answeredRun [97, LF] ++ [.handle Example.idle], SendsComplete a := by
    simp [answeredRun, Example.accept, Example.round, Example.idle, Example.serve, SendsComplete,
      NoFailure]
  have hok : ∀ p ∈ (server Example.root).lts.trace (server Example.root).start
      (answeredRun [97, LF]), SendsComplete p.2 ∧ ¬MovesInFlight Example.root p.1 p.2 := fun p hp =>
    ⟨hall p.2 (List.mem_append_left _ (LTS.action_mem_of_mem_trace _ hp)),
      not_moves_of_gone_nil hs hgone₀ p hp⟩
  obtain ⟨c', hgone', hiff⟩ := (answered_at_eof_iff Example.root).1 _ s hs hok _ t _ ht
    (hall _ (by simp)) (hvisit Eof (.inr hread))
  rw [hgone, hgone₀] at hgone'
  obtain rfl := List.singleton_inj.mp hgone'
  exact hiff.mpr (hvisit QuietEof ⟨hread, hlf⟩)

/-- A client sends a request, and its socket is readable again while the file is read. -/
def busyRun : List Action :=
  Example.accept [5] 1 ++ Example.round [5] [] [{ Example.idle with read := [97, LF] }] ++
    [.turn, .select (.ready ⟨false, [5], []⟩)]

/-- A client of `file-server.c` requests the file and is at the end of its stream. -/
def syncEofRun : List (LoopAction FileServer.Signal FileServer.HandleEnv) :=
  Example.syncRun ++ [.next, .turn, .select (.ready ⟨false, [5], []⟩),
    .handle ⟨[], fun _ => Example.syncServe⟩]

/-- **The defect.** The first client is removed without a response to its request, as `recv` reports
the end of the stream, and the second one without a response to its second request, as `read` does.
No write fails. `file-server.c` has answered the request of the first one when it removes the
client. -/
theorem busyRun_not_answered :
    (∃ s t c, (server Example.root).lts.Exec
        ((server Example.root).lts.trace (server Example.root).start busyRun) s ∧
      (∀ a ∈ busyRun ++ [.handle { Example.idle with hangup := true }], SendsComplete a) ∧
      Visits RecvEof s (.handle { Example.idle with hangup := true }) (s.table.slots 0) ∧
      (server Example.root).step s (.handle { Example.idle with hangup := true }) = some t ∧
      t.gone = [c] ∧ c.received = [97, LF] ∧ c.sent = [] ∧ ¬Answered c) ∧
    (∃ s t c, (server Example.root).lts.Exec ((server Example.root).lts.trace
        (server Example.root).start (answeredRun [97, LF, 97, LF])) s ∧
      (∀ a ∈ answeredRun [97, LF, 97, LF] ++ [.handle Example.idle], SendsComplete a) ∧
      Visits ReadEof s (.handle Example.idle) (s.table.slots 0) ∧
      (server Example.root).step s (.handle Example.idle) = some t ∧
      t.gone = [c] ∧ c.received = [97, LF, 97, LF] ∧ c.sent.length = 7 ∧ ¬Answered c) ∧
    ∃ s c, (FileServer.server Example.root).lts.Exec ((FileServer.server Example.root).lts.trace
        (FileServer.server Example.root).start syncEofRun) s ∧
      s.gone = [c] ∧ c.received = [97, LF] ∧ c.sent.length = 7 ∧
      FileServer.Responded Example.fs.toDisk Example.root c := by
  refine ⟨?_, ?_, ?_⟩
  · obtain ⟨s, t, c, hs, -, ht, hgone, hafter, hst, hvisit⟩ := exists_removed_of_run busyRun
      { Example.idle with hangup := true } (fun c => decide (c.state = .aio))
      (fun c => decide (c.received = [97, LF] ∧ c.requests = [[97]] ∧ c.sent = []))
      (by decide +kernel)
    obtain ⟨hreceived, hreq, hsent⟩ := of_decide_eq_true hafter
    have hrecv : RecvEof { Example.idle with hangup := true } true (s.table.slots 0) :=
      ⟨rfl, by rw [of_decide_eq_true hst]; decide, rfl⟩
    refine ⟨s, t, c, hs, ?_, hvisit RecvEof hrecv, ht, hgone, hreceived, hsent, ?_⟩
    · simp [busyRun, Example.accept, Example.round, Example.idle, Example.serve,
        SendsComplete, NoFailure]
    · exact not_answered_of_sent_nil (by simp [hreq]) hsent
  · obtain ⟨s, t, c, hs, -, ht, hgone, hafter, hst, hvisit⟩ := exists_removed_of_run
      (answeredRun [97, LF, 97, LF]) Example.idle (fun c => decide (c.state = .reading))
      (fun c => decide (c.received = [97, LF, 97, LF] ∧ c.requests = [[97]] ∧ c.sent.length = 7))
      (by decide +kernel)
    obtain ⟨hreceived, hreq, hsent⟩ := of_decide_eq_true hafter
    have hst : (s.table.slots 0).state = .reading := of_decide_eq_true hst
    have hread : ReadEof Example.idle true (s.table.slots 0) :=
      ⟨rfl, fun h => h.2.1 hst, .inl hst, rfl⟩
    refine ⟨s, t, c, hs, ?_, hvisit ReadEof hread, ht, hgone, hreceived, hsent, ?_⟩
    · simp [answeredRun, Example.accept, Example.round, Example.idle, Example.serve, SendsComplete,
        NoFailure]
    · -- the second line is no request
      have hrest : c.received = unlines c.requests ++ [97, LF] := by
        rw [hreceived, hreq]
        rfl
      exact not_answered_of_line hrest (by decide)
  · obtain ⟨s, hs, hcheck⟩ := LTS.exec_of_run_any (FileServer.server Example.root).lts
      (FileServer.server Example.root).start syncEofRun (fun s => s.gone.length = 1 ∧
        ∀ c ∈ s.gone, c.received = [97, LF] ∧ c.sent.length = 7) rfl (by decide +kernel)
    obtain ⟨hlen, hcheck⟩ := of_decide_eq_true hcheck
    obtain ⟨c, hc⟩ := List.length_eq_one_iff.mp hlen
    have hmem : c ∈ s.gone := by simp [hc]
    refine ⟨s, c, hs, hc, (hcheck c hmem).1, (hcheck c hmem).2, ?_⟩
    refine FileServer.responded_of_shows hs (fun p hp => ?_) (.inr hmem)
    have hall : ∀ a ∈ syncEofRun, FileServer.Shows Example.fs.toDisk a := by
      simp [syncEofRun, Example.syncRun, FileServer.Shows, Example.syncServe_shows]
    exact hall p.2 (LTS.action_mem_of_mem_trace _ hp)

end Osvcp.Servers.AioServer
