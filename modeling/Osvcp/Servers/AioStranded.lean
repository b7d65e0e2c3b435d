import Osvcp.Servers.AioBody

/-! # Requests that wait for more input

The line loop of the asynchronous server stops at the first request that changes the client's state;
the lines behind it stay in the request buffer. They are looked at again only after the next `read`.
A client that returns to `STATE_READING` by the end of its response has no complete line left behind
exactly if there was none, unless bytes are read in the same pass. No reading client ever holds a
complete line if and only if no step ends the response of a client that holds one
(`noStranded_iff_no_finish`).

A client is written to only if `select` reported its socket for writing, which the server asked for
in the states that write (`SelectServer.Sockets`): a request that is read and a response that is
written do not fall into one pass.
-/

namespace Osvcp.Servers.AioServer

/-! ## The property -/

/-- No reading client has a complete request line in its buffer. -/
def NoStranded (s : State) : Prop :=
  ∀ i < s.table.size, (s.table.slots i).state = .reading → LF ∉ (s.table.slots i).reqBuf.pending

/-- The visit of a client brings it back to `STATE_READING` without reading from it: its read has
failed, or the rest of its response is sent. -/
def Finishes (e : HandleEnv) (readable writable : Bool) (c : Client) (w : World) : Prop :=
  ¬(readable = true ∧ e.hangup = true) ∧
  match c.state with
  | .reading => False
  | .aio => c.aio = .failed ∧ readable = false
  | .writing => writable = true ∧ ∃ cells,
      nbWrite e.write ((c.buffer w).drop c.respSent) = some cells ∧
        c.respSent + cells.length = c.respSize
  | .sendfile => writable = true ∧
      match e.sendfile c.sfFd c.sfOffset with
      | .sent data => c.sfRemaining ≤ data.length
      | .eagain => c.sfRemaining = 0
      | .error => False

/-- The step ends the response of a client that holds a complete request line. -/
def Strands (s : State) (a : Action) : Prop :=
  ∃ e r k, a = .handle e ∧ s.phase = .pass r (k + 1) ∧
    LF ∈ (s.table.slots k).reqBuf.pending ∧
    Finishes e (decide ((s.table.slots k).sock ∈ r.rd)) (decide ((s.table.slots k).sock ∈ r.wr))
      (s.table.slots k) s.world

/-! ## The body of the pass -/

section

variable {root : DocRoot} {e : HandleEnv} {i : ℕ} {readable writable : Bool} {c c' : Client}
  {w w' : World}

/-- The line loop leaves a complete line only behind a request that is being answered. -/
theorem drainLines_noLine (root : DocRoot) (e : HandleEnv) (i : ℕ) (st : Serving)
    (buf : List Byte) :
    (drainLines root e i st buf).1.client.state = .reading →
      LF ∉ (drainLines root e i st buf).2.1 := by
  refine drainLines_rule (I := fun _ _ => True)
    (J := fun (st : Serving) buf => st.client.state = .reading → LF ∉ buf) ?_ ?_ trivial
  · exact fun _ _ _ hbuf _ => hbuf
  · exact fun st line rest _ _ => ⟨fun _ => trivial, fun hne hst => absurd hst hne⟩

theorem readStage_noLine (h : readStage root e i readable c w = .ok (c', w'))
    (hc : readable = false → c.state = .reading → LF ∉ c.reqBuf.pending) :
    c'.state = .reading → LF ∉ c'.reqBuf.pending := by
  rcases readStage_cases root e i readable c w with
    ⟨hskip, heq⟩ | ⟨-, -, heq⟩ | ⟨-, -, bytes, buf, -, -, hpend, heq⟩
  · cases heq.symm.trans h
    intro hst
    exact hc (by simpa [hst] using hskip) hst
  · cases heq.symm.trans h
  · rw [h] at heq
    split at heq
    · cases heq
    · cases heq
      intro hst
      have hdrain := drainLines_noLine root e i ⟨0, { c with received := c.received ++ bytes }, w⟩
        (c.reqBuf.pending ++ bytes) hst
      rwa [← hpend] at hdrain

/-- The stages that write skip a client whose state they are not for. -/
theorem writeStage_of_ne (h : ¬(c.state = .writing ∧ writable = true)) :
    writeStage e writable c w = .ok (c, w) := if_neg h

theorem sendfileStage_of_ne (h : ¬(c.state = .sendfile ∧ writable = true)) :
    sendfileStage e writable c w = .ok (c, w) := if_neg h

theorem readStage_of_ne (h : c.state ≠ .reading) : readStage root e i readable c w = .ok (c, w) :=
  if_neg fun hc => h hc.1

/-- `check_aio` brings a client back to reading only if the read has failed. -/
theorem aioStage_reading (hst : c.state = .aio) (h : aioStage e c w = .ok (c', w'))
    (hr : c'.state = .reading) : c.aio = .failed ∧ c'.reqBuf = c.reqBuf := by
  have hcheck : checkAio e c w = (c', w') := by
    rw [aioStage, if_pos hst] at h
    exact Except.ok.inj h
  unfold checkAio at hcheck
  split at hcheck
  · cases hcheck
    exact absurd (hst.symm.trans hr) (by decide)
  · rename_i hfailed
    cases hcheck
    exact ⟨hfailed, rfl⟩
  · cases hcheck
    cases hr

/-- `STATE_WRITING` ends with the write that completes the response. -/
theorem writeStage_reading (hst : c.state = .writing)
    (h : writeStage e writable c w = .ok (c', w')) :
    c'.state ≠ .sendfile ∧ (c'.state = .reading → c'.reqBuf = c.reqBuf ∧ writable = true ∧
      ∃ cells, nbWrite e.write ((c.buffer w).drop c.respSent) = some cells ∧
        c.respSent + cells.length = c.respSize) := by
  have hne : c.state ≠ .sendfile ∧ c.state ≠ .reading := by simp [hst]
  unfold writeStage at h
  split at h
  · rename_i hwr
    split at h
    · cases h
    · rename_i cells hcells
      have hadv : advanceWrite cells c w = (c', w') := Except.ok.inj h
      unfold advanceWrite at hadv
      simp only at hadv
      split at hadv
      · rename_i hall
        cases hadv
        exact ⟨nofun, fun _ => ⟨rfl, hwr.2, cells, hcells, hall⟩⟩
      · cases hadv
        exact ⟨hne.1, fun hr => absurd hr hne.2⟩
  · cases h
    exact ⟨hne.1, fun hr => absurd hr hne.2⟩

/-- `STATE_SENDFILE` ends with the `sendfile` that sends the rest of the file. -/
theorem sendfileStage_reading (hst : c.state = .sendfile)
    (h : sendfileStage e writable c w = .ok (c', w')) (hr : c'.state = .reading) :
    c'.reqBuf = c.reqBuf ∧ writable = true ∧ (e.sendfile c.sfFd c.sfOffset = .eagain ∧
      c.sfRemaining = 0 ∨ ∃ data, e.sendfile c.sfFd c.sfOffset = .sent data ∧
        c.sfRemaining ≤ data.length) := by
  have hne : c.state ≠ .reading := by simp [hst]
  -- the state changes back only when nothing remains to be sent
  have hadvance : ∀ data, advanceSendfile data c w = (c', w') →
      c'.reqBuf = c.reqBuf ∧ c.sfRemaining - data.length = 0 := by
    intro data hadv
    unfold advanceSendfile at hadv
    simp only at hadv
    split at hadv
    · rename_i hall
      cases hadv
      exact ⟨rfl, hall⟩
    · cases hadv
      exact absurd hr hne
  unfold sendfileStage at h
  split at h
  · rename_i hwr
    split at h
    · cases h
    · rename_i hres
      obtain ⟨hbuf, hall⟩ := hadvance [] (Except.ok.inj h)
      exact ⟨hbuf, hwr.2, .inl ⟨hres, hall⟩⟩
    · rename_i data hres
      obtain ⟨hbuf, hall⟩ := hadvance _ (Except.ok.inj h)
      rw [List.length_take] at hall
      exact ⟨hbuf, hwr.2, .inr ⟨data, hres, by omega⟩⟩
  · cases h
    exact absurd hr hne

/-- **The visit of a client**: it leaves no complete line with a reading client, unless it ends the
response of a client that holds one. -/
theorem stages_noLine (h : stages root e i readable writable c w = .ok (c', w'))
    (hwants : writable = true → c.state = .writing ∨ c.state = .sendfile)
    (hc : c.state = .reading → LF ∉ c.reqBuf.pending)
    (hfin : ¬(LF ∈ c.reqBuf.pending ∧ Finishes e readable writable c w)) :
    c'.state = .reading → LF ∉ c'.reqBuf.pending := by
  obtain ⟨c₁, w₁, c₂, w₂, c₃, w₃, hhang, haio, hread, hwrite, hsend⟩ := stages_of_ok h
  have hopen : c.state ≠ .reading → ¬(readable = true ∧ e.hangup = true) :=
    fun hst hh => hhang ⟨hh.1, hst, hh.2⟩
  -- a client that is read from is not reported for writing
  have hlate : writable = false → c' = c₂ := by
    rintro rfl
    cases (writeStage_of_ne (by simp)).symm.trans hwrite
    cases (sendfileStage_of_ne (by simp)).symm.trans hsend
    rfl
  have haio_skip : c.state ≠ .aio → c₁ = c ∧ w₁ = w := by
    intro hne
    cases (if_neg hne : aioStage e c w = .ok (c, w)).symm.trans haio
    exact ⟨rfl, rfl⟩
  cases hst : c.state with
  | reading =>
      have hwr : writable = false := by simpa [hst] using hwants
      obtain ⟨rfl, rfl⟩ := haio_skip (by simp [hst])
      rw [hlate hwr]
      exact readStage_noLine hread fun _ => hc
  | aio =>
      have hwr : writable = false := by simpa [hst] using hwants
      rw [hlate hwr]
      refine readStage_noLine hread fun hrd hreading hlf => ?_
      obtain ⟨hfailed, hbuf⟩ := aioStage_reading hst haio hreading
      refine hfin ⟨hbuf ▸ hlf, hopen (by simp [hst]), ?_⟩
      rw [hst]
      exact ⟨hfailed, hrd⟩
  | writing =>
      obtain ⟨rfl, rfl⟩ := haio_skip (by simp [hst])
      cases (readStage_of_ne (by simp [hst])).symm.trans hread
      obtain ⟨hne, hreading⟩ := writeStage_reading hst hwrite
      cases (sendfileStage_of_ne fun hd => hne hd.1).symm.trans hsend
      intro hr hlf
      obtain ⟨hbuf, hall⟩ := hreading hr
      refine hfin ⟨hbuf ▸ hlf, hopen (by simp [hst]), ?_⟩
      rw [hst]
      exact hall
  | sendfile =>
      obtain ⟨rfl, rfl⟩ := haio_skip (by simp [hst])
      cases (readStage_of_ne (by simp [hst])).symm.trans hread
      cases (writeStage_of_ne (by simp [hst])).symm.trans hwrite
      intro hr hlf
      obtain ⟨hbuf, hwr, hres⟩ := sendfileStage_reading hst hsend hr
      refine hfin ⟨hbuf ▸ hlf, hopen (by simp [hst]), ?_⟩
      rw [hst]
      refine ⟨hwr, ?_⟩
      rcases hres with ⟨hres, hall⟩ | ⟨data, hres, hall⟩
      · rw [hres]
        exact hall
      · rw [hres]
        exact hall

/-- **The condition is exact**: such a visit leaves a reading client with the buffer it had. -/
theorem stages_of_finishes (root : DocRoot) (i : ℕ) (h : Finishes e readable writable c w) :
    ∃ c' w', stages root e i readable writable c w = .ok (c', w') ∧ c'.state = .reading ∧
      c'.reqBuf = c.reqBuf := by
  obtain ⟨hopen, hfin⟩ := h
  have hprobe : ¬(readable = true ∧ c.state ≠ .reading ∧ e.hangup = true) :=
    fun hp => hopen ⟨hp.1, hp.2.2⟩
  cases hst : c.state with
  | reading =>
      rw [hst] at hfin
      exact hfin.elim
  | aio =>
      rw [hst] at hfin
      obtain ⟨hfailed, rfl⟩ := hfin
      have hcheck : checkAio e c w = failRead e c w := by
        unfold checkAio
        rw [hfailed]
      have haio : aioStage e c w = .ok (failRead e c w) := by
        rw [aioStage, if_pos hst, hcheck]
      have hreading : (failRead e c w).1.state = .reading ∧
          (failRead e c w).1.reqBuf = c.reqBuf := ⟨rfl, rfl⟩
      generalize failRead e c w = q at haio hreading
      have hread : readStage root e i false q.1 q.2 = .ok q := if_neg (by simp)
      have hwrite : writeStage e writable q.1 q.2 = .ok q := writeStage_of_ne (by simp [hreading.1])
      refine ⟨q.1, q.2, ?_, hreading⟩
      rw [stages_eq_sendfileStage hprobe haio hread hwrite,
        sendfileStage_of_ne (by simp [hreading.1])]
  | writing =>
      rw [hst] at hfin
      obtain ⟨rfl, cells, hcells, hall⟩ := hfin
      have haio : aioStage e c w = .ok (c, w) := if_neg (by simp [hst])
      have hread : readStage root e i readable c w = .ok (c, w) := readStage_of_ne (by simp [hst])
      have hwrite : writeStage e true c w = .ok (advanceWrite cells c w) := by
        rw [writeStage, if_pos ⟨hst, rfl⟩, hcells]
      have hadv : (advanceWrite cells c w).1.state = .reading ∧
          (advanceWrite cells c w).1.reqBuf = c.reqBuf := by
        simp [advanceWrite, hall]
      generalize advanceWrite cells c w = q at hwrite hadv
      refine ⟨q.1, q.2, ?_, hadv⟩
      rw [stages_eq_sendfileStage hprobe haio hread hwrite, sendfileStage_of_ne (by simp [hadv.1])]
  | sendfile =>
      rw [hst] at hfin
      obtain ⟨rfl, hsend⟩ := hfin
      have haio : aioStage e c w = .ok (c, w) := if_neg (by simp [hst])
      have hread : readStage root e i readable c w = .ok (c, w) := readStage_of_ne (by simp [hst])
      have hwrite : writeStage e true c w = .ok (c, w) := writeStage_of_ne (by simp [hst])
      have hadv : ∀ data : List Byte, c.sfRemaining - data.length = 0 →
          (advanceSendfile data c w).1.state = .reading ∧
            (advanceSendfile data c w).1.reqBuf = c.reqBuf := by
        intro data hall
        simp [advanceSendfile, hall]
      rw [stages_eq_sendfileStage hprobe haio hread hwrite, sendfileStage, if_pos ⟨hst, rfl⟩]
      cases hres : e.sendfile c.sfFd c.sfOffset with
      | sent data =>
          rw [hres] at hsend
          refine ⟨_, _, rfl, hadv _ ?_⟩
          rw [List.length_take]
          omega
      | eagain =>
          rw [hres] at hsend
          exact ⟨_, _, rfl, hadv [] (by rw [hsend, Nat.zero_sub])⟩
      | error =>
          rw [hres] at hsend
          exact hsend.elim

end

/-! ## Runs -/

/-- The operations of the body leave the socket of a client alone. -/
theorem sock_body (root : DocRoot) (e : HandleEnv) (i : ℕ) :
    BodyRule root e i (fun p q => q.1.sock = p.1.sock) where
  refl _ := rfl
  trans h₁ h₂ := h₂.trans h₁
  input _ _ _ _ := rfl
  checkAio c w _ := by
    unfold checkAio
    split <;> rfl
  beginFileServe k c w line _ := by
    have hbegun := beginFileServe_begun root (e.serves k) i (LineBuf.lineString true line)
      { c with requests := c.requests ++ [line] } w
    generalize beginFileServe root (e.serves k) i (LineBuf.lineString true line)
      { c with requests := c.requests ++ [line] } w = p at hbegun ⊢
    cases hbegun with
    | refused h hq => exact hq.sock
    | cached => rfl
    | sendfile => rfl
    | aio hne hrel hreal hacc hstat hsize hmalloc haio =>
        rw [startRead_of_ok hmalloc haio]
  advanceWrite c w cells _ _ := by
    unfold advanceWrite
    simp only
    split <;> rfl
  advanceSendfile c w data _ _ := by
    unfold advanceSendfile
    simp only
    split <;> rfl

theorem server_lawful (root : DocRoot) : (server root).Lawful where
  connect _ _ := rfl
  async t w a t' w' h := by
    cases a with
    | sigint =>
        cases h
        exact ⟨rfl, fun _ => ⟨rfl, rfl⟩⟩
    | sigusr1 =>
        cases h
        exact ⟨rfl, fun _ => ⟨rfl, rfl⟩⟩
    | aioDone k result =>
        simp only [server, event] at h
        split at h
        · cases h
        · rename_i r hr
          cases h
          -- a completion stores into the control block of a slot and into nothing else there
          refine ⟨rfl, fun i => ?_⟩
          by_cases hi : i = r.slot
          · subst hi
            simp [server, Table.set]
          · simp [server, Table.set, hi]
  keep i rd wr c w e c' w' h := by
    have hsock := (sock_body root e i).stages rd wr c w
    rw [stages_of_keep h] at hsock
    exact hsock

/-- What `select` reported for writing is what the server asked for. -/
theorem wants_of_sockets {root : DocRoot} {s : State} (h : SelectServer.Sockets (server root) s)
    {r : Ready} {k : ℕ} (hp : s.phase = .pass r (k + 1))
    (hwr : decide ((s.table.slots k).sock ∈ r.wr) = true) :
    (s.table.slots k).state = .writing ∨ (s.table.slots k).state = .sendfile := by
  obtain ⟨-, hwants⟩ := h.pass r (k + 1) hp
  exact of_decide_eq_true (hwants k (Nat.lt_succ_self k) (of_decide_eq_true hwr))

/-- The invariant of the runs in which no client is stranded. -/
theorem stranded_invariant (root : DocRoot) :
    (server root).LocalInvariant
      (fun s a => SelectServer.Sockets (server root) s ∧ ¬Strands s a) (fun _ _ => True)
      (fun _ _ c => c.state = .reading → LF ∉ c.reqBuf.pending) (fun _ => True) := by
  refine clientInvariant ?_ (fun _ _ hc => hc) ?_
  · intro fd _
    show LF ∉ (LineBuf.empty REQ_BUF_SIZE).pending
    rw [LineBuf.pending_empty]
    exact List.not_mem_nil
  · intro s r k e c' w' hok hp hc hst
    refine stages_noLine hst (wants_of_sockets hok.1 hp) hc fun hfin => ?_
    exact hok.2 ⟨e, r, k, rfl, hp, hfin⟩

/-- A step that ends the response of a client that holds a complete line strands it. -/
theorem not_noStranded_of_strands {root : DocRoot} {s t : State} {a : Action}
    (hs : SelectServer.Sockets (server root) s) (h : Strands s a)
    (hstep : (server root).step s a = some t) :
    ¬NoStranded t := by
  obtain ⟨e, r, k, rfl, hp, hlf, hfin⟩ := h
  have hk : k < s.table.size := (hs.pass r (k + 1) hp).1
  obtain ⟨c', w', hst, hreading, hbuf⟩ := stages_of_finishes root k hfin
  have hh : (server root).handle k (decide ((s.table.slots k).sock ∈ r.rd))
      (decide ((s.table.slots k).sock ∈ r.wr)) (s.table.slots k) s.world e =
      some (.keep c' w') := by
    show handle root k _ _ _ _ e = _
    rw [handle, hst]
  cases (SelectServer.step_of_keep hp hh).symm.trans hstep
  intro hnone
  have hnot := hnone k hk
  simp only [Table.set, Function.update_self] at hnot
  exact hnot hreading (hbuf ▸ hlf)

/-- **No stranded request.** In every run, no reading client holds a complete line in any state
reached, if and only if no step ends the response of a client that holds a complete request line
without reading from it. -/
theorem noStranded_iff_no_finish (root : DocRoot) {tr : List (State × Action)} {s : State}
    (h : (server root).lts.Exec tr s) :
    (∀ t ∈ LTS.visited tr s, NoStranded t) ↔ ∀ p ∈ tr, ¬Strands p.1 p.2 := by
  have hsockets : ∀ t ∈ LTS.visited tr s, SelectServer.Sockets (server root) t := by
    intro t ht
    obtain ⟨tr', -, hexec⟩ := h.exists_prefix ht
    exact (server_lawful root).sockets ⟨tr', hexec⟩
  constructor
  · intro hall p hp hstrands
    obtain ⟨t, hstep, ht⟩ := h.step_of_mem hp
    exact not_noStranded_of_strands (hsockets _ (LTS.mem_visited_of_mem hp)) hstrands
      hstep (hall t ht)
  · intro hok t ht
    exact ((stranded_invariant root).holds_visited h
      (fun p hp => ⟨hsockets _ (LTS.mem_visited_of_mem hp), hok p hp⟩) t ht).client

/-- A client requests a file of one byte and gets the response in one write. -/
def pipelineRun (input : List Byte) : List Action :=
  Example.accept [5] 1 ++ Example.round [5] [] [{ Example.idle with read := input }] ++
    [.async (.aioDone 0 (.delivered [104]))] ++ Example.round [] [] [Example.idle] ++
    Example.round [] [5] [{ Example.idle with write := .wrote 7 }]

/-- Two requests in one segment, and the beginning of a third one when the read for the first one
has failed. -/
def retriedRun : List Action :=
  Example.accept [5] 1 ++ Example.round [5] [] [{ Example.idle with read := [97, LF, 97, LF] }] ++
    [.async (.aioDone 0 .failed)] ++ Example.round [5] [] [{ Example.idle with read := [98] }] ++
    [.async (.aioDone 0 (.delivered [104]))] ++ Example.round [] [] [Example.idle] ++
    Example.round [] [5] [{ Example.idle with write := .wrote 7 }]

/-- The second request is found in the buffer when the failed one has been answered, as the socket
is readable in that pass. -/
theorem noStranded_iff_no_finish_retriedRun :
    ∃ s, (server Example.root).lts.Exec ((server Example.root).lts.trace (server Example.root).start
      retriedRun) s ∧ (s.table.slots 0).requests = [[97], [97]] ∧
      (s.table.slots 0).state = .reading ∧
      ∀ t ∈ LTS.visited ((server Example.root).lts.trace (server Example.root).start retriedRun) s,
        NoStranded t := by
  obtain ⟨s, hs, hcheck⟩ := LTS.exec_of_run_any (server Example.root).lts
    (server Example.root).start retriedRun (fun s => (s.table.slots 0).requests = [[97], [97]] ∧
      (s.table.slots 0).state = .reading) rfl (by decide +kernel)
  obtain ⟨hreq, hst⟩ := of_decide_eq_true hcheck
  refine ⟨s, hs, hreq, hst, (noStranded_iff_no_finish Example.root hs).mpr ?_⟩
  -- while the client holds a line it waits for its read, or can be read from where that has failed
  have hsteps :
      ((server Example.root).lts.trace (server Example.root).start retriedRun).all (fun p =>
      decide (p.1.table.size ≤ 1 ∧ (LF ∈ (p.1.table.slots 0).reqBuf.pending →
        (p.1.table.slots 0).state = .aio ∧ (p.1.table.slots 0).sock = 5 ∧
          ((p.1.table.slots 0).aio = .failed →
            p.1.phase ∈ [.top, .selecting, .pass ⟨false, [5], []⟩ 1])))) = true := by
    decide +kernel
  rintro p hp ⟨e, r, k, -, hphase, hlf, -, hfin⟩
  obtain ⟨hsize, hheld⟩ := of_decide_eq_true (List.all_eq_true.mp hsteps p hp)
  -- only the first slot is in use
  obtain ⟨tr, -, hexec⟩ := hs.exists_prefix (LTS.mem_visited_of_mem hp)
  have hlt := (((server_lawful Example.root).sockets ⟨tr, hexec⟩).pass r (k + 1) hphase).1
  obtain rfl : k = 0 := by omega
  obtain ⟨haio, hsock, hread⟩ := hheld hlf
  rw [haio] at hfin
  obtain ⟨hfailed, hnot⟩ := hfin
  have hmem := hread hfailed
  rw [hphase] at hmem
  obtain rfl : r = ⟨false, [5], []⟩ := by simpa using hmem
  rw [hsock] at hnot
  exact absurd hnot (by decide)

/-- **The defect.** Two requests in one segment: the second one stays in the buffer of a client that
has returned to reading. -/
theorem pipelineRun_not_noStranded :
    ∃ s, (server Example.root).lts.Exec ((server Example.root).lts.trace (server Example.root).start
      (pipelineRun [97, LF, 97, LF])) s ∧ s.phase = .top ∧ ¬NoStranded s := by
  obtain ⟨s, hs, hcheck⟩ := LTS.exec_of_run_any (server Example.root).lts
    (server Example.root).start (pipelineRun [97, LF, 97, LF]) (fun s => s.phase = .top ∧
      0 < s.table.size ∧
      (s.table.slots 0).state = .reading ∧ LF ∈ (s.table.slots 0).reqBuf.pending) rfl
    (by decide +kernel)
  obtain ⟨htop, hsize, hst, hlf⟩ := of_decide_eq_true hcheck
  exact ⟨s, hs, htop, fun h => h 0 hsize hst hlf⟩

end Osvcp.Servers.AioServer
