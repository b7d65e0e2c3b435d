import Osvcp.Servers.AioOwnership
import Osvcp.Servers.AioRefinement

/-! # The states of the clients of the asynchronous server

In every run of `aio-file-server.c` and for every outcome of its system calls, the fields of a
client agree with its state, and no descriptor and no response buffer is lost, shared or released
twice (`states_and_ownership`). Most of this is `Holding` and the two ledgers. What is left is the
input buffer, and the size that a client which is being sent a large file has been told: it is found
in the step of the run in which the file was opened.
-/

namespace Osvcp.Servers.AioServer

/-! ## The property -/

/-- The file `f` was opened in a step of the run, by a `begin_file_serve` that found `size` bytes
and sent the header with this size to the client; since then the bytes up to `sf_offset` have been
sent. -/
def HeaderSent (root : DocRoot) (tr : List (State × Action)) (c : Client) (f : Handle)
    (size : ℕ) : Prop :=
  ∃ s t r k e n pre body, (s, .handle e) ∈ tr ∧ s.phase = .pass r (k + 1) ∧
    (server root).step s (.handle e) = some t ∧ s.world.nextFd ≤ f.num ∧ f.num < t.world.nextFd ∧
    (e.serves n).stat f.path = .ok true size ∧
    c.sent = (s.table.slots k).sent ++ pre ++ sockSend (e.serves n).sends (okHeader size) ++ body ∧
    body.length = c.sfOffset

/-- The fields of a client agree with its state. `req_len` is the number of the bytes received that
are not yet part of a request. -/
structure StateOk (root : DocRoot) (tr : List (State × Action)) (w : World)
    (c : Client) : Prop where
  reading : c.state = .reading → c.resp = none ∧ c.openFiles w = []
  aio : c.state = .aio → c.resp ≠ none ∧ c.respSent = 0 ∧
    ∃ f, c.fileFd = some f ∧ c.openFiles w = [f.num]
  writing : c.state = .writing → c.resp ≠ none ∧ c.respSent < c.respSize ∧ c.openFiles w = []
  sendfile : c.state = .sendfile → c.resp = none ∧ 0 < c.sfRemaining ∧
    ∃ f, c.sfFd = some f ∧ c.openFiles w = [f.num] ∧
      HeaderSent root tr c f (c.sfOffset + c.sfRemaining)
  reqLen : (unlines c.requests).length + c.reqBuf.len = c.received.length ∧ c.reqBuf.len ≤ 510

/-! ## The size in the header -/

/-- What a visit with the system calls `e` does towards sending a large file: it goes on with the
file that was being sent, or it opens one and sends the header with its size. -/
structure Announces (e : HandleEnv) (p q : Client × World) : Prop where
  nextFd : p.2.nextFd ≤ q.2.nextFd
  sent : p.1.sent <+: q.1.sent
  sendfile : q.1.state = .sendfile →
    (p.1.state = .sendfile ∧ q.1.sfFd = p.1.sfFd ∧
      q.1.sfOffset + q.1.sfRemaining = p.1.sfOffset + p.1.sfRemaining ∧
      ∃ body, q.1.sent = p.1.sent ++ body ∧ q.1.sfOffset = p.1.sfOffset + body.length) ∨
    ∃ f n pre body, q.1.sfFd = some f ∧ p.2.nextFd ≤ f.num ∧ f.num < q.2.nextFd ∧
      (e.serves n).stat f.path = .ok true (q.1.sfOffset + q.1.sfRemaining) ∧
      q.1.sent = p.1.sent ++ pre ++
        sockSend (e.serves n).sends (okHeader (q.1.sfOffset + q.1.sfRemaining)) ++ body ∧
      body.length = q.1.sfOffset

theorem Announces.trans {e : HandleEnv} {p q r : Client × World} (h₁ : Announces e p q)
    (h₂ : Announces e q r) : Announces e p r where
  nextFd := h₁.nextFd.trans h₂.nextFd
  sent := h₁.sent.trans h₂.sent
  sendfile hr := by
    rcases h₂.sendfile hr with ⟨hq, hsf, hsum, body, hsent, hoff⟩ |
      ⟨f, n, pre, body, hsf, hle, hlt, hstat, hsent, hlen⟩
    · rcases h₁.sendfile hq with ⟨hp, hsf₁, hsum₁, body₁, hsent₁, hoff₁⟩ |
        ⟨f, n, pre, body₁, hsf₁, hle, hlt, hstat, hsent₁, hlen⟩
      · refine .inl ⟨hp, hsf.trans hsf₁, hsum.trans hsum₁, body₁ ++ body, ?_, ?_⟩
        · rw [hsent, hsent₁, List.append_assoc]
        · rw [hoff, hoff₁, List.length_append, Nat.add_assoc]
      · refine .inr ⟨f, n, pre, body₁ ++ body, hsf.trans hsf₁, hle,
          Nat.lt_of_lt_of_le hlt h₂.nextFd, ?_, ?_, ?_⟩
        · rw [hsum]
          exact hstat
        · rw [hsent, hsent₁, hsum, List.append_assoc]
        · rw [hoff, List.length_append, hlen]
    · obtain ⟨more, hmore⟩ := h₁.sent
      refine .inr ⟨f, n, more ++ pre, body, hsf, h₁.nextFd.trans hle, hlt, hstat, ?_, hlen⟩
      rw [hsent, ← hmore, List.append_assoc p.1.sent]

/-- No large file is being sent in the end. -/
theorem Announces.of_ne {e : HandleEnv} {p q : Client × World} (hn : p.2.nextFd ≤ q.2.nextFd)
    (hsent : p.1.sent <+: q.1.sent) (hst : q.1.state ≠ .sendfile) : Announces e p q :=
  ⟨hn, hsent, fun h => absurd h hst⟩

theorem Announces.of_eq {e : HandleEnv} {c c' : Client} {w : World} (hsent : c'.sent = c.sent)
    (hst : c'.state = c.state) (hsf : c'.sfFd = c.sfFd) (hoff : c'.sfOffset = c.sfOffset)
    (hrem : c'.sfRemaining = c.sfRemaining) : Announces e (c, w) (c', w) where
  nextFd := Nat.le_refl _
  sent := hsent ▸ List.prefix_rfl
  sendfile h := by
    refine .inl ⟨hst.symm.trans h, hsf, ?_, [], ?_, hoff⟩
    · show c'.sfOffset + c'.sfRemaining = _
      rw [hoff, hrem]
    · exact hsent.trans (List.append_nil _).symm

theorem ServeExit.announces {e : HandleEnv} {k i : ℕ} {c : Client} {w : World} {q : Client × World}
    (h : ServeExit (e.serves k) i c w q) (hst : c.state = .reading) : Announces e (c, w) q := by
  have hne : c.state ≠ .sendfile := by
    rw [hst]
    exact ClientState.noConfusion
  cases h with
  | refused key msg touched => exact .of_ne (Nat.le_refl _) (List.prefix_append _ _) hne
  | @cached key entry hentry => exact .of_ne (Nat.le_refl _) List.prefix_rfl ClientState.noConfusion
  | @large key path size hstat hsize =>
      refine ⟨Nat.le_succ _, List.prefix_append _ _, fun _ => .inr ?_⟩
      refine ⟨⟨w.nextFd, path⟩, k, [], [], rfl, Nat.le_refl _, Nat.lt_succ_self _, ?_, ?_, rfl⟩
      · show (e.serves k).stat path = .ok true (0 + size)
        rw [Nat.zero_add]
        exact hstat
      · show c.sent ++ sockSend (e.serves k).sends (okHeader size) =
          c.sent ++ [] ++ sockSend (e.serves k).sends (okHeader (0 + size)) ++ []
        rw [Nat.zero_add, List.append_nil, List.append_nil]
  | noMemory key path msg => exact .of_ne (Nat.le_succ _) (List.prefix_append _ _) hne
  | noRead key path size msg => exact .of_ne (Nat.le_succ _) (List.prefix_append _ _) hne
  | reading key path size => exact .of_ne (Nat.le_succ _) List.prefix_rfl ClientState.noConfusion

theorem announces_body (root : DocRoot) (e : HandleEnv) (i : ℕ) :
    BodyRule root e i (Announces e) where
  refl _ := .of_eq rfl rfl rfl rfl rfl
  trans := .trans
  input _ _ _ _ := .of_eq rfl rfl rfl rfl rfl
  checkAio c w hst := by
    unfold checkAio
    split
    · exact .of_eq rfl rfl rfl rfl rfl
    · exact .of_ne (by simp [failRead]) (List.prefix_append _ _) ClientState.noConfusion
    · have hnext : (finishRead e c w).2.nextFd = w.nextFd :=
        (congrArg Ledger.issued (finishRead_files e c w)).trans (w.close_nextFd c.fileFd)
      exact .of_ne hnext.ge List.prefix_rfl ClientState.noConfusion
  beginFileServe k c w line hst := by
    have hexit := beginFileServe_exit root (e.serves k) i (LineBuf.lineString true line)
      { c with requests := c.requests ++ [line] } w
    refine Announces.trans ?_ (hexit.announces hst)
    exact .of_eq rfl rfl rfl rfl rfl
  advanceWrite c w cells hst _ := by
    unfold advanceWrite
    simp only
    split
    · exact .of_ne (by simp) (List.prefix_append _ _) ClientState.noConfusion
    · refine .of_ne (Nat.le_refl _) (List.prefix_append _ _) ?_
      show c.state ≠ .sendfile
      rw [hst]
      exact ClientState.noConfusion
  advanceSendfile c w data hst hdata := by
    have hlen := length_le_of_sendfile hdata
    unfold advanceSendfile
    simp only
    split
    · exact .of_ne (by simp) (List.prefix_append _ _) ClientState.noConfusion
    · refine ⟨Nat.le_refl _, List.prefix_append _ _, fun _ => .inl ⟨hst, rfl, ?_, _, rfl, ?_⟩⟩
      · show c.sfOffset + data.length + (c.sfRemaining - data.length) = c.sfOffset + c.sfRemaining
        omega
      · rw [fileCells, List.length_map]

/-- A client that sends a large file was sent its size in the run. -/
theorem headerSent (root : DocRoot) (tr : List (State × Action)) :
    (server root).LocalInvariant (fun s a => (s, a) ∈ tr) (fun _ _ => True)
      (fun _ _ c => c.state = .sendfile →
        ∃ f, c.sfFd = some f ∧ HeaderSent root tr c f (c.sfOffset + c.sfRemaining))
          (fun _ => True) := by
  refine clientInvariant ?_ (fun _ _ hc => hc) ?_
  · intro fd h
    cases h
  · intro s r k e c' w' hmem hp hc hst hsendfile
    have hann := (announces_body root e k).stages (decide ((s.table.slots k).sock ∈ r.rd))
      (decide ((s.table.slots k).sock ∈ r.wr)) (s.table.slots k) s.world
    rw [hst] at hann
    rcases hann.sendfile hsendfile with ⟨hold, hsf, hsum, body, hsent, hoff⟩ |
      ⟨f, n, pre, body, hsf, hle, hlt, hstat, hsent, hlen⟩
    · -- the transfer was under way before this visit
      obtain ⟨f, hf, s₁, t₁, r₁, k₁, e₁, n, pre, body₁, hmem₁, hp₁, hstep, hle, hlt, hstat, hsent₁,
        hlen₁⟩ := hc hold
      refine ⟨f, hsf.trans hf, s₁, t₁, r₁, k₁, e₁, n, pre, body₁ ++ body, hmem₁, hp₁,
        hstep, hle, hlt, ?_, ?_, ?_⟩
      · exact hstat.trans (congrArg _ hsum.symm)
      · have hsent' : c'.sent = (s.table.slots k).sent ++ body := hsent
        have hsum' : c'.sfOffset + c'.sfRemaining = _ := hsum
        rw [hsent', hsent₁, hsum', List.append_assoc]
      · exact (List.length_append ..).trans ((congrArg (· + body.length) hlen₁).trans hoff.symm)
    · have hstep : (server root).step s (.handle e) =
          some { s with table := s.table.set k c', world := w', phase := .pass r k } := by
        simp [SelectServer.step, SelectServer.visit, hp, server, handle, hst]
      exact ⟨f, hsf, s, _, r, k, e, n, pre, body, hmem, hp, hstep, hle, hlt, hstat, hsent, hlen⟩

/-! ## The length of the input -/

theorem stages_reqLen {root : DocRoot} {e : HandleEnv} {i : ℕ} {readable writable : Bool}
    {c c' : Client} {w w' : World} (hc : c.reqBuf.len ≤ 510)
    (h : stages root e i readable writable c w = .ok (c', w')) :
    c'.reqBuf.len ≤ 510 := by
  obtain ⟨c₁, w₁, c₂, w₂, c₃, w₃, -, haio, hread, hwrite, hsend⟩ := stages_of_ok h
  have hc₁ : c₁.reqBuf.len ≤ 510 := (aioStage_sameInput haio).2.2 ▸ hc
  have hc₂ : c₂.reqBuf.len ≤ 510 := by
    rcases readStage_cases root e i readable c₁ w₁ with
      ⟨-, heq⟩ | ⟨-, -, heq⟩ | ⟨-, -, bytes, buf, -, -, -, heq⟩
    · cases heq.symm.trans hread
      exact hc₁
    · cases heq.symm.trans hread
    · rw [hread] at heq
      split at heq
      · cases heq
      · rename_i hlen
        cases heq
        exact Nat.le_of_lt_succ (Nat.lt_of_not_le hlen)
  rw [(sendfileStage_sameInput hsend).2.2, (writeStage_sameInput hwrite).2.2]
  exact hc₂

theorem reqLen (root : DocRoot) :
    (server root).LocalInvariant (fun _ _ => True) (fun _ _ => True)
    (fun _ _ c => c.reqBuf.len ≤ 510)
      (fun _ => True) :=
  clientInvariant (fun _ => Nat.zero_le _) (fun _ _ hc => hc)
    fun _ _ _ _ _ _ _ _ hc hst => stages_reqLen hc hst

/-! ## The theorem -/

/-- **Freed blocks are left alone** as long as no client is moved while its read is in flight: no
outstanding read stores into one. In such runs it makes no difference that the model never hands out
a freed block again and `malloc` does. -/
theorem buf_notMem_freed {root : DocRoot} {tr : List (State × Action)} {s : State}
    (h : (server root).lts.Exec tr s) (hmove : ∀ p ∈ tr, ¬MovesInFlight root p.1 p.2) :
    ∀ r ∈ s.world.pending, r.buf ∉ s.world.freed := by
  intro r hr
  have hslots := (slots_rule root).localInvariant.holds h hmove
  have hslot := hslots.world.lt r hr
  obtain ⟨hst, -, hresp⟩ := (hslots.client r.slot hslot).owner r hr rfl
  -- the block is held by the client in the slot of the read
  refine ((owning_blocks root).balanced ⟨tr, h⟩).notMem_released (List.mem_flatMap.mpr ?_)
  refine ⟨s.table.slots r.slot, Table.mem_entries.mpr ⟨_, hslot, rfl⟩, ?_⟩
  simp [Client.heldBlocks, hst, hresp]

/-- **States and ownership.** In every run, whatever the system calls and `malloc` return, the
fields of each client agree with its state; every descriptor that was opened is owned by one client
or has been closed once, and every response buffer is owned by one client or has been freed once. -/
theorem states_and_ownership (root : DocRoot) {tr : List (State × Action)} {s : State}
    (h : (server root).lts.Exec tr s) :
    (∀ c ∈ s.table.entries, StateOk root tr s.world c) ∧
      s.world.files.Balanced (s.table.entries.flatMap (Client.openFiles s.world)) ∧
      s.world.blocks.Balanced (s.table.entries.flatMap fun c => c.resp.toList) := by
  have hholding : ∀ c ∈ s.table.entries, Holding s.world c := by
    intro c hc
    obtain ⟨i, hi, rfl⟩ := Table.mem_entries.mp hc
    exact ((holding_rule root).localInvariant.holds h fun _ _ => trivial).client i hi
  have hfiles := (owning_files root).balanced ⟨tr, h⟩
  have hblocks := (owning_blocks root).balanced ⟨tr, h⟩
  -- what is held has not been closed, so the state tells which files are open
  have hopen : ∀ c ∈ s.table.entries, c.openFiles s.world = c.heldFiles := by
    intro c hc
    refine (hholding c hc).openFiles fun n hn => hfiles.notMem_released ?_
    exact List.mem_flatMap.mpr ⟨c, hc, hn⟩
  refine ⟨fun c hc => ?_, ?_, ?_⟩
  · obtain ⟨i, hi, rfl⟩ := Table.mem_entries.mp hc
    have hframed := ((framed root).holds h fun _ _ => trivial).client i hi
    have hlen := ((reqLen root).holds h fun _ _ => trivial).client i hi
    have hheader := ((headerSent root tr).holds h fun _ hp => hp).client i hi
    have hown := hopen _ hc
    have hc := hholding _ hc
    generalize s.table.slots i = c at hc hframed hlen hheader hown
    rw [Client.heldFiles] at hown
    refine ⟨fun hst => ?_, fun hst => ?_, fun hst => ?_, fun hst => ?_, ?_, hlen⟩
    · rw [hst] at hown
      exact ⟨(hc.of_reading hst).1, hown⟩
    · obtain ⟨f, id, -, hfile, hresp, hsent, -⟩ := hc.of_aio hst
      rw [hst, hfile] at hown
      exact ⟨by simp [hresp], hsent, f, hfile, hown⟩
    · obtain ⟨id, hresp, hsent, -, -⟩ := hc.of_writing hst
      rw [hst] at hown
      exact ⟨by simp [hresp], hsent, hown⟩
    · obtain ⟨f, hresp, -, hsf, hrem⟩ := hc.of_sendfile hst
      obtain ⟨f', hsf', hsent⟩ := hheader hst
      cases hsf.symm.trans hsf'
      rw [hst, hsf] at hown
      exact ⟨hresp, hrem, f, hsf, hown, hsent⟩
    · rw [hframed.received, List.length_append, LineBuf.length_pending]
  · rw [List.flatMap_congr hopen]
    exact hfiles
  · rw [List.flatMap_congr fun c hc => (hholding c hc).resp]
    exact hblocks

/-- One client waits for the read of a small file while the other has been sent two bytes of a large
one. -/
def largeRun : List Action :=
  Example.accept [5, 6] 2 ++
    Example.round [5, 6] [] [{ Example.idle with read := [97, LF] },
      { Example.idle with read := [97, LF], serves := fun _ => Example.serve 65537 }] ++
    Example.round [] [5] [Example.idle,
      { Example.idle with sendfile := fun _ _ => .sent [104, 105] }]

/-- Two files are open, each with its client. -/
theorem states_and_ownership_largeRun :
    ∃ s, (server Example.root).lts.Exec
        ((server Example.root).lts.trace (server Example.root).start largeRun) s ∧
      s.world.nextFd = 2 ∧ s.table.entries.map (Client.openFiles s.world) = [[1], [0]] ∧
      ∃ f, HeaderSent Example.root
        ((server Example.root).lts.trace (server Example.root).start largeRun)
        (s.table.slots 0) f 65537 := by
  obtain ⟨s, hs, hcheck⟩ := LTS.exec_of_run_any (server Example.root).lts
    (server Example.root).start largeRun (fun s => s.world.nextFd = 2 ∧ s.table.size = 2 ∧
      s.table.entries.map (Client.openFiles s.world) = [[1], [0]] ∧
      (s.table.slots 0).state = .sendfile ∧
      (s.table.slots 0).sfOffset + (s.table.slots 0).sfRemaining = 65537) rfl (by decide +kernel)
  obtain ⟨hnext, hsize, hopen, hst, hsum⟩ := of_decide_eq_true hcheck
  have hslot : s.table.slots 0 ∈ s.table.entries := Table.mem_entries.mpr ⟨0, by omega, rfl⟩
  obtain ⟨-, -, f, -, -, hsent⟩ := ((states_and_ownership Example.root hs).1 _ hslot).sendfile hst
  rw [hsum] at hsent
  exact ⟨s, hs, hnext, hopen, f, hsent⟩

end Osvcp.Servers.AioServer
