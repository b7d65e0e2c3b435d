import Osvcp.Servers.AioHalfClose
import Osvcp.Servers.AioStranded

/-! # Transfers of large files make progress

A client in `STATE_SENDFILE` is sent a large file over many iterations of the event loop of
`aio-file-server.c`. The measure of the transfer is `sf_remaining`: every writable event on the
socket that does not report `EAGAIN` decreases it, ends the transfer or removes the client, except
where `sendfile` returns 0 because the file has become shorter. Nothing is left to send then and the
client stays in its state, so the socket is reported writable at once and the same event comes
again.
-/

namespace Osvcp.Servers.AioServer

/-! ## The property -/

/-- The client with this socket is being sent a large file, of which `n` bytes remain. -/
def Transfer (s : State) (fd n : ℕ) : Prop :=
  ∃ c ∈ s.table.entries, c.sock = fd ∧ c.state = .sendfile ∧ c.sfRemaining = n

/-- A transfer of which `n` bytes remained has moved on: the client was removed, the transfer is
complete, or fewer bytes remain. -/
def MovedOn (s : State) (fd n : ℕ) : Prop :=
  (∀ c ∈ s.table.entries, c.sock ≠ fd) ∨ (∃ c ∈ s.table.entries, c.sock = fd ∧ c.state = .reading) ∨
    ∃ m < n, Transfer s fd m

/-- The step handles a writable event of the transfer on this socket, with another result of
`sendfile` than `EAGAIN`. -/
def writableEvent (fd : ℕ) (p : State × Action) : Bool :=
  match p.2, p.1.phase with
  | .handle e, .pass r (k + 1) =>
      let c := p.1.table.slots k
      decide (c.sock = fd ∧ c.state = .sendfile ∧ fd ∈ r.wr ∧
        e.sendfile c.sfFd c.sfOffset ≠ .eagain)
  | _, _ => false

/-- In this step `sendfile` returns 0, as it does where the file ends before `sf_offset`, and `recv`
does not report the end of the stream or an error. -/
def stalls (p : State × Action) : Bool :=
  match p.2, p.1.phase with
  | .handle e, .pass r (k + 1) =>
      let c := p.1.table.slots k
      decide (e.sendfile c.sfFd c.sfOffset = .sent [] ∧ (c.sock ∈ r.rd → e.hangup = false))
  | _, _ => false

section

variable {root : DocRoot} {e : HandleEnv} {i : ℕ} {readable writable : Bool}
  {c : Client} {w : World}

/-! ## One event -/

/-- A client that is being sent a file is looked at by `recv` and `sendfile` only. -/
theorem stages_of_sendfile (hst : c.state = .sendfile) (hrecv : ¬RecvEof e readable c) :
    stages root e i readable writable c w = sendfileStage e writable c w := by
  have haio : aioStage e c w = .ok (c, w) := if_neg (by simp [hst])
  have hread : readStage root e i readable c w = .ok (c, w) := if_neg (by simp [hst])
  have hwrite : writeStage e writable c w = .ok (c, w) := if_neg (by simp [hst])
  exact stages_eq_sendfileStage hrecv haio hread hwrite

/-- What a visit makes of it: `recv` or `sendfile` fails and the client is removed, or it is kept,
with what `sendfile` has sent if the socket is writable. -/
inductive SendfileVisit (e : HandleEnv) (readable writable : Bool) (c : Client) (w : World) :
    Outcome Client World → Prop
  | removed {w' : World} (h : RecvEof e readable c ∨
      writable = true ∧ e.sendfile c.sfFd c.sfOffset = .error) :
      SendfileVisit e readable writable c w (.drop c w')
  | notWritable (hrecv : ¬RecvEof e readable c) (h : writable = false) :
      SendfileVisit e readable writable c w (.keep c w)
  | eagain (hrecv : ¬RecvEof e readable c) (h : e.sendfile c.sfFd c.sfOffset = .eagain) :
      SendfileVisit e readable writable c w
        (.keep (advanceSendfile [] c w).1 (advanceSendfile [] c w).2)
  | sent {data : List Byte} (hrecv : ¬RecvEof e readable c)
      (h : e.sendfile c.sfFd c.sfOffset = .sent data) :
      SendfileVisit e readable writable c w
        (.keep (advanceSendfile (data.take c.sfRemaining) c w).1
          (advanceSendfile (data.take c.sfRemaining) c w).2)

/-- **One visit.** It always comes to its end, since removing such a client never waits. -/
theorem handle_of_sendfile (hst : c.state = .sendfile) :
    ∃ o, handle root i readable writable c w e = some o ∧
      SendfileVisit e readable writable c w o := by
  have hremove : removeClient i e.wait c w = some ((w.close c.sfFd).free c.resp) := by
    simp only [removeClient, hst]
  unfold handle
  by_cases hrecv : RecvEof e readable c
  · rw [stages_of_recvEof hrecv]
    simp only [hremove, Option.map_some]
    exact ⟨_, rfl, .removed (.inl hrecv)⟩
  · rw [stages_of_sendfile hst hrecv]
    cases writable with
    | false =>
        have hskip : sendfileStage e false c w = .ok (c, w) := if_neg (by simp)
        rw [hskip]
        exact ⟨_, rfl, .notWritable hrecv rfl⟩
    | true =>
        unfold sendfileStage
        rw [if_pos ⟨hst, rfl⟩]
        cases hsend : e.sendfile c.sfFd c.sfOffset with
        | error =>
            simp only [hremove, Option.map_some]
            exact ⟨_, rfl, .removed (.inr ⟨rfl, hsend⟩)⟩
        | eagain => exact ⟨_, rfl, .eagain hrecv hsend⟩
        | sent data => exact ⟨_, rfl, .sent hrecv hsend⟩

/-- The client after `sendfile` has sent `data`. -/
theorem advanceSendfile_client (data : List Byte) (hst : c.state = .sendfile) :
    (advanceSendfile data c w).1.sock = c.sock ∧
      (advanceSendfile data c w).1.sfRemaining = c.sfRemaining - data.length ∧
      (advanceSendfile data c w).1.state =
        if c.sfRemaining - data.length = 0 then .reading else .sendfile := by
  unfold advanceSendfile
  simp only
  split
  · exact ⟨rfl, rfl, rfl⟩
  · exact ⟨rfl, rfl, hst⟩

end

/-- The client of a writable event. -/
theorem exists_of_writableEvent {fd : ℕ} {s : State} {a : Action}
    (h : writableEvent fd (s, a) = true) :
    ∃ e r k, a = .handle e ∧ s.phase = .pass r (k + 1) ∧ (s.table.slots k).sock = fd ∧
      (s.table.slots k).state = .sendfile ∧ fd ∈ r.wr ∧
      e.sendfile (s.table.slots k).sfFd (s.table.slots k).sfOffset ≠ .eagain := by
  unfold writableEvent at h
  split at h
  · rename_i e r k ha hp
    exact ⟨e, r, k, ha, hp, of_decide_eq_true h⟩
  · cases h

section

variable {root : DocRoot} {s t : State} {fd n : ℕ} {a : Action}

theorem sockets (root : DocRoot) (hs : (server root).lts.Reachable s) :
    SelectServer.Sockets (server root) s := (server_lawful root).sockets hs

/-- A transfer is not complete. -/
theorem sfRemaining_pos (hs : (server root).lts.Reachable s) {c : Client} (hc : c ∈ s.table.entries)
    (hst : c.state = .sendfile) : 0 < c.sfRemaining := by
  obtain ⟨tr, h⟩ := hs
  obtain ⟨i, hi, rfl⟩ := Table.mem_entries.mp hc
  have hholding := ((holding_rule root).localInvariant.holds h fun _ _ => trivial).client i hi
  obtain ⟨f, -, -, -, hrem⟩ := hholding.of_sendfile hst
  exact hrem

/-- A client that is left as it was, but for other fields, does not move on. -/
theorem not_movedOn (ht : SelectServer.Sockets (server root) t) {c : Client}
    (hc : c ∈ t.table.entries)
    (hfd : c.sock = fd) (hst : c.state = .sendfile) (hrem : c.sfRemaining = n) :
    ¬MovedOn t fd n := by
  have hunique : ∀ d ∈ t.table.entries, d.sock = fd → d = c := by
    intro d hd hdfd
    exact ht.eq_of_fd hd hc (hdfd.trans hfd.symm)
  rintro (hgone | ⟨d, hd, hdfd, hdst⟩ | ⟨m, hm, d, hd, hdfd, -, hdrem⟩)
  · exact hgone c hc hfd
  · rw [hunique d hd hdfd, hst] at hdst
    cases hdst
  · rw [hunique d hd hdfd, hrem] at hdrem
    omega

/-- A client of which some bytes were sent has moved on. -/
theorem movedOn_of_sent {c : Client} (hc : c ∈ t.table.entries) (hfd : c.sock = fd) {sent : ℕ}
    (hsent : 0 < sent) (hrem : c.sfRemaining = n - sent)
    (hst : c.state = if n - sent = 0 then .reading else .sendfile) : MovedOn t fd n := by
  split at hst
  · exact .inr (.inl ⟨c, hc, hfd, hst⟩)
  · exact .inr (.inr ⟨c.sfRemaining, by omega, c, hc, hfd, hst, rfl⟩)

theorem stalls_iff {e : HandleEnv} {r : Ready} {k : ℕ} (hp : s.phase = .pass r (k + 1)) :
    stalls (s, .handle e) = true ↔
      e.sendfile (s.table.slots k).sfFd (s.table.slots k).sfOffset = .sent [] ∧
        ((s.table.slots k).sock ∈ r.rd → e.hangup = false) := by
  simp only [stalls, hp, decide_eq_true_iff]

/-- **One event** moves a transfer on exactly if it does not stall. -/
theorem movedOn_iff (hs : (server root).lts.Reachable s) (hev : writableEvent fd (s, a) = true) :
    ∃ n t, Transfer s fd n ∧ (server root).step s a = some t ∧
      (MovedOn t fd n ↔ stalls (s, a) = false) := by
  obtain ⟨e, r, k, rfl, hp, rfl, hst, hwr, hres⟩ := exists_of_writableEvent hev
  have hsock := sockets root hs
  have hk : k < s.table.size := (hsock.pass r (k + 1) hp).1
  have hmem : s.table.slots k ∈ s.table.entries := Table.mem_entries.mpr ⟨k, hk, rfl⟩
  have hpos := sfRemaining_pos hs hmem hst
  obtain ⟨o, ho, hvisit⟩ := @handle_of_sendfile root e k (decide ((s.table.slots k).sock ∈ r.rd))
    (decide ((s.table.slots k).sock ∈ r.wr)) (s.table.slots k) s.world hst
  refine ⟨(s.table.slots k).sfRemaining, ?_⟩
  cases hvisit with
  | @removed w' h =>
      refine ⟨⟨s.table.swapRemove k, w', .pass r k, s.gone ++ [s.table.slots k]⟩,
        ⟨_, hmem, rfl, hst, rfl⟩, SelectServer.step_of_drop hp ho, iff_of_true (.inl ?_) ?_⟩
      · exact fun c hc => hsock.fd_of_mem_swapRemove hk hc
      · rw [← Bool.not_eq_true, stalls_iff hp]
        rintro ⟨hzero, hhang⟩
        rcases h with hrecv | ⟨-, herror⟩
        · obtain ⟨hrd, -, hup⟩ := hrecv
          rw [hhang (of_decide_eq_true hrd)] at hup
          cases hup
        · rw [hzero] at herror
          cases herror
  | notWritable hrecv h => exact absurd (decide_eq_true hwr) (by simp [h])
  | eagain hrecv h => exact absurd h hres
  | @sent data hrecv h =>
      have hstep := SelectServer.step_of_keep (S := server root) hp ho
      have hreach : (server root).lts.Reachable _ := ⟨_, hs.choose_spec.snoc hstep⟩
      obtain ⟨hsock', hrem, hstate⟩ := @advanceSendfile_client (s.table.slots k) s.world
        (data.take (s.table.slots k).sfRemaining) hst
      generalize advanceSendfile (data.take (s.table.slots k).sfRemaining)
        (s.table.slots k) s.world = q at hstep hreach hsock' hrem hstate
      have hmem' : q.1 ∈ (s.table.set k q.1).entries :=
        Table.mem_entries.mpr ⟨k, hk, by simp [Table.set]⟩
      refine ⟨_, ⟨_, hmem, rfl, hst, rfl⟩, hstep, ?_⟩
      rw [List.length_take] at hrem hstate
      rw [← Bool.not_eq_true, stalls_iff hp, h]
      cases data with
      | nil =>
          -- nothing was sent, and nothing has changed
          rw [List.length_nil, Nat.min_zero, Nat.sub_zero] at hrem hstate
          rw [if_neg (Nat.ne_of_gt hpos)] at hstate
          refine iff_of_false (not_movedOn (sockets root hreach) hmem' hsock' hstate hrem) ?_
          rw [not_not]
          refine ⟨rfl, fun hrd => ?_⟩
          rw [← Bool.not_eq_true]
          exact fun hup => hrecv ⟨decide_eq_true hrd, by simp [hst], hup⟩
      | cons b data =>
          have hsent : 0 < min (s.table.slots k).sfRemaining (b :: data).length :=
            Nat.lt_min.mpr ⟨hpos, Nat.succ_pos _⟩
          refine iff_of_true (movedOn_of_sent hmem' hsock' hsent hrem hstate) ?_
          rintro ⟨hnil, -⟩
          cases hnil

/-! ## Runs -/

/-- What happens outside the loop does not touch a transfer. -/
theorem event_sfRemaining {tab tab' : Table Client} {w w' : World} {ev : Event}
    (h : event tab w ev = some (tab', w')) (i : ℕ) :
    (tab'.slots i).sfRemaining = (tab.slots i).sfRemaining := by
  cases ev with
  | sigint =>
      cases h
      rfl
  | sigusr1 =>
      cases h
      rfl
  | aioDone k result =>
      simp only [event] at h
      split at h
      · cases h
      · rename_i r hr
        cases h
        by_cases hi : i = r.slot
        · subst hi
          simp [Table.set]
        · simp [Table.set, hi]

/-- No step makes a transfer longer. -/
theorem sfRemaining_step (hs : (server root).lts.Reachable s) (h : (server root).step s a = some t)
    {c c' : Client} (hc : c ∈ s.table.entries) (hst : c.state = .sendfile)
    (hc' : c' ∈ t.table.entries) (hfd : c'.sock = c.sock) : c'.sfRemaining ≤ c.sfRemaining := by
  cases (server_lawful root).follows_step (sockets root hs) h hc hc' hfd with
  | same => exact Nat.le_refl _
  | @async ev tab w i hev hi hslot =>
      rw [event_sfRemaining hev i, hslot]
  | @visit e r k c' w' hp hslot hh =>
      obtain ⟨o, ho, hvisit⟩ := @handle_of_sendfile root e k (decide (c.sock ∈ r.rd))
        (decide (c.sock ∈ r.wr)) c s.world hst
      cases ho.symm.trans hh
      cases hvisit with
      | notWritable hrecv hw => exact Nat.le_refl _
      | eagain hrecv hsend =>
          rw [(advanceSendfile_client [] hst).2.1]
          exact Nat.sub_le _ _
      | sent hrecv hsend =>
          rw [(advanceSendfile_client _ hst).2.1]
          exact Nat.sub_le _ _

/-- **One step** of a transfer that goes on after it: its events each take one byte at least. -/
theorem transfer_step (hs : (server root).lts.Reachable s) (h : (server root).step s a = some t)
    (hok : writableEvent fd (s, a) = true → stalls (s, a) = false) (hn : Transfer s fd n) {m : ℕ}
    (hm : Transfer t fd m) : (if writableEvent fd (s, a) then 1 else 0) + m ≤ n := by
  have hreach : (server root).lts.Reachable t := ⟨_, hs.choose_spec.snoc h⟩
  have ht := sockets root hreach
  obtain ⟨c, hc, hfd, hst, hrem⟩ := hn
  obtain ⟨c', hc', hfd', hst', hrem'⟩ := hm
  split
  · rename_i hev
    obtain ⟨n', t', ⟨d, hd, hdfd, -, hdrem⟩, hstep, hiff⟩ := movedOn_iff hs hev
    cases h.symm.trans hstep
    have heq : d = c := (sockets root hs).eq_of_fd hd hc (hdfd.trans hfd.symm)
    rcases hiff.mpr (hok hev) with hgone | ⟨d', hd', hdfd', hdst'⟩ |
      ⟨m', hlt, d', hd', hdfd', -, hdrem'⟩
    · exact absurd hfd' (hgone c' hc')
    · rw [ht.eq_of_fd hd' hc' (hdfd'.trans hfd'.symm), hst'] at hdst'
      cases hdst'
    · have heq' : d' = c' := ht.eq_of_fd hd' hc' (hdfd'.trans hfd'.symm)
      rw [heq] at hdrem
      rw [heq'] at hdrem'
      omega
  · have hle := sfRemaining_step hs h hc hst hc' (hfd'.trans hfd.symm)
    omega

/-- **A run** in which a transfer goes on has at most as many events of it as there were bytes to
send. -/
theorem transfer_run (hs : (server root).lts.Reachable s) {as : List Action}
    (h : (server root).lts.run s as = some t)
    (hok : ∀ p ∈ (server root).lts.trace s as, writableEvent fd p = true → stalls p = false)
    (hn : Transfer s fd n)
    (hall : ∀ u ∈ LTS.visited ((server root).lts.trace s as) t, ∃ m, Transfer u fd m) :
    ∃ m, 0 < m ∧ Transfer t fd m ∧
      ((server root).lts.trace s as).countP (writableEvent fd) + m ≤ n := by
  induction as generalizing s n with
  | nil =>
      cases h
      refine ⟨n, ?_, hn, (Nat.zero_add n).le⟩
      obtain ⟨c, hc, -, hst, rfl⟩ := hn
      exact sfRemaining_pos hs hc hst
  | cons a as ih =>
      obtain ⟨u, hu, h⟩ := Option.bind_eq_some_iff.mp h
      have htrace : (server root).lts.trace s (a :: as) =
          (s, a) :: (server root).lts.trace u as := by
        rw [LTS.trace, hu]
        rfl
      rw [htrace] at hok hall ⊢
      have hreach : (server root).lts.Reachable u := ⟨_, hs.choose_spec.snoc hu⟩
      obtain ⟨m, hm⟩ := hall u (List.mem_cons_of_mem s (LTS.first_mem_visited h))
      obtain ⟨m', hpos, hlast, hcount⟩ :=
        ih hreach h (fun p hp => hok p (List.mem_cons_of_mem _ hp)) hm
          fun v hv => hall v (List.mem_cons_of_mem _ hv)
      have hone := transfer_step hs hu (hok (s, a) List.mem_cons_self) hn hm
      refine ⟨m', hpos, hlast, ?_⟩
      rw [List.countP_cons]
      omega

end

/-- **When transfers make progress.** In every reachable state, a writable event of a transfer with
another result of `sendfile` than `EAGAIN` is handled to its end, and it moves the transfer on if
and only if `sendfile` does not return 0 or `recv` has the client removed before. In every run of
which no such event stalls, a transfer of `n` bytes has had fewer than `n` of them as long as it
goes on. -/
theorem transfers_progress_iff (root : DocRoot) :
    (∀ s, (server root).lts.Reachable s → ∀ fd a, writableEvent fd (s, a) = true →
      ∃ n t, Transfer s fd n ∧ (server root).step s a = some t ∧
        (MovedOn t fd n ↔ stalls (s, a) = false)) ∧
    ∀ s, (server root).lts.Reachable s → ∀ fd n as t, Transfer s fd n →
      (server root).lts.run s as = some t →
      (∀ p ∈ (server root).lts.trace s as, writableEvent fd p = true → stalls p = false) →
      (∀ u ∈ LTS.visited ((server root).lts.trace s as) t, ∃ m, Transfer u fd m) →
      ∃ m, 0 < m ∧ Transfer t fd m ∧
        ((server root).lts.trace s as).countP (writableEvent fd) + m ≤ n := by
  constructor
  · exact fun s hs fd a hev => movedOn_iff hs hev
  · exact fun s hs fd n as t hn h hok hall => transfer_run hs h hok hn hall

namespace Example

/-- A request for a file of `size` bytes, up to the header. -/
def sendLarge (size : ℕ) : List Action :=
  accept [5] 1 ++ round [5] [] [{ idle with read := [97, LF], serves := fun _ => serve size }]

/-- An iteration in which `sendfile` sends two bytes. -/
def sendTwo : List Action := round [] [5] [{ idle with sendfile := fun _ _ => .sent [104, 105] }]

/-- `sendfile` returns 0. -/
def sendNone : HandleEnv := { idle with sendfile := fun _ _ => .sent [] }

/-- An iteration in which the socket is writable, up to the visit of the client. -/
def writable : List Action := [.turn, .select (.ready ⟨false, [], [5]⟩)]

/-- The client is being sent a file. -/
def sending (s : State) : Bool := s.table.entries.any fun c => c.sock = 5 ∧ c.state = .sendfile

theorem transfer_of_sending {s : State} (h : sending s = true) : ∃ m, Transfer s 5 m := by
  obtain ⟨c, hc, hcheck⟩ := List.any_eq_true.mp h
  obtain ⟨hfd, hst⟩ := of_decide_eq_true hcheck
  exact ⟨_, c, hc, hfd, hst, rfl⟩

end Example

open Example in
/-- Two bytes of a file of 65537 are sent in one event, and at most 65536 are left. -/
theorem transfers_progress_iff_sent :
    ∃ s t, (server root).lts.Reachable s ∧ Transfer s 5 65537 ∧
      (server root).lts.run s sendTwo = some t ∧
      ∃ m, 0 < m ∧ Transfer t 5 m ∧ m ≤ 65536 := by
  obtain ⟨s, hs, hcheck⟩ := LTS.exec_of_run_any (server root).lts (server root).start
    (sendLarge 65537) (fun s => decide (∃ c ∈ s.table.entries, c.sock = 5 ∧ c.state = .sendfile ∧
      c.sfRemaining = 65537) && ((server root).lts.run s sendTwo).any
        (fun t => (LTS.visited ((server root).lts.trace s sendTwo) t).all sending) &&
      ((server root).lts.trace s sendTwo).all (fun p => !stalls p) &&
      decide (((server root).lts.trace s sendTwo).countP (writableEvent 5) = 1))
    rfl (by decide +kernel)
  simp only [Bool.and_eq_true, decide_eq_true_iff, Option.any_eq_true, List.all_eq_true] at hcheck
  obtain ⟨⟨⟨hn, t, ht, hall⟩, hok⟩, hcount⟩ := hcheck
  have hreach : (server root).lts.Reachable s := ⟨_, hs⟩
  obtain ⟨m, hpos, hm, hle⟩ := (transfers_progress_iff root).2 s hreach 5 65537 _ t hn ht
    (fun p hp _ => by simpa using hok p hp) fun u hu => transfer_of_sending (hall u hu)
  exact ⟨s, t, hreach, hn, ht, m, hpos, hm, by omega⟩

open Example in
/-- A file that was emptied after `stat`: `sendfile` returns 0 and the client is left as it was. -/
theorem emptied_transfer_stalls :
    ∃ s t, (server root).lts.Reachable s ∧ Transfer s 5 70000 ∧
      writableEvent 5 (s, .handle sendNone) = true ∧
      (server root).step s (.handle sendNone) = some t ∧
      ¬MovedOn t 5 70000 := by
  obtain ⟨s, hs, hcheck⟩ := LTS.exec_of_run_any (server root).lts (server root).start
    (sendLarge 70000 ++ writable)
    (fun s => decide (∃ c ∈ s.table.entries, c.sock = 5 ∧ c.state = .sendfile ∧
      c.sfRemaining = 70000) && writableEvent 5 (s, .handle sendNone) &&
      stalls (s, .handle sendNone))
    rfl (by decide +kernel)
  simp only [Bool.and_eq_true, decide_eq_true_iff] at hcheck
  obtain ⟨⟨hn, hev⟩, hstalls⟩ := hcheck
  have hreach : (server root).lts.Reachable s := ⟨_, hs⟩
  obtain ⟨n, t, ⟨d, hd, hdfd, -, hdrem⟩, hstep, hiff⟩ := movedOn_iff hreach hev
  refine ⟨s, t, hreach, hn, hev, hstep, ?_⟩
  obtain ⟨c, hc, hfd, hst, hrem⟩ := hn
  rw [(sockets root hreach).eq_of_fd hd hc (hdfd.trans hfd.symm), hrem] at hdrem
  rw [hdrem, hiff, hstalls]
  decide

end Osvcp.Servers.AioServer
