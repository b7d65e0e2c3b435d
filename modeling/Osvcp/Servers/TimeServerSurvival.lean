import Osvcp.Servers.ClientTable

/-! # What ends the time server

`event_loop` of `select-server.c` is left when `running` has been cleared, which only the handler of
`SIGINT` does, or when `select` fails. A `write` that fails removes its client and nothing else. But
`main` leaves `SIGPIPE` at its default action, unlike that of `file-server.c`, so that the process
also ends when it writes to a client that is gone: `process_client_data` answers all lines of a read
before it looks at the connection again, and a client can be gone after the first answer.
-/

namespace Osvcp.Servers.TimeServer

/-- A state of the server. -/
abbrev State := LoopState Client World

/-- A step of the server. -/
abbrev Action := LoopAction Unit HandleEnv

/-! ## The property -/

/-- What `read` gives for a ready client. -/
def input (c : Client) (e : HandleEnv) : List Byte := e.read.take (REQ_BUF_SIZE - 1 - c.buf.len)

/-- The number of complete lines the client has sent with this read. -/
def lineCount (c : Client) (e : HandleEnv) : ℕ := (c.buf.pending ++ input c e).count LF

/-- The first of the writes number `k` to `k + n - 1` that does not succeed. -/
def firstFailure (writes : ℕ → WriteEnd) : ℕ → ℕ → Option WriteEnd
  | _, 0 => none
  | k, n + 1 =>
      match writes k with
      | .wrote _ => firstFailure writes (k + 1) n
      | failure => some failure

/-- The client that is visited next was reported ready, its read gives something, and of the writes
for its lines the first that does not succeed ends in this way. -/
def WriteFails (s : State) (e : HandleEnv) (failure : WriteEnd) : Prop :=
  ∃ r k, s.phase = .pass r (k + 1) ∧ (s.table.slots k).fd ∈ r.rd ∧ input (s.table.slots k) e ≠ [] ∧
    firstFailure e.writes 0 (lineCount (s.table.slots k) e) = some failure

/-- The visit of the next client kills the process. -/
def Killed (s : State) (e : HandleEnv) : Prop :=
  ∃ r k, s.phase = .pass r (k + 1) ∧ server.step s (.handle e) = none

/-- The visit of the next client removes it and leaves everything else as it was. -/
def OnlyRemoved (s : State) (e : HandleEnv) : Prop :=
  ∃ r k t, s.phase = .pass r (k + 1) ∧ server.step s (.handle e) = some t ∧ t.phase = .pass r k ∧
    t.world = s.world ∧ s.table.entries.Perm (s.table.slots k :: t.table.entries)

/-- `select` is interrupted only by the signal that the server handles. -/
def InterruptedBySigint (p : State × Action) : Prop :=
  p.2 = .select .interrupted → p.1.world.running = false

/-! ## One call of `process_client_data` -/

section

variable {e : HandleEnv}

/-- The lines are answered up to the first write that does not succeed, which is the only one that
can kill the process. -/
theorem drain_respond (st : Serving) (hst : st.killed = false) (buf : List Byte) :
    let d := drain (fun st line => respond e st line (LineBuf.lineString false line)) st buf
    (d.1.killed = true ↔ firstFailure e.writes st.calls (buf.count LF) = some .sigpipe) ∧
      (firstFailure e.writes st.calls (buf.count LF) = some .failed → d.2.2 = true) := by
  induction hn : buf.length using Nat.strongRecOn generalizing st buf with
  | _ n ih =>
    cases hs : splitLine buf with
    | none =>
        have hcount : buf.count LF = 0 := List.count_eq_zero.mpr (splitLine_eq_none_iff.mp hs)
        rw [drain_of_none hs, hcount, firstFailure]
        simp [hst]
    | some p =>
        obtain ⟨line, rest⟩ := p
        have hlt := splitLine_length hs
        obtain ⟨rfl, hlf⟩ := splitLine_eq_some_iff.mp hs
        have hcount : (line ++ LF :: rest).count LF = rest.count LF + 1 := by
          rw [List.count_append, List.count_eq_zero.mpr hlf, List.count_cons_self, Nat.zero_add]
        rw [hcount, firstFailure]
        cases hw : e.writes st.calls with
        | wrote m =>
            have hres : respond e st line (LineBuf.lineString false line) =
                ({ st with calls := st.calls + 1
                           sent := st.sent ++ (response (e.times st.calls)).take m }, false) := by
              simp only [respond, hw]
            rw [drain_of_keep hs hres]
            exact ih rest.length (by omega)
              { st with calls := st.calls + 1
                        sent := st.sent ++ (response (e.times st.calls)).take m } hst rest rfl
        | failed =>
            have hres : respond e st line (LineBuf.lineString false line) =
                ({ st with calls := st.calls + 1 }, true) := by
              simp only [respond, hw]
            rw [drain_of_stop hs hres]
            simp [hst]
        | sigpipe =>
            have hres : respond e st line (LineBuf.lineString false line) =
                ({ st with calls := st.calls + 1, killed := true }, true) := by
              simp only [respond, hw]
            rw [drain_of_stop hs hres]
            simp

/-- `process_client_data` on what a read has filled in. -/
theorem processClientData_respond {c : Client} (hin : input c e ≠ []) :
    let r := processClientData (respond e) ⟨0, c.sent, false⟩ (c.buf.fill (input c e))
    (r.1.killed = true ↔ firstFailure e.writes 0 (lineCount c e) = some .sigpipe) ∧
      (firstFailure e.writes 0 (lineCount c e) = some .failed → r.2.2 = true) := by
  have hlen : (input c e).length ≤ REQ_BUF_SIZE - 1 - c.buf.len := List.length_take_le _ _
  have hpos : 0 < (input c e).length := List.length_pos_of_ne_nil hin
  have hroom : c.buf.pending.length < REQ_BUF_SIZE - 1 := by
    rw [LineBuf.length_pending]
    omega
  obtain ⟨hst, hclosed, -⟩ :=
    (selectFramer_drains false (respond e)).process ⟨0, c.sent, false⟩ c.buf (input c e) hroom hlen
  have hext : (selectFramer (processLines false (respond e))).extend c.buf (input c e) =
      c.buf.fill (input c e) := by
    simp only [selectFramer, List.take_of_length_le hlen]
  rw [hext] at hst hclosed
  obtain ⟨hkilled, hfailed⟩ := @drain_respond e ⟨0, c.sent, false⟩ rfl (c.buf.pending ++ input c e)
  have hst : (processClientData (respond e) ⟨0, c.sent, false⟩ (c.buf.fill (input c e))).1 = _ :=
    hst
  refine ⟨?_, fun hf => hclosed.trans ?_⟩
  · rw [hst]
    exact hkilled
  · rw [hfailed hf]
    rfl

variable (i : ℕ) {readable : Bool} (writable : Bool) {c : Client} {w : World}

/-- A client is not touched unless it is ready, and removed at the end of its stream. -/
theorem handle_of_quiet (h : ¬(readable = true ∧ input c e ≠ [])) :
    ∃ o, handle i readable writable c w e = some o ∧ o.world = w := by
  unfold handle
  split
  · exact ⟨_, rfl, rfl⟩
  · rename_i hrd
    have hempty : e.read.take (REQ_BUF_SIZE - 1 - c.buf.len) = [] := by
      by_contra hne
      exact h ⟨by simpa using hrd, hne⟩
    rw [hempty]
    exact ⟨_, rfl, rfl⟩

/-- A client that is ready and has sent something. -/
theorem handle_of_input (hrd : readable = true) (hin : input c e ≠ []) :
    let r := processClientData (respond e) ⟨0, c.sent, false⟩ (c.buf.fill (input c e))
    let c' := { c with buf := r.2.1, received := c.received ++ input c e, sent := r.1.sent }
    handle i readable writable c w e =
      if r.1.killed then none else some (if r.2.2 then .drop c' w else .keep c' w) := by
  unfold handle
  rw [if_neg (by simp [hrd])]
  split
  · rename_i hempty
    exact absurd hempty hin
  · rfl

/-- **One visit** kills the process exactly if a write raises `SIGPIPE`. -/
theorem handle_eq_none_iff : handle i readable writable c w e = none ↔
    readable = true ∧ input c e ≠ [] ∧
      firstFailure e.writes 0 (lineCount c e) = some .sigpipe := by
  by_cases h : readable = true ∧ input c e ≠ []
  · obtain ⟨hrd, hin⟩ := h
    rw [handle_of_input i writable hrd hin, ← (processClientData_respond hin).1]
    simp [hrd, hin]
  · obtain ⟨o, ho, -⟩ := handle_of_quiet (w := w) i writable h
    rw [ho]
    exact iff_of_false (by simp) fun hall => h ⟨hall.1, hall.2.1⟩

/-- A write that fails has its client removed. -/
theorem handle_of_failed (hrd : readable = true) (hin : input c e ≠ [])
    (hfail : firstFailure e.writes 0 (lineCount c e) = some .failed) :
    ∃ c', handle i readable writable c w e = some (.drop c' w) := by
  obtain ⟨hkilled, hclosed⟩ := processClientData_respond hin
  have hnot :
      ¬(processClientData (respond e) ⟨0, c.sent, false⟩ (c.buf.fill (input c e))).1.killed =
      true := by
    rw [hkilled, hfail]
    simp
  rw [handle_of_input i writable hrd hin, if_neg hnot, if_pos (hclosed hfail)]
  exact ⟨_, rfl⟩

/-- A visit leaves what the clients share alone. -/
theorem world_of_handle {o : Outcome Client World} (h : handle i readable writable c w e = some o) :
    o.world = w := by
  by_cases hq : readable = true ∧ input c e ≠ []
  · rw [handle_of_input i writable hq.1 hq.2] at h
    split at h
    · cases h
    · cases h
      split <;> rfl
  · obtain ⟨o', ho', hw⟩ := handle_of_quiet (w := w) i writable hq
    cases ho'.symm.trans h
    exact hw

end

/-! ## Runs -/

section

variable {tr : List (State × Action)} {s : State} {e : HandleEnv}

theorem killed_iff : Killed s e ↔ WriteFails s e .sigpipe := by
  constructor
  · rintro ⟨r, k, hp, hnone⟩
    obtain ⟨hrd, hin, hpipe⟩ :=
      (handle_eq_none_iff k false).mp ((SelectServer.step_eq_none_iff hp).mp hnone)
    exact ⟨r, k, hp, of_decide_eq_true hrd, hin, hpipe⟩
  · rintro ⟨r, k, hp, hrd, hin, hpipe⟩
    refine ⟨r, k, hp, (SelectServer.step_eq_none_iff hp).mpr ?_⟩
    exact (handle_eq_none_iff k false).mpr ⟨decide_eq_true hrd, hin, hpipe⟩

theorem onlyRemoved_of_failed (hs : server.lts.Reachable s) (h : WriteFails s e .failed) :
    OnlyRemoved s e := by
  obtain ⟨r, k, hp, hrd, hin, hfail⟩ := h
  have hk : k < s.table.size := ((server_steady.toLawful.sockets hs).pass r (k + 1) hp).1
  obtain ⟨c', hdrop⟩ := handle_of_failed (w := s.world) k false (decide_eq_true hrd) hin hfail
  exact ⟨r, k, _, hp, SelectServer.step_of_drop hp hdrop, rfl, rfl,
    Table.entries_perm_swapRemove hk⟩

/-- **What stops the loop.** `running` is cleared by `SIGINT` only, and the loop is left only then
or when `select` fails. -/
theorem sigint_of_stopped (h : server.lts.Exec tr s) (hint : ∀ p ∈ tr, InterruptedBySigint p) :
    (s.world.running = false → ∃ p ∈ tr, p.2 = .async ()) ∧
      (s.phase = .stopped → (∃ p ∈ tr, p.2 = .async ()) ∨ ∃ p ∈ tr, p.2 = .select .failed) := by
  induction h with
  | start hs =>
      subst hs
      constructor
      · intro h
        cases h
      · intro h
        cases h
  | @snoc tr s t a hex hstep ih =>
      obtain ⟨hrunning, -⟩ := ih fun p hp => hint p (List.mem_append_left _ hp)
      have hlast := hint (s, a) (List.mem_append_right _ List.mem_cons_self)
      have hnow : (s, a) ∈ tr ++ [(s, a)] := List.mem_append_right _ List.mem_cons_self
      have hold : s.world.running = false → ∃ p ∈ tr ++ [(s, a)], p.2 = .async () := by
        intro hr
        obtain ⟨p, hp, heq⟩ := hrunning hr
        exact ⟨p, List.mem_append_left _ hp, heq⟩
      have hgoes : t.world = s.world → t.phase ≠ .stopped →
          (t.world.running = false → ∃ p ∈ tr ++ [(s, a)], p.2 = .async ()) ∧
          (t.phase = .stopped → (∃ p ∈ tr ++ [(s, a)], p.2 = .async ()) ∨
            ∃ p ∈ tr ++ [(s, a)], p.2 = .select .failed) :=
        fun hw hph => ⟨fun hr => hold (hw ▸ hr), fun h => absurd h hph⟩
      cases SelectServer.step_cases hstep with
      | async ha => exact ⟨fun _ => ⟨_, hnow, rfl⟩, fun _ => .inl ⟨_, hnow, rfl⟩⟩
      | leave hp hr => exact ⟨hold, fun _ => .inl (hold hr)⟩
      | interrupted hp => exact ⟨hold, fun _ => .inl (hold (hlast rfl))⟩
      | failed hp => exact ⟨hold, fun _ => .inr ⟨_, hnow, rfl⟩⟩
      | keep hp hh => exact hgoes (world_of_handle 0 false hh) Phase.noConfusion
      | drop hp hh => exact hgoes (world_of_handle 0 false hh) Phase.noConfusion
      | turn hp hr => exact hgoes rfl Phase.noConfusion
      | listening hp hr hl => exact hgoes rfl Phase.noConfusion
      | quiet hp hr hl => exact hgoes rfl Phase.noConfusion
      | acceptEnd hp => exact hgoes rfl Phase.noConfusion
      | accept hp hfd hlt => exact hgoes rfl (by simp [hp])
      | reject hp hfd hle => exact hgoes rfl (by simp [hp])
      | next hp => exact hgoes rfl Phase.noConfusion

end

/-- **What ends the time server.** In every run, if `select` is interrupted only by `SIGINT`: the
loop has been left only after `SIGINT` was delivered or `select` failed; the visit of a client ends
the process if and only if one of its writes raises `SIGPIPE`, where the writes before it succeed;
and a write that fails otherwise only removes the client. -/
theorem survives_iff {tr : List (State × Action)} {s : State} (h : server.lts.Exec tr s)
    (hint : ∀ p ∈ tr, InterruptedBySigint p) :
    (s.phase = .stopped → (∃ p ∈ tr, p.2 = .async ()) ∨ ∃ p ∈ tr, p.2 = .select .failed) ∧
      ∀ e, (Killed s e ↔ WriteFails s e .sigpipe) ∧ (WriteFails s e .failed → OnlyRemoved s e) := by
  refine ⟨(sigint_of_stopped h hint).2, fun e => ⟨killed_iff, fun hfail => ?_⟩⟩
  exact onlyRemoved_of_failed ⟨tr, h⟩ hfail

namespace Example

/-- A client connects, and is reported ready. -/
def ready : List Action :=
  ClientTable.Example.connect [5] ++ [.turn, .select (.ready ⟨false, [5], []⟩)]

/-- Two clients connect; the first is reported ready, and the second has been passed over. -/
def firstReady : List Action :=
  ClientTable.Example.connect [5, 6] ++
    [.turn, .select (.ready ⟨false, [5], []⟩), .handle ⟨[], fun _ => [], fun _ => .wrote 0⟩]

/-- The client has sent two lines at once, and the second answer is refused. -/
def oneAnswer : HandleEnv where
  read := [97, LF, 98, LF]
  times _ := []
  writes j := if j = 0 then .wrote 15 else .failed

/-- The client has sent two lines at once, and is gone after the first answer. -/
def twoLines : HandleEnv where
  read := [97, LF, 98, LF]
  times _ := []
  writes j := if j = 0 then .wrote 15 else .sigpipe

end Example

open Example in
/-- Of two clients the first has sent two lines at once, and its second answer cannot be written: it
is removed and the second client stays. -/
theorem survives_iff_oneAnswer :
    ∃ tr s, server.lts.Exec tr s ∧ (∀ p ∈ tr, InterruptedBySigint p) ∧
      s.table.entries.map Client.fd = [5, 6] ∧ WriteFails s oneAnswer .failed ∧
      OnlyRemoved s oneAnswer := by
  obtain ⟨s, hs, hcheck⟩ := LTS.exec_of_run_any server.lts server.start firstReady
    (fun s => decide (s.phase = .pass ⟨false, [5], []⟩ 1 ∧ s.table.entries.map Client.fd = [5, 6] ∧
      (s.table.slots 0).fd = 5 ∧ input (s.table.slots 0) oneAnswer = oneAnswer.read ∧
      lineCount (s.table.slots 0) oneAnswer = 2)) rfl (by decide +kernel)
  obtain ⟨hphase, hfds, hfd, hinput, hlines⟩ := of_decide_eq_true hcheck
  have hint : ∀ p ∈ server.lts.trace server.start firstReady, InterruptedBySigint p := by
    intro p hp heq
    have hmem := LTS.action_mem_of_mem_trace server.lts hp
    rw [heq] at hmem
    simp [firstReady, ClientTable.Example.connect] at hmem
  have hfail : WriteFails s oneAnswer .failed := by
    refine ⟨_, 0, hphase, by rw [hfd]; exact List.mem_singleton_self 5, ?_, ?_⟩
    · rw [hinput]
      exact List.cons_ne_nil _ _
    · rw [hlines]
      rfl
  exact ⟨_, s, hs, hint, hfds, hfail, ((survives_iff hs hint).2 oneAnswer).2 hfail⟩

open Example in
/-- Two lines at once from a client that is gone after the first answer: the second answer kills the
process, without `SIGINT` and without a failure of `select`. -/
theorem twoLines_killed :
    ∃ tr s, server.lts.Exec tr s ∧ (∀ p ∈ tr, p.2 ≠ .async () ∧ p.2 ≠ .select .failed ∧
      p.2 ≠ .select .interrupted) ∧ Killed s twoLines := by
  obtain ⟨s, hs, hcheck⟩ := LTS.exec_of_run_any server.lts server.start ready
    (fun s => decide (s.phase = .pass ⟨false, [5], []⟩ 1) &&
      (server.step s (.handle twoLines)).isNone)
    rfl (by decide +kernel)
  rw [Bool.and_eq_true, decide_eq_true_iff, Option.isNone_iff_eq_none] at hcheck
  refine ⟨_, s, hs, fun p hp => ?_, _, _, hcheck.1, hcheck.2⟩
  have hmem := LTS.action_mem_of_mem_trace server.lts hp
  generalize p.2 = a at hmem
  simp only [ready, ClientTable.Example.connect, List.map_cons, List.map_nil, List.cons_append,
    List.nil_append, List.mem_cons, List.not_mem_nil, or_false] at hmem
  rcases hmem with rfl | rfl | rfl | rfl | rfl | rfl | rfl | rfl <;> simp

end Osvcp.Servers.TimeServer
