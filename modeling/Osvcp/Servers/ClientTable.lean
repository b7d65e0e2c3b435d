import Osvcp.Lib.SelectPass
import Osvcp.Servers.FileServer
import Osvcp.Servers.TimeServer

/-! # The client table of the select servers

`select-server.c` and `file-server.c` keep their clients in an array that is kept compact by copying
the last entry into a freed slot, and walk it backwards after they have accepted new connections.
Both are `SelectServer.Steady`: a visit calls `read` for the free space of the client's buffer if
the client is ready, and what it returns is all that is added to what was received from this client.
So an iteration reads once from each client that was there and ready, and from no other, and loses
or mixes up none.
-/

namespace Osvcp.Servers

open SelectServer

/-- The `read` of `event_loop` in `file-server.c`, and what a client has received. -/
def FileServer.reader : Reader FileServer.Client FileServer.HandleEnv Byte where
  read c e := e.read.take (REQ_BUF_SIZE - 1 - c.buf.len)
  received := FileServer.Client.received

/-- The `read` of `process_client_data` in `select-server.c`, and what a client has received. -/
def TimeServer.reader : Reader TimeServer.Client TimeServer.HandleEnv Byte where
  read c e := e.read.take (REQ_BUF_SIZE - 1 - c.buf.len)
  received := TimeServer.Client.received

/-- `file-server.c` leaves the table to the loop and reads once from a ready client. -/
theorem FileServer.server_steady (root : DocRoot) :
    Steady (FileServer.server root) FileServer.reader where
  connect c fd := rfl
  async t w a t' w' h := by
    have h : FileServer.signal t w a = some (t', w') := h
    cases a <;> cases h <;> exact ⟨rfl, fun i => ⟨rfl, rfl⟩⟩
  keep i rd wr c w e c' w' h := by
    have h : FileServer.handle root i rd wr c w e = some (.keep c' w') := h
    unfold FileServer.handle at h
    split at h
    · cases h
      rfl
    · split at h
      · cases h
      · simp only at h
        split at h
        · cases h
        · cases h
          rfl
  async_table t w a t' w' h := by
    have h : FileServer.signal t w a = some (t', w') := h
    cases a <;> cases h <;> rfl
  idle i wr c w e := rfl
  read_keep i wr c w e c' w' h := by
    have h : FileServer.handle root i true wr c w e = some (.keep c' w') := h
    unfold FileServer.handle at h
    rw [if_neg (by decide)] at h
    split at h
    · cases h
    · rename_i hne
      simp only at h
      split at h
      · cases h
      · cases h
        exact ⟨rfl, hne⟩
  read_drop i wr c w e c' w' h := by
    have h : FileServer.handle root i true wr c w e = some (.drop c' w') := h
    unfold FileServer.handle at h
    rw [if_neg (by decide)] at h
    split at h
    · rename_i hnil
      cases h
      exact ((congrArg (c.received ++ ·) hnil).trans (List.append_nil _)).symm
    · simp only at h
      split at h
      · cases h
        rfl
      · cases h

/-- `select-server.c` leaves the table to the loop and reads once from a ready client. -/
theorem TimeServer.server_steady : Steady TimeServer.server TimeServer.reader where
  connect c fd := rfl
  async t w a t' w' h := by
    cases h
    exact ⟨rfl, fun i => ⟨rfl, rfl⟩⟩
  keep i rd wr c w e c' w' h := by
    have h : TimeServer.handle i rd wr c w e = some (.keep c' w') := h
    unfold TimeServer.handle at h
    split at h
    · cases h
      rfl
    · split at h
      · cases h
      · simp only at h
        split at h
        · cases h
        · split at h
          · cases h
          · cases h
            rfl
  async_table t w a t' w' h := by
    cases h
    rfl
  idle i wr c w e := rfl
  read_keep i wr c w e c' w' h := by
    have h : TimeServer.handle i true wr c w e = some (.keep c' w') := h
    unfold TimeServer.handle at h
    rw [if_neg (by decide)] at h
    split at h
    · cases h
    · rename_i hne
      simp only at h
      split at h
      · cases h
      · split at h
        · cases h
        · cases h
          exact ⟨rfl, hne⟩
  read_drop i wr c w e c' w' h := by
    have h : TimeServer.handle i true wr c w e = some (.drop c' w') := h
    unfold TimeServer.handle at h
    rw [if_neg (by decide)] at h
    split at h
    · rename_i hnil
      cases h
      exact ((congrArg (c.received ++ ·) hnil).trans (List.append_nil _)).symm
    · simp only at h
      split at h
      · cases h
      · split at h
        · cases h
          rfl
        · cases h

/-- **The client table.** In both servers the descriptors of the clients are pairwise distinct and
at most 64 clients are in the table; every iteration reads once from each client that was in the
table when `select` was called and was reported ready, so that exactly what this `read` returns is
added to what was received from it and the end of its stream removes it, and from no other; and it
leaves the old clients that were not removed and the new ones in the table, each as its own visit
left it. -/
theorem client_table (root : DocRoot) :
    KeepsClients (FileServer.server root) FileServer.reader ∧
    (FileServer.server root).maxClients = 64 ∧
      KeepsClients TimeServer.server TimeServer.reader ∧ TimeServer.server.maxClients = 64 :=
  ⟨(FileServer.server_steady root).keepsClients, rfl, TimeServer.server_steady.keepsClients, rfl⟩

namespace ClientTable.Example

/-- Clients connect in an iteration of their own. -/
def connect (fds : List ℕ) : List (LoopAction Unit TimeServer.HandleEnv) :=
  [.turn, .select (.ready ⟨true, [], []⟩)] ++ fds.map (.accept ∘ some) ++ [.accept none] ++
    fds.map (fun _ => .handle ⟨[], fun _ => [], fun _ => .wrote 0⟩) ++ [.next]

/-- Behind the return of `select`: 7 connects, 6 closes its connection, and 5 sends a part of a
line. -/
def iteration : List (LoopAction Unit TimeServer.HandleEnv) :=
  [.accept (some 7), .accept none] ++
    [[], [], [97]].map fun bytes => .handle ⟨bytes, fun _ => [], fun _ => .wrote 0⟩

/-- What `select` returns. -/
def ready : Ready := ⟨true, [5, 6], []⟩

/-- The descriptors of the clients. -/
def fds (s : LoopState TimeServer.Client TimeServer.World) : List ℕ :=
  s.table.entries.map TimeServer.Client.fd

end ClientTable.Example

open ClientTable.Example in
/-- A client is removed and one accepted in the same iteration: 6 and 5 are read from, the first at
the end of its stream and the second to receive a byte, and 5 and 7 stay. -/
theorem client_table_iteration :
    ∃ pre tr s₀ t, TimeServer.server.lts.Exec (pre ++ (s₀, .select (.ready ready)) :: tr) t ∧
      fds s₀ = [5, 6] ∧ fds t = [5, 7] ∧
      ((tr.filterMap (TimeServer.server.visitOf TimeServer.reader)).filter Visit.ready).map
        (fun v => v.client.fd) = [6, 5] ∧
      ∀ v ∈ tr.filterMap (TimeServer.server.visitOf TimeServer.reader), v.ready = true →
        v.left.received = v.client.received ++ v.input := by
  let M := TimeServer.server.lts
  obtain ⟨s₀, hs₀, hcheck⟩ := LTS.exec_of_run_any M TimeServer.server.start
    (connect [5, 6] ++ [.turn]) (fun s => fds s = [5, 6] ∧
        ((M.run s (.select (.ready ready) :: iteration)).any fun t =>
      fds t = [5, 7] ∧ t.phase = .pass ready 0) = true) rfl (by decide +kernel)
  obtain ⟨hfds, hrun⟩ := of_decide_eq_true hcheck
  rw [Option.any_eq_true] at hrun
  obtain ⟨t, ht, hend⟩ := hrun
  obtain ⟨hfds', hphase⟩ := of_decide_eq_true hend
  have hexec := hs₀.run ht
  rw [LTS.trace] at hexec
  have hdone := (client_table DocRoot.Example.root).2.2.1.pass _ _ s₀ t ready hexec
    (fun p hp => ?_) hphase
  · refine ⟨_, _, s₀, t, hexec, hfds, hfds', ?_,
      fun v hv hready => ((hdone.reads v hv).ready hready).1⟩
    have hreads := congrArg (List.map TimeServer.Client.fd) hdone.ready
    rw [List.map_map] at hreads
    rw [show (fun v : Visit TimeServer.Client Byte => v.client.fd) =
      TimeServer.Client.fd ∘ Visit.client from rfl, hreads, List.map_reverse]
    have hfilter : (s₀.table.entries.filter fun c => decide (c.fd ∈ ready.rd)).map
        TimeServer.Client.fd = (fds s₀).filter fun fd => decide (fd ∈ ready.rd) := by
      rw [fds, List.filter_map]
      rfl
    exact congrArg List.reverse (hfilter.trans (by rw [hfds]))
  · cases hstep : M.step s₀ (.select (.ready ready)) with
    | none =>
        rw [hstep] at hp
        exact absurd hp List.not_mem_nil
    | some u =>
        rw [hstep] at hp
        have haction := LTS.action_mem_of_mem_trace M hp
        rintro hnext
        rw [hnext] at haction
        simp [iteration] at haction

end Osvcp.Servers
