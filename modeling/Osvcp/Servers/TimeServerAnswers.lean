import Osvcp.Servers.TimeServerSurvival
import Osvcp.Lib.Text

/-! # What the clients of the time server get

In every run of `select-server.c` a connected client has been answered once for each complete line
it has sent, however the lines were cut into reads and whatever the other clients do; a client that
was removed has been answered at most that often. If no `write` is short, the client of the tests
reads one reply for each request, and waits for the next one after that.
-/

namespace Osvcp.Servers.TimeServer

/-- A time and the bytes that were written of the response with it. -/
abbrev Written := List Byte × ℕ

/-- What one `write` has sent. -/
def Written.bytes (w : Written) : List Byte := (response w.1).take w.2

/-- What was sent are `k` responses, or the beginnings of them, written as in `T`. -/
def Sent (T : Set Written) (k : ℕ) (sent : List Byte) : Prop :=
  ∃ ws : List Written, ws.length = k ∧ (∀ w ∈ ws, w ∈ T) ∧ sent = ws.flatMap Written.bytes

theorem Sent.snoc {T : Set Written} {k : ℕ} {sent : List Byte} (h : Sent T k sent) {w : Written}
    (hw : w ∈ T) :
    Sent T (k + 1) (sent ++ w.bytes) := by
  obtain ⟨ws, rfl, hws, rfl⟩ := h
  refine ⟨ws ++ [w], by simp, fun v hv => ?_, by simp⟩
  rcases List.mem_append.mp hv with hv | hv
  · exact hws v hv
  · exact List.mem_singleton.mp hv ▸ hw

/-! ## One visit -/

section Visit

variable {T : Set Written} {e : HandleEnv}

/-- The writes of a visit are in `T`. -/
def WritesIn (T : Set Written) (e : HandleEnv) : Prop :=
  ∀ k n, e.writes k = .wrote n → (e.times k, n) ∈ T

/-- Each line is answered once, up to a write that fails. -/
theorem drain_sent (hT : WritesIn T e) (st : Serving) {j : ℕ} (hst : Sent T j st.sent)
    (buf : List Byte) :
    let d := drain (fun st line => respond e st line (LineBuf.lineString false line)) st buf
    (d.2.2 = false → LF ∉ d.2.1 ∧ Sent T (j + buf.count LF) d.1.sent) ∧
      ∃ k ≤ j + buf.count LF, Sent T k d.1.sent := by
  refine drain_rule (I := fun (st : Serving) rest => ∃ k, k + rest.count LF = j + buf.count LF ∧
    Sent T k st.sent)
    (J := fun (st : Serving) rest stop => (stop = false → LF ∉ rest ∧
      Sent T (j + buf.count LF) st.sent) ∧
      ∃ k ≤ j + buf.count LF, Sent T k st.sent) ?_ ?_ ?_ ⟨j, rfl, hst⟩
  · rintro st rest ⟨k, hk, hsent⟩ hlf
    rw [List.count_eq_zero.mpr hlf, Nat.add_zero] at hk
    exact ⟨fun _ => ⟨hlf, hk ▸ hsent⟩, k, hk.le, hsent⟩
  · rintro st st' line rest ⟨k, hk, hsent⟩ hlf hres
    refine ⟨nofun, k, by omega, ?_⟩
    unfold respond at hres
    split at hres
    · cases hres
    · cases hres
      exact hsent
    · cases hres
      exact hsent
  · rintro st st' line rest ⟨k, hk, hsent⟩ hlf hres
    rw [List.count_append, List.count_eq_zero.mpr hlf, List.count_cons_self] at hk
    unfold respond at hres
    split at hres
    · rename_i n hw
      cases hres
      exact ⟨k + 1, by omega, hsent.snoc (hT st.calls n hw)⟩
    · cases hres
    · cases hres

/-- What holds of every connected client. -/
structure ClientOk (T : Set Written) (c : Client) : Prop where
  pending : LF ∉ c.buf.pending
  sent : Sent T (c.received.count LF) c.sent

/-- What holds of every removed client. -/
def GoneOk (T : Set Written) (c : Client) : Prop := ∃ k ≤ c.received.count LF, Sent T k c.sent

theorem ClientOk.gone {c : Client} (h : ClientOk T c) : GoneOk T c := ⟨_, le_rfl, h.sent⟩

variable (i : ℕ) {readable : Bool} (writable : Bool) {c : Client} {w : World}

/-- A visit of a client that has sent something. -/
theorem ClientOk.visit (h : ClientOk T c) (hT : WritesIn T e) (hin : input c e ≠ []) :
    let r := processClientData (respond e) ⟨0, c.sent, false⟩ (c.buf.fill (input c e))
    let c' := { c with buf := r.2.1, received := c.received ++ input c e, sent := r.1.sent }
    (r.2.2 = false → ClientOk T c') ∧ GoneOk T c' := by
  have hlen : (input c e).length ≤ REQ_BUF_SIZE - 1 - c.buf.len := List.length_take_le _ _
  have hpos : 0 < (input c e).length := List.length_pos_of_ne_nil hin
  have hroom : c.buf.pending.length < REQ_BUF_SIZE - 1 := by
    rw [LineBuf.length_pending]
    omega
  obtain ⟨hst, hclosed, hpending⟩ :=
    (selectFramer_drains false (respond e)).process ⟨0, c.sent, false⟩ c.buf (input c e) hroom hlen
  have hext : (selectFramer (processLines false (respond e))).extend c.buf (input c e) =
      c.buf.fill (input c e) := by
    simp only [selectFramer, List.take_of_length_le hlen]
  rw [hext] at hst hclosed hpending
  change (processClientData (respond e) ⟨0, c.sent, false⟩ (c.buf.fill (input c e))).1 = _ at hst
  change (processClientData (respond e) ⟨0, c.sent, false⟩ (c.buf.fill (input c e))).2.2 = _
    at hclosed
  -- what was pending has no complete line, so the lines of the buffer are those that have just come
  -- in
  have hcount : c.received.count LF + (c.buf.pending ++ input c e).count LF =
      (c.received ++ input c e).count LF := by
    rw [List.count_append, List.count_append, List.count_eq_zero.mpr h.pending, Nat.zero_add]
  obtain ⟨hkeep, hany⟩ := drain_sent hT ⟨0, c.sent, false⟩ h.sent (c.buf.pending ++ input c e)
  rw [hcount, ← hst] at hany
  refine ⟨fun hopen => ?_, hany⟩
  have hstop := hclosed.symm.trans hopen
  obtain ⟨hlf, hsent⟩ := hkeep (Bool.or_eq_false_iff.mp hstop).1
  rw [hcount, ← hst] at hsent
  exact ⟨(hpending hopen).symm ▸ hlf, hsent⟩

theorem handle_keep (h : ClientOk T c) (hT : WritesIn T e) {c' : Client} {w' : World}
    (hh : handle i readable writable c w e = some (.keep c' w')) : ClientOk T c' := by
  by_cases hrd : readable = true
  · by_cases hin : input c e = []
    · simp [handle, hrd, show e.read.take (REQ_BUF_SIZE - 1 - c.buf.len) = [] from hin] at hh
    · rw [handle_of_input i writable hrd hin] at hh
      split at hh
      · cases hh
      · split at hh
        · cases hh
        · rename_i hopen
          cases hh
          exact (h.visit hT hin).1 (by simpa using hopen)
  · simp only [handle, Bool.eq_false_iff.mpr hrd, if_true] at hh
    cases hh
    exact h

theorem handle_drop (h : ClientOk T c) (hT : WritesIn T e) {c' : Client} {w' : World}
    (hh : handle i readable writable c w e = some (.drop c' w')) : GoneOk T c' := by
  by_cases hrd : readable = true
  · by_cases hin : input c e = []
    · simp only [handle, hrd, show e.read.take (REQ_BUF_SIZE - 1 - c.buf.len) = [] from hin] at hh
      cases hh
      exact h.gone
    · rw [handle_of_input i writable hrd hin] at hh
      split at hh
      · cases hh
      · split at hh
        · cases hh
          exact (h.visit hT hin).2
        · cases hh
  · simp only [handle, Bool.eq_false_iff.mpr hrd, if_true] at hh
    cases hh

end Visit

/-! ## Whole runs -/

/-- All clients, one by one. -/
theorem localInvariant (T : Set Written) : SelectServer.LocalInvariant server
    (fun _ a => ∀ e, a = .handle e → WritesIn T e) (fun _ _ => True) (fun _ _ c => ClientOk T c)
    (GoneOk T) where
  init := trivial
  connect n w c fd _ := by
    refine ⟨trivial, ?_, [], rfl, nofun, rfl⟩
    simp [server, LineBuf.pending]
  turn n w _ := ⟨trivial, fun i c h => h⟩
  async s a t w _ hQ _ h := by
    cases h
    exact ⟨rfl, trivial, hQ⟩
  keep s r k e c' w' _ hk _ hQ hok h :=
    ⟨trivial, handle_keep k false (hQ k hk) (hok e rfl) h, fun i hi _ => hQ i hi⟩
  drop s r k e c' w' _ hk _ hQ hok h :=
    ⟨trivial, handle_drop k false (hQ k hk) (hok e rfl) h, fun i hi _ => hQ i hi,
      fun hlt => hQ _ (by omega)⟩

/-- The writes of a run. -/
def runWrites (tr : List (State × Action)) : Set Written :=
  {w | ∃ p ∈ tr, ∃ e, p.2 = .handle e ∧ ∃ k, e.writes k = .wrote w.2 ∧ e.times k = w.1}

theorem holds_of_exec {tr : List (State × Action)} {s : State} (h : server.lts.Exec tr s) :
    SelectServer.Holds (fun _ _ => True) (fun _ _ c => ClientOk (runWrites tr) c)
      (GoneOk (runWrites tr)) s := by
  refine (localInvariant (runWrites tr)).holds h fun p hp e he k n hw => ?_
  exact ⟨p, hp, e, he, k, hw, rfl⟩

/-! ## The client of the tests -/

/-- `readLine`: a line of the stream, and the rest of it. `none` while no line has arrived. -/
def readLine (stream : List Byte) : Option (List Byte × List Byte) :=
  (splitLine stream).map fun p => (trimEnd (p.1 ++ [LF]), p.2)

/-- `readLine`, a number of times. -/
def readLines : ℕ → List Byte → Option (List (List Byte))
  | 0, _ => some []
  | n + 1, stream => (readLine stream).bind fun p => (readLines n p.2).map (p.1 :: ·)

/-- What the client reads of a response. -/
def reply (time : List Byte) : List Byte := ascii "Current time: " ++ time

/-- The text of a time is one line. -/
def Plain (time : List Byte) : Prop := LF ∉ time ∧ CR ∉ time

theorem readLine_response {time : List Byte} (ht : Plain time) (rest : List Byte) :
    readLine (response time ++ rest) = some (reply time, rest) := by
  have hlf : LF ∉ reply time := by
    rw [reply, List.mem_append, not_or]
    exact ⟨by decide, ht.1⟩
  have hcr : CR ∉ reply time := by
    rw [reply, List.mem_append, not_or]
    exact ⟨by decide, ht.2⟩
  have hsplit : splitLine (response time ++ rest) = some (reply time, rest) := by
    rw [splitLine_eq_some_iff]
    exact ⟨by simp [response, reply], hlf⟩
  rw [readLine, hsplit, Option.map_some, trimEnd_append_lf hcr hlf]

/-- One reply for each response, and then the client waits. -/
theorem readLines_responses {times : List (List Byte)} (ht : ∀ t ∈ times, Plain t) (n : ℕ) :
    readLines n (times.flatMap response) =
      if n ≤ times.length then some ((times.take n).map reply) else none := by
  induction n generalizing times with
  | zero => simp [readLines]
  | succ n ih =>
      cases times with
      | nil => simp [readLines, readLine, splitLine]
      | cons t times =>
          rw [List.flatMap_cons, readLines, readLine_response (ht t List.mem_cons_self),
            Option.bind_some, ih fun u hu => ht u (List.mem_cons_of_mem t hu)]
          by_cases hn : n ≤ times.length
          · simp [hn]
          · simp [hn]

/-- **What the clients of the time server get.** In every run, whatever the reads and writes give:
what a connected client has been sent are responses, or beginnings of them, one for each line feed
in what was read from it, and a removed client has been sent at most so many. If no write is short
and the times are one line each, then the client of the tests, however often it calls `readLine`,
gets exactly one reply for each line it has sent, with the time of a response of this run, and waits
for more after that. -/
theorem time_server_answers {tr : List (State × Action)} {s : State} (h : server.lts.Exec tr s) :
    (∀ c ∈ s.table.entries, ∃ ws : List Written, ws.length = c.received.count LF ∧
      (∀ w ∈ ws, w ∈ runWrites tr) ∧ c.sent = ws.flatMap Written.bytes) ∧
    (∀ c ∈ s.gone, ∃ ws : List Written, ws.length ≤ c.received.count LF ∧
      (∀ w ∈ ws, w ∈ runWrites tr) ∧ c.sent = ws.flatMap Written.bytes) ∧
    ((∀ w ∈ runWrites tr, (response w.1).length ≤ w.2 ∧ Plain w.1) → ∀ c ∈ s.table.entries,
      ∃ times : List (List Byte), times.length = c.received.count LF ∧
        (∀ t ∈ times, ∃ n, (t, n) ∈ runWrites tr) ∧
        ∀ n, readLines n c.sent =
          if n ≤ c.received.count LF then some ((times.take n).map reply) else none) := by
  have hI := holds_of_exec h
  have hsent : ∀ c ∈ s.table.entries, Sent (runWrites tr) (c.received.count LF) c.sent := by
    intro c hc
    obtain ⟨i, hi, rfl⟩ := Table.mem_entries.mp hc
    exact (hI.client i hi).sent
  refine ⟨hsent, fun c hc => ?_, fun hfull c hc => ?_⟩
  · obtain ⟨k, hk, ws, rfl, hws, hc'⟩ := hI.gone c hc
    exact ⟨ws, hk, hws, hc'⟩
  · obtain ⟨ws, hlen, hws, hc'⟩ := hsent c hc
    have hall : ws.flatMap Written.bytes = (ws.map Prod.fst).flatMap response := by
      rw [List.flatMap_map]
      refine List.flatMap_congr fun w hw => ?_
      exact List.take_of_length_le (hfull w (hws w hw)).1
    refine ⟨ws.map Prod.fst, by simpa using hlen, fun t ht => ?_, fun n => ?_⟩
    · obtain ⟨w, hw, rfl⟩ := List.mem_map.mp ht
      exact ⟨w.2, hws w hw⟩
    · rw [hc', hall, readLines_responses fun t ht => ?_]
      · rw [List.length_map, hlen]
      · obtain ⟨w, hw, rfl⟩ := List.mem_map.mp ht
        exact (hfull w (hws w hw)).2

namespace Example

/-- A line and the beginning of the next one have arrived, and every write is complete. -/
def lineAndHalf : HandleEnv where
  read := [97, LF, 98]
  times _ := [49, 50]
  writes _ := .wrote 128

/-- A client connects, and is read from in the next iteration. -/
def oneClient : List Action :=
  [.turn, .select (.ready ⟨true, [], []⟩), .accept (some 5), .accept none,
    .handle lineAndHalf, .next, .turn, .select (.ready ⟨false, [5], []⟩), .handle lineAndHalf]

end Example

open Example in
/-- The client has one reply to read, and waits for the second. -/
theorem time_server_answers_half :
    ∃ tr s c, server.lts.Exec tr s ∧ c ∈ s.table.entries ∧
      readLines 1 c.sent = some [reply [49, 50]] ∧ readLines 2 c.sent = none := by
  obtain ⟨s, hs, hcheck⟩ := LTS.exec_of_run_any server.lts server.start oneClient
    (fun s => decide (s.table.size = 1) && decide ((s.table.slots 0).received = [97, LF, 98]))
    rfl (by decide +kernel)
  rw [Bool.and_eq_true, decide_eq_true_iff, decide_eq_true_iff] at hcheck
  have hwrites : ∀ w ∈ runWrites (server.lts.trace server.start oneClient),
      w = ([49, 50], 128) := by
    rintro ⟨time, n⟩ ⟨p, hp, e, he, k, hw, ht⟩
    have hmem := LTS.action_mem_of_mem_trace server.lts hp
    rw [he] at hmem
    have he' : e = lineAndHalf := by simpa [oneClient] using hmem
    subst he'
    cases hw
    cases ht
    rfl
  have hc : s.table.slots 0 ∈ s.table.entries := Table.mem_entries.mpr ⟨0, by omega, rfl⟩
  obtain ⟨times, hlen, htimes, hread⟩ := (time_server_answers hs).2.2
    (fun w hw => by rw [hwrites w hw]; exact ⟨by decide, by decide, by decide⟩) _ hc
  rw [hcheck.2] at hlen hread
  obtain ⟨time, rfl⟩ := List.length_eq_one_iff.mp (hlen.trans (by decide))
  obtain ⟨n, hn⟩ := htimes time List.mem_cons_self
  obtain rfl : time = [49, 50] := congrArg Prod.fst (hwrites _ hn)
  exact ⟨_, s, _, hs, hc, (hread 1).trans (by decide), (hread 2).trans (by decide)⟩

end Osvcp.Servers.TimeServer
