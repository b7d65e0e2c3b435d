import Osvcp.Servers.AioRefinement
import Osvcp.Servers.Responses

/-! # Requests and replies, end to end

What a client of a file server gets to see: it writes request lines, and `fileConn.Do` or
`Conn::do_request` makes replies of the bytes that come back. `Served` is what a request comes to,
an error or the contents of a file; its bytes are what the servers send for it and its reply is what
a client returns. Bytes are delivered in order, so a client has received some prefix of what it was
sent. Over a file system that does not change, the reply to the `k`-th line of a client is the one
for that line, in every run of `file-server.c` and of `aio-file-server.c`.
-/

namespace Osvcp.Servers

/-! ## What a request comes to -/

/-- What a request comes to: the reason of an error, or the contents of a file. -/
inductive Served
  | error (reason : String)
  | file (body : List Byte)

namespace Served

/-- The bytes a server sends. -/
def bytes : Served → List Byte
  | .error reason => values (errLine reason)
  | .file body => values (okHeader body.length) ++ body

/-- What a client returns. -/
def reply : Served → Reply
  | .error reason => (errPrefix ++ ascii reason, none)
  | .file body => (okPrefix ++ decimal body.length, some body)

/-- The reason is text on one line, and the size of the file is one that `ParseInt` takes. -/
def Plain : Served → Prop
  | .error reason => CR ∉ ascii reason ∧ LF ∉ ascii reason ∧
      (ascii reason).all (fun b => b.toNat < 128) = true
  | .file body => body.length < 2 ^ 63

theorem Plain.exists_response {a : Served} (h : a.Plain) :
    ∃ r : Response, r.encode = a.bytes ∧ r.reply = a.reply := by
  cases a with
  | error reason =>
      obtain ⟨hcr, hlf, hascii⟩ := h
      refine ⟨.error ⟨ascii reason, hcr, hlf, validUtf8_of_ascii hascii⟩, ?_, rfl⟩
      exact (values_errLine_eq_encode rfl).symm
  | file body =>
      refine ⟨.ok ⟨body, h⟩, ?_, rfl⟩
      rw [bytes, values_okHeader]
      rfl

theorem exists_responses {as : List Served} (h : ∀ a ∈ as, a.Plain) :
    ∃ rs : List Response, rs.flatMap Response.encode = as.flatMap bytes ∧
      rs.map Response.reply = as.map reply := by
  induction as with
  | nil => exact ⟨[], rfl, rfl⟩
  | cons a as ih =>
      obtain ⟨r, hencode, hreply⟩ := (h a List.mem_cons_self).exists_response
      obtain ⟨rs, hencodes, hreplies⟩ := ih fun b hb => h b (List.mem_cons_of_mem a hb)
      refine ⟨r :: rs, ?_, ?_⟩
      · rw [List.flatMap_cons, List.flatMap_cons, hencode, hencodes]
      · rw [List.map_cons, List.map_cons, hreply, hreplies]

end Served

/-- The bytes of the answers to some lines, each of which comes to `served`. -/
def answerBytes (served : List Byte → Served) (lines : List (List Byte)) : List Byte :=
  (lines.map served).flatMap Served.bytes

theorem answerBytes_append (served : List Byte → Served) (ls ms : List (List Byte)) :
    answerBytes served (ls ++ ms) = answerBytes served ls ++ answerBytes served ms := by
  rw [answerBytes, List.map_append, List.flatMap_append]
  rfl

theorem answerBytes_singleton (served : List Byte → Served) (line : List Byte) :
    answerBytes served [line] = (served line).bytes := by
  rw [answerBytes, List.map_singleton, List.flatMap_singleton]

/-! ## What a client makes of it -/

/-- `fileConn.Do` gives the responses of the stream, and then fails. -/
theorem goDo_follows_encodings (rs : List Response) :
    goDo.Follows (rs.map Response.reply) (rs.flatMap Response.encode) := by
  induction rs with
  | nil => exact Decoder.follows_of_none rfl _
  | cons r rs ih =>
      rw [List.flatMap_cons, List.map_cons, Decoder.follows_cons (goDo_delimited r _)]
      exact ih

/-- A client that has received some of the bytes of a sequence of answers. -/
structure ClientReads (answers : List Served) (received : List Byte) : Prop where
  /-- Whatever `fileConn.Do` returns is the reply at its position. -/
  follows : goDo.Follows (answers.map Served.reply) received
  /-- As soon as the bytes of some answers are there, both clients return their replies. -/
  complete : ∀ n rest, n ≤ answers.length →
    received = (answers.take n).flatMap Served.bytes ++ rest →
    goDo.decodeMany n received = some ((answers.take n).map Served.reply, rest) ∧
      doRequest.decodeMany n received = some ((answers.take n).map Served.reply, rest)

/-- **In-order delivery is enough.** -/
theorem clientReads_of_isPrefix {answers : List Served} (h : ∀ a ∈ answers, a.Plain)
    {received : List Byte} (hr : received <+: answers.flatMap Served.bytes) :
    ClientReads answers received where
  follows := by
    obtain ⟨rs, hencodes, hreplies⟩ := Served.exists_responses h
    rw [← hencodes] at hr
    rw [← hreplies]
    by_cases hall : received = rs.flatMap Response.encode
    · rw [hall]
      exact goDo_follows_encodings rs
    · obtain ⟨r, rest, hcut, hcut', hiff⟩ := goDo_delimited.exists_cut hr hall
      exact hiff.mpr (Decoder.follows_of_none (goDo_cut hcut hcut') _)
  complete n rest hn heq := by
    have hplain : ∀ a ∈ answers.take n, a.Plain := fun a ha => h a (List.mem_of_mem_take ha)
    obtain ⟨rs, hencodes, hreplies⟩ := Served.exists_responses hplain
    have hlen : rs.length = n := by
      have hlength := congrArg List.length hreplies
      rwa [List.length_map, List.length_map, List.length_take, Nat.min_eq_left hn] at hlength
    rw [heq, ← hencodes, ← hreplies, ← hlen]
    exact ⟨goDo_delimited.decodeMany_encodings rs rest,
      doRequest_delimited.decodeMany_encodings rs rest⟩

/-! ## `file-server.c` and `aio-file-server.c` -/

namespace Disk

variable (d : Disk) (root : DocRoot)

/-- What a path inside the root comes to. -/
def servedPath (path : List Byte) : Served :=
  match d.kind path with
  | .noStat => .error "stat failed"
  | .notRegular => .error "not a regular file"
  | .unreadable => .error "open failed"
  | .readable => .file (d.content path)

/-- What a request for a file name comes to. -/
def served (name : List Byte) : Served :=
  if name = [] then .error "empty filename"
  else if name.head? = some SLASH then .error "absolute paths not allowed"
  else
    match d.realpath (root.candidate name) with
    | none => .error "not found"
    | some path =>
        if root.accessOk path.bytes = false then .error "access denied" else d.servedPath path.bytes

/-- What a request line comes to. -/
def servedLine (line : List Byte) : Served := d.served root (LineBuf.lineString true line)

/-- The sizes of the files are those of `off_t`. -/
def Sizes : Prop := ∀ path, (d.content path).length < 2 ^ 63

variable {d}

theorem bytes_servedPath (path : List Byte) : (d.servedPath path).bytes = d.pathResponse path := by
  unfold servedPath pathResponse
  cases d.kind path <;> rfl

theorem bytes_served (name : List Byte) : (d.served root name).bytes = d.response root name := by
  unfold served response
  by_cases hempty : name = []
  · rw [if_pos hempty, if_pos hempty]
    rfl
  · rw [if_neg hempty, if_neg hempty]
    by_cases habs : name.head? = some SLASH
    · rw [if_pos habs, if_pos habs]
      rfl
    · rw [if_neg habs, if_neg habs]
      cases d.realpath (root.candidate name) with
      | none => rfl
      | some path =>
          simp only
          by_cases hacc : root.accessOk path.bytes = false
          · rw [if_pos hacc, if_pos hacc]
            rfl
          · rw [if_neg hacc, if_neg hacc]
            exact bytes_servedPath path.bytes

theorem plain_servedPath (h : d.Sizes) (path : List Byte) : (d.servedPath path).Plain := by
  unfold servedPath
  cases d.kind path with
  | noStat => exact ⟨by decide, by decide, by decide⟩
  | notRegular => exact ⟨by decide, by decide, by decide⟩
  | unreadable => exact ⟨by decide, by decide, by decide⟩
  | readable => exact h path

theorem plain_served (h : d.Sizes) (name : List Byte) : (d.served root name).Plain := by
  unfold served
  split
  · exact ⟨by decide, by decide, by decide⟩
  · split
    · exact ⟨by decide, by decide, by decide⟩
    · split
      · exact ⟨by decide, by decide, by decide⟩
      · split
        · exact ⟨by decide, by decide, by decide⟩
        · exact plain_servedPath h _

/-- The responses to the lines are those a client can read. -/
theorem flatMap_servedLine (lines : List (List Byte)) :
    (lines.map (d.servedLine root)).flatMap Served.bytes = d.responses root lines := by
  rw [List.flatMap_map, responses]
  exact List.flatMap_congr fun line _ => bytes_served root _

theorem plain_servedLines (h : d.Sizes) (lines : List (List Byte)) :
    ∀ a ∈ lines.map (d.servedLine root), a.Plain := by
  intro a ha
  obtain ⟨line, -, rfl⟩ := List.mem_map.mp ha
  exact plain_served root h _

theorem clientReads_responses (h : d.Sizes) {lines : List (List Byte)} {received : List Byte}
    (hr : received <+: d.responses root lines) :
    ClientReads (lines.map (d.servedLine root)) received := by
  apply clientReads_of_isPrefix (plain_servedLines root h lines)
  rw [flatMap_servedLine]
  exact hr

end Disk

/-- A client has been sent the bytes of the answers to the lines of its input, and what it has
received of them makes the replies, in order. -/
def FileServer.RepliedTo (d : Disk) (root : DocRoot) (c : FileServer.Client) : Prop :=
  ∃ lines rest, c.received = unlines lines ++ rest ∧ (∀ l ∈ lines, LF ∉ l) ∧ LF ∉ rest ∧
    values c.sent = (lines.map (d.servedLine root)).flatMap Served.bytes ∧
    ∀ received, received <+: values c.sent → ClientReads (lines.map (d.servedLine root)) received

theorem FileServer.Responded.repliedTo {d : Disk} (hd : d.Sizes) {root : DocRoot}
    {c : FileServer.Client} (h : FileServer.Responded d root c) :
    FileServer.RepliedTo d root c := by
  obtain ⟨lines, hlines, hreceived, hlf, hsent⟩ := h
  refine ⟨lines, c.buf.pending, hreceived, hlines, hlf, ?_, fun received hr => ?_⟩
  · rw [hsent, Disk.flatMap_servedLine]
  · exact Disk.clientReads_responses root hd (hsent ▸ hr)

/-- **`file-server.c`, end to end.** Over a file system that does not change, in every run, whatever
the other clients and the signals do: a client none of whose own writes has failed since it was
accepted has been sent the answers to the lines of its input, and what it has received of them makes
the replies, in order. So has a removed client none of whose own writes had failed when it was
removed. -/
theorem file_server_end_to_end {d : Disk} (hd : d.Sizes) (root : DocRoot) {tr s}
    (h : (FileServer.server root).lts.Exec tr s)
    (hok : ∀ p ∈ tr, FileServer.Serves (·.ShowsFiles d) p.2) :
    (∀ c ∈ s.table.entries,
      ¬(FileServer.server root).HasHad FileServer.HandleEnv.WriteFails c.fd tr →
      FileServer.RepliedTo d root c) ∧
    ∀ c ∈ s.gone, ∃ pre p, pre ++ [p] <+: tr ∧ (FileServer.server root).Removes c p ∧
      (¬(FileServer.server root).HasHad FileServer.HandleEnv.WriteFails c.fd (pre ++ [p]) →
        FileServer.RepliedTo d root c) := by
  obtain ⟨hclient, hgone⟩ := FileServer.responded h hok
  refine ⟨fun c hc hwrites => (hclient c hc hwrites).repliedTo hd, fun c hc => ?_⟩
  obtain ⟨pre, p, hpre, hremoves, hresponded⟩ := hgone c hc
  exact ⟨pre, p, hpre, hremoves, fun hwrites => (hresponded hwrites).repliedTo hd⟩

namespace FileServer.Example

open AioServer.Example

/-- The system calls of a `serve_file` whose writes fail. -/
def broken : ServeEnv := { syncServe with writes := fun _ => [.error] }

/-- Three clients request the file. The write to the one with socket 7, which calls it `b`, fails;
the one with socket 6 closes its connection after the response. -/
def brokenRun : List (LoopAction Signal HandleEnv) :=
  [.turn, .select (.ready ⟨true, [], []⟩), .accept (some 5), .accept (some 6), .accept (some 7),
    .accept none, .handle ⟨[], fun _ => syncServe⟩, .handle ⟨[], fun _ => syncServe⟩,
    .handle ⟨[], fun _ => syncServe⟩,
    .next, .turn, .select (.ready ⟨false, [5, 6, 7], []⟩), .handle ⟨[98, LF], fun _ => broken⟩,
    .handle ⟨[97, LF], fun _ => syncServe⟩, .handle ⟨[97, LF], fun _ => syncServe⟩,
    .next, .turn, .select (.ready ⟨false, [6], []⟩), .handle ⟨[], fun _ => syncServe⟩,
    .handle ⟨[], fun _ => syncServe⟩]

theorem brokenRun_shows : ∀ a ∈ brokenRun, Serves (·.ShowsFiles fs.toDisk) a := by
  have hfiles := syncServe_shows.toShowsFiles
  have hbroken : broken.ShowsFiles fs.toDisk :=
    ⟨hfiles.realpath, hfiles.tells, hfiles.pread, hfiles.reads⟩
  simp [brokenRun, Serves, hfiles, hbroken]

/-- A visit in which `b` is read is one of the client with socket 7. -/
def readsAtSeven (p : LoopState Client World × LoopAction Signal HandleEnv) : Bool :=
  match p.2, p.1.phase with
  | .handle e, .pass _ (k + 1) => e.read != [98, LF] || (p.1.table.slots k).fd == 7
  | _, _ => true

/-- Only the client with socket 7 has had a failing write. -/
theorem not_hasHad_brokenRun {fd : ℕ} (hfd : fd ≠ 7) {tr}
    (h : tr <+: (server root).lts.trace (server root).start brokenRun) :
    ¬(server root).HasHad HandleEnv.WriteFails fd tr := by
  rintro ⟨⟨t, a⟩, post, hsuffix, ⟨e, ⟨rfl, r, k, hphase, hslot⟩, j, i, hfails⟩, -⟩
  have hmem := h.subset (hsuffix.subset List.mem_cons_self)
  have hread : ∀ e, .handle e ∈ brokenRun → (∀ k, e.serves k = syncServe) ∨ e.read = [98, LF] := by
    simp +contextual [brokenRun]
  have hbroken : ((server root).lts.trace (server root).start brokenRun).all readsAtSeven =
      true := by
    decide +kernel
  have hcheck := List.all_eq_true.mp hbroken _ hmem
  have hphase : t.phase = .pass r (k + 1) := hphase
  simp only [readsAtSeven, hphase] at hcheck
  rcases hread e (LTS.action_mem_of_mem_trace _ hmem) with hgood | hbad
  · rw [hgood j] at hfails
    exact hfails (syncServe_shows.writes i)
  · rw [hbad] at hcheck
    have hseven : (t.table.slots k).fd = 7 := by simpa using hcheck
    exact hfd (hslot.symm.trans hseven)

end FileServer.Example

open FileServer.Example in
/-- The clients whose writes succeed get their replies next to one whose write fails, connected or
not. -/
theorem file_server_end_to_end_brokenRun :
    ∃ s, (FileServer.server AioServer.Example.root).lts.Exec
        ((FileServer.server AioServer.Example.root).lts.trace
          (FileServer.server AioServer.Example.root).start brokenRun) s ∧
      (∃ c ∈ s.table.entries, c.received = [97, LF] ∧
        FileServer.RepliedTo AioServer.Example.fs.toDisk AioServer.Example.root c) ∧
      (∃ c ∈ s.gone, c.received = [97, LF] ∧
        FileServer.RepliedTo AioServer.Example.fs.toDisk AioServer.Example.root c) ∧
      ∃ c ∈ s.gone, c.received = [98, LF] ∧ c.sent = [] := by
  obtain ⟨s, hs, hcheck⟩ := LTS.exec_of_run_any (FileServer.server AioServer.Example.root).lts
    (FileServer.server AioServer.Example.root).start brokenRun (fun s => 0 < s.table.size ∧
      (s.table.slots 0).fd = 5 ∧ (s.table.slots 0).received = [97, LF] ∧
      s.gone.map (fun c => (c.fd, c.received, c.sent.length)) =
      [(7, [98, LF], 0), (6, [97, LF], 7)]) rfl
    (by decide +kernel)
  obtain ⟨hsize, hfd, hreceived, hgone⟩ := of_decide_eq_true hcheck
  have hmem : ∀ x ∈ [(7, [98, LF], 0), (6, [97, LF], 7)], ∃ c ∈ s.gone,
      (c.fd, c.received, c.sent.length) = x :=
    fun x hx => List.mem_map.mp (hgone ▸ hx)
  have hsizes : AioServer.Example.fs.toDisk.Sizes := by
    intro path
    show 1 < 2 ^ 63
    decide
  obtain ⟨hclient, hremoved⟩ := file_server_end_to_end hsizes AioServer.Example.root hs
    fun p hp => brokenRun_shows p.2 (LTS.action_mem_of_mem_trace _ hp)
  refine ⟨s, hs, ⟨_, Table.mem_entries.mpr ⟨0, hsize, rfl⟩, hreceived, ?_⟩, ?_, ?_⟩
  · exact hclient _ (Table.mem_entries.mpr ⟨0, hsize, rfl⟩)
      (not_hasHad_brokenRun (by rw [hfd]; decide) List.prefix_rfl)
  · obtain ⟨c, hc, heq⟩ := hmem (6, [97, LF], 7) (by simp)
    simp only [Prod.mk.injEq] at heq
    obtain ⟨hcfd, hcreceived, -⟩ := heq
    obtain ⟨pre, p, hpre, -, hreplied⟩ := hremoved c hc
    exact ⟨c, hc, hcreceived, hreplied (not_hasHad_brokenRun (by rw [hcfd]; decide) hpre)⟩
  · obtain ⟨c, hc, heq⟩ := hmem (7, [98, LF], 0) (by simp)
    simp only [Prod.mk.injEq] at heq
    obtain ⟨-, hcreceived, hcsent⟩ := heq
    exact ⟨c, hc, hcreceived, List.length_eq_zero_iff.mp hcsent⟩

/-- **`aio-file-server.c`, end to end.** In every run in which no client is moved while its read is
in flight, what a client has received of the bytes sent to it makes the replies to the requests
taken from its input so far, in order. -/
theorem aio_server_end_to_end {fs : StaticFs} (hfs : fs.toDisk.Sizes) (root : DocRoot) {tr s}
    (h : (AioServer.server root).lts.Exec tr s) (hok : ∀ p ∈ tr, AioServer.Reports fs p.1 p.2)
    (hmove : ∀ p ∈ tr, ¬AioServer.MovesInFlight root p.1 p.2) {c : AioServer.Client}
    (hc : c ∈ s.table.entries) :
    ∃ lines rest, c.received = unlines lines ++ rest ∧ (∀ l ∈ lines, LF ∉ l) ∧
      ∀ received, received <+: values c.sent →
        ClientReads (lines.map (fs.toDisk.servedLine root)) received := by
  obtain ⟨i, hi, rfl⟩ := Table.mem_entries.mp hc
  have hframed := ((AioServer.framed root).holds h fun _ _ => trivial).client i hi
  have hsent := AioServer.sent_isPrefix_answers fs root h hok hmove hi
  refine ⟨(s.table.slots i).requests, _, hframed.received, fun l hl => (hframed.lines l hl).1, ?_⟩
  intro received hr
  exact Disk.clientReads_responses root hfs (hr.trans hsent)

open AioServer in
/-- A client requests a file of one byte, which is read and written to it. -/
theorem aio_server_end_to_end_readRun :
    ∃ s, (server Example.root).lts.Exec
        ((server Example.root).lts.trace (server Example.root).start (readRun [104])) s ∧
      ∃ c ∈ s.table.entries, c.sent.length = 7 ∧ ∃ lines rest, c.received = unlines lines ++ rest ∧
        ClientReads (lines.map (Example.fs.toDisk.servedLine Example.root)) (values c.sent) := by
  obtain ⟨s, hs, hcheck⟩ := LTS.exec_of_run_any (server Example.root).lts
    (server Example.root).start (readRun [104]) (fun s => 0 < s.table.size ∧ s.gone.length = 0 ∧
      (s.table.slots 0).sent.length = 7) rfl
    (by decide +kernel)
  obtain ⟨hsize, hgone, hlen⟩ := of_decide_eq_true hcheck
  have hc := Table.mem_entries.mpr ⟨0, hsize, rfl⟩
  have hsizes : Example.fs.toDisk.Sizes := by
    intro path
    show 1 < 2 ^ 63
    decide
  have hall : ∀ a ∈ readRun [104], ∀ t, Reports Example.fs t a := by
    have hcontent : ∀ p, Example.fs.content p = [104] := fun _ => rfl
    simp [readRun, Example.accept, Example.round, Example.idle, Reports,
      Example.serve_reports, hcontent]
  obtain ⟨lines, rest, hlines, -, hreads⟩ := aio_server_end_to_end hsizes Example.root hs
    (fun p hp => hall p.2 (LTS.action_mem_of_mem_trace _ hp) p.1)
    (not_moves_of_gone_nil hs (List.length_eq_zero_iff.mp hgone)) hc
  exact ⟨s, hs, _, hc, hlen, lines, rest, hlines, hreads _ List.prefix_rfl⟩

end Osvcp.Servers
