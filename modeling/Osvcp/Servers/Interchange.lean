import Osvcp.Servers.TokioLines
import Osvcp.Servers.TokioTransparency

/-! # Three servers, one protocol

`file-server.c`, `rust-file-server` and `tokio-file-server` are to be read side by side. They build
the path to resolve, check it, and name the errors of `stat` and `open` differently, and they make
different names of some lines: C strings end at a zero byte, Rust replaces what is not UTF-8, and
Tokio trims more carriage returns. Over one file system, for a root other than `/` and for lines on
which all of this makes no difference (`Portable`), the three send the same files, and the same
bytes where `stat` and `open` do not fail (`servers_interchangeable`).
-/

namespace Osvcp.Servers

/-! ## One file system -/

/-- What the C server sees of a path. -/
def PathKind.fileKind : PathKind → FileKind
  | .noMetadata _ => .noStat
  | .notRegular => .notRegular
  | .unreadable _ => .unreadable
  | .readable => .readable

/-- The C library and the Rust library show the same file system. -/
structure SameFiles (d : Disk) (t : Tree) : Prop where
  resolve : ∀ name, d.realpath name = t.canonicalize name
  kind : ∀ path : CanonPath, d.kind path.bytes = (t.kind path).fileKind
  content : ∀ path : CanonPath, t.kind path = .readable → d.content path.bytes = t.content path

/-- `metadata` succeeds on what `canonicalize` returns, and every regular file can be opened. -/
def Tree.Opens (t : Tree) : Prop := ∀ path, t.kind path = .notRegular ∨ t.kind path = .readable

/-- The contents of a file, where a request comes to that. -/
def Served.body : Served → Option (List Byte)
  | .error _ => none
  | .file body => some body

/-- A line that all servers take for the same name. -/
structure Portable (line : List Byte) : Prop where
  lf : LF ∉ line
  nul : NUL ∉ line
  cr : ¬[CR, CR] <:+ line
  utf8 : validUtf8 line = true
  short : line.length < REQ_BUF_SIZE - 1

/-- The name that `handle_connection` of the Tokio server makes of a line. -/
def tokioName (line : List Byte) : List Byte := trimEnd (stripCr line)

/-! ## Names -/

theorem mem_of_mem_stripCr {b : Byte} {line : List Byte} (h : b ∈ stripCr line) : b ∈ line := by
  unfold stripCr at h
  split at h
  · exact List.mem_of_mem_dropLast h
  · exact h

theorem length_stripCr_le (line : List Byte) : (stripCr line).length ≤ line.length := by
  unfold stripCr
  split
  · rw [List.length_dropLast]
    exact Nat.sub_le _ _
  · exact Nat.le_refl _

/-- **The three names of a line.** -/
theorem Portable.names {line : List Byte} (h : Portable line) :
    LineBuf.lineString true line = stripCr line ∧ fromUtf8Lossy (stripCr line) = stripCr line ∧
      tokioName line = stripCr line := by
  refine ⟨?_, fromUtf8Lossy_of_valid (validUtf8_stripCr h.utf8),
    (trimEnd_stripCr_iff h.lf).mpr h.cr⟩
  show (stripCr line).takeWhile (· != NUL) = stripCr line
  rw [List.takeWhile_eq_self_iff]
  intro b hb
  rw [bne_iff_ne]
  rintro rfl
  exact h.nul (mem_of_mem_stripCr hb)

/-! ## Paths -/

section

variable {root : DocRoot}

/-- Only the root `/` ends with a slash. -/
theorem getLast?_bytes_ne (hroot : root.path.comps ≠ []) : root.bytes.getLast? ≠ some SLASH := by
  obtain ⟨init, c, hcomps⟩ := (List.eq_nil_or_concat root.path.comps).resolve_left hroot
  have hvalid := root.path.valid c (hcomps ▸ by simp)
  have hbytes : root.bytes = init.flatMap (SLASH :: ·) ++ [SLASH] ++ c := by
    rw [DocRoot.bytes, CanonPath.bytes]
    cases hc : root.path.comps with
    | nil => exact absurd hc hroot
    | cons x xs =>
        rw [CanonPath.render, ← hc, hcomps]
        simp
  rw [hbytes, List.getLast?_append_of_ne_nil _ hvalid.ne_nil]
  intro hlast
  exact hvalid.no_slash (List.mem_of_getLast? hlast)

/-- **The candidate paths** are the same, and not cut off. -/
theorem join_eq_candidate (hroot : root.path.comps ≠ []) {name : List Byte}
    (hname : name.length < REQ_BUF_SIZE - 1) : root.join name = root.candidate name := by
  have hfits : root.bytes.length < PATH_MAX := root.fits
  rw [DocRoot.join, if_neg (getLast?_bytes_ne hroot), DocRoot.candidate, List.take_of_length_le]
  rw [List.length_append, List.length_cons]
  have hsizes : PATH_MAX = 4096 ∧ REQ_BUF_SIZE = 512 := ⟨rfl, rfl⟩
  omega

/-- **The access checks** are the same. -/
theorem accessOk_eq_startsWith (hroot : root.path.comps ≠ []) (path : CanonPath) :
    root.accessOk path.bytes = startsWith path root.path := by
  have hinside : root.Inside path.bytes ↔ startsWith path root.path = true := by
    rw [DocRoot.Inside, CanonPath.components_bytes, startsWith_iff]
  rw [Bool.eq_iff_iff, ← hinside]
  exact ⟨DocRoot.inside_of_accessOk, DocRoot.accessOk_of_inside hroot⟩

end

/-! ## One request -/

section

variable {d : Disk} {t : Tree} {root : DocRoot}

/-- What the servers make of a path inside the root. -/
theorem SameFiles.servedPath (h : SameFiles d t) (metadata : String) (path : CanonPath) :
    (d.servedPath path.bytes).body = (t.servedPath metadata path).body ∧
      (t.Opens → d.servedPath path.bytes = t.servedPath metadata path) := by
  have hkind := h.kind path
  unfold Disk.servedPath Tree.servedPath
  cases hk : t.kind path with
  | noMetadata error =>
      rw [hk] at hkind
      rw [hkind]
      refine ⟨rfl, fun hopens => ?_⟩
      rcases hopens path with hno | hno <;> cases hk.symm.trans hno
  | notRegular =>
      rw [hk] at hkind
      rw [hkind]
      exact ⟨rfl, fun _ => rfl⟩
  | unreadable error =>
      rw [hk] at hkind
      rw [hkind]
      refine ⟨rfl, fun hopens => ?_⟩
      rcases hopens path with hno | hno <;> cases hk.symm.trans hno
  | readable =>
      rw [hk] at hkind
      rw [hkind]
      show (Served.file (d.content path.bytes)).body = _ ∧
        (_ → Served.file (d.content path.bytes) = _)
      rw [h.content path hk]
      exact ⟨rfl, fun _ => rfl⟩

/-- What the servers make of a name. -/
theorem SameFiles.served (h : SameFiles d t) (hroot : root.path.comps ≠ []) (metadata : String)
    {name : List Byte} (hname : name.length < REQ_BUF_SIZE - 1) :
    (d.served root name).body = (t.served metadata root name).body ∧
      (t.Opens → d.served root name = t.served metadata root name) := by
  unfold Disk.served Tree.served
  by_cases hempty : name = []
  · rw [if_pos hempty, if_pos hempty]
    exact ⟨rfl, fun _ => rfl⟩
  · rw [if_neg hempty, if_neg hempty]
    by_cases habs : name.head? = some SLASH
    · rw [if_pos habs, if_pos habs]
      exact ⟨rfl, fun _ => rfl⟩
    · rw [if_neg habs, if_neg habs, join_eq_candidate hroot hname, h.resolve]
      cases t.canonicalize (root.candidate name) with
      | none => exact ⟨rfl, fun _ => rfl⟩
      | some path =>
          simp only [accessOk_eq_startsWith hroot]
          by_cases hout : startsWith path root.path = false
          · rw [if_pos hout, if_pos hout]
            exact ⟨rfl, fun _ => rfl⟩
          · rw [if_neg hout, if_neg hout]
            exact h.servedPath metadata path

/-- **What the servers make of a line.** -/
theorem SameFiles.servedLine (h : SameFiles d t) (hroot : root.path.comps ≠ []) {line : List Byte}
    (hline : Portable line) :
    ((d.servedLine root line).body = (RustServer.servedLine t root line).body ∧
      (d.servedLine root line).body = (TokioServer.servedName t root (tokioName line)).body) ∧
    (t.Opens → d.servedLine root line = RustServer.servedLine t root line ∧
      d.servedLine root line = TokioServer.servedName t root (tokioName line)) := by
  obtain ⟨hc, hrust, htokio⟩ := hline.names
  have hname : (stripCr line).length < REQ_BUF_SIZE - 1 :=
    Nat.lt_of_le_of_lt (length_stripCr_le line) hline.short
  rw [Disk.servedLine, RustServer.servedLine, TokioServer.servedName, hc, hrust, htokio]
  obtain ⟨hbody, heq⟩ := h.served hroot "stat: " hname
  obtain ⟨hbody', heq'⟩ := h.served hroot "metadata: " hname
  exact ⟨⟨hbody, hbody'⟩, fun hopens => ⟨heq hopens, heq' hopens⟩⟩

end

/-! ## Runs -/

/-- In a run of the Tokio server, task `i` has taken from the reader on its connection all the lines
that these reads make, one after the other, and has asked for each of them, trimmed. -/
def TokioServer.HasRead {ρ : Type*} (R : LineReader ρ) (reads : List (List Byte)) (i : ℕ)
    (tr : List (TokioServer.State × TokioServer.Action)) : Prop :=
  ∃ texts, R.Yields (R.opened reads) texts ∧ TokioServer.requested i tr = texts.map trimEnd

/-- The names it has asked for are those of the lines that were sent. -/
theorem TokioServer.HasRead.requested_eq {ρ : Type*} {R : LineReader ρ} (hR : R.YieldsLines)
    {reads lines : List (List Byte)} (hne : ∀ bytes ∈ reads, bytes ≠ [])
    (hlines : ∀ l ∈ lines, Portable l)
    (hflat : reads.flatten = unlines lines) {i : ℕ}
    {tr : List (TokioServer.State × TokioServer.Action)} (h : TokioServer.HasRead R reads i tr) :
    TokioServer.requested i tr = lines.map tokioName := by
  obtain ⟨texts, hyields, hrequested⟩ := h
  have hvalid := validUtf8_unlines fun l hl => (hlines l hl).utf8
  have hgiven := hR reads lines [] hne (fun l hl => (hlines l hl).lf) List.not_mem_nil
    (by rw [hflat, List.append_nil]) (hflat ▸ hvalid)
  rw [if_pos rfl, List.append_nil] at hgiven
  rw [hrequested, hyields.unique hgiven, List.map_map]
  rfl

/-- A stream is cut into lines in one way. -/
theorem unlines_injective {ls ms : List (List Byte)} {rest : List Byte} (hls : ∀ l ∈ ls, LF ∉ l)
    (hms : ∀ l ∈ ms, LF ∉ l) (hrest : LF ∉ rest) (h : unlines ls = unlines ms ++ rest) :
    ls = ms := by
  have hle : ls <+: ms :=
    isPrefix_of_unlines hls hms hrest List.prefix_rfl (h ▸ List.prefix_rfl) (.inl h.symm)
  have hge : ms <+: ls := by
    have hnil : unlines ls ++ [] = unlines ls := List.append_nil _
    refine isPrefix_of_unlines hms hls List.not_mem_nil (s := unlines ls) ?_ ?_ (.inl hnil)
    · rw [h]
      exact List.prefix_append _ _
    · rw [hnil]
  exact hle.eq_of_length_le hge.length_le

/-- **The servers are interchangeable.** Take any run of each of the three servers over one file
system that does not change, below a root other than `/`: a client of the C server, connected or
removed, on whose socket no write has failed, a connected client of the Rust server, and a task of
the Tokio server that waits for the next line. If the three have sent the same portable lines,
however these were cut into reads, they have been sent answers with the same files, line by line,
and the same bytes if `metadata` and `open` do not fail. -/
theorem servers_interchangeable {d : Disk} {t : Tree} (hsame : SameFiles d t) {root : DocRoot}
    (hroot : root.path.comps ≠ []) {lines : List (List Byte)} (hlines : ∀ l ∈ lines, Portable l)
    {tr s} (h : (FileServer.server root).lts.Exec tr s)
    (hok : ∀ p ∈ tr, FileServer.Serves (·.ShowsFiles d) p.2)
    {c : FileServer.Client} (hc : c ∈ s.table.entries ∨ c ∈ s.gone)
    (hwrites : ∀ p ∈ tr, ∀ e, (FileServer.server root).Visited c.fd e p → ¬e.WriteFails)
    (hin : c.received = unlines lines)
    {tr' s'} (h' : (RustServer.server root).lts.Exec tr' s')
    (hok' : ∀ p ∈ tr', RustServer.Reports t p.2) {c' : RustServer.Client}
    (hc' : c' ∈ s'.table.entries) (hin' : c'.received = unlines lines)
    {tr'' s''} (h'' : (TokioServer.lts root).Exec tr'' s'')
    (hok'' : ∀ p ∈ tr'', TokioServer.Reports t p) {ρ : Type*} {R : LineReader ρ}
    (hR : R.YieldsLines) {reads : List (List Byte)}
    (hne : ∀ bytes ∈ reads, bytes ≠ []) {i : ℕ} (hpc : (s''.conns i).pc = .waiting)
    (hread : TokioServer.HasRead R reads i tr'') (hin'' : reads.flatten = unlines lines) :
    (∃ as as' as'' : List Served,
      values c.sent = as.flatMap Served.bytes ∧ values c'.sent = as'.flatMap Served.bytes ∧
      values (s''.conns i).sent = as''.flatMap Served.bytes ∧ as.length = lines.length ∧
      as'.map Served.body = as.map Served.body ∧ as''.map Served.body = as.map Served.body) ∧
    (t.Opens → values c'.sent = values c.sent ∧ values (s''.conns i).sent = values c.sent) := by
  have hlf : ∀ l ∈ lines, LF ∉ l := fun l hl => (hlines l hl).lf
  have hresponded := FileServer.responded_of_writes h hok hc hwrites
  have hrust : RustServer.Responded t root c' := by
    obtain ⟨j, hj, rfl⟩ := Table.mem_entries.mp hc'
    exact ((RustServer.responded t root).holds h' hok').client j hj
  have htokio := (TokioServer.stands_of_exec h'' hok'').2 i
  rw [hpc, hread.requested_eq hR hne hlines hin''] at htokio
  -- the lines each of them has answered are the lines of the input
  obtain ⟨ls, hls, hreceived, hpending, hsent⟩ := hresponded
  obtain rfl := unlines_injective hlf hls hpending (hin.symm.trans hreceived)
  obtain ⟨hbuf, ls', hinput', hls', hsent'⟩ := hrust
  obtain rfl := unlines_injective hlf hls' hbuf (hin'.symm.trans hinput')
  have hsent'' : values (s''.conns i).sent =
      (lines.map fun l => TokioServer.servedName t root (tokioName l)).flatMap Served.bytes := by
    rw [show values (s''.conns i).sent = _ from htokio, answerBytes, List.map_map]
    rfl
  rw [← Disk.flatMap_servedLine] at hsent
  have hsent' : values c'.sent = (lines.map (RustServer.servedLine t root)).flatMap Served.bytes :=
    hsent'
  refine ⟨⟨_, _, _, hsent, hsent', hsent'', List.length_map _, ?_, ?_⟩, fun hopens => ⟨?_, ?_⟩⟩
  · rw [List.map_map, List.map_map]
    exact List.map_congr_left fun l hl => ((hsame.servedLine hroot (hlines l hl)).1.1).symm
  · rw [List.map_map, List.map_map]
    exact List.map_congr_left fun l hl => ((hsame.servedLine hroot (hlines l hl)).1.2).symm
  · rw [hsent, hsent']
    refine congrArg (List.flatMap Served.bytes) (List.map_congr_left fun l hl => ?_)
    exact (((hsame.servedLine hroot (hlines l hl)).2 hopens).1).symm
  · rw [hsent, hsent'']
    refine congrArg (List.flatMap Served.bytes) (List.map_congr_left fun l hl => ?_)
    exact (((hsame.servedLine hroot (hlines l hl)).2 hopens).2).symm

namespace Interchange.Example

open DocRoot.Example

/-- The file system of `RustServer.Example`, as the C library shows it. -/
def disk : Disk where
  realpath _ := some path
  realpath_fits := by
    rintro _ _ ⟨⟩
    decide
  kind _ := .readable
  content _ := [104]

/-- The system calls of a `serve_file` of the C server on it. -/
def calls : FileServer.ServeEnv :=
  ⟨fun _ => some path, fun _ => .ok true 1, fun _ => true, true, fun _ => some [104],
    fun _ => [[104]], fun _ => []⟩

/-- A client connects and sends some bytes. -/
def session {A H : Type} (idle : H) (handle : H) : List (LoopAction A H) :=
  [.turn, .select (.ready ⟨true, [], []⟩), .accept (some 5), .accept none, .handle idle,
    .next, .turn, .select (.ready ⟨false, [5], []⟩), .handle handle]

/-- Two requests in one read. -/
def input : List Byte := [97, LF, 97, LF]

theorem sameFiles : SameFiles disk RustServer.Example.tree where
  resolve _ := rfl
  kind _ := rfl
  content _ _ := rfl

theorem calls_shows : calls.Shows disk where
  realpath := rfl
  tells _ := ⟨rfl, rfl⟩
  pread _ _ h := by
    cases h
    exact List.prefix_rfl
  reads _ := by
    refine ⟨rfl, fun chunk hchunk => ?_⟩
    rw [List.mem_singleton.mp hchunk]
    exact ⟨by decide, by decide⟩
  writes _ := ⟨List.not_mem_nil, List.not_mem_nil⟩

theorem portable : ∀ l ∈ [[97], [97]], Portable l := by
  intro l hl
  obtain rfl : l = [97] := by simpa using hl
  exact ⟨by decide, by decide, by decide, validUtf8_of_ascii (by decide), by decide⟩

end Interchange.Example

open Interchange.Example in
/-- Two requests for one file to each of the servers. -/
theorem servers_interchangeable_twice :
    ∃ s s' s'', (FileServer.server DocRoot.Example.root).lts.Reachable s ∧
      (RustServer.server DocRoot.Example.root).lts.Reachable s' ∧
      (TokioServer.lts DocRoot.Example.root).Reachable s'' ∧ (s.table.slots 0).sent.length = 14 ∧
      values (s'.table.slots 0).sent = values (s.table.slots 0).sent ∧
      values (s''.conns 0).sent = values (s.table.slots 0).sent := by
  obtain ⟨s, hs, hcheck⟩ := LTS.exec_of_run_any (FileServer.server DocRoot.Example.root).lts
    (FileServer.server DocRoot.Example.root).start
    (session ⟨[], fun _ => calls⟩ ⟨input, fun _ => calls⟩)
    (fun s => 0 < s.table.size ∧ (s.table.slots 0).received = input ∧
      (s.table.slots 0).sent.length = 14) rfl
    (by decide +kernel)
  obtain ⟨hsize, hin, hlen⟩ := of_decide_eq_true hcheck
  obtain ⟨s', hs', hcheck'⟩ := LTS.exec_of_run_any (RustServer.server DocRoot.Example.root).lts
    (RustServer.server DocRoot.Example.root).start
    (session ⟨[], fun _ => RustServer.Example.calls []⟩
      ⟨input, fun _ => RustServer.Example.calls []⟩)
    (fun s => 0 < s.table.size ∧ (s.table.slots 0).received = input) rfl (by decide +kernel)
  obtain ⟨hsize', hin'⟩ := of_decide_eq_true hcheck'
  obtain ⟨s'', hs'', hcheck''⟩ := LTS.exec_of_run_any (TokioServer.lts DocRoot.Example.root)
    TokioServer.Example.start TokioServer.Example.shared
    (fun s => (match (s.conns 0).pc with | .waiting => true | _ => false) = true) rfl
    (by decide +kernel)
  have hpc : (s''.conns 0).pc = .waiting := by
    have hmatch := of_decide_eq_true hcheck''
    split at hmatch
    · assumption
    · cases hmatch
  have hall : ∀ a ∈ session ⟨[], fun _ => calls⟩ ⟨input, fun _ => calls⟩,
      FileServer.Serves (·.ShowsFiles disk) a ∧ ∀ e, a = .handle e → ¬e.WriteFails := by
    have hwrites : ∀ j, NoFailure (calls.writes j) := calls_shows.writes
    simp [session, FileServer.Serves, calls_shows.toShowsFiles,
      FileServer.HandleEnv.WriteFails, hwrites]
  have hall' : ∀ a ∈ session ⟨[], fun _ => RustServer.Example.calls []⟩
      ⟨input, fun _ => RustServer.Example.calls []⟩,
      RustServer.Reports RustServer.Example.tree a := by
    simp [session, RustServer.Reports, RustServer.Example.calls_shows]
  have hroot : DocRoot.Example.root.path.comps ≠ [] := by decide
  -- the Tokio server gets the two lines in three reads
  have hread : TokioServer.HasRead streamLines [[97], [LF, 97], [LF]] 0
      ((TokioServer.lts DocRoot.Example.root).trace TokioServer.Example.start
        TokioServer.Example.shared) :=
    ⟨[[97], [97]], streamLines_yieldsLines _ [[97], [97]] [] (by decide)
      (by decide) List.not_mem_nil rfl (validUtf8_of_ascii (by decide)), by decide +kernel⟩
  have hequal := (servers_interchangeable sameFiles hroot portable hs
    (fun p hp => (hall p.2 (LTS.action_mem_of_mem_trace _ hp)).1)
    (.inl (Table.mem_entries.mpr ⟨0, hsize, rfl⟩))
    (fun p hp e he => (hall p.2 (LTS.action_mem_of_mem_trace _ hp)).2 e he.1) hin hs'
    (fun p hp => hall' p.2 (LTS.action_mem_of_mem_trace _ hp))
    (Table.mem_entries.mpr ⟨0, hsize', rfl⟩) hin'
    hs'' TokioServer.Example.shared_reports streamLines_yieldsLines (by decide) hpc hread rfl).2
    fun _ => .inr rfl
  exact ⟨s, s', s'', ⟨_, hs⟩, ⟨_, hs'⟩, ⟨_, hs''⟩, hlen, hequal⟩

end Osvcp.Servers
