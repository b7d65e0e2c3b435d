import Osvcp.Servers.ClientTable

/-! # The cache of `file-server.c` is transparent

Over a file system that does not change, the bytes `serve_file` sends for a request depend on the
request alone: `Disk.response` gives them. Whether they come from the cache, from one `pread` of the
whole file or from the streaming loop is decided by the history of insertions, evictions and
flushes, by the size of the file and by the outcome of `malloc` and `pread`, and makes no
difference. The invariant behind it is `Disk.CacheOk`: every entry is the complete response for the
file of its key. `cacheTransparent_iff` states this for any sequence of requests and flushes and for
the runs of the server.
-/

namespace Osvcp.Servers

/-- What a path names. -/
inductive FileKind
  /-- `stat` fails. -/
  | noStat
  | notRegular
  /-- A regular file that cannot be opened. -/
  | unreadable
  | readable
  deriving DecidableEq

/-- A file system that does not change. `realpath` fails on what does not fit its buffer; the
contents are those of the readable files. -/
structure Disk where
  realpath : List Byte → Option CanonPath
  realpath_fits : ∀ name path, realpath name = some path → path.bytes.length < PATH_MAX
  kind : List Byte → FileKind
  content : List Byte → List Byte

namespace Disk

variable (d : Disk)

/-- The answers of `stat` and `open` are those of the file system. -/
def Tells (path : List Byte) (stat : StatResult) (openOk : Bool) : Prop :=
  match d.kind path with
  | .noStat => ∃ isReg, stat = .failed isReg
  | .notRegular => ∃ size, stat = .ok false size
  | .unreadable => ∃ size, stat = .ok true size ∧ openOk = false
  | .readable => stat = .ok true (d.content path).length ∧ openOk = true

/-- The data of a complete read of a readable file whose path fits the key buffer. -/
def Reads (path data : List Byte) : Prop :=
  strncpyPath path = path ∧ d.kind path = .readable ∧ data = d.content path

/-- The response with the contents of a file. -/
def fileBytes (path : List Byte) : List Byte :=
  values (okHeader (d.content path).length) ++ d.content path

/-- The response for a path inside the root. -/
def pathResponse (path : List Byte) : List Byte :=
  match d.kind path with
  | .noStat => values (errLine "stat failed")
  | .notRegular => values (errLine "not a regular file")
  | .unreadable => values (errLine "open failed")
  | .readable => d.fileBytes path

/-- The response to a request for a file name. -/
def response (root : DocRoot) (name : List Byte) : List Byte :=
  if name = [] then values (errLine "empty filename")
  else if name.head? = some SLASH then values (errLine "absolute paths not allowed")
  else
    match d.realpath (root.candidate name) with
    | none => values (errLine "not found")
    | some path =>
        if root.accessOk path.bytes = false then values (errLine "access denied")
        else d.pathResponse path.bytes

/-- The responses to a list of request lines. -/
def responses (root : DocRoot) (lines : List (List Byte)) : List Byte :=
  lines.flatMap fun line => d.response root (LineBuf.lineString true line)

/-- The cached responses are those of the file system. -/
def CacheOk (cache : List CacheEntry) : Prop := ∀ entry ∈ cache, Whole d.Reads entry.key entry.resp

variable {d} {root : DocRoot}

theorem responses_append_singleton (lines : List (List Byte)) (line : List Byte) :
    d.responses root (lines ++ [line]) =
      d.responses root lines ++ d.response root (LineBuf.lineString true line) := by
  simp [responses]

theorem cacheOk_nil : d.CacheOk [] := fun _ h => absurd h List.not_mem_nil

theorem strncpyPath_of_realpath {name : List Byte} {path : CanonPath}
    (h : d.realpath name = some path) : strncpyPath path.bytes = path.bytes :=
  List.take_of_length_le (Nat.le_sub_one_of_lt (d.realpath_fits name path h))

/-- The response to a name that is resolved inside the root. -/
theorem response_of_realpath {name : List Byte} {path : CanonPath} (hne : name ≠ [])
    (hrel : name.head? ≠ some SLASH) (hreal : d.realpath (root.candidate name) = some path)
    (hacc : root.accessOk path.bytes = true) :
    d.response root name = d.pathResponse path.bytes := by
  unfold response
  rw [if_neg hne, if_neg hrel, hreal]
  simp only
  rw [if_neg (by simp [hacc])]

/-- A complete response is the response with the contents of the file of its key. -/
theorem values_of_whole {key : List Byte} {cells : List Cell} (h : Whole d.Reads key cells) :
    d.kind key = .readable ∧ values cells = d.fileBytes key := by
  obtain ⟨path, flushes, data, hkey, ⟨hcut, hkind, rfl⟩, rfl⟩ := h
  obtain rfl : path = key := hcut.symm.trans hkey
  exact ⟨hkind, by simp [fileBytes]⟩

theorem pathResponse_of_readable {path : List Byte} (h : d.kind path = .readable) :
    d.pathResponse path = d.fileBytes path := by
  rw [pathResponse, h]

/-- More lines, more responses. -/
theorem responses_mono {ls ms : List (List Byte)} (h : ls <+: ms) :
    d.responses root ls <+: d.responses root ms := by
  obtain ⟨t, rfl⟩ := h
  rw [responses, responses, List.flatMap_append]
  exact List.prefix_append _ _

end Disk

namespace FileServer

/-- The system calls on the files of one `serve_file` report the file system: `pread` returns any
part of the file from its start or fails, and the `read`s return it piece by piece. `malloc` may do
as it likes. -/
structure ServeEnv.ShowsFiles (e : ServeEnv) (d : Disk) : Prop where
  realpath : e.realpath = d.realpath
  tells : ∀ path, d.Tells path (e.stat path) (e.openOk path)
  pread : ∀ path data, e.pread path = some data → data <+: d.content path
  reads : ∀ path, (e.reads path).flatten = d.content path ∧
    ∀ chunk ∈ e.reads path, chunk ≠ [] ∧ chunk.length ≤ FILE_BUF_SIZE

/-- The system calls of one `serve_file` report the file system, and no write fails. -/
structure ServeEnv.Shows (e : ServeEnv) (d : Disk) : Prop extends e.ShowsFiles d where
  writes : ∀ k, NoFailure (e.writes k)

/-! ## One request -/

section

variable {d : Disk} {root : DocRoot} {e : ServeEnv} {st : Serving}

theorem Serving.write_of_noFailure {rs : List WriteResult} (h : NoFailure rs) (st : Serving)
    (msg : List Cell) : st.write rs msg = ({ st with sent := st.sent ++ msg }, false) := by
  unfold Serving.write
  rw [writeAll_of_noFailure h]
  rfl

/-- The bytes the streaming loop reads: the chunks before the first empty one. -/
def streamed : List (List Byte) → List Byte
  | [] => []
  | chunk :: chunks =>
      match chunk.take FILE_BUF_SIZE with
      | [] => []
      | bytes => bytes ++ streamed chunks

theorem streamed_of_chunks {chunks : List (List Byte)}
    (h : ∀ chunk ∈ chunks, chunk ≠ [] ∧ chunk.length ≤ FILE_BUF_SIZE) :
    streamed chunks = chunks.flatten := by
  induction chunks with
  | nil => rfl
  | cons chunk chunks ih =>
      obtain ⟨hne, hlen⟩ := h chunk List.mem_cons_self
      rw [streamed, List.take_of_length_le hlen, ih fun c hc => h c (List.mem_cons_of_mem _ hc)]
      split
      · exact absurd rfl hne
      · rw [List.flatten_cons]

/-- The streaming loop sends what it reads. -/
theorem stream_of_noFailure {writes : ℕ → List WriteResult} (h : ∀ k, NoFailure (writes k))
    (src : Source) (k : ℕ) (chunks : List (List Byte)) (st : Serving) :
    stream writes src k chunks st =
      ({ st with sent := st.sent ++ fileCells src (streamed chunks) }, false) := by
  induction chunks generalizing k st with
  | nil => simp [stream, streamed, fileCells]
  | cons chunk chunks ih =>
      rw [stream, streamed]
      cases hread : chunk.take FILE_BUF_SIZE with
      | nil => simp [fileCells]
      | cons b bytes =>
          simp only
          rw [Serving.write_of_noFailure (h k)]
          simp only
          rw [ih (k + 1)]
          simp [fileCells]

/-- One buffer for the whole file holds the contents. -/
theorem readWhole_eq_content (he : e.ShowsFiles d) {path data : List Byte}
    (h : readWhole e path (d.content path).length = some data) : data = d.content path := by
  unfold readWhole at h
  split at h
  · split at h
    · rename_i data' hdata
      split at h
      · rename_i hlen
        cases h
        by_cases hpos : 0 < (d.content path).length
        · rw [if_pos hpos] at hdata
          obtain ⟨all, hall, rfl⟩ := Option.map_eq_some_iff.mp hdata
          have hpre := (List.take_prefix (d.content path).length all).trans (he.pread path all hall)
          exact hpre.eq_of_length hlen
        · rw [if_neg hpos] at hdata
          cases hdata
          have hzero : (d.content path).length = 0 := by omega
          exact (List.length_eq_zero_iff.mp hzero).symm
      · cases h
    · cases h
  · cases h

/-- A response that is put into the cache is that of the file system. -/
theorem whole_of_fills (he : e.ShowsFiles d) {path : List Byte}
    (hpath : strncpyPath path = path) {w : World}
    {resp : List Cell} (h : fills e path w = some resp) :
    Whole d.Reads (strncpyPath path) resp := by
  obtain ⟨size, data, hstat, hopen, hread, rfl⟩ := fills_eq_some h
  have htells := he.tells path
  rw [Disk.Tells, hstat, hopen] at htells
  cases hkind : d.kind path with
  | noStat =>
      rw [hkind] at htells
      obtain ⟨isReg, hno⟩ := htells
      cases hno
  | notRegular =>
      rw [hkind] at htells
      obtain ⟨size', hno⟩ := htells
      cases hno
  | unreadable =>
      rw [hkind] at htells
      obtain ⟨size', -, hno⟩ := htells
      cases hno
  | readable =>
      rw [hkind] at htells
      obtain ⟨hsize, -⟩ := htells
      cases hsize
      obtain rfl := readWhole_eq_content he hread
      exact ⟨path, w.flushes, d.content path, rfl, ⟨hpath, hkind, rfl⟩, rfl⟩

/-- **`serve_file` keeps a cache of the responses of the file system**, whatever the writes do. -/
theorem cacheOk_cacheAfter (root : DocRoot) (he : e.ShowsFiles d) (name : List Byte) {w : World}
    (h : d.CacheOk w.cache) : d.CacheOk (cacheAfter root e name w) := by
  rcases cacheAfter_cases root e name w with heq | ⟨path, resp, hres, hfills, heq⟩
  · rw [heq]
    exact h
  · rw [heq]
    obtain ⟨-, -, hreal, -⟩ := resolve_eq_some hres
    have hpath := Disk.strncpyPath_of_realpath (he.realpath ▸ hreal)
    exact fun entry hentry => whole_of_mem_cacheInsert h (whole_of_fills he hpath hfills) hentry

/-- The outcome of a request: what is sent is the response, and the connection stays open. -/
structure Sends (st : Serving) (response : List Byte) (r : Serving × Bool) : Prop where
  opened : r.2 = false
  sent : values r.1.sent = values st.sent ++ response

theorem sends_write {rs : List WriteResult} (h : NoFailure rs) (msg : List Cell) :
    Sends st (values msg) (st.write rs msg) := by
  rw [Serving.write_of_noFailure h]
  exact ⟨rfl, by simp⟩

theorem sends_sendError (st : Serving) {rs : List WriteResult} (h : NoFailure rs)
    (reason : String) :
    Sends st (values (errLine reason)) (st.sendError rs reason) := by
  unfold Serving.sendError
  rw [Serving.write_of_noFailure h]
  exact ⟨rfl, by simp⟩

/-- What was sent before a path is touched was sent before. -/
theorem Sends.of_touch {path response : List Byte} {r : Serving × Bool}
    (h : Sends (st.touch path) response r) : Sends st response r := ⟨h.opened, h.sent⟩

/-- A readable file, read into one buffer or streamed. -/
theorem serveReadable_sends (he : e.Shows d) {path : List Byte} (hkind : d.kind path = .readable) :
    Sends st (d.fileBytes path) (serveFromDisk e path st) := by
  have hw := he.writes 0
  have htells := he.tells path
  rw [Disk.Tells, hkind] at htells
  obtain ⟨hstat, hopen⟩ := htells
  unfold serveFromDisk
  simp only [hstat, hopen, Bool.true_eq_false, if_false]
  split
  · rename_i data hdata
    obtain rfl := readWhole_eq_content he.toShowsFiles hdata
    rw [Serving.write_of_noFailure hw]
    exact ⟨rfl, by simp [Disk.fileBytes, Serving.insert, Serving.touch]⟩
  · -- the file is too large, or `malloc` or `pread` failed: it is copied chunk by chunk
    obtain ⟨hflat, hchunks⟩ := he.reads path
    rw [Serving.write_of_noFailure hw]
    simp only
    rw [stream_of_noFailure he.writes, streamed_of_chunks hchunks, hflat]
    exact ⟨rfl, by simp [Disk.fileBytes, Serving.touch]⟩

/-- `serve_file` behind the cache. -/
theorem serveFromDisk_sends (he : e.Shows d) (path : List Byte) :
    Sends st (d.pathResponse path) (serveFromDisk e path st) := by
  have hw := he.writes 0
  have htells := he.tells path
  rw [Disk.Tells] at htells
  cases hkind : d.kind path with
  | noStat =>
      rw [hkind] at htells
      obtain ⟨isReg, hstat⟩ := htells
      unfold serveFromDisk Disk.pathResponse
      simp only [hstat, hkind]
      exact (sends_sendError (st.touch path) hw _).of_touch
  | notRegular =>
      rw [hkind] at htells
      obtain ⟨size, hstat⟩ := htells
      unfold serveFromDisk Disk.pathResponse
      simp only [hstat, hkind]
      exact (sends_sendError (st.touch path) hw _).of_touch
  | unreadable =>
      rw [hkind] at htells
      obtain ⟨size, hstat, hopen⟩ := htells
      unfold serveFromDisk Disk.pathResponse
      simp only [hstat, hkind, hopen, if_true]
      exact (sends_sendError ((st.touch path).touch path) hw _).of_touch.of_touch
  | readable =>
      rw [Disk.pathResponse_of_readable hkind]
      exact serveReadable_sends he hkind

/-- **`serve_file` sends the response**, from whatever cache of complete responses. -/
theorem serveFile_sends (root : DocRoot) (he : e.Shows d) (st : Serving)
    (hcache : d.CacheOk st.world.cache) (name : List Byte) :
    Sends st (d.response root name) (serveFile root e name st) := by
  have hw := he.writes 0
  unfold serveFile
  split
  · rename_i hempty
    rw [Disk.response, if_pos hempty]
    exact sends_sendError st hw _
  · rename_i hne
    split
    · rename_i habs
      rw [Disk.response, if_neg hne, if_pos habs]
      exact sends_sendError st hw _
    · rename_i hrel
      rw [he.realpath]
      split
      · rename_i hreal
        rw [Disk.response, if_neg hne, if_neg hrel, hreal]
        exact sends_sendError st hw _
      · rename_i path hreal
        split
        · rename_i hacc
          rw [Disk.response, if_neg hne, if_neg hrel, hreal]
          simp only
          rw [if_pos hacc]
          exact sends_sendError st hw _
        · rename_i hacc
          have hacc : root.accessOk path.bytes = true := by simpa using hacc
          rw [Disk.response_of_realpath hne hrel hreal hacc]
          cases hlook : cacheLookup st.world.cache path.bytes with
          | some entry =>
              -- an entry of any age holds the file as it is, since the file system is static
              obtain ⟨hmem, hkey⟩ := mem_of_cacheLookup hlook
              obtain ⟨hkind, hvalues⟩ := Disk.values_of_whole (hcache entry hmem)
              rw [hkey] at hkind hvalues
              rw [Disk.pathResponse_of_readable hkind, ← hvalues]
              exact sends_write hw _
          | none => exact serveFromDisk_sends he path.bytes

end

/-! ## Sequences of requests and flushes -/

/-- What happens to the cache: a request for a file name with the system calls made for it, by
whichever client, or a `cache_clear`. -/
inductive Call
  | request (e : ServeEnv) (name : List Byte)
  | cacheClear

/-- The world after a call. -/
def Call.run (root : DocRoot) (w : World) : Call → World
  | .request e name => (serveFile root e name ⟨0, [], w⟩).1.world
  | .cacheClear => { w with cache := [], flushes := w.flushes + 1 }

/-- The system calls of a call report the file system. -/
def Call.Shows (d : Disk) : Call → Prop
  | .request e _ => e.Shows d
  | .cacheClear => True

/-- The world at the start: nothing is cached. -/
def World.start : World := ⟨[], true, false, 0, []⟩

/-- The bytes `serve_file` writes for a request. -/
def written (root : DocRoot) (e : ServeEnv) (name : List Byte) (w : World) : List Byte :=
  values (serveFile root e name ⟨0, [], w⟩).1.sent

theorem cacheOk_call {d : Disk} (root : DocRoot) {w : World} (hw : d.CacheOk w.cache) {call : Call}
    (h : call.Shows d) : d.CacheOk (call.run root w).cache := by
  cases call with
  | request e name =>
      show d.CacheOk (serveFile root e name ⟨0, [], w⟩).1.world.cache
      rw [cache_serveFile]
      exact cacheOk_cacheAfter root h.toShowsFiles name hw
  | cacheClear => exact Disk.cacheOk_nil

/-- After any sequence of calls the cached responses are those of the file system. -/
theorem cacheOk_calls {d : Disk} (root : DocRoot) {calls : List Call}
    (h : ∀ call ∈ calls, call.Shows d) {w : World} (hw : d.CacheOk w.cache) :
    d.CacheOk (calls.foldl (Call.run root) w).cache := by
  induction calls generalizing w with
  | nil => exact hw
  | cons call calls ih =>
      apply ih fun c hc => h c (List.mem_cons_of_mem _ hc)
      exact cacheOk_call root hw (h call List.mem_cons_self)

/-- What is written is the response. -/
theorem written_eq_response {d : Disk} (root : DocRoot) {e : ServeEnv} (he : e.Shows d) {w : World}
    (hw : d.CacheOk w.cache) (name : List Byte) : written root e name w = d.response root name :=
  (serveFile_sends root he ⟨0, [], w⟩ hw name).sent

/-! ## Runs of the server -/

/-- The system calls of a step report the file system. -/
def Shows (d : Disk) : LoopAction Signal HandleEnv → Prop
  | .handle e => ∀ k, (e.serves k).Shows d
  | _ => True

/-- What a client has been sent are the responses to the lines of its input. -/
def Responded (d : Disk) (root : DocRoot) (c : Client) : Prop :=
  ∃ lines, (∀ l ∈ lines, LF ∉ l) ∧ c.received = unlines lines ++ c.buf.pending ∧
    LF ∉ c.buf.pending ∧ values c.sent = d.responses root lines

/-- The cache in every run whose system calls on files report the file system. -/
theorem cacheOk (d : Disk) (root : DocRoot) :
    (server root).LocalInvariant (fun _ a => Serves (·.ShowsFiles d) a)
    (fun _ w => d.CacheOk w.cache)
      (fun _ _ _ => True) (fun _ => True) :=
  cache_invariant (·.ShowsFiles d) root Disk.cacheOk_nil
    fun _ name _ he hcache => cacheOk_cacheAfter root he name hcache

/-- One more line. -/
theorem serveLine_responds {d : Disk} {root : DocRoot} {envs : ℕ → ServeEnv}
    (he : ∀ k, (envs k).Shows d) {input line rest : List Byte} {lines : List (List Byte)}
    {st : Serving}
    (hcache : d.CacheOk st.world.cache) (hlines : ∀ l ∈ lines, LF ∉ l) (hlf : LF ∉ line)
    (hinput : input = unlines lines ++ (line ++ LF :: rest))
    (hsent : values st.sent = d.responses root lines) :
    (serveLine root envs st line (LineBuf.lineString true line)).2 = false ∧
      d.CacheOk (serveLine root envs st line (LineBuf.lineString true line)).1.world.cache ∧
      ∃ lines, (∀ l ∈ lines, LF ∉ l) ∧ input = unlines lines ++ rest ∧
        values (serveLine root envs st line (LineBuf.lineString true line)).1.sent =
          d.responses root lines := by
  have hs := serveFile_sends root (he st.calls) { st with calls := st.calls + 1 } hcache
    (LineBuf.lineString true line)
  refine ⟨hs.opened, ?_, lines ++ [line], ?_, ?_, ?_⟩
  · show d.CacheOk (serveFile root _ _ { st with calls := st.calls + 1 }).1.world.cache
    rw [cache_serveFile]
    exact cacheOk_cacheAfter root (he st.calls).toShowsFiles _ hcache
  · intro l hl
    rcases List.mem_append.mp hl with hl | hl
    · exact hlines l hl
    · exact List.mem_singleton.mp hl ▸ hlf
  · rw [hinput, unlines_append_singleton]
    simp
  · rw [Disk.responses_append_singleton, ← hsent]
    exact hs.sent

/-- The handling of one client responds to the lines it completes. -/
theorem handle_responded {d : Disk} {root : DocRoot} (i : ℕ) (readable writable : Bool) {c : Client}
    {w : World} {e : HandleEnv} (he : ∀ k, (e.serves k).Shows d) (hw : d.CacheOk w.cache)
    (hc : Responded d root c) {o : Outcome Client World}
    (h : handle root i readable writable c w e = some o) :
    match o with
    | .keep c' _ => Responded d root c'
    | .drop c' _ => Responded d root c' := by
  unfold handle at h
  split at h
  · cases h
    exact hc
  · split at h
    · cases h
      exact hc
    · obtain ⟨lines, hlines, hreceived, -, hsent⟩ := hc
      have hlen : (e.read.take (REQ_BUF_SIZE - 1 - c.buf.len)).length ≤
          REQ_BUF_SIZE - c.buf.len := by
        rw [List.length_take]
        omega
      generalize e.read.take (REQ_BUF_SIZE - 1 - c.buf.len) = bytes at h hlen
      -- the lines so far with what is left of the buffer make up the input
      have hloop := processRequests_open_rule
        (I := fun (st : Serving) buf => d.CacheOk st.world.cache ∧ ∃ lines, (∀ l ∈ lines, LF ∉ l) ∧
          c.received ++ bytes = unlines lines ++ buf ∧ values st.sent = d.responses root lines)
        (serveLine root e.serves) ?_ ⟨0, c.sent, w⟩ (c.buf.fill bytes)
        ⟨hw, lines, hlines, ?_, hsent⟩
      · split at h
        rename_i st buf closed heq
        rw [heq] at hloop
        obtain ⟨⟨-, lines', hlines', hreceived', hsent'⟩, hlf⟩ := hloop
        cases h
        cases closed with
        | true => exact ⟨lines', hlines', hreceived', hlf, hsent'⟩
        | false => exact ⟨lines', hlines', hreceived', hlf, hsent'⟩
      · rintro st line rest ⟨hcache, lines, hlines, hreceived, hsent⟩ hlf
        exact serveLine_responds he hcache hlines hlf hreceived hsent
      · rw [LineBuf.pending_fill c.buf hlen, hreceived, List.append_assoc]

/-- A write of the visit may fail. -/
def HandleEnv.WriteFails (e : HandleEnv) : Prop := ∃ k j, ¬NoFailure ((e.serves k).writes j)

/-- A client whose own system calls report the file system is sent the responses. -/
theorem visitRule (d : Disk) (root : DocRoot) :
    (server root).VisitRule (fun e => ¬∀ k, (e.serves k).Shows d) (fun w => d.CacheOk w.cache)
      (Responded d root) (Responded d root) where
  connect c fd := by
    refine ⟨[], fun _ h => absurd h List.not_mem_nil, ?_, ?_, rfl⟩
    · simp [server, LineBuf.pending]
    · simp [server, LineBuf.pending]
  async t w a t' w' h i hc := by
    have h : signal t w a = some (t', w') := h
    cases a <;> cases h <;> exact hc
  keep i rd wr c w e c' w' hw hc he hh := handle_responded i rd wr (not_not.mp he) hw hc hh
  drop i rd wr c w e c' w' hw hc he hh := handle_responded i rd wr (not_not.mp he) hw hc hh
  drop_fd i rd wr c w e c' w' hh := by
    have hh : handle root i rd wr c w e = some (.drop c' w') := hh
    unfold handle at hh
    split at hh
    · cases hh
    · split at hh
      · cases hh
        rfl
      · simp only at hh
        split at hh
        · cases hh
          rfl
        · cases hh

/-- **What the clients are sent**, in every run whose system calls on files report the file system:
the responses to the lines of its input to each client in the table none of whose own writes has
failed, and to each removed client none of whose own writes had failed when it was removed. -/
theorem responded {d : Disk} {root : DocRoot} {tr s} (h : (server root).lts.Exec tr s)
    (hok : ∀ p ∈ tr, Serves (·.ShowsFiles d) p.2) :
    (∀ c ∈ s.table.entries, ¬(server root).HasHad HandleEnv.WriteFails c.fd tr →
      Responded d root c) ∧
    ∀ c ∈ s.gone, ∃ pre p, pre ++ [p] <+: tr ∧ (server root).Removes c p ∧
      (¬(server root).HasHad HandleEnv.WriteFails c.fd (pre ++ [p]) → Responded d root c) := by
  have hcache : ∀ p ∈ tr, d.CacheOk p.1.world.cache := fun p hp =>
    ((cacheOk d root).holds_visited h hok p.1 (LTS.mem_visited_of_mem hp)).world
  obtain ⟨hclient, hgone⟩ := (visitRule d root).clients (server_steady root).toLawful h hcache
  -- a visit that does not report the file system has a failing write
  have hfails : ∀ tr' fd, tr' <+: tr →
      (server root).HasHad (fun e => ¬∀ k, (e.serves k).Shows d) fd tr' →
      (server root).HasHad HandleEnv.WriteFails fd tr' := by
    intro tr' fd hpre hhad
    refine hhad.mono fun p hp e he hnot => ?_
    have hfiles := hok p (hpre.subset hp)
    rw [he] at hfiles
    by_contra hwrites
    refine hnot fun k => ⟨hfiles k, fun j => ?_⟩
    by_contra hno
    exact hwrites ⟨k, j, hno⟩
  constructor
  · intro c hc hwrites
    obtain ⟨i, hi, rfl⟩ := Table.mem_entries.mp hc
    exact hclient i hi fun hhad => hwrites (hfails tr _ List.prefix_rfl hhad)
  · intro c hc
    obtain ⟨pre, p, hpre, hremoves, hresponded⟩ := hgone c hc
    exact ⟨pre, p, hpre, hremoves, fun hwrites => hresponded
      fun hhad => hwrites (hfails _ _ hpre hhad)⟩

/-- A client on whose socket no write fails has been sent the responses, connected or removed. -/
theorem responded_of_writes {d : Disk} {root : DocRoot} {tr s} (h : (server root).lts.Exec tr s)
    (hok : ∀ p ∈ tr, Serves (·.ShowsFiles d) p.2) {c : Client}
    (hc : c ∈ s.table.entries ∨ c ∈ s.gone)
    (hwrites : ∀ p ∈ tr, ∀ e, (server root).Visited c.fd e p → ¬e.WriteFails) :
    Responded d root c := by
  have hnever : ∀ tr', tr' <+: tr → ¬(server root).HasHad HandleEnv.WriteFails c.fd tr' := by
    rintro tr' hpre ⟨p, post, hsuffix, ⟨e, hvisited, hfails⟩, -⟩
    exact hwrites p (hpre.subset (hsuffix.subset List.mem_cons_self)) e hvisited hfails
  obtain ⟨hclient, hgone⟩ := responded h hok
  rcases hc with hc | hc
  · exact hclient c hc (hnever tr List.prefix_rfl)
  · obtain ⟨pre, p, hpre, -, hresponded⟩ := hgone c hc
    exact hresponded (hnever _ hpre)

/-- Where no write of the run fails, every client has been sent the responses. -/
theorem responded_of_shows {d : Disk} {root : DocRoot} {tr s} (h : (server root).lts.Exec tr s)
    (hok : ∀ p ∈ tr, Shows d p.2) {c : Client} (hc : c ∈ s.table.entries ∨ c ∈ s.gone) :
    Responded d root c := by
  refine responded_of_writes h (fun p hp => ?_) hc fun p hp e he => ?_
  · have hshows := hok p hp
    generalize p.2 = a at hshows
    cases a with
    | handle e => exact fun k => (hshows k).toShowsFiles
    | _ => trivial
  · have hshows := hok p hp
    rw [he.1] at hshows
    rintro ⟨k, j, hfails⟩
    exact hfails ((hshows k).writes j)

/-! ## Transparency -/

/-- What the cache may not change. After any requests and flushes, the bytes written for a request
are those that any outcome of `malloc`, `pread` and the `read`s would give with an empty cache; for
a readable file inside the root they are `+OK N`, a line feed and the contents; and in every run of
the server every client has been sent the responses to the lines of its input. -/
structure CacheTransparent (root : DocRoot) : Prop where
  as_empty : ∀ (d : Disk) (calls : List Call), (∀ call ∈ calls, call.Shows d) →
    ∀ (e e' : ServeEnv) (name : List Byte), e.Shows d → e'.Shows d →
      written root e name (calls.foldl (Call.run root) .start) = written root e' name .start
  file : ∀ (d : Disk) (calls : List Call), (∀ call ∈ calls, call.Shows d) →
    ∀ (e : ServeEnv) (name : List Byte) (path : CanonPath), e.Shows d → name ≠ [] →
      name.head? ≠ some SLASH → d.realpath (root.candidate name) = some path →
      root.Inside path.bytes → d.kind path.bytes = .readable →
      written root e name (calls.foldl (Call.run root) .start) =
        values (okHeader (d.content path.bytes).length) ++ d.content path.bytes
  run : ∀ (d : Disk) tr s, (server root).lts.Exec tr s → (∀ p ∈ tr, Shows d p.2) →
    ∀ c, c ∈ s.table.entries ∨ c ∈ s.gone → Responded d root c

/-- A file of one byte under `/`, whatever is asked for. -/
def rootFile : Disk where
  realpath _ := some ⟨[[97]], by decide⟩
  realpath_fits := by
    rintro _ _ ⟨⟩
    decide
  kind _ := .readable
  content _ := [104]

/-- System calls on it that all succeed. -/
def rootFileCalls : ServeEnv where
  realpath := rootFile.realpath
  stat _ := .ok true 1
  openOk _ := true
  malloc := true
  pread _ := some [104]
  reads _ := [[104]]
  writes _ := []

theorem rootFileCalls_shows : rootFileCalls.Shows rootFile where
  realpath := rfl
  tells _ := ⟨rfl, rfl⟩
  pread := by
    rintro _ _ ⟨⟩
    exact List.prefix_rfl
  reads _ := by
    refine ⟨rfl, ?_⟩
    simp [rootFileCalls, FILE_BUF_SIZE]
  writes _ := ⟨List.not_mem_nil, List.not_mem_nil⟩

/-- The server that serves `/` refuses the file. -/
theorem written_slash {root : DocRoot} (h : root.path.comps = []) :
    written root rootFileCalls [97] .start = values (errLine "access denied") := by
  have hbytes : root.bytes = [SLASH] := by
    rw [DocRoot.bytes, CanonPath.bytes, h]
    rfl
  have hacc : root.accessOk [SLASH, 97] = false := by
    rw [DocRoot.accessOk, hbytes]
    decide
  rw [written, serveFile, if_neg (by decide), if_neg (by decide)]
  show values (if root.accessOk [SLASH, 97] = false then _ else _ : Serving × Bool).1.sent = _
  rw [if_pos hacc]
  rfl

theorem not_cacheTransparent_of_slash {root : DocRoot} (h : root.path.comps = []) :
    ¬ CacheTransparent root := by
  intro htransparent
  have hfile := htransparent.file rootFile [] (fun _ hm => absurd hm List.not_mem_nil) rootFileCalls
    [97] ⟨[[97]], by decide⟩ rootFileCalls_shows (by decide) (by decide) rfl ?_ rfl
  · rw [List.foldl_nil, written_slash h] at hfile
    exact absurd hfile (by decide +kernel)
  · rw [DocRoot.Inside, h]
    exact List.nil_prefix

/-- **The cache is transparent**, and all files inside the root are served, exactly if the root is
not `/`: the check of the byte behind the root takes the first byte of a name under `/` for the rest
of a longer name. -/
theorem cacheTransparent_iff (root : DocRoot) : CacheTransparent root ↔ root.path.comps ≠ [] := by
  constructor
  · intro h hslash
    exact not_cacheTransparent_of_slash hslash h
  · intro hroot
    refine ⟨?_, ?_, ?_⟩
    · intro d calls hcalls e e' name he he'
      rw [written_eq_response root he (cacheOk_calls root hcalls Disk.cacheOk_nil),
        written_eq_response root he' Disk.cacheOk_nil]
    · intro d calls hcalls e name path he hne hrel hreal hinside hkind
      rw [written_eq_response root he (cacheOk_calls root hcalls Disk.cacheOk_nil),
        Disk.response_of_realpath hne hrel hreal (DocRoot.accessOk_of_inside hroot hinside),
        Disk.pathResponse_of_readable hkind, Disk.fileBytes]
    · exact fun d tr s h hok c hc => responded_of_shows h hok hc

/-- The document root `/`. -/
def slashRoot : DocRoot := ⟨⟨[], by decide⟩, by decide⟩

/-- With the root `/`, the file `/a` of one byte is answered with `-ERR access denied`. -/
theorem slashRoot_not_cacheTransparent : ¬ CacheTransparent slashRoot :=
  not_cacheTransparent_of_slash rfl

end FileServer

end Osvcp.Servers
