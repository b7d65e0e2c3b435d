import Osvcp.Servers.Protocol
import Osvcp.Servers.RustEventLoop

/-! # Runs of the Rust select server over a static file system

Over a file system that does not change, what `serve_file` sends for a request is a function of the
request (`Tree.served`), wherever it comes from: the cache, one `read_exact` of the whole file, or
the loop that sends it in chunks. A write that fails ends the connection, so no assumption on the
writes is needed: a client that is still connected has been sent the answers to all lines of its
input, and one that has been removed a prefix of them (`rust_server_end_to_end`). The C server needs
its writes to succeed, as `send_error` ignores their failure and the connection stays open.
-/

namespace Osvcp.Servers

/-! ## The file system -/

/-- What `metadata` and `open` make of a path, with the texts of their errors. -/
inductive PathKind
  | noMetadata (error : String)
  | notRegular
  | unreadable (error : String)
  | readable

/-- A file system that does not change, as the Rust library shows it. The contents are those of the
readable files. -/
structure Tree where
  canonicalize : List Byte → Option CanonPath
  kind : CanonPath → PathKind
  content : CanonPath → List Byte

namespace Tree

variable (t : Tree)

/-- The answers of `metadata` and `open` are those of the file system. -/
def Tells (path : CanonPath) (metadata : Except String (Bool × ℕ))
    (openError : Option String) : Prop :=
  match t.kind path with
  | .noMetadata error => metadata = .error error
  | .notRegular => ∃ size, metadata = .ok (false, size)
  | .unreadable error => (∃ size, metadata = .ok (true, size)) ∧ openError = some error
  | .readable => metadata = .ok (true, (t.content path).length) ∧ openError = none

/-- The `read`s of a file up to its end, piece by piece. A large file is read into a buffer of
`FILE_CHUNK` bytes. -/
def Reads (path : CanonPath) (reads : List FileRead) : Prop :=
  ∃ chunks : List (List Byte), reads = chunks.map .data ∧ chunks.flatten = t.content path ∧
    ∀ chunk ∈ chunks, chunk ≠ [] ∧
      (MAX_CACHE_FILE_BYTES < (t.content path).length → chunk.length ≤ FILE_CHUNK)

/-- What a path inside the root comes to. The servers differ in the start of the error of
`metadata`. -/
def servedPath (metadata : String) (path : CanonPath) : Served :=
  match t.kind path with
  | .noMetadata error => .error (metadata ++ error)
  | .notRegular => .error "not a regular file"
  | .unreadable error => .error ("open: " ++ error)
  | .readable => .file (t.content path)

/-- What a request for a file name comes to. -/
def served (metadata : String) (root : DocRoot) (name : List Byte) : Served :=
  if name = [] then .error "empty filename"
  else if name.head? = some SLASH then .error "absolute paths not allowed"
  else
    match t.canonicalize (root.join name) with
    | none => .error "not found"
    | some path => if startsWith path root.path = false then .error "access denied"
        else t.servedPath metadata path

/-- The texts of the errors are on one line, as those of the operating system are, and the sizes of
the files are those of `off_t`. -/
structure Plain : Prop where
  metadata : ∀ path error, t.kind path = .noMetadata error → (Served.error error).Plain
  openError : ∀ path error, t.kind path = .unreadable error → (Served.error error).Plain
  sizes : ∀ path, (t.content path).length < 2 ^ 63

/-- The cached responses are those of the file system. -/
def CacheOk (cache : FileCache CanonPath (List Cell)) : Prop :=
  ∀ path resp, cache.get path = some resp →
    t.kind path = .readable ∧ values resp = (Served.file (t.content path)).bytes

variable {t} {metadata : String} {root : DocRoot}

theorem servedPath_of_readable {path : CanonPath} (h : t.kind path = .readable) :
    t.servedPath metadata path = .file (t.content path) := by
  rw [servedPath, h]

theorem cacheOk_new : t.CacheOk .new := fun _ _ h => by cases h

theorem cacheOk_clear (cache : FileCache CanonPath (List Cell)) : t.CacheOk cache.clear :=
  fun _ _ h => by cases h

theorem CacheOk.insert {cache : FileCache CanonPath (List Cell)} (h : t.CacheOk cache)
    {path : CanonPath} {resp : List Cell} (hkind : t.kind path = .readable)
    (hresp : values resp = (Served.file (t.content path)).bytes) :
    t.CacheOk (cache.insert path resp) := by
  intro path' resp' hget
  rcases FileCache.get_insert hget with hold | ⟨rfl, rfl⟩
  · exact h path' resp' hold
  · exact ⟨hkind, hresp⟩

theorem plain_append {start error : String} (hstart : (Served.error start).Plain)
    (h : (Served.error error).Plain) : (Served.error (start ++ error)).Plain := by
  obtain ⟨hcr, hlf, hascii⟩ := h
  obtain ⟨hcr₀, hlf₀, hascii₀⟩ := hstart
  have happend : ascii (start ++ error) = ascii start ++ ascii error := by
    rw [ascii, String.toList_append, List.map_append]
    rfl
  refine ⟨?_, lf_notMem_ascii_append hlf₀ hlf, ?_⟩
  · rw [happend, List.mem_append]
    exact not_or.mpr ⟨hcr₀, hcr⟩
  · rw [happend, List.all_append, hascii₀, hascii]
    rfl

theorem plain_served (ht : t.Plain) (hmetadata : (Served.error metadata).Plain) (name : List Byte) :
    (t.served metadata root name).Plain := by
  unfold served
  split
  · exact ⟨by decide, by decide, by decide⟩
  · split
    · exact ⟨by decide, by decide, by decide⟩
    · split
      · exact ⟨by decide, by decide, by decide⟩
      · rename_i path hcanon
        split
        · exact ⟨by decide, by decide, by decide⟩
        · unfold servedPath
          cases hkind : t.kind path with
          | noMetadata error => exact plain_append hmetadata (ht.metadata path error hkind)
          | notRegular => exact ⟨by decide, by decide, by decide⟩
          | unreadable error =>
              exact plain_append ⟨by decide, by decide, by decide⟩ (ht.openError path error hkind)
          | readable => exact ht.sizes path

end Tree

/-! ## Reads and writes -/

/-- A `write_all` that succeeds has sent the message. -/
theorem writeAllOrZero_of_ok {rs : List WriteResult} {msg : List Cell}
    (h : (writeAllOrZero rs msg).2 = true) : (writeAllOrZero rs msg).1 = msg := by
  fun_induction writeAllOrZero rs msg with
  | case1 => rfl
  | case2 => rfl
  | case3 => cases h
  | case4 n rs msg hne ih => rw [ih h, List.take_append_drop]
  | case5 rs msg hne ih => exact ih h
  | case6 => cases h
  | case7 => cases h

/-- `read_exact` puts the pieces together. -/
theorem readExact_chunks {chunks : List (List Byte)} (h : ∀ chunk ∈ chunks, chunk ≠ []) :
    readExact (chunks.map .data) chunks.flatten.length = some chunks.flatten := by
  induction chunks with
  | nil => rfl
  | cons chunk chunks ih =>
      obtain ⟨b, bs, rfl⟩ := List.exists_cons_of_ne_nil (h chunk List.mem_cons_self)
      have hrest := ih fun c hc => h c (List.mem_cons_of_mem _ hc)
      have hlen : (List.flatten ((b :: bs) :: chunks)).length =
          bs.length + chunks.flatten.length + 1 := by
        simp only [List.flatten_cons, List.cons_append, List.length_cons, List.length_append]
      rw [hlen, List.map_cons, readExact, List.take_of_length_le (by simp)]
      simp only
      rw [show bs.length + chunks.flatten.length - bs.length = chunks.flatten.length by omega,
        hrest]
      rfl

namespace RustServer

/-! ## One request -/

/-- The system calls of one `serve_file` report the file system. The writes may do as they like. -/
structure Shows (e : FileEnv) (t : Tree) : Prop where
  canonicalize : e.canonicalize = t.canonicalize
  tells : ∀ path, t.Tells path (e.metadata path) (e.openError path)
  reads : ∀ path, t.Reads path (e.reads path)

/-- What becomes of the bytes of an answer: some of them are sent, and all unless the connection
ends. -/
def SendsPart (before after answer : List Byte) (ended : Bool) : Prop :=
  ∃ part, part <+: answer ∧ after = before ++ part ∧ (ended = false → part = answer)

/-- The outcome of a request: a part of the answer is sent, all of it unless the connection ends,
and the cache is kept. -/
structure Sends (t : Tree) (st : Serving) (answer : List Byte) (r : Serving × Bool) : Prop where
  cache : t.CacheOk r.1.cache
  sent : SendsPart (values st.sent) (values r.1.sent) answer r.2

section

variable {t : Tree} {root : DocRoot} {e : FileEnv} {st : Serving}

theorem SendsPart.append {before middle after a b : List Byte} {ended : Bool}
    (hfirst : SendsPart before middle a false) (h : SendsPart middle after b ended) :
    SendsPart before after (a ++ b) ended := by
  obtain ⟨part, -, rfl, hall⟩ := hfirst
  obtain rfl := hall rfl
  obtain ⟨rest, hrest, rfl, hall⟩ := h
  refine ⟨part ++ rest, (List.prefix_append_right_inj part).mpr hrest, List.append_assoc ..,
    fun hf => ?_⟩
  rw [hall hf]

/-- Where the connection ends early, the rest of the answer is not sent. -/
theorem SendsPart.cut {before after a : List Byte} (h : SendsPart before after a true)
    (b : List Byte) :
    SendsPart before after (a ++ b) true := by
  obtain ⟨part, hpart, rfl, -⟩ := h
  exact ⟨part, hpart.trans (List.prefix_append a b), rfl, nofun⟩

/-- `write_all`. -/
theorem write_sendsPart (st : Serving) (rs : List WriteResult) (msg : List Cell) :
    SendsPart (values st.sent) (values (st.write rs msg).1.sent) (values msg)
      (st.write rs msg).2 := by
  refine ⟨values (writeAllOrZero rs msg).1, ?_, ?_, fun hf => ?_⟩
  · exact (writeAllOrZero_isPrefix rs msg).map _
  · show values (st.sent ++ _) = _
    rw [values_append]
  · rw [writeAllOrZero_of_ok (by simpa [Serving.write] using hf)]

theorem write_sends (hcache : t.CacheOk st.cache) (rs : List WriteResult) (msg : List Cell) :
    Sends t st (values msg) (st.write rs msg) :=
  ⟨hcache, write_sendsPart st rs msg⟩

/-- The loop that sends a large file. -/
theorem stream_sendsPart (writes : ℕ → List WriteResult) (src : Source) (k : ℕ)
    {chunks : List (List Byte)} (h : ∀ chunk ∈ chunks, chunk ≠ [] ∧ chunk.length ≤ FILE_CHUNK)
    (st : Serving) :
    SendsPart (values st.sent)
      (values (stream writes src k (chunks.map .data) st).1.sent) chunks.flatten
      (stream writes src k (chunks.map .data) st).2 := by
  induction chunks generalizing k st with
  | nil => exact ⟨[], List.prefix_rfl, (List.append_nil _).symm, fun _ => rfl⟩
  | cons chunk chunks ih =>
      obtain ⟨hne, hlen⟩ := h chunk List.mem_cons_self
      rw [List.map_cons, stream, List.take_of_length_le hlen, List.flatten_cons]
      have hw := write_sendsPart st (writes k) (fileCells src chunk)
      rw [values_fileCells] at hw
      split
      · exact absurd rfl hne
      · split
        · rename_i st' heq
          rw [heq] at hw
          exact hw.cut _
        · rename_i st' heq
          rw [heq] at hw
          exact hw.append (ih (k + 1) (fun c hc => h c (List.mem_cons_of_mem _ hc)) st')

/-- A readable file, read as a whole or streamed. -/
theorem serveReadable_sends (he : Shows e t) (hcache : t.CacheOk st.cache) {path : CanonPath}
    (hkind : t.kind path = .readable) :
    Sends t st (Served.file (t.content path)).bytes (serveFromDisk e path st) := by
  have htells := he.tells path
  rw [Tree.Tells, hkind] at htells
  obtain ⟨hmeta, hopen⟩ := htells
  obtain ⟨chunks, hreads, hflat, hchunks⟩ := he.reads path
  have hne : ∀ chunk ∈ chunks, chunk ≠ [] := fun chunk hc => (hchunks chunk hc).1
  unfold serveFromDisk
  simp only [hmeta, hopen]
  by_cases hsize : (t.content path).length ≤ MAX_CACHE_FILE_BYTES
  · have hbody := readExact_chunks hne
    rw [hflat, ← hreads] at hbody
    rw [if_pos hsize, hbody]
    simp only
    have hbytes : values (okHeader (t.content path).length ++
        fileCells ⟨path.bytes, st.time⟩ (t.content path)) =
        (Served.file (t.content path)).bytes := by
      rw [values_append, values_fileCells]
      rfl
    have hw := write_sends hcache (e.writes 0) (okHeader (t.content path).length ++
      fileCells ⟨path.bytes, st.time⟩ (t.content path))
    rw [hbytes] at hw
    split
    · rename_i st' heq
      rw [heq] at hw
      exact hw
    · rename_i st' heq
      rw [heq] at hw
      exact ⟨hw.cache.insert hkind hbytes, hw.sent⟩
  · rw [if_neg hsize]
    have hw := write_sends hcache (e.writes 0) (okHeader (t.content path).length)
    split
    · rename_i st' heq
      rw [heq] at hw
      exact ⟨hw.cache, hw.sent.cut _⟩
    · rename_i st' heq
      rw [heq] at hw
      have hlarge : MAX_CACHE_FILE_BYTES < (t.content path).length := Nat.lt_of_not_le hsize
      have hs := stream_sendsPart e.writes ⟨path.bytes, st.time⟩ 1
        (fun chunk hc => ⟨hne chunk hc, (hchunks chunk hc).2 hlarge⟩) st'
      rw [hflat, ← hreads] at hs
      refine ⟨?_, hw.sent.append hs⟩
      rw [cache_stream]
      exact hw.cache

/-- `serve_file` behind the cache. -/
theorem serveFromDisk_sends (he : Shows e t) (hcache : t.CacheOk st.cache) (path : CanonPath) :
    Sends t st (t.servedPath "stat: " path).bytes (serveFromDisk e path st) := by
  have htells := he.tells path
  rw [Tree.Tells] at htells
  cases hkind : t.kind path with
  | noMetadata error =>
      rw [hkind] at htells
      unfold serveFromDisk Tree.servedPath
      simp only [htells, hkind]
      exact write_sends hcache _ _
  | notRegular =>
      rw [hkind] at htells
      obtain ⟨size, hmeta⟩ := htells
      unfold serveFromDisk Tree.servedPath
      simp only [hmeta, hkind]
      exact write_sends hcache _ _
  | unreadable error =>
      rw [hkind] at htells
      obtain ⟨⟨size, hmeta⟩, hopen⟩ := htells
      unfold serveFromDisk Tree.servedPath
      simp only [hmeta, hkind, hopen]
      exact write_sends hcache _ _
  | readable =>
      rw [Tree.servedPath_of_readable hkind]
      exact serveReadable_sends he hcache hkind

/-- **`serve_file` sends the answer**, from whatever cache of complete responses, up to the first
write that fails. -/
theorem serveFile_sends (root : DocRoot) (he : Shows e t) (hcache : t.CacheOk st.cache)
    (name : List Byte) :
    Sends t st (t.served "stat: " root name).bytes (serveFile root e name st) := by
  unfold serveFile Tree.served
  by_cases hempty : name = []
  · rw [if_pos hempty, if_pos hempty]
    exact write_sends hcache _ _
  · rw [if_neg hempty, if_neg hempty]
    by_cases habs : name.head? = some SLASH
    · rw [if_pos habs, if_pos habs]
      exact write_sends hcache _ _
    · rw [if_neg habs, if_neg habs, he.canonicalize]
      cases t.canonicalize (root.join name) with
      | none => exact write_sends hcache _ _
      | some path =>
          simp only
          by_cases hout : startsWith path root.path = false
          · rw [if_pos hout, if_pos hout]
            exact write_sends hcache _ _
          · rw [if_neg hout, if_neg hout]
            cases hget : st.cache.get path with
            | some resp =>
                -- an entry of any age holds the file as it is, since the file system is static
                obtain ⟨hkind, hresp⟩ := hcache path resp hget
                rw [Tree.servedPath_of_readable hkind, ← hresp]
                exact write_sends hcache _ _
            | none => exact serveFromDisk_sends he hcache path

end

/-! ## Runs of the server -/

/-- The system calls of a step report the file system. -/
def Reports (t : Tree) : LoopAction FileServer.Signal HandleEnv → Prop
  | .handle e => ∀ k, Shows (e.serves k) t
  | _ => True

/-- What a request line comes to. -/
def servedLine (t : Tree) (root : DocRoot) (line : List Byte) : Served :=
  t.served "stat: " root (fromUtf8Lossy (stripCr line))

/-- The lines of the input and how far they are answered: as far as `sent` says. -/
def Answered (t : Tree) (root : DocRoot) (input rest : List Byte)
    (sent : List Byte → Prop) : Prop :=
  ∃ lines, input = unlines lines ++ rest ∧ (∀ l ∈ lines, LF ∉ l) ∧
    sent (answerBytes (servedLine t root) lines)

section

variable {t : Tree} {root : DocRoot}

/-- One more line. -/
theorem Answered.line {input line rest before after : List Byte} {ended : Bool}
    (h : Answered t root input (line ++ LF :: rest) (before = ·)) (hlf : LF ∉ line)
    (hs : SendsPart before after (servedLine t root line).bytes ended) :
    Answered t root input rest (after <+: ·) ∧
    (ended = false → Answered t root input rest (after = ·)) := by
  obtain ⟨lines, hinput, hlines, rfl⟩ := h
  obtain ⟨part, hpart, rfl, hall⟩ := hs
  have hinput' : input = unlines (lines ++ [line]) ++ rest := by
    rw [hinput, unlines_append_singleton]
    simp
  have hlines' : ∀ l ∈ lines ++ [line], LF ∉ l := by
    intro l hl
    rcases List.mem_append.mp hl with hl | hl
    · exact hlines l hl
    · exact List.mem_singleton.mp hl ▸ hlf
  have hanswers : answerBytes (servedLine t root) (lines ++ [line]) =
      answerBytes (servedLine t root) lines ++ (servedLine t root line).bytes := by
    rw [answerBytes_append, answerBytes_singleton]
  refine ⟨⟨lines ++ [line], hinput', hlines', ?_⟩,
    fun hf => ⟨lines ++ [line], hinput', hlines', ?_⟩⟩
  · rw [hanswers]
    exact (List.prefix_append_right_inj _).mpr hpart
  · rw [hanswers, hall hf]

/-- A client in the table: the lines of its input are answered, and its vector holds the rest. -/
def Responded (t : Tree) (root : DocRoot) (c : Client) : Prop :=
  LF ∉ c.buf ∧ Answered t root c.received c.buf (values c.sent = ·)

/-- A client that has been removed. -/
def RespondedInPart (t : Tree) (root : DocRoot) (c : Client) : Prop :=
  ∃ rest, Answered t root c.received rest (values c.sent <+: ·)

theorem Responded.inPart {c : Client} (h : Responded t root c) : RespondedInPart t root c := by
  obtain ⟨-, lines, hinput, hlines, hsent⟩ := h
  exact ⟨c.buf, lines, hinput, hlines, hsent ▸ List.prefix_rfl⟩

theorem serveLine_sends {envs : ℕ → FileEnv} (he : ∀ k, Shows (envs k) t) {st st' : Processing}
    {line : List Byte} {ended : Bool} (hcache : t.CacheOk st.serving.cache)
    (h : serveLine root envs st (stripCr line) = (st', ended)) :
    Sends t st.serving (servedLine t root line).bytes (st'.serving, ended) := by
  have hs := serveFile_sends root (he st.calls) hcache (fromUtf8Lossy (stripCr line))
  unfold serveLine at h
  generalize serveFile root (envs st.calls) (fromUtf8Lossy (stripCr line)) st.serving = r at h hs
  cases h
  exact hs

/-- The handling of one client responds to the lines it completes. -/
theorem handle_responded (i : ℕ) (writable : Bool) {readable : Bool} {c : Client} {w : World}
    {e : HandleEnv} (he : ∀ k, Shows (e.serves k) t) (hw : t.CacheOk w.cache)
    (hc : Responded t root c) {o : Outcome Client World}
    (h : handle root i readable writable c w e = some o) :
    t.CacheOk o.world.cache ∧
      match o with
      | .keep c' _ => Responded t root c'
      | .drop c' _ => RespondedInPart t root c' := by
  cases handle_cases i writable h with
  | idle => exact ⟨hw, hc⟩
  | ended => exact ⟨hw, hc.inPart⟩
  | @processed bytes buf st closed hread hp =>
      obtain ⟨-, lines, hinput, hlines, hsent⟩ := hc
      have hrule := processClient_rule
        (I := fun st rest => t.CacheOk st.serving.cache ∧
          Answered t root (c.received ++ bytes) rest (values st.serving.sent = ·))
        (J := fun st => t.CacheOk st.serving.cache ∧
          ∃ rest, Answered t root (c.received ++ bytes) rest (values st.serving.sent <+: ·)) ?_ ?_
        ⟨hw, lines, ?_, hlines, hsent⟩ hp
      · cases closed with
        | false =>
            obtain ⟨⟨hcache, hanswered⟩, hlf⟩ := hrule.1 rfl
            exact ⟨hcache, hlf, hanswered⟩
        | true =>
            rcases hrule.2 with hstop | ⟨⟨hcache, hanswered⟩, hlf⟩
            · exact hstop
            · exact ⟨hcache, Responded.inPart ⟨hlf, hanswered⟩⟩
      · rintro st st' line rest ⟨hcache, hanswered⟩ hlf hserve
        have hs := serveLine_sends he hcache hserve
        exact ⟨hs.cache, (hanswered.line hlf hs.sent).2 rfl⟩
      · rintro st st' line rest ⟨hcache, hanswered⟩ hlf hserve
        have hs := serveLine_sends he hcache hserve
        exact ⟨hs.cache, rest, (hanswered.line hlf hs.sent).1⟩
      · rw [hinput, List.append_assoc]

/-- The invariant of the runs whose system calls report the file system. -/
theorem responded (t : Tree) (root : DocRoot) :
    (server root).LocalInvariant (fun _ a => Reports t a) (fun _ w => t.CacheOk w.cache)
      (fun _ _ => Responded t root) (RespondedInPart t root) where
  init := Tree.cacheOk_new
  connect n w c fd hw := ⟨hw, List.not_mem_nil, [], rfl, fun _ h => absurd h List.not_mem_nil, rfl⟩
  turn n w hw := by
    refine ⟨?_, fun _ _ hc => hc⟩
    show t.CacheOk (turn w).cache
    unfold turn
    split
    · exact Tree.cacheOk_clear w.cache
    · exact hw
  async s a u w hw hc _ h := by
    cases a with
    | sigint =>
        cases h
        exact ⟨rfl, hw, hc⟩
    | sigusr1 =>
        cases h
        exact ⟨rfl, hw, hc⟩
  keep s r k e c' w' _ hk hw hc hok hh := by
    obtain ⟨hw', hc'⟩ := handle_responded k false hok hw (hc k hk) hh
    exact ⟨hw', hc', fun i hi _ => hc i hi⟩
  drop s r k e c' w' _ hk hw hc hok hh := by
    obtain ⟨hw', hc'⟩ := handle_responded k false hok hw (hc k hk) hh
    exact ⟨hw', hc', fun i hi _ => hc i hi, fun _ => hc _ (by omega)⟩

/-- A client that has been sent a prefix of the answers to some lines of its input has been sent one
of the answers to all of them, and what it has received makes the replies. -/
theorem RespondedInPart.clientReads (ht : t.Plain) {c : Client} (h : RespondedInPart t root c) :
    ∃ lines rest, c.received = unlines lines ++ rest ∧ (∀ l ∈ lines, LF ∉ l) ∧ LF ∉ rest ∧
      values c.sent <+: (lines.map (servedLine t root)).flatMap Served.bytes ∧
      ∀ received, received <+: values c.sent →
        ClientReads (lines.map (servedLine t root)) received := by
  obtain ⟨rest, lines, hinput, hlines, hsent⟩ := h
  obtain ⟨more, rest', rfl, hmore, hrest⟩ := exists_unlines rest
  have hall : values c.sent <+: answerBytes (servedLine t root) (lines ++ more) := by
    rw [answerBytes_append]
    exact hsent.trans (List.prefix_append _ _)
  refine ⟨lines ++ more, rest', ?_, ?_, hrest, hall, fun received hr => ?_⟩
  · rw [hinput, unlines, unlines, unlines, List.flatMap_append, List.append_assoc]
  · intro l hl
    rcases List.mem_append.mp hl with hl | hl
    · exact hlines l hl
    · exact hmore l hl
  · refine clientReads_of_isPrefix (fun a ha => ?_) (hr.trans hall)
    obtain ⟨line, -, rfl⟩ := List.mem_map.mp ha
    exact Tree.plain_served ht ⟨by decide, by decide, by decide⟩ _

end

end RustServer

open RustServer in
/-- **`rust-file-server`, end to end.** Over a file system that does not change, in every run,
whatever the other clients, the signals and the writes do: a connected client has been sent the
answers to all complete lines of its input; a client, connected or removed, has been sent a prefix
of them, and what it has received of that makes the replies to the lines of its input, in order. -/
theorem rust_server_end_to_end {t : Tree} (ht : t.Plain) (root : DocRoot) {tr s}
    (h : (server root).lts.Exec tr s) (hok : ∀ p ∈ tr, Reports t p.2) :
    (∀ c ∈ s.table.entries, ∃ lines, c.received = unlines lines ++ c.buf ∧ (∀ l ∈ lines, LF ∉ l) ∧
      LF ∉ c.buf ∧ values c.sent = (lines.map (servedLine t root)).flatMap Served.bytes) ∧
    ∀ c, c ∈ s.table.entries ∨ c ∈ s.gone → ∃ lines rest, c.received = unlines lines ++ rest ∧
      (∀ l ∈ lines, LF ∉ l) ∧ LF ∉ rest ∧
      values c.sent <+: (lines.map (servedLine t root)).flatMap Served.bytes ∧
      ∀ received, received <+: values c.sent →
        ClientReads (lines.map (servedLine t root)) received := by
  have hs := (responded t root).holds h hok
  have hclient : ∀ c ∈ s.table.entries, Responded t root c := by
    intro c hc
    obtain ⟨i, hi, rfl⟩ := Table.mem_entries.mp hc
    exact hs.client i hi
  constructor
  · intro c hc
    obtain ⟨hlf, lines, hinput, hlines, hsent⟩ := hclient c hc
    exact ⟨lines, hinput, hlines, hlf, hsent⟩
  · rintro c (hc | hc)
    · exact (hclient c hc).inPart.clientReads ht
    · exact (hs.gone c hc).clientReads ht

namespace RustServer.Example

open DocRoot.Example

/-- A file system in which everything is the file `/r/a` of one byte. -/
def tree : Tree := ⟨fun _ => some path, fun _ => .readable, fun _ => [104]⟩

/-- The system calls of a `serve_file` on it, with the given results of `write`. -/
def calls (writes : List WriteResult) : FileEnv :=
  ⟨fun _ => some path, fun _ => .ok (true, 1), fun _ => none, fun _ => [.data [104]],
    fun _ => writes⟩

/-- A client connects and requests the file twice in one read; the writes for the second request
fail. -/
def run : List (LoopAction FileServer.Signal HandleEnv) :=
  [.turn, .select (.ready ⟨true, [], []⟩), .accept (some 5), .accept none,
    .handle ⟨[], fun _ => calls []⟩, .next, .turn, .select (.ready ⟨false, [5], []⟩),
    .handle ⟨[97, LF, 97, LF], fun k => calls (if k = 0 then [] else [.wrote 2, .error])⟩]

theorem tree_plain : tree.Plain where
  metadata _ _ h := by cases h
  openError _ _ h := by cases h
  sizes _ := by
    show 1 < 2 ^ 63
    decide

theorem calls_shows (writes : List WriteResult) : Shows (calls writes) tree where
  canonicalize := rfl
  tells _ := ⟨rfl, rfl⟩
  reads _ := by
    refine ⟨[[104]], rfl, rfl, fun chunk hchunk => ?_⟩
    rw [List.mem_singleton.mp hchunk]
    exact ⟨by decide, fun _ => by decide⟩

end RustServer.Example

open RustServer.Example in
/-- A client whose second answer is cut off: it is removed, and what it has received makes a first
reply and no second one. -/
theorem rust_server_end_to_end_cut :
    ∃ s, (RustServer.server DocRoot.Example.root).lts.Exec
        ((RustServer.server DocRoot.Example.root).lts.trace
          (RustServer.server DocRoot.Example.root).start run) s ∧
      ∃ c ∈ s.gone, c.received = [97, LF, 97, LF] ∧ (values c.sent).length = 9 ∧
        ∃ lines rest, c.received = unlines lines ++ rest ∧
          values c.sent <+:
            (lines.map (RustServer.servedLine tree DocRoot.Example.root)).flatMap Served.bytes ∧
          ClientReads (lines.map (RustServer.servedLine tree DocRoot.Example.root))
            (values c.sent) := by
  obtain ⟨s, hs, hcheck⟩ := LTS.exec_of_run_any (RustServer.server DocRoot.Example.root).lts
    (RustServer.server DocRoot.Example.root).start run
    (fun s => (s.gone.map fun c => (c.received, (values c.sent).length)) =
      [([97, LF, 97, LF], 9)]) rfl
    (by decide +kernel)
  have hgone := of_decide_eq_true hcheck
  have hmem : ([97, LF, 97, LF], 9) ∈ s.gone.map fun c => (c.received, (values c.sent).length) := by
    rw [hgone]
    exact List.mem_cons_self
  obtain ⟨c, hc, hpair⟩ := List.mem_map.mp hmem
  obtain ⟨hreceived, hlen⟩ := Prod.mk.inj hpair
  have hall : ∀ a ∈ run, RustServer.Reports tree a := by
    simp [run, RustServer.Reports, calls_shows]
  obtain ⟨-, hreads⟩ := rust_server_end_to_end tree_plain DocRoot.Example.root hs
    fun p hp => hall p.2 (LTS.action_mem_of_mem_trace _ hp)
  obtain ⟨lines, rest, hlines, -, -, hsent, hclient⟩ := hreads c (.inr hc)
  exact ⟨s, hs, c, hc, hreceived, hlen, lines, rest, hlines, hsent, hclient _ List.prefix_rfl⟩

end Osvcp.Servers
