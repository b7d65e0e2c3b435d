import Osvcp.Servers.OneResponse
import Osvcp.Servers.RustFraming

/-! # One response to a request: `rust-file-server`

A small file is read with `read_exact`, which fails where the file has become shorter, so that
`serve_file` returns an error before it has sent anything. A large file is sent after its header
until a read gives nothing: a read that fails ends the connection, an early or late end of the file
does not.
-/

namespace Osvcp.Servers

/-! ## Reads and writes that succeed -/

/-- No write fails: none takes nothing or reports an error. -/
def Succeeds (rs : List WriteResult) : Prop := NoFailure rs ∧ WriteResult.wrote 0 ∉ rs

theorem Succeeds.tail {r : WriteResult} {rs : List WriteResult} (h : Succeeds (r :: rs)) :
    Succeeds rs :=
  ⟨h.1.tail, fun hm => h.2 (List.mem_cons_of_mem r hm)⟩

theorem succeeds_nil : Succeeds [] := ⟨⟨List.not_mem_nil, List.not_mem_nil⟩, List.not_mem_nil⟩

/-- `Write::write_all` then sends the message. -/
theorem writeAllOrZero_of_succeeds {rs : List WriteResult} (h : Succeeds rs) (msg : List Cell) :
    writeAllOrZero rs msg = (msg, true) := by
  fun_induction writeAllOrZero rs msg with
  | case1 => rfl
  | case2 => rfl
  | case3 => exact absurd (List.mem_cons_self ..) h.2
  | case4 n rs msg hne ih => rw [ih h.tail, List.take_append_drop]
  | case5 rs msg hne ih => exact ih h.tail
  | case6 => exact absurd (List.mem_cons_self ..) h.1.1
  | case7 => exact absurd (List.mem_cons_self ..) h.1.2

/-- `Read::read_exact` gives as many bytes as it is asked for. -/
theorem length_of_readExact {reads : List FileRead} {n : ℕ} {body : List Byte}
    (h : readExact reads n = some body) : body.length = n := by
  fun_induction readExact reads n generalizing body with
  | case1 =>
      cases h
      rfl
  | case2 => cases h
  | case3 => cases h
  | case4 bytes rs n b bs htake ih =>
      obtain ⟨rest, hrest, rfl⟩ := Option.map_eq_some_iff.mp h
      have hlen : (b :: bs).length ≤ n + 1 := by
        rw [← htake, List.length_take]
        exact Nat.min_le_left ..
      rw [List.length_cons] at hlen
      rw [List.length_append, List.length_cons, ih hrest]
      omega
  | case5 rs n ih => exact ih h
  | case6 => cases h

/-- A prefix keeps the text of an error on one line. -/
theorem lf_notMem_ascii_append {start msg : String} (hstart : LF ∉ ascii start)
    (hmsg : LF ∉ ascii msg) :
    LF ∉ ascii (start ++ msg) := by
  rw [ascii, String.toList_append, List.map_append]
  intro h
  rcases List.mem_append.mp h with h | h
  · exact hstart h
  · exact hmsg h

/-- The texts of the errors of `metadata` and `open` are on one line, as those of the operating
system are. -/
structure FileEnv.PlainErrors (e : FileEnv) : Prop where
  metadata : ∀ path msg, e.metadata path = .error msg → LF ∉ ascii msg
  openError : ∀ path msg, e.openError path = some msg → LF ∉ ascii msg

namespace RustServer

section

variable {root : DocRoot} {e : FileEnv} {name : List Byte} {st : Serving}

theorem Serving.write_of_succeeds {rs : List WriteResult} (h : Succeeds rs) (st : Serving)
    (msg : List Cell) : st.write rs msg = ({ st with sent := st.sent ++ msg }, false) := by
  unfold Serving.write
  rw [writeAllOrZero_of_succeeds h]
  rfl

/-- The bytes the loop for a large file reads, up to the first read that gives nothing; `none` if
one fails before. -/
def streamed : List FileRead → Option (List Byte)
  | [] => some []
  | .data bytes :: rs =>
      match bytes.take FILE_CHUNK with
      | [] => some []
      | chunk => (streamed rs).map (chunk ++ ·)
  | .interrupted :: _ => none
  | .failed :: _ => none

/-- Reads that give something, and no more than a chunk, are all taken. -/
theorem streamed_chunks {chunks : List (List Byte)}
    (h : ∀ c ∈ chunks, c ≠ [] ∧ c.length ≤ FILE_CHUNK) (reads : List FileRead) :
    streamed (chunks.map .data ++ reads) = (streamed reads).map (chunks.flatten ++ ·) := by
  induction chunks with
  | nil =>
      rw [List.map_nil, List.nil_append, List.flatten_nil]
      exact Option.map_id'.symm
  | cons c chunks ih =>
      obtain ⟨hne, hlen⟩ := h c List.mem_cons_self
      obtain ⟨b, bs, rfl⟩ := List.exists_cons_of_ne_nil hne
      rw [List.map_cons, List.cons_append, streamed, List.take_of_length_le hlen]
      simp only
      rw [ih fun c hc => h c (List.mem_cons_of_mem _ hc), Option.map_map]
      simp only [Function.comp_def, List.flatten_cons, List.append_assoc]

/-- The loop sends what it reads, and fails where a read fails. -/
theorem stream_of_succeeds {writes : ℕ → List WriteResult} (h : ∀ k, Succeeds (writes k))
    (src : Source) (k : ℕ) (reads : List FileRead) (st : Serving) :
    match streamed reads with
    | none => (stream writes src k reads st).2 = true
    | some bytes => stream writes src k reads st =
        ({ st with sent := st.sent ++ fileCells src bytes }, false) := by
  induction reads generalizing k st with
  | nil => simp [stream, streamed, fileCells]
  | cons read reads ih =>
      cases read with
      | interrupted => rfl
      | failed => rfl
      | data bytes =>
          rw [stream, streamed]
          cases htake : bytes.take FILE_CHUNK with
          | nil => simp [fileCells]
          | cons b bs =>
              simp only
              rw [Serving.write_of_succeeds (h k)]
              simp only
              have hrest := ih (k + 1) { st with sent := st.sent ++ fileCells src (b :: bs) }
              cases hs : streamed reads with
              | none =>
                  rw [hs] at hrest
                  exact hrest
              | some rest =>
                  rw [hs] at hrest
                  simp only [Option.map_some]
                  rw [hrest]
                  simp [fileCells]

/-! ## The cache -/

/-- Every cached response is a complete one. -/
def CacheComplete (cache : FileCache CanonPath (List Cell)) : Prop :=
  ∀ path resp, cache.get path = some resp → OneResponse (values resp)

/-- The cache is left as it was, or gets one new response, built from a read of the whole file. -/
def InsertsWhole (e : FileEnv) (st r : Serving) : Prop :=
  r.cache = st.cache ∨ ∃ path size body, e.metadata path = .ok (true, size) ∧
    readExact (e.reads path) size = some body ∧ body.length = size ∧
    r.cache = st.cache.insert path (okHeader size ++ fileCells ⟨path.bytes, st.time⟩ body)

theorem cache_of_write {rs : List WriteResult} {msg : List Cell} {st st' : Serving} {failed : Bool}
    (h : st.write rs msg = (st', failed)) : st'.cache = st.cache :=
  congrArg (fun r => r.1.cache) h.symm

theorem cache_stream (writes : ℕ → List WriteResult) (src : Source) (k : ℕ) (reads : List FileRead)
    (st : Serving) : (stream writes src k reads st).1.cache = st.cache := by
  induction reads generalizing k st with
  | nil => rfl
  | cons read reads ih =>
      cases read with
      | interrupted => rfl
      | failed => rfl
      | data bytes =>
          rw [stream]
          split
          · rfl
          · split
            · rename_i st' heq
              exact cache_of_write heq
            · rename_i st' heq
              rw [ih]
              exact cache_of_write heq

/-- `serve_file` behind the cache, whatever the writes do. -/
theorem serveFromDisk_insertsWhole (e : FileEnv) (path : CanonPath) (st : Serving) :
    InsertsWhole e st (serveFromDisk e path st).1 := by
  unfold serveFromDisk
  split
  · exact .inl rfl
  · exact .inl rfl
  · rename_i size hmeta
    split
    · exact .inl rfl
    · split
      · split
        · exact .inl rfl
        · rename_i body hbody
          simp only
          split
          · rename_i st' heq
            exact .inl (cache_of_write heq)
          · rename_i st' heq
            refine .inr ⟨path, size, body, hmeta, hbody, length_of_readExact hbody, ?_⟩
            rw [cache_of_write heq]
      · split
        · rename_i st' heq
          exact .inl (cache_of_write heq)
        · rename_i st' heq
          exact .inl ((cache_stream ..).trans (cache_of_write heq))

theorem serveFile_insertsWhole (root : DocRoot) (e : FileEnv) (name : List Byte) (st : Serving) :
    InsertsWhole e st (serveFile root e name st).1 := by
  cases hres : resolve root e name with
  | none =>
      obtain ⟨reason, -, heq⟩ := serveFile_of_resolve_none st hres
      rw [heq]
      exact .inl rfl
  | some path =>
      cases hget : st.cache.get path with
      | some resp =>
          rw [serveFile_hit hres hget]
          exact .inl rfl
      | none =>
          rw [serveFile_miss hres hget]
          exact serveFromDisk_insertsWhole e path st

/-- What is built from a read of the whole file is complete. -/
theorem InsertsWhole.cacheComplete {r : Serving} (h : InsertsWhole e st r)
    (hst : CacheComplete st.cache) :
    CacheComplete r.cache := by
  rcases h with hsame | ⟨path, size, body, -, -, hlen, hinsert⟩
  · rw [hsame]
    exact hst
  · rw [hinsert]
    intro path' resp hget
    rcases FileCache.get_insert hget with hold | ⟨-, rfl⟩
    · exact hst path' resp hold
    · rw [oneResponse_okHeader_iff, fileCells, List.length_map]
      exact hlen

/-- Whatever was requested and flushed, the cached responses are complete. -/
theorem cacheComplete_of_reachable (root : DocRoot)
    {x : ReadThrough.Timed (FileCache CanonPath (List Cell)) CanonPath (List Cell)}
    (h : (readThrough root).lts.Reachable x) : CacheComplete x.state := by
  refine ReadThrough.state_invariant (fun _ _ hget => by cases hget)
    (fun now cache a hcache => ?_) h
  cases a with
  | request r =>
      exact (serveFile_insertsWhole root r.env r.name ⟨[], cache, now⟩).cacheComplete hcache
  | change => exact hcache
  | flush => exact fun _ _ hget => by cases hget

/-! ## One request -/

/-- If the request is for a large file and no read of it fails, the reads before the first one that
gives nothing give as many bytes as `metadata` reported. -/
def StreamsSize (root : DocRoot) (e : FileEnv) (name : List Byte)
    (cache : FileCache CanonPath (List Cell)) : Prop :=
  ∀ path size bytes, resolve root e name = some path → cache.get path = none →
    e.metadata path = .ok (true, size) → e.openError path = none → MAX_CACHE_FILE_BYTES < size →
    streamed (e.reads path) = some bytes → bytes.length = size

theorem completes_errLine {rs : List WriteResult} (h : Succeeds rs) {reason : String}
    (hlf : LF ∉ ascii reason) :
    Completes st.sent (st.write rs (errLine reason)).1.sent (st.write rs (errLine reason)).2 := by
  rw [Serving.write_of_succeeds h]
  exact completes_append_iff.mpr (oneResponse_errLine hlf)

/-- Behind the cache, only the loop for large files can break the frame. -/
theorem serveFromDisk_completes_iff (hw : ∀ k, Succeeds (e.writes k)) (he : e.PlainErrors)
    (path : CanonPath) (st : Serving) :
    Completes st.sent (serveFromDisk e path st).1.sent (serveFromDisk e path st).2 ↔
      ∀ size bytes, e.metadata path = .ok (true, size) → e.openError path = none →
        MAX_CACHE_FILE_BYTES < size → streamed (e.reads path) = some bytes →
        bytes.length = size := by
  unfold serveFromDisk
  cases hmeta : e.metadata path with
  | error msg =>
      simp only [reduceCtorEq, false_implies, implies_true, iff_true]
      exact completes_errLine (hw 0)
        (lf_notMem_ascii_append (by decide) (he.metadata path msg hmeta))
  | ok m =>
      obtain ⟨isFile, size⟩ := m
      cases isFile with
      | false =>
          simp only [Except.ok.injEq, Prod.mk.injEq, Bool.false_eq_true, false_and, false_implies,
            implies_true, iff_true]
          exact completes_errLine (hw 0) (by decide)
      | true =>
          simp only [Except.ok.injEq, Prod.mk.injEq, true_and]
          cases hopen : e.openError path with
          | some msg =>
              simp only [reduceCtorEq, false_implies, implies_true, iff_true]
              exact completes_errLine (hw 0)
                (lf_notMem_ascii_append (by decide) (he.openError path msg hopen))
          | none =>
              simp only [true_implies]
              by_cases hsize : size ≤ MAX_CACHE_FILE_BYTES
              · rw [if_pos hsize]
                refine iff_of_true ?_ fun size' bytes heq hlarge => by omega
                cases hbody : readExact (e.reads path) size with
                | none => exact completes_of_closed
                | some body =>
                    simp only
                    rw [Serving.write_of_succeeds (hw 0)]
                    refine completes_append_iff.mpr (oneResponse_okHeader_iff.mpr ?_)
                    rw [fileCells, List.length_map]
                    exact length_of_readExact hbody
              · rw [if_neg hsize, Serving.write_of_succeeds (hw 0)]
                simp only
                have hstream := stream_of_succeeds hw ⟨path.bytes, st.time⟩ 1 (e.reads path)
                  { st with sent := st.sent ++ okHeader size }
                cases hs : streamed (e.reads path) with
                | none =>
                    rw [hs] at hstream
                    rw [hstream]
                    exact iff_of_true completes_of_closed fun _ _ _ _ h => absurd h (by simp)
                | some bytes =>
                    rw [hs] at hstream
                    simp only at hstream
                    rw [hstream, List.append_assoc]
                    refine completes_append_iff.trans ?_
                    rw [oneResponse_okHeader_iff, fileCells, List.length_map]
                    constructor
                    · rintro h _ _ rfl - ⟨⟩
                      exact h
                    · exact fun h => h size bytes rfl (not_le.mp hsize) rfl

/-- A request is answered by one response exactly if the loop for large files, where it comes to
that and no read fails, reads what `metadata` reported. -/
theorem serveFile_completes_iff (hcache : CacheComplete st.cache) (hw : ∀ k, Succeeds (e.writes k))
    (he : e.PlainErrors) :
    Completes st.sent (serveFile root e name st).1.sent (serveFile root e name st).2 ↔
      StreamsSize root e name st.cache := by
  unfold StreamsSize
  cases hres : resolve root e name with
  | none =>
      obtain ⟨reason, hlf, heq⟩ := serveFile_of_resolve_none st hres
      rw [heq]
      simp only [reduceCtorEq, false_implies, implies_true, iff_true]
      exact completes_errLine (hw 0) hlf
  | some path =>
      simp only [Option.some_inj]
      cases hget : st.cache.get path with
      | some resp =>
          rw [serveFile_hit hres hget, Serving.write_of_succeeds (hw 0)]
          refine iff_of_true (completes_append_iff.mpr (hcache path resp hget)) ?_
          rintro path' size bytes rfl hnone
          rw [hget] at hnone
          cases hnone
      | none =>
          rw [serveFile_miss hres hget, serveFromDisk_completes_iff hw he]
          constructor
          · rintro h path' size bytes rfl -
            exact h size bytes
          · exact fun h size bytes => h path size bytes rfl hget

end

end RustServer

end Osvcp.Servers
