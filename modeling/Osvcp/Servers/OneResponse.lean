import Osvcp.Servers.Freshness
import Osvcp.Servers.Responses
import Osvcp.Servers.Transparency

/-! # One response to a request: `file-server.c`

A client can follow the stream only while each request it makes is answered by exactly one error
line, or by `+OK N` and a line feed followed by exactly `N` bytes. `serve_file` announces the size
of the file as `stat` gave it. On two of its three paths the size is kept: a cached response was
complete when it was inserted, and the buffer for a whole file is used only when `pread` filled it.
The streaming loop sends whatever the reads give until one gives nothing, and returns 0 in any case.
-/

namespace Osvcp.Servers

/-! ## Well-framed responses -/

/-- The bytes are exactly one response: an error line, or the size of a body and the body. -/
def OneResponse (out : List Byte) : Prop :=
  (∃ reason, LF ∉ reason ∧ out = errPrefix ++ reason ++ [LF]) ∨
    ∃ body : List Byte, out = okPrefix ++ decimal body.length ++ [LF] ++ body

theorem oneResponse_errLine {reason : String} (h : LF ∉ ascii reason) :
    OneResponse (values (errLine reason)) :=
  .inl ⟨ascii reason, h, values_errLine reason⟩

theorem lf_notMem_okLine (n : ℕ) : LF ∉ okPrefix ++ decimal n := by
  intro h
  rcases List.mem_append.mp h with h | h
  · exact absurd h (by decide)
  · exact absurd (isDigit_of_mem_decimal h) (by decide)

/-- What follows a header is one response exactly if it has the length the header announces. -/
theorem oneResponse_okHeader_iff {n : ℕ} {cells : List Cell} :
    OneResponse (values (okHeader n ++ cells)) ↔ cells.length = n := by
  have hlen : (values cells).length = cells.length := List.length_map _
  rw [values_append, values_okHeader]
  constructor
  · rintro (⟨reason, -, heq⟩ | ⟨body, heq⟩)
    · -- the first bytes already differ
      have hhead : some (43 : Byte) = some 45 := congrArg List.head? heq
      exact absurd hhead (by decide)
    · have hsplit := eq_of_append_cons_eq (lf_notMem_okLine n) (lf_notMem_okLine body.length)
        (by simpa using heq)
      obtain ⟨hline, hbody⟩ := hsplit
      have hparse := congrArg parseDecimal (List.append_cancel_left hline)
      rw [parseDecimal_decimal, parseDecimal_decimal, Option.some_inj] at hparse
      rw [← hlen, hbody, hparse]
  · intro h
    exact .inr ⟨values cells, by rw [hlen, h]⟩

/-- Unless the connection is closed, what was sent after `before` is exactly one response. -/
def Completes (before after : List Cell) (closed : Bool) : Prop :=
  closed = false → ∃ cells, after = before ++ cells ∧ OneResponse (values cells)

theorem completes_append_iff {before cells : List Cell} :
    Completes before (before ++ cells) false ↔ OneResponse (values cells) := by
  constructor
  · intro h
    obtain ⟨cells', heq, hone⟩ := h rfl
    rwa [List.append_cancel_left heq]
  · exact fun hone _ => ⟨cells, rfl, hone⟩

theorem completes_nil_iff {cells : List Cell} :
    Completes [] cells false ↔ OneResponse (values cells) :=
  @completes_append_iff [] cells

theorem completes_of_closed {before after : List Cell} : Completes before after true :=
  fun h => absurd h (by decide)

namespace FileServer

section

variable {root : DocRoot} {e : ServeEnv} {name : List Byte} {st : Serving}

/-! ## The cache -/

/-- Every cached response is a complete one. -/
def CacheComplete (w : World) : Prop := ∀ entry ∈ w.cache, OneResponse (values entry.resp)

/-- `serve_file` inserts complete responses only, whatever the writes do. -/
theorem complete_cacheAfter (root : DocRoot) (e : ServeEnv) (name : List Byte) {w : World}
    (h : CacheComplete w) :
    ∀ entry ∈ cacheAfter root e name w, OneResponse (values entry.resp) := by
  rcases cacheAfter_cases root e name w with heq | ⟨path, resp, -, hfills, heq⟩
  · rw [heq]
    exact h
  · rw [heq]
    obtain ⟨size, data, -, -, hread, rfl⟩ := fills_eq_some hfills
    intro entry hentry
    rcases mem_cacheInsert hentry with hold | ⟨hresp, -⟩
    · exact h entry hold
    · rw [hresp, oneResponse_okHeader_iff, fileCells, List.length_map]
      exact length_of_readWhole hread

/-- The invariant of the event loop. -/
theorem cacheComplete (root : DocRoot) :
    (server root).LocalInvariant (fun _ _ => True) (fun _ => CacheComplete) (fun _ _ _ => True)
      (fun _ => True) :=
  (cache_invariant (P := fun cache => ∀ entry ∈ cache, OneResponse (values entry.resp))
    (fun _ => True) root (fun _ h => absurd h List.not_mem_nil)
    fun e name _ _ hst => complete_cacheAfter root e name hst).mono
      fun _ a _ => serves_of_forall (fun _ => trivial) a

/-! ## One request -/

/-- If the request comes to the streaming loop, the reads before the first one that gives nothing
give as many bytes as `stat` reported. -/
def StreamsSize (root : DocRoot) (e : ServeEnv) (name : List Byte)
    (cache : List CacheEntry) : Prop :=
  ∀ path size, resolve root e name = some path → cacheLookup cache path.bytes = none →
    e.stat path.bytes = .ok true size → e.openOk path.bytes = true →
    readWhole e path.bytes size = none → (streamed (e.reads path.bytes)).length = size

theorem completes_sendError (st : Serving) {rs : List WriteResult} (h : NoFailure rs)
    {reason : String} (hlf : LF ∉ ascii reason) :
    Completes st.sent (st.sendError rs reason).1.sent (st.sendError rs reason).2 := by
  unfold Serving.sendError
  rw [Serving.write_of_noFailure h]
  exact completes_append_iff.mpr (oneResponse_errLine hlf)

/-- Behind the cache, only the streaming loop can break the frame. -/
theorem serveFromDisk_completes_iff (hw : ∀ k, NoFailure (e.writes k)) (path : List Byte)
    (st : Serving) :
    Completes st.sent (serveFromDisk e path st).1.sent (serveFromDisk e path st).2 ↔
      ∀ size, e.stat path = .ok true size → e.openOk path = true → readWhole e path size = none →
        (streamed (e.reads path)).length = size := by
  unfold serveFromDisk
  cases hstat : e.stat path with
  | failed isReg =>
      simp only [reduceCtorEq, false_implies, implies_true, iff_true]
      exact completes_sendError (st.touch path) (hw 0) (by decide)
  | ok isReg size =>
      cases isReg with
      | false =>
          simp only [StatResult.ok.injEq, Bool.false_eq_true, false_and, false_implies,
            implies_true, iff_true]
          exact completes_sendError (st.touch path) (hw 0) (by decide)
      | true =>
          simp only [StatResult.ok.injEq, true_and, forall_eq']
          cases hopen : e.openOk path with
          | false =>
              simp only [if_true, Bool.false_eq_true, false_implies, iff_true]
              exact completes_sendError ((st.touch path).touch path) (hw 0) (by decide)
          | true =>
              simp only [Bool.true_eq_false, if_false, true_implies]
              cases hdata : readWhole e path size with
              | some data =>
                  simp only [reduceCtorEq, false_implies, iff_true]
                  rw [Serving.write_of_noFailure (hw 0)]
                  refine completes_append_iff.mpr (oneResponse_okHeader_iff.mpr ?_)
                  rw [fileCells, List.length_map]
                  exact length_of_readWhole hdata
              | none =>
                  simp only [true_implies]
                  rw [Serving.write_of_noFailure (hw 0)]
                  simp only
                  rw [stream_of_noFailure hw, List.append_assoc]
                  refine completes_append_iff.trans ?_
                  rw [oneResponse_okHeader_iff, fileCells, List.length_map]

/-- A request is answered by one response exactly if the streaming loop, where it comes to that,
reads what `stat` reported. -/
theorem serveFile_completes_iff (hcache : CacheComplete st.world)
    (hw : ∀ k, NoFailure (e.writes k)) :
    Completes st.sent (serveFile root e name st).1.sent (serveFile root e name st).2 ↔
      StreamsSize root e name st.world.cache := by
  unfold StreamsSize
  cases hres : resolve root e name with
  | none =>
      obtain ⟨reason, hlf, heq⟩ := serveFile_of_resolve_none st hres
      rw [heq]
      simp only [reduceCtorEq, false_implies, implies_true, iff_true]
      exact completes_sendError st (hw 0) hlf
  | some path =>
      simp only [Option.some_inj]
      cases hlook : cacheLookup st.world.cache path.bytes with
      | some entry =>
          rw [serveFile_hit hres hlook, Serving.write_of_noFailure (hw 0)]
          refine iff_of_true (completes_append_iff.mpr (hcache entry (mem_of_cacheLookup hlook).1))
            ?_
          rintro path' size rfl hnone
          rw [hlook] at hnone
          cases hnone
      | none =>
          rw [serveFile_miss hres hlook, serveFromDisk_completes_iff hw]
          constructor
          · rintro h path' size rfl -
            exact h size
          · exact fun h size => h path size rfl hlook

end

/-- **When `serve_file` keeps the connection.** In every run all cached responses are complete, and
every `serve_file` keeps that, whatever its system calls do. From a cache of complete responses and
with no failing write, `serve_file` returns 0 only after exactly one response if and only if the
streaming loop, where the request comes to it, reads as many bytes as `stat` reported. -/
theorem one_response_iff (root : DocRoot) :
    (∀ s, (server root).lts.Reachable s → CacheComplete s.world) ∧
    ∀ (e : ServeEnv) (name : List Byte) (st : Serving), CacheComplete st.world →
      CacheComplete (serveFile root e name st).1.world ∧
      ((∀ k, NoFailure (e.writes k)) →
        (Completes st.sent (serveFile root e name st).1.sent (serveFile root e name st).2 ↔
          StreamsSize root e name st.world.cache)) := by
  constructor
  · rintro s ⟨tr, h⟩
    exact ((cacheComplete root).holds h fun _ _ => trivial).world
  · intro e name st hst
    refine ⟨?_, fun hw => serveFile_completes_iff hst hw⟩
    rw [CacheComplete, cache_serveFile]
    exact complete_cacheAfter root e name hst

namespace Example

open DocRoot.Example

/-- A file of two bytes according to `stat`, with no memory for it, and the reads that give what it
holds now. -/
def streaming (reads : List (List Byte)) : ServeEnv where
  realpath _ := some path
  stat _ := .ok true 2
  openOk _ := true
  malloc := false
  pread _ := none
  reads _ := reads
  writes _ := []

/-- Nothing was sent or cached yet. -/
def idle : Serving := ⟨0, [], World.start⟩

end Example

open DocRoot.Example Example in
/-- A file that did not change is streamed in two reads as one response. -/
theorem one_response_iff_streamed :
    StreamsSize root (streaming [[104], [105]]) [97] idle.world.cache ∧
      Completes [] (serveFile root (streaming [[104], [105]]) [97] idle).1.sent
        (serveFile root (streaming [[104], [105]]) [97] idle).2 := by
  have hsize : StreamsSize root (streaming [[104], [105]]) [97] idle.world.cache := by
    intro path size _ _ hstat _ _
    cases hstat
    rfl
  have hst : CacheComplete idle.world := fun _ h => absurd h List.not_mem_nil
  have hw : ∀ k, NoFailure ((streaming [[104], [105]]).writes k) :=
    fun _ => ⟨List.not_mem_nil, List.not_mem_nil⟩
  exact ⟨hsize, (((one_response_iff root).2 _ _ idle hst).2 hw).mpr hsize⟩

open DocRoot.Example Example in
/-- A file that lost a byte after `stat`: two bytes are announced, one is sent, and the connection
is kept. -/
theorem truncated_not_one_response :
    (∀ k, NoFailure ((streaming [[104]]).writes k)) ∧ CacheComplete idle.world ∧
      (serveFile root (streaming [[104]]) [97] idle).2 = false ∧
      values (serveFile root (streaming [[104]]) [97] idle).1.sent = ascii "+OK 2\nh" ∧
      ¬ Completes [] (serveFile root (streaming [[104]]) [97] idle).1.sent
        (serveFile root (streaming [[104]]) [97] idle).2 := by
  have hst : CacheComplete idle.world := fun _ h => absurd h List.not_mem_nil
  have hw : ∀ k, NoFailure ((streaming [[104]]).writes k) :=
    fun _ => ⟨List.not_mem_nil, List.not_mem_nil⟩
  refine ⟨hw, hst, by decide +kernel, by decide +kernel, fun h => ?_⟩
  have hsize := (serveFile_completes_iff hst hw).mp h path 2 (by decide +kernel) rfl rfl rfl rfl
  exact absurd hsize (by decide)

end FileServer

end Osvcp.Servers
