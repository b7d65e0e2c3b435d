import Osvcp.Servers.AioSlots

/-! # The output stream of the asynchronous server

Responses leave the server by `sock_send`, by the writes from the response buffer and by `sendfile`,
on a socket that may refuse bytes at any call. If no write of `sock_send` fails and no client is
moved while its read is in flight, then what a client has been sent is always the concatenation of
complete responses to the requests it has processed, followed by a prefix of the response to the
current one: the first `resp_sent` bytes of its buffer, or a header and the first `sf_offset` bytes
of the file (`stream_of_sends_complete`). The bytes of a body are those that a system call has
delivered for their positions in one file. `sock_send` returns silently when the socket is full:
what is sent next then starts inside the lost response.

A client that is moved while its read is in flight may be removed without waiting for that read,
which then stores into a freed block, and `malloc` may have given this block to another response.
-/

namespace Osvcp.Servers.AioServer

/-! ## The property -/

/-- A response: an error line, or bytes of the file at a path. -/
inductive Response
  | error (reason : String) (h : LF ∉ ascii reason)
  | ok (path : List Byte) (body : List Cell)

/-- The bytes of a response. -/
def Response.encode : Response → List Cell
  | .error reason _ => errLine reason
  | .ok _ body => okHeader body.length ++ body

/-- What a step delivers for a position of the file at a path: an `aio_read`, which starts at 0,
ends, or `sendfile` sends from an offset. -/
inductive Delivers (s : State) : Action → List Byte → ℕ → Byte → Prop
  | aioRead {k j : ℕ} {r : AioRequest} {data : List Byte} {b : Byte}
      (hr : s.world.pending[k]? = some r) (hj : j < r.nbytes) (hb : data[j]? = some b) :
      Delivers s (.async (.aioDone k (.delivered data))) r.file.path j b
  | sendfile {e : HandleEnv} {f : Handle} {off j : ℕ} {data : List Byte} {b : Byte}
      (hd : e.sendfile (some f) off = .sent data) (hb : data[j]? = some b) :
      Delivers s (.handle e) f.path (off + j) b

/-- What the steps of a run have delivered. -/
def Delivered (tr : List (State × Action)) (path : List Byte) (j : ℕ) (b : Byte) : Prop :=
  ∃ p ∈ tr, Delivers p.1 p.2 path j b

/-- Each byte of a body was delivered for its position in the file, or is memory that nothing was
stored in. -/
def Placed (F : List Byte → ℕ → Byte → Prop) (path : List Byte) (body : List Cell) : Prop :=
  ∀ j cell, body[j]? = some cell → cell = .junk ∨ ∃ t b, cell = .file ⟨path, t⟩ b ∧ F path j b

/-- The body of a response is a part of one file, without gaps. -/
def Response.Placed (F : List Byte → ℕ → Byte → Prop) : Response → Prop
  | .error _ _ => True
  | .ok path body => AioServer.Placed F path body

/-- What the client has been sent is the complete responses `rs` to the requests it has processed,
and the part `p` of the response to the last of them, which has got as far as the client's state
says. -/
structure Sent (F : List Byte → ℕ → Byte → Prop) (w : World) (c : Client) (rs : List Response)
    (p : List Cell) : Prop where
  sent : c.sent = rs.flatMap Response.encode ++ p
  placed : ∀ r ∈ rs, r.Placed F
  reading : c.state = .reading → rs.length = c.requests.length ∧ p = []
  current : c.state ≠ .reading → rs.length + 1 = c.requests.length ∧
    ∃ r : Response, r.Placed F ∧ p <+: r.encode
  aio : c.state = .aio → p = []
  writing : c.state = .writing → p = (c.buffer w).take c.respSent
  sendfile : c.state = .sendfile → ∃ f body, c.sfFd = some f ∧ AioServer.Placed F f.path body ∧
    body.length = c.sfOffset ∧ p = okHeader (c.sfOffset + c.sfRemaining) ++ body

/-- What the client has been sent are complete responses and a prefix of one. -/
def StreamOk (F : List Byte → ℕ → Byte → Prop) (w : World) (c : Client) : Prop :=
  ∃ rs p, Sent F w c rs p

/-- No write of `sock_send` fails, except that it may be interrupted. -/
def SendsComplete : Action → Prop
  | .handle e => NoFailure e.aioSends ∧ ∀ k, NoFailure (e.serves k).sends
  | _ => True

/-! ## Bodies -/

section

variable {F : List Byte → ℕ → Byte → Prop} {path : List Byte} {body : List Cell}

theorem placed_nil : Placed F path [] := fun j cell h => by simp at h

theorem placed_junk (n : ℕ) : Placed F path (List.replicate n .junk) := by
  intro j cell h
  exact .inl (List.eq_of_mem_replicate (List.mem_of_getElem? h))

theorem Placed.append_junk (h : Placed F path body) (n : ℕ) :
    Placed F path (body ++ List.replicate n .junk) := by
  intro j cell hj
  rcases Nat.lt_or_ge j body.length with hlt | hge
  · rw [List.getElem?_append_left hlt] at hj
    exact h j cell hj
  · rw [List.getElem?_append_right hge] at hj
    exact .inl (List.eq_of_mem_replicate (List.mem_of_getElem? hj))

theorem getElem?_fileCells {src : Source} {data : List Byte} {j : ℕ} {cell : Cell}
    (h : (fileCells src data)[j]? = some cell) : ∃ b, data[j]? = some b ∧ cell = .file src b := by
  rw [fileCells, List.getElem?_map, Option.map_eq_some_iff] at h
  obtain ⟨b, hb, rfl⟩ := h
  exact ⟨b, hb, rfl⟩

/-- What follows in the file follows in the body. -/
theorem Placed.append (h : Placed F path body) {data : List Byte}
    (hdata : ∀ j b, data[j]? = some b → F path (body.length + j) b) (t : ℕ) :
    Placed F path (body ++ fileCells ⟨path, t⟩ data) := by
  intro j cell hj
  rcases Nat.lt_or_ge j body.length with hlt | hge
  · rw [List.getElem?_append_left hlt] at hj
    exact h j cell hj
  · rw [List.getElem?_append_right hge] at hj
    obtain ⟨b, hb, rfl⟩ := getElem?_fileCells hj
    have hF := hdata _ b hb
    rw [Nat.add_sub_cancel' hge] at hF
    exact .inr ⟨t, b, rfl, hF⟩

/-- The end of a read fills a body from its start. -/
theorem Placed.fill (h : Placed F path body) {data : List Byte}
    (hdata : ∀ j b, data[j]? = some b → F path j b) (t : ℕ) :
    Placed F path (fileCells ⟨path, t⟩ data ++ body.drop data.length) := by
  have hlen : (fileCells ⟨path, t⟩ data).length = data.length := List.length_map _
  intro j cell hj
  rcases Nat.lt_or_ge j data.length with hlt | hge
  · rw [List.getElem?_append_left (hlen ▸ hlt)] at hj
    obtain ⟨b, hb, rfl⟩ := getElem?_fileCells hj
    exact .inr ⟨t, b, rfl, hdata j b hb⟩
  · rw [List.getElem?_append_right (hlen ▸ hge), List.getElem?_drop, hlen,
      Nat.add_sub_cancel' hge] at hj
    exact h j cell hj

end

/-! ## The invariant -/

/-- The client's buffer, the block `id`, holds a header and the body it announces, and the
outstanding reads into it store into the body. -/
structure Buffered (F : List Byte → ℕ → Byte → Prop) (w : World) (c : Client) (id : ℕ)
    (path : List Byte) (body : List Cell) : Prop where
  resp : c.resp = some id
  lt : id < w.nextBuf
  cells : w.heap id = okHeader body.length ++ body
  respSize : c.respSize = (okHeader body.length).length + body.length
  placed : Placed F path body
  reads : ∀ r ∈ w.pending, r.buf = id →
    r.off = (okHeader body.length).length ∧ r.nbytes = body.length ∧ r.file.path = path

/-- How far the response to the current request has got. -/
inductive Progress (F : List Byte → ℕ → Byte → Prop) (w : World) (c : Client) : List Cell → Prop
  | reading (h : c.state = .reading) : Progress F w c []
  | aio {id : ℕ} {path : List Byte} {body : List Cell} (h : c.state = .aio)
      (hb : Buffered F w c id path body) (hs : c.respSent = 0) : Progress F w c []
  | writing {id : ℕ} {path : List Byte} {body : List Cell} (h : c.state = .writing)
      (hb : Buffered F w c id path body) (hs : c.respSent ≤ c.respSize) :
      Progress F w c ((c.buffer w).take c.respSent)
  | sendfile {f : Handle} {body : List Cell} (h : c.state = .sendfile) (hf : c.sfFd = some f)
      (hb : Placed F f.path body) (hs : body.length = c.sfOffset) :
      Progress F w c (okHeader (c.sfOffset + c.sfRemaining) ++ body)

/-- The invariant of a client: complete responses, and the progress of the current one. -/
def Flow (F : List Byte → ℕ → Byte → Prop) (w : World) (c : Client) : Prop :=
  ∃ (rs : List Response) (p : List Cell), c.sent = rs.flatMap Response.encode ++ p ∧
    (∀ r ∈ rs, r.Placed F) ∧
    rs.length + (if c.state = .reading then 0 else 1) = c.requests.length ∧ Progress F w c p

/-- Cached responses are complete. -/
def Shapes (F : List Byte → ℕ → Byte → Prop) (w : World) : Prop :=
  ∀ entry ∈ w.cache, ∃ path body, entry.resp = okHeader body.length ++ body ∧ Placed F path body

section

variable {F : List Byte → ℕ → Byte → Prop} {c c' : Client} {w w' : World} {id i : ℕ}
  {path : List Byte} {body : List Cell}

theorem Buffered.buffer (h : Buffered F w c id path body) :
    c.buffer w = okHeader body.length ++ body := by
  rw [Client.buffer, h.resp]
  show (w.heap id).take c.respSize = _
  rw [h.cells, h.respSize, List.take_of_length_le (by rw [List.length_append])]

/-- Allocation and new reads into new buffers leave a buffer alone. -/
theorem Buffered.mono (h : Buffered F w c id path body) (hw : w.Extends w') :
    Buffered F w' c id path body where
  resp := h.resp
  lt := Nat.lt_of_lt_of_le h.lt hw.nextBuf
  cells := (hw.heap id h.lt).trans h.cells
  respSize := h.respSize
  placed := h.placed
  reads r hr hbuf := by
    rcases hw.pending r hr with hr | hle
    · exact h.reads r hr hbuf
    · exact absurd h.lt (by omega)

theorem Buffered.congr (h : Buffered F w c id path body) (hresp : c'.resp = c.resp)
    (hsize : c'.respSize = c.respSize) : Buffered F w c' id path body :=
  ⟨hresp.trans h.resp, h.lt, h.cells, hsize.trans h.respSize, h.placed, h.reads⟩

variable {k : ℕ} {r : AioRequest}

/-- The end of a read into another buffer. -/
theorem Buffered.complete_of_ne (h : Buffered F w c id path body) (hne : id ≠ r.buf)
    (result : AioResult) : Buffered F (w.complete k r result) c id path body where
  resp := h.resp
  lt := by
    rw [World.complete_nextBuf]
    exact h.lt
  cells := by
    rw [World.complete_heap_of_ne hne]
    exact h.cells
  respSize := h.respSize
  placed := h.placed
  reads r' hr' := by
    rw [World.complete_pending] at hr'
    exact h.reads r' (List.mem_of_mem_eraseIdx hr')

/-- **The end of the read into the buffer** fills the front of the body; a short count leaves the
rest of it as it was. -/
theorem Buffered.complete (h : Buffered F w c id path body) (hr : w.pending[k]? = some r)
    (hbuf : r.buf = id) {result : AioResult}
    (hF : ∀ data j b, result = .delivered data → j < r.nbytes → data[j]? = some b →
      F r.file.path j b) :
    ∃ body', Buffered F (w.complete k r result) c id path body' := by
  obtain ⟨hoff, hnbytes, hpath⟩ := h.reads r (List.mem_of_getElem? hr) hbuf
  have hreads : ∀ r' ∈ (w.complete k r result).pending, r'.buf = id →
      r'.off = (okHeader body.length).length ∧ r'.nbytes = body.length ∧ r'.file.path = path := by
    intro r' hr'
    rw [World.complete_pending] at hr'
    exact h.reads r' (List.mem_of_mem_eraseIdx hr')
  cases result with
  | failed => exact ⟨body, h.resp, h.lt, h.cells, h.respSize, h.placed, hreads⟩
  | delivered data =>
      have hdata : (data.take r.nbytes).length ≤ body.length := by
        rw [List.length_take, hnbytes]
        omega
      have hlen : (fileCells ⟨path, r.flushes⟩ (data.take r.nbytes) ++
          body.drop (data.take r.nbytes).length).length = body.length := by
        rw [List.length_append, List.length_drop, fileCells, List.length_map]
        omega
      refine ⟨fileCells ⟨path, r.flushes⟩ (data.take r.nbytes) ++
        body.drop (data.take r.nbytes).length, h.resp, h.lt, ?_, ?_, ?_, ?_⟩
      · rw [hlen]
        simp only [World.complete, World.store, hbuf, Function.update_self, h.cells, hoff, hpath]
        rw [List.take_left, List.drop_append, List.drop_eq_nil_of_le (by omega), List.nil_append,
          fileCells, List.length_map, Nat.add_sub_cancel_left, List.append_assoc]
      · rw [hlen]
        exact h.respSize
      · refine h.placed.fill (fun j b hb => ?_) _
        rw [List.getElem?_take] at hb
        split at hb
        · rename_i hj
          exact hpath ▸ hF data j b rfl hj hb
        · cases hb
      · rw [hlen]
        exact hreads

theorem Progress.mono {p : List Cell} (h : Progress F w c p) (hw : w.Extends w') :
    Progress F w' c p := by
  cases h with
  | reading h => exact .reading h
  | aio h hb hs => exact .aio h (hb.mono hw) hs
  | writing h hb hs =>
      rw [hb.buffer, ← (hb.mono hw).buffer]
      exact .writing h (hb.mono hw) hs
  | sendfile h hf hb hs => exact .sendfile h hf hb hs

theorem Flow.mono (h : Flow F w c) (hw : w.Extends w') : Flow F w' c := by
  obtain ⟨rs, p, hsent, hplaced, hlen, hprog⟩ := h
  exact ⟨rs, p, hsent, hplaced, hlen, hprog.mono hw⟩

/-- The invariant is about the output side of a client. -/
theorem Flow.congr (h : Flow F w c) (hsent : c'.sent = c.sent) (hreq : c'.requests = c.requests)
    (hst : c'.state = c.state) (hresp : c'.resp = c.resp) (hsize : c'.respSize = c.respSize)
    (hrs : c'.respSent = c.respSent) (hfd : c'.sfFd = c.sfFd) (hoff : c'.sfOffset = c.sfOffset)
    (hrem : c'.sfRemaining = c.sfRemaining) : Flow F w c' := by
  obtain ⟨rs, p, hsent', hplaced, hlen, hprog⟩ := h
  refine ⟨rs, p, hsent.trans hsent', hplaced, by rwa [hst, hreq], ?_⟩
  cases hprog with
  | reading h => exact .reading (hst.trans h)
  | aio h hb hzero => exact .aio (hst.trans h) (hb.congr hresp hsize) (hrs.trans hzero)
  | writing h hb hle =>
      have hb' := hb.congr hresp hsize
      rw [hb.buffer, ← hb'.buffer, ← hrs]
      exact .writing (hst.trans h) hb' (hrs ▸ hsize ▸ hle)
  | sendfile h hf hb hpos =>
      rw [← hoff, ← hrem]
      exact .sendfile (hst.trans h) (hfd.trans hf) hb (hpos.trans hoff.symm)

/-- The end of a read into a buffer that is not the client's. -/
theorem Flow.complete_of_ne (h : Flow F w c) (hne : c.resp ≠ some r.buf) (result : AioResult) :
    Flow F (w.complete k r result) c := by
  obtain ⟨rs, p, hsent, hplaced, hlen, hprog⟩ := h
  have hid : ∀ {id path body}, Buffered F w c id path body → id ≠ r.buf := by
    rintro id path body hb rfl
    exact hne hb.resp
  refine ⟨rs, p, hsent, hplaced, hlen, ?_⟩
  cases hprog with
  | reading h => exact .reading h
  | aio h hb hs => exact .aio h (hb.complete_of_ne (hid hb) result) hs
  | writing h hb hs =>
      have hb' := hb.complete_of_ne (k := k) (hid hb) result
      rw [hb.buffer, ← hb'.buffer]
      exact .writing h hb' hs
  | sendfile h hf hb hs => exact .sendfile h hf hb hs

/-- **The end of a read** is seen by the client that waits for it and by no other. -/
theorem Flow.complete (h : Flow F w c) (hreg : Registered w i c) (hr : w.pending[k]? = some r)
    {result : AioResult}
    (hF : ∀ data j b, result = .delivered data → j < r.nbytes → data[j]? = some b →
      F r.file.path j b) :
    Flow F (w.complete k r result) c := by
  by_cases hbuf : c.resp = some r.buf
  · have hmem := List.mem_of_getElem? hr
    have hst : c.state = .aio := (hreg.owner r hmem (hreg.slot r hmem hbuf)).1
    obtain ⟨rs, p, hsent, hplaced, hlen, hprog⟩ := h
    refine ⟨rs, p, hsent, hplaced, hlen, ?_⟩
    cases hprog with
    | reading h => exact absurd (h.symm.trans hst) (by decide)
    | writing h => exact absurd (h.symm.trans hst) (by decide)
    | sendfile h => exact absurd (h.symm.trans hst) (by decide)
    | aio h hb hs =>
        obtain ⟨body', hb'⟩ := hb.complete hr (Option.some_inj.mp (hbuf.symm.trans hb.resp)) hF
        exact .aio hst hb' hs
  · exact h.complete_of_ne hbuf result

/-- The invariant gives the property. -/
theorem Flow.streamOk (h : Flow F w c) : StreamOk F w c := by
  obtain ⟨rs, p, hsent, hplaced, hlen, hprog⟩ := h
  refine ⟨rs, p, ?_⟩
  have hcount : c.state ≠ .reading → rs.length + 1 = c.requests.length := fun hst => by
    rwa [if_neg hst] at hlen
  cases hprog with
  | reading h =>
      rw [if_pos h] at hlen
      exact ⟨hsent, hplaced, fun _ => ⟨hlen, rfl⟩, fun hst => absurd h hst, fun _ => rfl,
        fun hst => absurd (h.symm.trans hst) (by decide),
        fun hst => absurd (h.symm.trans hst) (by decide)⟩
  | aio h hb hs =>
      refine ⟨hsent, hplaced, fun hst => absurd (h.symm.trans hst) (by decide),
        fun hst => ⟨hcount hst, .ok [] [], placed_nil, List.nil_prefix⟩, fun _ => rfl,
        fun hst => absurd (h.symm.trans hst) (by decide),
        fun hst => absurd (h.symm.trans hst) (by decide)⟩
  | @writing id path body h hb hs =>
      refine ⟨hsent, hplaced, fun hst => absurd (h.symm.trans hst) (by decide),
        fun hst => ⟨hcount hst, .ok path body, hb.placed, ?_⟩,
        fun hst => absurd (h.symm.trans hst) (by decide), fun _ => rfl,
        fun hst => absurd (h.symm.trans hst) (by decide)⟩
      rw [Response.encode, ← hb.buffer]
      exact List.take_prefix _ _
  | @sendfile f body h hf hb hs =>
      refine ⟨hsent, hplaced, fun hst => absurd (h.symm.trans hst) (by decide),
        fun hst => ⟨hcount hst, .ok f.path (body ++ List.replicate c.sfRemaining Cell.junk),
          hb.append_junk _, ?_⟩,
        fun hst => absurd (h.symm.trans hst) (by decide),
        fun hst => absurd (h.symm.trans hst) (by decide), fun _ => ⟨f, body, hf, hb, hs, rfl⟩⟩
      rw [Response.encode, List.length_append, List.length_replicate, ← List.append_assoc, hs]
      exact List.prefix_append _ _

/-- A complete response ends the current request. -/
theorem flow_of_response {rs : List Response} (r : Response) (c : Client) (hst : c.state = .reading)
    (hplaced : ∀ r ∈ rs, r.Placed F) (hr : r.Placed F) (hlen : rs.length + 1 = c.requests.length)
    (hsent : c.sent = rs.flatMap Response.encode ++ r.encode) : Flow F w c := by
  refine ⟨rs ++ [r], [], ?_, ?_, ?_, .reading hst⟩
  · rw [hsent, List.flatMap_append]
    simp
  · exact List.forall_mem_append.mpr ⟨hplaced, List.forall_mem_singleton.mpr hr⟩
  · rw [if_pos hst, List.length_append]
    exact hlen

end

/-! ## The operations of the body -/

section

variable {F : List Byte → ℕ → Byte → Prop} {root : DocRoot} {i : ℕ} {c : Client} {w w' : World}

/-- The complete responses before a new request. -/
theorem Flow.responses (h : Flow F w c) (hst : c.state = .reading) :
    ∃ rs : List Response, c.sent = rs.flatMap Response.encode ∧ (∀ r ∈ rs, r.Placed F) ∧
      rs.length = c.requests.length := by
  obtain ⟨rs, p, hs⟩ := h.streamOk
  obtain ⟨hlen, rfl⟩ := hs.reading hst
  exact ⟨rs, by rw [hs.sent, List.append_nil], hs.placed, hlen⟩

theorem beginFileServe_flow {e : ServeEnv} (he : NoFailure e.sends) (hst : c.state = .reading)
    (name : List Byte) {rs : List Response} (hsent : c.sent = rs.flatMap Response.encode)
    (hplaced : ∀ r ∈ rs, r.Placed F) (hlen : rs.length + 1 = c.requests.length)
    (hbufs : ∀ r ∈ w.pending, r.buf < w.nextBuf) (hw : Shapes F w) :
    let p := beginFileServe root e i name c w
    Shapes F p.2 ∧ Flow F p.2 p.1 := by
  have hbegun := beginFileServe_begun root e i name c w
  generalize beginFileServe root e i name c w = p at hbegun ⊢
  have hnone : ∀ r ∈ w.pending, r.buf ≠ w.nextBuf := fun r hr => Nat.ne_of_lt (hbufs r hr)
  cases hbegun with
  | @refused reason q h hq =>
      refine ⟨fun entry hentry => hw entry (hq.cache ▸ hentry), ?_⟩
      apply flow_of_response (.error reason h.line) (q.1.reply e.sends (errLine reason))
        _ hplaced trivial
      · exact hlen.trans (congrArg List.length hq.requests.symm)
      · show q.1.sent ++ sockSend e.sends (errLine reason) = _
        rw [hq.sent, hsent, sockSend_of_noFailure he]
        rfl
      · exact hq.state.trans hst
  | @cached path entry hne hrel hreal hacc hlook =>
      obtain ⟨src, body, hbody, hsrc⟩ := hw entry (mem_of_cacheLookup hlook).1
      have hb : Buffered F (w.alloc entry.resp)
          (serveCached entry { c with cacheKey := strncpyPath path.bytes } w).1 w.nextBuf
          src body := by
        refine ⟨rfl, Nat.lt_succ_self _, (Function.update_self ..).trans hbody, ?_, hsrc, ?_⟩
        · show entry.resp.length = _
          rw [hbody, List.length_append]
        · exact fun r hr hbuf => absurd hbuf (hnone r hr)
      refine ⟨hw, rs, _, ?_, hplaced, hlen, .writing rfl hb (Nat.zero_le _)⟩
      exact hsent.trans (List.append_nil _).symm
  | @sendfile path size hne hrel hreal hacc hstat hsize =>
      have hprog : Progress F (w.opened path.bytes) (startSendfile e ⟨w.nextFd, path.bytes⟩ size
          { c with cacheKey := strncpyPath path.bytes } (w.opened path.bytes)).1
          (okHeader (0 + size) ++ []) := .sendfile rfl rfl placed_nil rfl
      refine ⟨hw, rs, _, ?_, hplaced, hlen, hprog⟩
      show c.sent ++ sockSend e.sends (okHeader size) = _
      rw [hsent, sockSend_of_noFailure he, Nat.zero_add, List.append_nil]
  | @aio path size hne hrel hreal hacc hstat hsize hmalloc haio =>
      have hmem := mem_pending_startRead hmalloc haio i ⟨w.nextFd, path.bytes⟩ size
        { c with cacheKey := strncpyPath path.bytes } (w.opened path.bytes)
      rw [startRead_of_ok hmalloc haio] at hmem ⊢
      have hlength : (List.replicate size Cell.junk).length = size := List.length_replicate
      refine ⟨hw, rs, [], hsent.trans (List.append_nil _).symm, hplaced, hlen, ?_⟩
      refine Progress.aio rfl (?_ : Buffered F _ _ w.nextBuf path.bytes
        (List.replicate size .junk)) rfl
      refine ⟨rfl, Nat.lt_succ_self _, ?_, ?_, placed_junk size, ?_⟩
      · rw [hlength]
        exact Function.update_self ..
      · rw [hlength]
      · intro r hr hbuf
        rcases hmem r hr with hr | rfl
        · exact absurd hbuf (hnone r hr)
        · rw [hlength]
          exact ⟨rfl, rfl, rfl⟩

theorem checkAio_flow {e : HandleEnv} (he : NoFailure e.aioSends) (hst : c.state = .aio)
    (hw : Shapes F w) (hc : Flow F w c) :
    let p := checkAio e c w
    Shapes F p.2 ∧ Flow F p.2 p.1 := by
  obtain ⟨rs, p, hsent, hplaced, hlen, hprog⟩ := hc
  cases hprog with
  | reading h => exact absurd (h.symm.trans hst) (by decide)
  | writing h => exact absurd (h.symm.trans hst) (by decide)
  | sendfile h => exact absurd (h.symm.trans hst) (by decide)
  | @aio id path body _ hb hs =>
      have hlen' : rs.length + 1 = c.requests.length := by
        rw [if_neg (by rw [hst]; decide)] at hlen
        exact hlen
      unfold checkAio
      split
      · exact ⟨hw, rs, [], hsent, hplaced, hlen, .aio hst hb hs⟩
      · refine ⟨fun entry hentry => hw entry ?_, ?_⟩
        · simpa [failRead] using hentry
        · apply flow_of_response (.error "read error" (by decide))
            (failRead e c w).1 rfl hplaced trivial hlen'
          show c.sent ++ sockSend e.aioSends (errLine "read error") = _
          rw [hsent, List.append_nil, sockSend_of_noFailure he]
          rfl
      · -- the end of the read sends nothing: the whole buffer is still to be written
        have hext := finishRead_extends e c w
        constructor
        · intro entry hentry
          rcases mem_cache_finishRead hentry with hold | ⟨hresp, -⟩
          · exact hw entry hold
          · exact ⟨path, body, by rw [hresp, hb.buffer], hb.placed⟩
        · have hzero : (finishRead e c w).1.respSent = 0 := hs
          have hprog : Progress F (finishRead e c w).2 (finishRead e c w).1
              (((finishRead e c w).1.buffer (finishRead e c w).2).take
                (finishRead e c w).1.respSent) :=
            .writing rfl ((hb.mono hext).congr rfl rfl) (hzero ▸ Nat.zero_le _)
          rw [hzero, List.take_zero] at hprog
          exact ⟨rs, [], hsent, hplaced, hlen', hprog⟩

/-- A write continues the response where the last one stopped. -/
theorem advanceWrite_flow {cells : List Cell} (hst : c.state = .writing)
    (hcells : cells <+: (c.buffer w).drop c.respSent) (hw : Shapes F w) (hc : Flow F w c) :
    let p := advanceWrite cells c w
    Shapes F p.2 ∧ Flow F p.2 p.1 := by
  obtain ⟨rs, p, hsent, hplaced, hlen, hprog⟩ := hc
  cases hprog with
  | reading h => exact absurd (h.symm.trans hst) (by decide)
  | aio h => exact absurd (h.symm.trans hst) (by decide)
  | sendfile h => exact absurd (h.symm.trans hst) (by decide)
  | @writing id path body _ hb hs =>
      have hlen' : rs.length + 1 = c.requests.length := by
        rw [if_neg (by rw [hst]; decide)] at hlen
        exact hlen
      have hsize : (c.buffer w).length = c.respSize := by
        rw [hb.buffer, List.length_append, hb.respSize]
      have hle : c.respSent + cells.length ≤ c.respSize := by
        have := hcells.length_le
        rw [List.length_drop, hsize] at this
        omega
      have hsent' : c.sent ++ cells = rs.flatMap Response.encode ++
          (c.buffer w).take (c.respSent + cells.length) := by
        rw [hsent, List.append_assoc, List.take_add, ← List.prefix_iff_eq_take.mp hcells]
      unfold advanceWrite
      simp only
      split
      · rename_i hdone
        refine ⟨fun entry hentry => hw entry (by simpa using hentry), ?_⟩
        refine flow_of_response (.ok path body) _ rfl hplaced hb.placed hlen' (hsent'.trans ?_)
        rw [hdone, ← hsize, List.take_length, hb.buffer]
        rfl
      · refine ⟨hw, rs, _, hsent', hplaced, hlen, ?_⟩
        exact .writing (c := { c with
          respSent := c.respSent + cells.length, sent := c.sent ++ cells }) hst
          (hb.congr rfl rfl) hle

/-- `sendfile` continues the response. -/
theorem advanceSendfile_flow {data : List Byte} (hst : c.state = .sendfile)
    (hdata : data.length ≤ c.sfRemaining)
    (hF : ∀ f j b, c.sfFd = some f → data[j]? = some b → F f.path (c.sfOffset + j) b)
    (hw : Shapes F w) (hc : Flow F w c) :
    let p := advanceSendfile data c w
    Shapes F p.2 ∧ Flow F p.2 p.1 := by
  obtain ⟨rs, p, hsent, hplaced, hlen, hprog⟩ := hc
  cases hprog with
  | reading h => exact absurd (h.symm.trans hst) (by decide)
  | aio h => exact absurd (h.symm.trans hst) (by decide)
  | writing h => exact absurd (h.symm.trans hst) (by decide)
  | @sendfile f body _ hf hb hs =>
      have hlen' : rs.length + 1 = c.requests.length := by
        rw [if_neg (by rw [hst]; decide)] at hlen
        exact hlen
      have hpath : (c.sfFd.map Handle.path).getD [] = f.path := by rw [hf]; rfl
      have hnew := hb.append (fun j b hj => hs ▸ hF f j b hf hj) w.flushes
      have hbody : (body ++ fileCells ⟨f.path, w.flushes⟩ data).length =
          c.sfOffset + data.length := by
        rw [List.length_append, fileCells, List.length_map, hs]
      -- what has been sent and what remains always add up to the size in the header
      have htotal : c.sfOffset + data.length + (c.sfRemaining - data.length) =
          c.sfOffset + c.sfRemaining := by omega
      have hsent' : c.sent ++ fileCells ⟨f.path, w.flushes⟩ data = rs.flatMap Response.encode ++
          (okHeader (c.sfOffset + data.length + (c.sfRemaining - data.length)) ++
            (body ++ fileCells ⟨f.path, w.flushes⟩ data)) := by
        rw [hsent, htotal, List.append_assoc, List.append_assoc]
      unfold advanceSendfile
      simp only [hpath]
      split
      · rename_i hzero
        refine ⟨fun entry hentry => hw entry (by simpa using hentry), ?_⟩
        refine flow_of_response (.ok f.path (body ++ fileCells ⟨f.path, w.flushes⟩ data))
          _ rfl hplaced hnew hlen' (hsent'.trans ?_)
        rw [Response.encode, hzero, Nat.add_zero, hbody]
      · exact ⟨hw, rs, _, hsent', hplaced, hlen, .sendfile hst hf hnew hbody⟩

theorem stream_body (root : DocRoot) {e : HandleEnv} (he : SendsComplete (.handle e))
    (hF : ∀ f off data j b, e.sendfile (some f) off = .sent data → data[j]? = some b →
      F f.path (off + j) b)
    {n i : ℕ} (hi : i < n) :
    BodyRule root e i (Keeps (fun w => Slots n w ∧ Shapes F w)
      (fun w j c => Registered w j c ∧ Flow F w c) i) where
  refl := Keeps.refl
  trans := Keeps.trans
  input c w buf received := by
    refine ((slots_body root e hi).input c w buf received).and fun _ => .of_world_eq fun _ hc => ?_
    exact hc.congr rfl rfl rfl rfl rfl rfl rfl rfl rfl
  checkAio c w hst := by
    refine ((slots_body root e hi).checkAio c w hst).and fun _ => ?_
    exact Keeps.of_extends (checkAio_extends e c w) Flow.mono (checkAio_flow he.1 hst)
  beginFileServe k c w line hst := by
    refine ((slots_body root e hi).beginFileServe k c w line hst).and fun hs => ?_
    refine Keeps.of_extends (beginFileServe_begun ..).extends Flow.mono fun hw hc => ?_
    obtain ⟨rs, hsent, hplaced, hlen⟩ := hc.responses hst
    have hlen' : rs.length + 1 = (c.requests ++ [line]).length := by
      rw [List.length_append, hlen]
      rfl
    exact beginFileServe_flow (c := { c with requests := c.requests ++ [line] }) (he.2 k) hst
      (LineBuf.lineString true line) hsent hplaced hlen' hs.bufs hw
  advanceWrite c w cells hst hcells := by
    refine ((slots_body root e hi).advanceWrite c w cells hst hcells).and fun _ => ?_
    exact Keeps.of_extends (advanceWrite_extends cells c w) Flow.mono
      (advanceWrite_flow hst (nbWrite_isPrefix hcells))
  advanceSendfile c w data hst hdata := by
    refine ((slots_body root e hi).advanceSendfile c w data hst hdata).and fun _ => ?_
    refine Keeps.of_extends (advanceSendfile_extends data c w) Flow.mono ?_
    refine advanceSendfile_flow hst (length_le_of_sendfile hdata) fun f j b hf hj => ?_
    rcases hdata with rfl | ⟨d, hd, rfl⟩
    · simp at hj
    · rw [List.getElem?_take] at hj
      split at hj
      · exact hF f c.sfOffset d j b (hf ▸ hd) hj
      · cases hj

end

/-! ## Runs -/

theorem flow_init (F : List Byte → ℕ → Byte → Prop) (w : World) (fd : ℕ) : Flow F w (.init fd) :=
  ⟨[], [], rfl, nofun, rfl, .reading rfl⟩

/-- What a step has to satisfy: no write of `sock_send` fails, no client is moved while its read is
in flight, and what is delivered is in `F`. -/
structure StreamStep (root : DocRoot) (F : List Byte → ℕ → Byte → Prop) (s : State) (a : Action) :
    Prop where
  sends : SendsComplete a
  still : ¬MovesInFlight root s a
  delivers : ∀ path j b, Delivers s a path j b → F path j b

/-- The wait of `remove_client` leaves the buffers of the other clients alone. -/
theorem removeClient_flow {F : List Byte → ℕ → Byte → Prop} {i : ℕ} {wait : WaitResult} {c : Client}
    {w w' : World} (hw : Shapes F w) (h : removeClient i wait c w = some w') :
    Shapes F w' ∧ ∀ j d, j ≠ i → Registered w j d → Flow F w d → Flow F w' d := by
  obtain ⟨w₁, f, id, rfl, hw₁⟩ := removeClient_cases h
  suffices hsuff : Shapes F w₁ ∧ ∀ j d, j ≠ i → Registered w j d → Flow F w d → Flow F w₁ d by
    obtain ⟨hs, hframe⟩ := hsuff
    exact ⟨fun entry hentry => hs entry (by simpa using hentry),
      fun j d hj hreg hd => (hframe j d hj hreg hd).mono (w₁.extends_release f id)⟩
  rcases hw₁ with ⟨rfl, -⟩ | ⟨k, r, hr, hslot, rfl | ⟨result, -, rfl⟩⟩
  · exact ⟨hw, fun _ _ _ _ hd => hd⟩
  · refine ⟨hw, fun _ d _ _ hd => hd.mono ?_⟩
    exact .of_heap_eq rfl rfl fun r' hr' => List.mem_of_mem_eraseIdx hr'
  · refine ⟨fun entry hentry => hw entry (by rwa [World.complete_cache] at hentry), ?_⟩
    -- the read belongs to the client that is removed
    intro j d hj hreg hd
    refine hd.complete_of_ne (fun hbuf => hj ?_) result
    rw [← hslot]
    exact (hreg.slot r (List.mem_of_getElem? hr) hbuf).symm

/-- The invariant of the runs in which no `sock_send` fails and no client is moved while its read is
in flight. -/
theorem stream_rule (root : DocRoot) (F : List Byte → ℕ → Byte → Prop) :
    LocalRule root (StreamStep root F) (fun n w => Slots n w ∧ Shapes F w)
      (fun w i c => Registered w i c ∧ Flow F w c) (fun _ => True) where
  init := ⟨(slots_rule root).init, nofun⟩
  connect n w fd hw := by
    obtain ⟨hs, hreg⟩ := (slots_rule root).connect n w fd hw.1
    exact ⟨⟨hs, hw.2⟩, hreg, flow_init F w fd⟩
  flags n w running clear hw := by
    obtain ⟨hs, hreg⟩ := (slots_rule root).flags n w running clear hw.1
    refine ⟨⟨hs, hw.2⟩, fun i c hc => ⟨hreg i c hc.1, hc.2.mono ?_⟩⟩
    exact .of_heap_eq rfl rfl fun _ hr => hr
  clear n w hw := by
    obtain ⟨hs, hreg⟩ := (slots_rule root).clear n w hw.1
    refine ⟨⟨hs, nofun⟩, fun i c hc => ⟨hreg i c hc.1, hc.2.mono ?_⟩⟩
    exact .of_heap_eq rfl rfl fun _ hr => hr
  aioDone s k r result hr hok hw hc := by
    obtain ⟨hs, hreg⟩ := (slots_rule root).aioDone s k r result hr hok.still hw.1
      fun i hi => (hc i hi).1
    refine ⟨⟨hs, fun entry hentry => hw.2 entry ?_⟩, fun i hi => ⟨hreg i hi, ?_⟩⟩
    · rwa [World.complete_cache] at hentry
    · have hflow := (hc i hi).2.complete (hc i hi).1 hr fun data j b (hdata : result = _) hj hb =>
        hok.delivers _ j b (hdata ▸ .aioRead hr hj hb)
      split
      · exact hflow.congr rfl rfl rfl rfl rfl rfl rfl rfl rfl
      · exact hflow
  body s e i hok hi := stream_body root hok.sends
    (fun _ _ _ _ _ hd hb => hok.delivers _ _ _ (.sendfile hd hb)) hi
  remove s e i c w w' hok hw hc h := by
    obtain ⟨⟨hs, hfree⟩, -, hframe⟩ := (slots_rule root).remove s e i c w w' hok.still hw.1 hc.1 h
    obtain ⟨hshapes, hframe'⟩ := removeClient_flow hw.2 h
    exact ⟨⟨⟨hs, hshapes⟩, hfree, flow_init F _ _⟩, trivial,
      fun j d hj hd => ⟨hframe j d hj hd.1, hframe' j d hj hd.1 hd.2⟩⟩
  shrink s r k e w' hp hk hok hw hfree hothers hdrop := by
    obtain ⟨hs, hmove⟩ := (slots_rule root).shrink s r k e w' hp hk hok.still hw.1 hfree.1
      (fun j hj hjk => (hothers j hj hjk).1) hdrop
    exact ⟨⟨hs, hw.2⟩, fun hlt => ⟨hmove hlt, (hothers _ (by omega) (by omega)).2⟩⟩

/-- **The output stream.** In every run in which no write of `sock_send` fails and no client is
moved while its read is in flight, and for every outcome of the other writes, every open connection
has in the state reached been sent the complete responses to the requests processed on it, followed
by a prefix of the response to the current one, and all bodies are what the run has delivered of a
file. -/
theorem stream_of_sends_complete (root : DocRoot) {tr : List (State × Action)} {s : State}
    (h : (server root).lts.Exec tr s)
    (hok : ∀ p ∈ tr, SendsComplete p.2 ∧ ¬MovesInFlight root p.1 p.2) :
    ∀ i < s.table.size, StreamOk (Delivered tr) s.world (s.table.slots i) := by
  intro i hi
  have hholds := (stream_rule root (Delivered tr)).localInvariant.holds h fun p hp =>
    ⟨(hok p hp).1, (hok p hp).2, fun path j b hd => ⟨p, hp, hd⟩⟩
  exact (hholds.client i hi).2.streamOk

/-- A request is answered by a read and three bytes of the response are sent. -/
def partialRun : List Action :=
  Example.accept [5] 1 ++ Example.round [5] [] [{ Example.idle with read := [97, LF] }] ++
    [.async (.aioDone 0 (.delivered [104]))] ++ Example.round [] [] [Example.idle] ++
    Example.round [] [5] [{ Example.idle with write := .wrote 3 }]

/-- In this run a client has been sent a part of its response. -/
theorem stream_of_sends_complete_partialRun :
    ∃ s, (server Example.root).lts.Exec ((server Example.root).lts.trace (server Example.root).start
      partialRun) s ∧ (s.table.slots 0).sent = text "+OK" ∧
      StreamOk (Delivered ((server Example.root).lts.trace (server Example.root).start partialRun))
        s.world (s.table.slots 0) := by
  obtain ⟨s, hs, hcheck⟩ := LTS.exec_of_run_any (server Example.root).lts
    (server Example.root).start partialRun (fun s => 0 < s.table.size ∧ s.gone.length = 0 ∧
      (s.table.slots 0).sent = text "+OK") rfl
    (by decide +kernel)
  obtain ⟨hsize, hgone, hsent⟩ := of_decide_eq_true hcheck
  refine ⟨s, hs, hsent, stream_of_sends_complete Example.root hs (fun p hp => ⟨?_, ?_⟩) 0 hsize⟩
  · have hall : ∀ a ∈ partialRun, SendsComplete a := by
      simp [partialRun, Example.accept, Example.round, Example.idle, Example.serve, SendsComplete,
        NoFailure]
    exact hall p.2 (LTS.action_mem_of_mem_trace _ hp)
  · exact not_moves_of_gone_nil hs (List.length_eq_zero_iff.mp hgone) p hp

/-- The socket takes three bytes of the first of two error lines. -/
def cutRun : List Action :=
  Example.accept [5] 1 ++ Example.round [5] [] [{ Example.idle with
    read := [LF, LF]
    serves := fun k => { Example.serve 1 with
      sends := if k = 0 then [.wrote 3, .eagain] else [] } }]

/-- **The defect.** The rest of the first error line is lost, and the second one starts inside
it. -/
theorem cutRun_not_streamOk :
    ∃ s, (server Example.root).lts.Exec ((server Example.root).lts.trace (server Example.root).start
      cutRun) s ∧ 0 < s.table.size ∧ ∀ F, ¬StreamOk F s.world (s.table.slots 0) := by
  obtain ⟨s, hs, hcheck⟩ := LTS.exec_of_run_any (server Example.root).lts
    (server Example.root).start cutRun
    (fun s => 0 < s.table.size ∧ (s.table.slots 0).state = .reading ∧
      (s.table.slots 0).requests = [[], []] ∧
      (s.table.slots 0).sent = text "-ER" ++ text "-ERR empty filename\n")
    rfl (by decide +kernel)
  obtain ⟨hsize, hst, hreq, hsent⟩ := of_decide_eq_true hcheck
  refine ⟨s, hs, hsize, ?_⟩
  rintro F ⟨rs, p, h⟩
  obtain ⟨hlen, rfl⟩ := h.reading hst
  have hrs := h.sent
  rw [hreq] at hlen
  obtain ⟨r, rs', rfl⟩ := List.exists_cons_of_length_pos (l := rs) (by rw [hlen]; decide)
  -- the fourth byte is neither that of an error line nor can the first one start a header
  rw [hsent, List.flatMap_cons] at hrs
  have h₀ := congrArg (fun cells => cells[0]?) hrs
  have h₃ := congrArg (fun cells => cells[3]?) hrs
  cases r with
  | error reason h => simp [Response.encode, errLine, text, ascii] at h₃
  | ok path body => simp [Response.encode, okHeader, text, ascii] at h₀

end Osvcp.Servers.AioServer
