import Osvcp.Servers.AioSlots

/-! # The integrity of the responses of the asynchronous server

A response buffer is allocated with the size that `stat` reported and filled by an `aio_read`;
`check_aio` then caches and sends it without looking at how many bytes were read. If no client is
moved while its read is in flight, a waiting client only ever sees the end of its own read; if all
reads that deliver anything deliver what was asked for, then every response that is sent or cached
is a header followed by that many bytes that one read of the file has delivered
(`intact_of_own_reads_in_full`). A short read, or the end of another client's read, lets bytes out
that were never stored.

The invariant is stated for any relation `D` between a path and the data a complete read of it
delivers.
-/

namespace Osvcp.Servers.AioServer

/-! ## The property -/

/-- All responses are complete: those being written and those in the cache, and no byte that nothing
was stored in has been sent. -/
structure Intact (D : List Byte → List Byte → Prop) (s : State) : Prop where
  writing : ∀ i < s.table.size, (s.table.slots i).state = .writing →
    Whole D (s.table.slots i).cacheKey ((s.table.slots i).buffer s.world)
  cache : ∀ entry ∈ s.world.cache, Whole D entry.key entry.resp
  sent : ∀ i < s.table.size, Cell.junk ∉ (s.table.slots i).sent
  gone : ∀ c ∈ s.gone, Cell.junk ∉ c.sent

/-- The step ends a read of the file at a path, which delivers this data. -/
def EndsRead (s : State) (a : Action) (path data : List Byte) : Prop :=
  ∃ k r bytes, a = .async (.aioDone k (.delivered bytes)) ∧ s.world.pending[k]? = some r ∧
    r.file.path = path ∧ bytes.take r.nbytes = data

/-- A read of the run has delivered this data. -/
def ReadIn (tr : List (State × Action)) (path data : List Byte) : Prop :=
  ∃ p ∈ tr, EndsRead p.1 p.2 path data

/-- A read that ends without an error delivers all the bytes that were asked for. -/
def ReadsInFull (s : State) (a : Action) : Prop :=
  ∀ k r bytes, a = .async (.aioDone k (.delivered bytes)) → s.world.pending[k]? = some r →
    r.nbytes ≤ bytes.length

/-- If the read that ends finds a waiting client in its slot, then it is the read of this client,
and it fails or delivers all the bytes that were asked for. -/
def OwnReadInFull (D : List Byte → List Byte → Prop) (s : State) : Action → Prop
  | .async (.aioDone k result) => ∀ r, s.world.pending[k]? = some r → r.slot < s.table.size →
      (s.table.slots r.slot).state = .aio →
      (s.table.slots r.slot).resp = some r.buf ∧
        ∀ data, result = .delivered data → r.nbytes ≤ data.length ∧
        D r.file.path (data.take r.nbytes)
  | _ => True

/-! ## The invariant -/

section

variable {D : List Byte → List Byte → Prop}

/-- The cache is intact, and the outstanding reads have different buffers that hold their header. -/
structure Filling (D : List Byte → List Byte → Prop) (w : World) : Prop where
  cache : ∀ entry ∈ w.cache, Whole D entry.key entry.resp
  bufs : ∀ r ∈ w.pending, r.buf < w.nextBuf
  header : ∀ r ∈ w.pending, r.off = (okHeader r.nbytes).length ∧
    ∃ body, body.length = r.nbytes ∧ w.heap r.buf = okHeader r.nbytes ++ body
  distinct : w.pending.Pairwise fun r r' => r.buf ≠ r'.buf

/-- The response of the client is complete, and nothing is going to be stored into it. -/
structure Sound (D : List Byte → List Byte → Prop) (w : World) (c : Client) : Prop where
  whole : Whole D c.cacheKey (c.buffer w)
  settled : ∀ r ∈ w.pending, c.resp ≠ some r.buf

/-- The invariant of a client. -/
structure Honest (D : List Byte → List Byte → Prop) (w : World) (c : Client) : Prop where
  bound : ∀ id, c.resp = some id → id < w.nextBuf
  clean : Cell.junk ∉ c.sent
  writing : c.state = .writing → Sound D w c
  waiting : c.state = .aio → ∀ r ∈ w.pending, c.resp = some r.buf →
    c.respSize = (okHeader r.nbytes).length + r.nbytes ∧ strncpyPath r.file.path = c.cacheKey
  done : ∀ n, c.state = .aio → c.aio = .done n → Sound D w c

variable {w w' : World} {c c' : Client}

theorem junk_notMem_fileCells (src : Source) (data : List Byte) :
    Cell.junk ∉ fileCells src data := by
  simp [fileCells]

theorem junk_notMem_okHeader (size : ℕ) : Cell.junk ∉ okHeader size := by simp [okHeader, text]

theorem junk_notMem_errLine (reason : String) : Cell.junk ∉ errLine reason := by
  simp [errLine, text]

theorem junk_notMem_whole {key : List Byte} {cells : List Cell} (h : Whole D key cells) :
    Cell.junk ∉ cells := by
  obtain ⟨path, flushes, data, -, -, rfl⟩ := h
  rw [List.mem_append]
  rintro (hj | hj)
  · exact junk_notMem_okHeader _ hj
  · exact junk_notMem_fileCells _ _ hj

/-- Sending adds only bytes of a message without holes. -/
theorem Honest.reply_clean (h : Cell.junk ∉ c.sent) {msg : List Cell} (hmsg : Cell.junk ∉ msg)
    (rs : List WriteResult) : Cell.junk ∉ (c.reply rs msg).sent := by
  show Cell.junk ∉ c.sent ++ sockSend rs msg
  rw [List.mem_append]
  rintro (hj | hj)
  · exact h hj
  · exact hmsg ((sockSend_isPrefix rs msg).subset hj)

/-- A client that neither waits nor writes. -/
theorem honest_of_idle (hbound : ∀ id, c.resp = some id → id < w.nextBuf)
    (hclean : Cell.junk ∉ c.sent) (hst : c.state = .reading ∨ c.state = .sendfile) :
    Honest D w c := by
  refine ⟨hbound, hclean, fun h => ?_, fun h => ?_, fun _ h => ?_⟩
  all_goals simp [h] at hst

/-! ### Buffers of the others -/

theorem Client.buffer_congr (hheap : ∀ id, c.resp = some id → w'.heap id = w.heap id) :
    c.buffer w' = c.buffer w := by
  unfold Client.buffer
  split
  · rename_i id hid
    rw [hheap id hid]
  · rfl

theorem Sound.mono (h : Sound D w c) (hbound : ∀ id, c.resp = some id → id < w.nextBuf)
    (hw : w.Extends w') : Sound D w' c := by
  constructor
  · rw [Client.buffer_congr fun id hid => hw.heap id (hbound id hid)]
    exact h.whole
  · intro r hr hbuf
    rcases hw.pending r hr with hr | hle
    · exact h.settled r hr hbuf
    · exact absurd (hbound _ hbuf) (Nat.not_lt.mpr hle)

theorem Honest.mono (h : Honest D w c) (hw : w.Extends w') : Honest D w' c where
  bound id hid := Nat.lt_of_lt_of_le (h.bound id hid) hw.nextBuf
  clean := h.clean
  writing hst := (h.writing hst).mono h.bound hw
  waiting hst r hr hbuf := by
    rcases hw.pending r hr with hr | hle
    · exact h.waiting hst r hr hbuf
    · exact absurd (h.bound _ hbuf) (Nat.not_lt.mpr hle)
  done n hst haio := (h.done n hst haio).mono h.bound hw

/-! ### The end of a read -/

variable {k : ℕ} {r : AioRequest}

/-- A read that delivers everything that was asked for fills the buffer. -/
theorem World.complete_heap_self {data : List Byte} (hlen : r.nbytes ≤ data.length)
    (hoff : r.off = (okHeader r.nbytes).length) {body : List Cell} (hbody : body.length = r.nbytes)
    (hheap : w.heap r.buf = okHeader r.nbytes ++ body) :
    (w.complete k r (.delivered data)).heap r.buf =
      okHeader r.nbytes ++ fileCells ⟨r.file.path, r.flushes⟩ (data.take r.nbytes) := by
  have hcells : (fileCells ⟨r.file.path, r.flushes⟩ (data.take r.nbytes)).length = r.nbytes := by
    rw [fileCells, List.length_map, List.length_take, Nat.min_eq_left hlen]
  simp only [World.complete, World.store, Function.update_self, hheap, hoff, hcells]
  rw [List.take_left, List.drop_eq_nil_of_le, List.append_nil]
  rw [List.length_append, hbody]

theorem Sound.complete (h : Sound D w c) (hr : w.pending[k]? = some r) (result : AioResult) :
    Sound D (w.complete k r result) c := by
  have hne : ∀ id, c.resp = some id → id ≠ r.buf := by
    rintro id hid rfl
    exact h.settled r (List.mem_of_getElem? hr) hid
  constructor
  · rw [Client.buffer_congr fun id hid => World.complete_heap_of_ne (hne id hid) result]
    exact h.whole
  · intro r' hr'
    rw [World.complete_pending] at hr'
    exact h.settled r' (List.mem_of_mem_eraseIdx hr')

/-- The end of a read as the clients see it whose control block it is not stored in. -/
theorem Honest.complete (h : Honest D w c) (hr : w.pending[k]? = some r) (result : AioResult) :
    Honest D (w.complete k r result) c where
  bound id hid := by
    rw [World.complete_nextBuf]
    exact h.bound id hid
  clean := h.clean
  writing hst := (h.writing hst).complete hr result
  waiting hst r' hr' := by
    rw [World.complete_pending] at hr'
    exact h.waiting hst r' (List.mem_of_mem_eraseIdx hr')
  done n hst haio := (h.done n hst haio).complete hr result

theorem Filling.complete (h : Filling D w) (hr : w.pending[k]? = some r) (result : AioResult) :
    Filling D (w.complete k r result) where
  cache := by
    rw [World.complete_cache]
    exact h.cache
  bufs r' hr' := by
    rw [World.complete_pending] at hr'
    rw [World.complete_nextBuf]
    exact h.bufs r' (List.mem_of_mem_eraseIdx hr')
  header r' hr' := by
    rw [World.complete_pending] at hr'
    rw [World.complete_heap_of_ne (ne_of_mem_eraseIdx h.distinct hr hr')]
    exact h.header r' (List.mem_of_mem_eraseIdx hr')
  distinct := by
    rw [World.complete_pending]
    exact h.distinct.sublist (List.eraseIdx_sublist _ _)

/-- **The end of the client's own read**, in full: the response is complete. -/
theorem Sound.of_own_read (hw : Filling D w) (hc : Honest D w c) (hr : w.pending[k]? = some r)
    (hst : c.state = .aio) (hresp : c.resp = some r.buf) {data : List Byte}
    (hlen : r.nbytes ≤ data.length) (hD : D r.file.path (data.take r.nbytes)) (status : AioStatus) :
    Sound D (w.complete k r (.delivered data)) { c with aio := status } := by
  have hmem := List.mem_of_getElem? hr
  obtain ⟨hsize, hkey⟩ := hc.waiting hst r hmem hresp
  obtain ⟨hoff, body, hbody, hheap⟩ := hw.header r hmem
  have htake : (data.take r.nbytes).length = r.nbytes := by
    rw [List.length_take, Nat.min_eq_left hlen]
  constructor
  · refine ⟨r.file.path, r.flushes, data.take r.nbytes, hkey, hD, ?_⟩
    simp only [Client.buffer, hresp]
    rw [htake, World.complete_heap_self hlen hoff hbody hheap, List.take_of_length_le]
    rw [List.length_append, fileCells, List.length_map, htake, hsize]
  · intro r' hr' hbuf
    rw [World.complete_pending] at hr'
    have hbuf : c.resp = some r'.buf := hbuf
    rw [hresp, Option.some_inj] at hbuf
    exact ne_of_mem_eraseIdx hw.distinct hr hr' hbuf.symm

end

/-! ## The operations of the body -/

section

variable {D : List Byte → List Byte → Prop} {root : DocRoot} {i : ℕ} {c : Client} {w w' : World}

theorem Filling.mono (h : Filling D w) (hc : w'.cache = w.cache) (hp : w'.pending = w.pending)
    (hw : w.Extends w') : Filling D w' where
  cache := hc ▸ h.cache
  bufs r hr := Nat.lt_of_lt_of_le (h.bufs r (hp ▸ hr)) hw.nextBuf
  header r hr := by
    rw [hp] at hr
    rw [hw.heap r.buf (h.bufs r hr)]
    exact h.header r hr
  distinct := hp ▸ h.distinct

/-- The start of a read: the buffer holds the header of the response and is awaited by the
client. -/
theorem startRead_honest {e : ServeEnv} {size : ℕ} {f : Handle} (hmalloc : e.malloc = true)
    (haio : e.aioRead = true) (hkey : strncpyPath f.path = c.cacheKey) (hw : Filling D w)
    (hc : Honest D w c) :
    let p := startRead e i f size c w
    Filling D p.2 ∧ Honest D p.2 p.1 := by
  have hmem := mem_pending_startRead hmalloc haio i f size c w
  rw [startRead_of_ok hmalloc haio] at hmem ⊢
  refine ⟨⟨hw.cache, ?_, ?_, ?_⟩, ⟨?_, hc.clean, nofun, ?_, nofun⟩⟩
  · intro r hr
    show r.buf < w.nextBuf + 1
    rcases hmem r hr with hr | rfl
    · exact Nat.lt_succ_of_lt (hw.bufs r hr)
    · exact Nat.lt_succ_self _
  · intro r hr
    -- the header of an older read is in another buffer
    rcases hmem r hr with hr | rfl
    · simp only [World.alloc, Function.update_of_ne (Nat.ne_of_lt (hw.bufs r hr))]
      exact hw.header r hr
    · exact ⟨rfl, List.replicate size .junk, List.length_replicate, Function.update_self ..⟩
  · refine List.pairwise_append.mpr ⟨hw.distinct, List.pairwise_singleton _ _, ?_⟩
    intro r hr r' hr'
    rw [List.mem_singleton.mp hr']
    exact Nat.ne_of_lt (hw.bufs r hr)
  · rintro id ⟨⟩
    exact Nat.lt_succ_self _
  · intro _ r hr hbuf
    rcases hmem r hr with hr | rfl
    · have hbuf : w.nextBuf = r.buf := Option.some_inj.mp hbuf
      exact absurd (hw.bufs r hr) (hbuf ▸ Nat.lt_irrefl _)
    · exact ⟨rfl, hkey⟩

theorem beginFileServe_honest (e : ServeEnv) (hst : c.state = .reading) (name : List Byte)
    (hw : Filling D w) (hc : Honest D w c) :
    let p := beginFileServe root e i name c w
    Filling D p.2 ∧ Honest D p.2 p.1 := by
  have hbegun := beginFileServe_begun root e i name c w
  have hext := hbegun.extends
  generalize beginFileServe root e i name c w = p at hbegun hext ⊢
  cases hbegun with
  | @refused reason q h hq =>
      refine ⟨hw.mono hq.cache hq.pending hext, honest_of_idle ?_ ?_ (.inl (hq.state.trans hst))⟩
      · intro id hid
        rcases hq.resp with heq | heq
        · exact Nat.lt_of_lt_of_le (hc.bound id (heq ▸ hid)) hq.nextBuf
        · exact absurd (heq.symm.trans hid) nofun
      · exact Honest.reply_clean (hq.sent ▸ hc.clean) (junk_notMem_errLine reason) e.sends
  | @cached path entry hne hrel hreal hacc hlook =>
      obtain ⟨hentry, hkey⟩ := mem_of_cacheLookup hlook
      have hwhole := hw.cache entry hentry
      -- a hit is a copy of an intact entry, in a buffer no read is filling
      have hsound : Sound D (w.alloc entry.resp)
          (serveCached entry { c with cacheKey := strncpyPath path.bytes } w).1 := by
        constructor
        · show Whole D (strncpyPath path.bytes)
            ((Function.update w.heap w.nextBuf entry.resp w.nextBuf).take entry.resp.length)
          rw [Function.update_self, List.take_length, ← hkey, hwhole.strncpyPath_eq]
          exact hwhole
        · intro r hr hbuf
          have hbuf : w.nextBuf = r.buf := Option.some_inj.mp hbuf
          exact absurd (hw.bufs r hr) (hbuf ▸ Nat.lt_irrefl _)
      refine ⟨hw.mono rfl rfl hext, ⟨?_, hc.clean, fun _ => hsound, nofun, nofun⟩⟩
      rintro id ⟨⟩
      exact Nat.lt_succ_self _
  | @sendfile path size hne hrel hreal hacc hstat hsize =>
      refine ⟨hw.mono rfl rfl hext, honest_of_idle hc.bound ?_ (.inr rfl)⟩
      exact Honest.reply_clean hc.clean (junk_notMem_okHeader size) e.sends
  | @aio path size hne hrel hreal hacc hstat hsize hmalloc haio =>
      have hopen : w.Extends (w.opened path.bytes) := .of_heap_eq rfl rfl fun _ hr => hr
      refine startRead_honest hmalloc haio rfl (hw.mono rfl rfl hopen) ?_
      exact honest_of_idle hc.bound hc.clean (.inl hst)

/-- `check_aio` caches and sends a response that is complete. -/
theorem checkAio_honest (e : HandleEnv) (hst : c.state = .aio) (hw : Filling D w)
    (hc : Honest D w c) :
    Filling D (checkAio e c w).2 ∧ Honest D (checkAio e c w).2 (checkAio e c w).1 := by
  have hext := checkAio_extends e c w
  unfold checkAio at hext ⊢
  split
  · exact ⟨hw, hc⟩
  · refine ⟨hw.mono (by simp [failRead]) (by simp [failRead]) (w.extends_release _ _), ?_⟩
    refine honest_of_idle (fun _ h => absurd h (by simp [failRead, Client.reply])) ?_ (.inl rfl)
    exact Honest.reply_clean (c := { c with fileFd := none, resp := none, state := .reading })
      hc.clean (junk_notMem_errLine _) e.aioSends
  · rename_i n hdone
    have hsound := hc.done n hst hdone
    have hext := finishRead_extends e c w
    -- the entry gets the client's key: the name of the file, cut at PATH_MAX
    have hcache : ∀ entry ∈ (finishRead e c w).2.cache, Whole D entry.key entry.resp := by
      intro entry hentry
      rcases mem_cache_finishRead hentry with hold | ⟨hresp, ⟨hkey, -⟩ | hkey⟩
      · exact hw.cache entry hold
      · rw [hresp, hkey]
        exact hsound.whole
      · rw [hresp, hkey, hsound.whole.strncpyPath_eq]
        exact hsound.whole
    have hrest : Filling D { (finishRead e c w).2 with cache := w.cache } :=
      hw.mono rfl (by simp) ⟨hext.nextBuf, hext.heap, hext.pending⟩
    have hsound' := hsound.mono hc.bound hext
    refine ⟨⟨hcache, hrest.bufs, hrest.header, hrest.distinct⟩, ?_⟩
    have hst' : (finishRead e c w).1.state = .writing := rfl
    refine ⟨(hc.mono hext).bound, hc.clean, fun _ => ⟨hsound'.whole, hsound'.settled⟩, ?_, ?_⟩
    · exact fun h => absurd (hst'.symm.trans h) (by decide)
    · exact fun _ h => absurd (hst'.symm.trans h) (by decide)

theorem advanceWrite_honest {cells : List Cell} (hst : c.state = .writing)
    (hcells : cells <+: (c.buffer w).drop c.respSent) (hw : Filling D w) (hc : Honest D w c) :
    let p := advanceWrite cells c w
    Filling D p.2 ∧ Honest D p.2 p.1 := by
  have hsound := hc.writing hst
  have hclean : Cell.junk ∉ c.sent ++ cells := by
    rw [List.mem_append]
    rintro (hj | hj)
    · exact hc.clean hj
    · exact junk_notMem_whole hsound.whole (List.mem_of_mem_drop (hcells.subset hj))
  have hext := advanceWrite_extends cells c w
  unfold advanceWrite at hext ⊢
  simp only at hext ⊢
  split
  · rename_i hall
    rw [if_pos hall] at hext
    exact ⟨hw.mono (by simp) (by simp) hext, honest_of_idle nofun hclean (.inl rfl)⟩
  · refine ⟨hw, ⟨hc.bound, hclean, fun _ => ⟨hsound.whole, hsound.settled⟩, ?_, ?_⟩⟩
    · exact fun h => absurd (hst.symm.trans h) (by decide)
    · exact fun _ h => absurd (hst.symm.trans h) (by decide)

theorem advanceSendfile_honest (data : List Byte) (hst : c.state = .sendfile) (hw : Filling D w)
    (hc : Honest D w c) :
    let p := advanceSendfile data c w
    Filling D p.2 ∧ Honest D p.2 p.1 := by
  have hclean : ∀ src, Cell.junk ∉ c.sent ++ fileCells src data := by
    intro src
    rw [List.mem_append]
    rintro (hj | hj)
    · exact hc.clean hj
    · exact junk_notMem_fileCells src data hj
  have hext := advanceSendfile_extends data c w
  unfold advanceSendfile at hext ⊢
  simp only at hext ⊢
  split
  · rename_i hall
    rw [if_pos hall] at hext
    refine ⟨hw.mono (by simp) (by simp) hext, honest_of_idle ?_ (hclean _) (.inl rfl)⟩
    rw [World.close_nextBuf]
    exact hc.bound
  · exact ⟨hw, honest_of_idle hc.bound (hclean _) (.inr hst)⟩

theorem integrity_body (D : List Byte → List Byte → Prop) (root : DocRoot) (e : HandleEnv) (i : ℕ) :
    BodyRule root e i (Keeps (Filling D) (fun w _ c => Honest D w c) i) where
  refl := Keeps.refl
  trans := Keeps.trans
  input c w buf received := Keeps.of_world_eq fun _ hc =>
    ⟨hc.bound, hc.clean, fun h => ⟨(hc.writing h).whole, (hc.writing h).settled⟩, hc.waiting,
      fun n h h' => ⟨(hc.done n h h').whole, (hc.done n h h').settled⟩⟩
  checkAio c w hst := Keeps.of_extends (checkAio_extends e c w) Honest.mono (checkAio_honest e hst)
  beginFileServe k c w line hst := by
    refine Keeps.of_extends (beginFileServe_begun ..).extends Honest.mono fun hw hc => ?_
    exact beginFileServe_honest (c := { c with requests := c.requests ++ [line] })
      (e.serves k) hst _ hw (honest_of_idle hc.bound hc.clean (.inl hst))
  advanceWrite c w cells hst hcells := Keeps.of_extends (advanceWrite_extends cells c w) Honest.mono
    (advanceWrite_honest hst (nbWrite_isPrefix hcells))
  advanceSendfile c w data hst _ := Keeps.of_extends (advanceSendfile_extends data c w) Honest.mono
    (advanceSendfile_honest data hst)

end

/-! ## Runs -/

theorem removeClient_honest {D : List Byte → List Byte → Prop} {i : ℕ} {wait : WaitResult}
    {c : Client} {w w' : World} (hw : Filling D w) (h : removeClient i wait c w = some w') :
    Filling D w' ∧ ∀ d, Honest D w d → Honest D w' d := by
  obtain ⟨w₁, f, id, rfl, hw₁⟩ := removeClient_cases h
  have hrel := w₁.extends_release f id
  suffices hsuff : Filling D w₁ ∧ ∀ d, Honest D w d → Honest D w₁ d by
    obtain ⟨hfill, hframe⟩ := hsuff
    exact ⟨hfill.mono (by simp) (by simp) hrel, fun d hd => (hframe d hd).mono hrel⟩
  rcases hw₁ with ⟨rfl, -⟩ | ⟨k, r, hr, -, rfl | ⟨result, -, rfl⟩⟩
  · exact ⟨hw, fun _ hd => hd⟩
  · -- a cancelled read stores nothing
    exact ⟨hw.complete hr .failed, fun d hd => hd.complete hr .failed⟩
  · exact ⟨hw.complete hr result, fun d hd => hd.complete hr result⟩

/-- The invariant of the runs in which waiting clients see the end of their own reads. -/
theorem integrity_rule (D : List Byte → List Byte → Prop) (root : DocRoot) :
    LocalRule root (OwnReadInFull D) (fun _ => Filling D) (fun w _ c => Honest D w c)
      (fun c => Cell.junk ∉ c.sent) where
  init := ⟨nofun, nofun, nofun, .nil⟩
  connect _ w fd hw := ⟨hw, honest_of_idle nofun nofun (.inl rfl)⟩
  flags _ w running clear hw := by
    have hext : w.Extends { w with running := running, clearRequested := clear } :=
      .of_heap_eq rfl rfl fun _ hr => hr
    exact ⟨hw.mono rfl rfl hext, fun _ _ hc => hc.mono hext⟩
  clear _ w hw := by
    have hext : w.Extends { w with cache := [], flushes := w.flushes + 1 } :=
      .of_heap_eq rfl rfl fun _ hr => hr
    exact ⟨⟨nofun, hw.bufs, hw.header, hw.distinct⟩, fun _ _ hc => hc.mono hext⟩
  aioDone s k r result hr hok hw hc := by
    refine ⟨hw.complete hr result, fun i hi => ?_⟩
    have hc' := (hc i hi).complete hr result
    split
    · rename_i his
      subst his
      refine ⟨hc'.bound, hc'.clean, ?_, hc'.waiting, ?_⟩
      · intro h
        exact ⟨(hc'.writing h).whole, (hc'.writing h).settled⟩
      · -- the client was waiting: the read that ends is its own
        intro n hst hdone
        obtain ⟨hresp, hfull⟩ := hok r hr hi hst
        cases result with
        | failed => cases hdone
        | delivered data =>
            obtain ⟨hlen, hD⟩ := hfull data rfl
            exact .of_own_read hw (hc _ hi) hr hst hresp hlen hD _
    · exact hc'
  body s e i _ _ := integrity_body D root e i
  remove s e i c w w' _ hw hc h := by
    obtain ⟨hw', hframe⟩ := removeClient_honest hw h
    exact ⟨⟨hw', honest_of_idle nofun nofun (.inl rfl)⟩, hc.clean, fun _ d _ hd => hframe d hd⟩
  shrink s r k e w' _ _ _ hw _ hothers _ := ⟨hw, fun hk => hothers _ (by omega) (by omega)⟩

/-- **Completions.** In a run in which no client is moved while its read is in flight, waiting
clients see the end of their own reads. -/
theorem ownReadInFull_of_no_move {D : List Byte → List Byte → Prop} {root : DocRoot}
    {tr : List (State × Action)} {s : State} (h : (server root).lts.Exec tr s)
    (hmove : ∀ p ∈ tr, ¬MovesInFlight root p.1 p.2) (hfull : ∀ p ∈ tr, ReadsInFull p.1 p.2)
    (hD : ∀ p ∈ tr, ∀ path data, EndsRead p.1 p.2 path data → D path data) :
    ∀ p ∈ tr, OwnReadInFull D p.1 p.2 := by
  rintro ⟨t, a⟩ hp
  have hslots := (slots_rule root).localInvariant.holds_visited h hmove t
    (LTS.mem_visited_of_mem hp)
  cases a with
  | async ev =>
      cases ev with
      | aioDone k result =>
          intro r hr hslot _
          refine ⟨((hslots.client r.slot hslot).owner r (List.mem_of_getElem? hr) rfl).2.2, ?_⟩
          rintro data rfl
          exact ⟨hfull _ hp k r data rfl hr, hD _ hp _ _ ⟨k, r, data, rfl, hr, rfl, rfl⟩⟩
      | _ => trivial
  | _ => trivial

/-- **Response integrity.** In every run in which no client is moved while its read is in flight and
the reads that end fail or deliver all the bytes asked for, the state reached has complete responses
in the cache and in the clients that are being written to, with the bytes that a read of the run has
delivered, and no byte that nothing was stored in has been sent. -/
theorem intact_of_own_reads_in_full (root : DocRoot) {tr : List (State × Action)} {s : State}
    (h : (server root).lts.Exec tr s)
    (hok : ∀ p ∈ tr, ReadsInFull p.1 p.2 ∧ ¬MovesInFlight root p.1 p.2) : Intact (ReadIn tr) s := by
  have hown := ownReadInFull_of_no_move h (fun p hp => (hok p hp).2) (fun p hp => (hok p hp).1)
    fun p hp path data hd => (⟨p, hp, hd⟩ : ReadIn tr path data)
  have hholds := (integrity_rule (ReadIn tr) root).localInvariant.holds h hown
  refine ⟨fun i hi hst => ?_, hholds.world.cache, fun i hi => (hholds.client i hi).clean,
    hholds.gone⟩
  exact ((hholds.client i hi).writing hst).whole

/-- A request for a file of one byte, of which the read delivers `data`; then the response is
written. -/
def readRun (data : List Byte) : List Action :=
  Example.accept [5] 1 ++ Example.round [5] [] [{ Example.idle with read := [97, LF] }] ++
    [.async (.aioDone 0 (.delivered data))] ++ Example.round [] [] [Example.idle] ++
    Example.round [] [5] [{ Example.idle with write := .wrote 7 }]

/-- A read in full. -/
theorem intact_of_own_reads_in_full_readRun :
    ∃ s, (server Example.root).lts.Exec
        ((server Example.root).lts.trace (server Example.root).start (readRun [104])) s ∧
      (s.table.slots 0).sent = okHeader 1 ++ fileCells ⟨Example.path.bytes, 0⟩ [104] ∧
      Intact (ReadIn ((server Example.root).lts.trace (server Example.root).start
        (readRun [104]))) s := by
  obtain ⟨s, hs, hcheck⟩ := LTS.exec_of_run_any (server Example.root).lts
    (server Example.root).start (readRun [104]) (fun s => s.gone.length = 0 ∧
      (s.table.slots 0).sent = okHeader 1 ++
      fileCells ⟨Example.path.bytes, 0⟩ [104]) rfl (by decide +kernel)
  obtain ⟨hgone, hsent⟩ := of_decide_eq_true hcheck
  refine ⟨s, hs, hsent, intact_of_own_reads_in_full Example.root hs fun p hp => ⟨?_, ?_⟩⟩
  · have hsteps : ((server Example.root).lts.trace (server Example.root).start (readRun [104])).all
        (fun p => match p.2 with
          | .async (.aioDone k (.delivered data)) => (p.1.world.pending[k]?).all fun r =>
              decide (r.nbytes ≤ data.length)
          | _ => true) = true := by decide +kernel
    have hstep := List.all_eq_true.mp hsteps p hp
    obtain ⟨t, a⟩ := p
    rintro k r data rfl hr
    simpa [hr] using hstep
  · exact not_moves_of_gone_nil hs (List.length_eq_zero_iff.mp hgone) p hp

/-- **The defect.** After a read that delivers nothing, because the file was truncated, the response
is cached and a byte that was never stored is sent. -/
theorem readRun_nil_not_intact :
    ∃ s, (server Example.root).lts.Exec ((server Example.root).lts.trace (server Example.root).start
      (readRun [])) s ∧ (s.world.cache.map CacheEntry.resp) = [okHeader 1 ++ [.junk]] ∧
      Cell.junk ∈ (s.table.slots 0).sent ∧ ∀ D, ¬Intact D s := by
  obtain ⟨s, hs, hcheck⟩ := LTS.exec_of_run_any (server Example.root).lts
    (server Example.root).start (readRun []) (fun s => 0 < s.table.size ∧
      s.world.cache.map CacheEntry.resp = [okHeader 1 ++ [.junk]] ∧
      Cell.junk ∈ (s.table.slots 0).sent) rfl (by decide +kernel)
  obtain ⟨hsize, hcache, hjunk⟩ := of_decide_eq_true hcheck
  exact ⟨s, hs, hcache, hjunk, fun D h => h.sent 0 hsize hjunk⟩

end Osvcp.Servers.AioServer
