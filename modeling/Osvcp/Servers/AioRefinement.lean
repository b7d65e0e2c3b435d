import Osvcp.Servers.AioIntegrity
import Osvcp.Servers.Transparency

/-! # The asynchronous server refines the synchronous one

Over a file system that does not change, both servers give the responses of `Disk.response`. For the
asynchronous server this is an invariant of each client on top of the integrity of the responses
(`Honest`): it has been sent the answers to all its requests but the last, and a part of the answer
to the last one that is determined by its state. The requests are the lines of its input, as they
are in the synchronous server, so what one client of the asynchronous server has been sent is a
prefix of what a client of `file-server.c` with the same input is sent (`aio_refines_file_server`),
in all runs of the two servers and whatever their other clients do.
-/

namespace Osvcp.Servers

/-- A disk on which `stat` and `open` do not fail. -/
structure StaticFs extends Disk where
  opens : ∀ path, kind path = .notRegular ∨ kind path = .readable

namespace AioServer

/-- The system calls of one `begin_file_serve` report the file system and succeed. -/
structure ServeEnv.Reports (e : ServeEnv) (fs : StaticFs) : Prop where
  realpath : e.realpath = fs.realpath
  tells : ∀ path, fs.Tells path (e.stat path) (e.openOk path)
  openOk : ∀ path, e.openOk path = true
  malloc : e.malloc = true
  aioRead : e.aioRead = true
  sends : NoFailure e.sends

/-- The system calls of a step report the file system: a read delivers the bytes asked for, and
`sendfile` a part of the file from the given offset on. -/
def Reports (fs : StaticFs) (s : State) : Action → Prop
  | .async (.aioDone k result) => ∀ r, s.world.pending[k]? = some r →
      ∃ data, result = .delivered data ∧
        data.take r.nbytes = (fs.content r.file.path).take r.nbytes
  | .handle e => (∀ k, (e.serves k).Reports fs) ∧
      ∀ f off data, e.sendfile (some f) off = .sent data → data <+: (fs.content f.path).drop off
  | _ => True

/-! ## The answer to a request -/

section

variable {fs : StaticFs} {root : DocRoot} {e : ServeEnv} {name : List Byte}

/-- `stat` finds a regular file, or something else. -/
theorem ServeEnv.Reports.stat (he : e.Reports fs) (path : List Byte) :
    fs.kind path = .notRegular ∧ (∃ size, e.stat path = .ok false size) ∨
      fs.kind path = .readable ∧ e.stat path = .ok true (fs.content path).length := by
  have htells := he.tells path
  rw [Disk.Tells] at htells
  rcases fs.opens path with hkind | hkind
  · rw [hkind] at htells
    exact .inl ⟨hkind, htells⟩
  · rw [hkind] at htells
    exact .inr ⟨hkind, htells.1⟩

/-- A refused request gets its answer. -/
theorem response_of_refusal (he : e.Reports fs) {reason : String} (h : Refusal root e name reason) :
    fs.response root name = values (errLine reason) := by
  cases h with
  | empty h => rw [Disk.response, if_pos h]
  | absolute hne h => rw [Disk.response, if_neg hne, if_pos h]
  | notFound hne hrel h =>
      rw [he.realpath] at h
      rw [Disk.response, if_neg hne, if_neg hrel, h]
  | denied hne hrel hreal h =>
      rw [he.realpath] at hreal
      rw [Disk.response, if_neg hne, if_neg hrel, hreal]
      exact if_pos h
  | notRegular hne hrel hreal hacc h =>
      rw [he.realpath] at hreal
      rcases he.stat _ with ⟨hkind, -⟩ | ⟨-, hstat⟩
      · rw [Disk.response_of_realpath hne hrel hreal hacc, Disk.pathResponse, hkind]
      · cases hstat.symm.trans h
  | statFailed h =>
      -- the remaining reasons are failures that the assumptions exclude
      rcases he.stat _ with ⟨-, size, hstat⟩ | ⟨-, hstat⟩ <;> cases hstat.symm.trans h
  | openFailed h => cases (he.openOk _).symm.trans h
  | noMemory h => cases he.malloc.symm.trans h
  | aioFailed h => cases he.aioRead.symm.trans h

/-- A request for a regular file. -/
theorem response_of_stat (he : e.Reports fs) {path : CanonPath} {size : ℕ} (hne : name ≠ [])
    (hrel : name.head? ≠ some SLASH) (hreal : e.realpath (root.candidate name) = some path)
    (hacc : root.accessOk path.bytes = true) (hstat : e.stat path.bytes = .ok true size) :
    fs.response root name = fs.fileBytes path.bytes ∧ size = (fs.content path.bytes).length ∧
      strncpyPath path.bytes = path.bytes ∧ fs.kind path.bytes = .readable := by
  rw [he.realpath] at hreal
  rcases he.stat path.bytes with ⟨-, size', hstat'⟩ | ⟨hkind, hstat'⟩
  · cases hstat'.symm.trans hstat
  · cases hstat'.symm.trans hstat
    refine ⟨?_, rfl, Disk.strncpyPath_of_realpath hreal, hkind⟩
    rw [Disk.response_of_realpath hne hrel hreal hacc, Disk.pathResponse_of_readable hkind]

end

/-! ## The outstanding reads -/

/-- The outstanding reads are for whole regular files. -/
def Wanted (fs : StaticFs) (w : World) : Prop :=
  ∀ r ∈ w.pending, fs.Reads r.file.path (fs.content r.file.path) ∧
    r.nbytes = (fs.content r.file.path).length

section

variable {fs : StaticFs} {root : DocRoot}

theorem beginFileServe_wanted {e : ServeEnv} (he : e.Reports fs) {i : ℕ} {name : List Byte}
    {c : Client} {w : World} (hw : Wanted fs w) :
    Wanted fs (beginFileServe root e i name c w).2 := by
  have hbegun := beginFileServe_begun root e i name c w
  generalize beginFileServe root e i name c w = p at hbegun ⊢
  cases hbegun with
  | refused h hq => exact fun r hr => hw r (hq.pending ▸ hr)
  | cached hne hrel hreal hacc hlook => exact hw
  | sendfile hne hrel hreal hacc hstat hsize => exact hw
  | aio hne hrel hreal hacc hstat hsize hmalloc haio =>
      obtain ⟨-, hlen, hpath, hkind⟩ := response_of_stat he hne hrel hreal hacc hstat
      intro r hr
      rcases mem_pending_startRead hmalloc haio _ _ _ _ _ r hr with hr | rfl
      · exact hw r hr
      · exact ⟨⟨hpath, hkind, rfl⟩, hlen⟩

theorem wanted_body {e : HandleEnv} (he : ∀ k, (e.serves k).Reports fs) (i : ℕ) :
    BodyRule root e i (Keeps (Wanted fs) (fun _ _ _ => True) i) where
  refl := Keeps.refl
  trans := Keeps.trans
  input _ _ _ _ := Keeps.of_world_eq fun _ hc => hc
  checkAio c w _ := fun ⟨hw, _⟩ => by simpa [Wanted] using hw
  beginFileServe k c w line _ := fun ⟨hw, _⟩ =>
    ⟨⟨beginFileServe_wanted (he k) hw, trivial⟩, fun _ _ _ _ => trivial⟩
  advanceWrite c w cells _ _ := fun ⟨hw, _⟩ => by simpa [Wanted] using hw
  advanceSendfile c w data _ _ := fun ⟨hw, _⟩ => by simpa [Wanted] using hw

theorem wanted_rule (fs : StaticFs) (root : DocRoot) :
    LocalRule root (Reports fs) (fun _ => Wanted fs) (fun _ _ _ => True) (fun _ => True) where
  init := nofun
  connect _ _ _ hw := ⟨hw, trivial⟩
  flags _ _ _ _ hw := ⟨hw, fun _ _ _ => trivial⟩
  clear _ _ hw := ⟨hw, fun _ _ _ => trivial⟩
  aioDone s k r result _ _ hw _ := by
    refine ⟨fun r' hr' => ?_, fun _ _ => trivial⟩
    rw [World.complete_pending] at hr'
    exact hw r' (List.mem_of_mem_eraseIdx hr')
  body s e i hok _ := wanted_body hok.1 i
  remove s e i c w w' _ hw _ h := by
    obtain ⟨w₁, f, id, rfl, hw₁⟩ := removeClient_cases h
    have hsub : ∀ r ∈ w₁.pending, r ∈ w.pending := by
      rcases hw₁ with ⟨rfl, -⟩ | ⟨k, r, hr, -, rfl | ⟨result, -, rfl⟩⟩
      · exact fun _ hr => hr
      · exact fun _ hr => List.mem_of_mem_eraseIdx hr
      · intro r' hr'
        rw [World.complete_pending] at hr'
        exact List.mem_of_mem_eraseIdx hr'
    refine ⟨⟨fun r hr => hw r (hsub r ?_), trivial⟩, trivial, fun _ _ _ _ => trivial⟩
    simpa using hr
  shrink s r k e w' _ _ _ hw _ _ _ := ⟨hw, fun _ => trivial⟩

/-- In a run over a static file system the reads that end deliver the contents of their files. -/
theorem ownReadInFull_of_reports {tr : List (State × Action)} {s : State}
    (h : (server root).lts.Exec tr s) (hok : ∀ p ∈ tr, Reports fs p.1 p.2)
    (hmove : ∀ p ∈ tr, ¬MovesInFlight root p.1 p.2) :
    ∀ p ∈ tr, OwnReadInFull fs.Reads p.1 p.2 := by
  have hdelivers : ∀ p ∈ tr, ∀ k r bytes, p.2 = .async (.aioDone k (.delivered bytes)) →
      p.1.world.pending[k]? = some r →
      r.nbytes ≤ bytes.length ∧ fs.Reads r.file.path (bytes.take r.nbytes) := by
    rintro ⟨t, a⟩ hp k r bytes rfl hr
    have hwanted := (wanted_rule fs root).localInvariant.holds_visited h hok t
      (LTS.mem_visited_of_mem hp)
    obtain ⟨hreads, hlen⟩ := hwanted.world r (List.mem_of_getElem? hr)
    obtain ⟨data, hdata, htake⟩ := hok _ hp r hr
    cases hdata
    rw [List.take_of_length_le hlen.ge] at htake
    refine ⟨?_, htake ▸ hreads⟩
    have := congrArg List.length htake
    rw [List.length_take] at this
    omega
  refine ownReadInFull_of_no_move h hmove (fun p hp k r bytes ha hr =>
    (hdelivers p hp k r bytes ha hr).1) ?_
  rintro p hp path data ⟨k, r, bytes, ha, hr, rfl, rfl⟩
  exact (hdelivers p hp k r bytes ha hr).2

end

/-! ## The replies -/

/-- The client has been sent the answers to all its requests but the last, and the part `p` of the
answer `whole` to the last one. -/
def Midway (fs : StaticFs) (root : DocRoot) (c : Client) (whole p : List Byte) : Prop :=
  ∃ lines line, c.requests = lines ++ [line] ∧
    fs.response root (LineBuf.lineString true line) = whole ∧ p <+: whole ∧
    values c.sent = fs.responses root lines ++ p

/-- How far the client has been answered. -/
inductive Replying (fs : StaticFs) (root : DocRoot) (c : Client) : Prop
  | reading (h : c.state = .reading) (hsent : values c.sent = fs.responses root c.requests)
  | aio (h : c.state = .aio) (hm : Midway fs root c (fs.fileBytes c.cacheKey) [])
      (hs : c.respSent = 0) (haio : c.aio ≠ .failed)
  | writing {p : List Byte} (h : c.state = .writing)
      (hm : Midway fs root c (fs.fileBytes c.cacheKey) p) (hs : c.respSent = p.length)
  | sendfile {f : Handle} (h : c.state = .sendfile) (hf : c.sfFd = some f)
      (hoff : c.sfOffset + c.sfRemaining = (fs.content f.path).length)
      (hm : Midway fs root c (fs.fileBytes f.path)
        (values (okHeader (fs.content f.path).length) ++ (fs.content f.path).take c.sfOffset))

section

variable {fs : StaticFs} {root : DocRoot} {c c' : Client} {w : World} {whole p : List Byte}

theorem Midway.sent_isPrefix (h : Midway fs root c whole p) :
    values c.sent <+: fs.responses root c.requests := by
  obtain ⟨lines, line, hreq, rfl, hp, hsent⟩ := h
  rw [hsent, hreq, Disk.responses_append_singleton]
  exact (List.prefix_append_right_inj _).mpr hp

/-- The whole answer has been sent. -/
theorem Midway.complete (h : Midway fs root c whole whole) :
    values c.sent = fs.responses root c.requests := by
  obtain ⟨lines, line, hreq, rfl, -, hsent⟩ := h
  rw [hsent, hreq, Disk.responses_append_singleton]

/-- More of the answer is sent. -/
theorem Midway.advance (h : Midway fs root c whole p) (c' : Client) (cells : List Cell)
    (hreq : c'.requests = c.requests) (hsent : c'.sent = c.sent ++ cells)
    (hp : p ++ values cells <+: whole) : Midway fs root c' whole (p ++ values cells) := by
  obtain ⟨lines, line, hlines, hans, -, hold⟩ := h
  refine ⟨lines, line, hreq.trans hlines, hans, hp, ?_⟩
  rw [hsent, values_append, hold, List.append_assoc]

theorem Midway.congr (h : Midway fs root c whole p) (hreq : c'.requests = c.requests)
    (hsent : c'.sent = c.sent) : Midway fs root c' whole p := by
  obtain ⟨lines, line, hlines, hans, hp, hold⟩ := h
  exact ⟨lines, line, hreq.trans hlines, hans, hp, hsent ▸ hold⟩

/-- The invariant gives the property. -/
theorem Replying.sent_isPrefix (h : Replying fs root c) :
    values c.sent <+: fs.responses root c.requests := by
  cases h with
  | reading h hsent => exact hsent ▸ List.prefix_rfl
  | aio h hm => exact hm.sent_isPrefix
  | writing h hm => exact hm.sent_isPrefix
  | sendfile h hf hoff hm => exact hm.sent_isPrefix

/-- `begin_file_serve` starts the answer to the request. -/
theorem beginFileServe_replying {e : ServeEnv} (he : e.Reports fs) {i : ℕ}
    (hcache : ∀ entry ∈ w.cache, Whole fs.Reads entry.key entry.resp) (hst : c.state = .reading)
    {lines : List (List Byte)} {line : List Byte} (hreq : c.requests = lines ++ [line])
    (hsent : values c.sent = fs.responses root lines) :
    Replying fs root (beginFileServe root e i (LineBuf.lineString true line) c w).1 := by
  have hbegun := beginFileServe_begun root e i (LineBuf.lineString true line) c w
  generalize beginFileServe root e i (LineBuf.lineString true line) c w = p at hbegun ⊢
  cases hbegun with
  | @refused reason q h hq =>
      refine .reading (hq.state.trans hst) ?_
      show values (q.1.sent ++ sockSend e.sends (errLine reason)) = fs.responses root q.1.requests
      rw [hq.requests, hreq, Disk.responses_append_singleton, hq.sent, values_append, hsent,
        sockSend_of_noFailure he.sends, response_of_refusal he h]
  | @cached path entry hne hrel hreal hacc hlook =>
      -- the file system is static, so an entry of any age is the file as it is now
      obtain ⟨hmem, hkey⟩ := mem_of_cacheLookup hlook
      obtain ⟨hkind, -⟩ := Disk.values_of_whole (hcache entry hmem)
      rw [hkey] at hkind
      rw [he.realpath] at hreal
      refine .writing rfl (p := []) ⟨lines, line, hreq, ?_, List.nil_prefix, ?_⟩ rfl
      · show _ = fs.fileBytes (strncpyPath path.bytes)
        rw [Disk.response_of_realpath hne hrel hreal hacc, Disk.pathResponse_of_readable hkind,
          Disk.strncpyPath_of_realpath hreal]
      · rw [List.append_nil]
        exact hsent
  | @sendfile path size hne hrel hreal hacc hstat hsize =>
      obtain ⟨hans, hlen, -, -⟩ := response_of_stat he hne hrel hreal hacc hstat
      refine .sendfile rfl rfl ?_ ⟨lines, line, hreq, hans, ?_, ?_⟩
      · show 0 + size = _
        rw [Nat.zero_add, hlen]
      · show _ ++ (fs.content path.bytes).take 0 <+: _
        rw [List.take_zero, List.append_nil]
        exact List.prefix_append _ _
      · show values (c.sent ++ sockSend e.sends (okHeader size)) = _
        rw [values_append, hsent, sockSend_of_noFailure he.sends, hlen]
        show _ = _ ++ (_ ++ (fs.content path.bytes).take 0)
        rw [List.take_zero, List.append_nil]
  | @aio path size hne hrel hreal hacc hstat hsize hmalloc haio =>
      obtain ⟨hans, -, hpath, -⟩ := response_of_stat he hne hrel hreal hacc hstat
      rw [startRead_of_ok hmalloc haio]
      refine .aio rfl ⟨lines, line, hreq, ?_, List.nil_prefix, ?_⟩ rfl nofun
      · show _ = fs.fileBytes (strncpyPath path.bytes)
        rw [hans, hpath]
      · rw [List.append_nil]
        exact hsent

/-- `check_aio` hands the response over to the writing stage. -/
theorem checkAio_replying (e : HandleEnv) (hst : c.state = .aio) (h : Replying fs root c) :
    Replying fs root (checkAio e c w).1 := by
  cases h with
  | reading h => exact absurd (h.symm.trans hst) (by decide)
  | writing h => exact absurd (h.symm.trans hst) (by decide)
  | sendfile h => exact absurd (h.symm.trans hst) (by decide)
  | aio _ hm hs haio =>
      unfold checkAio
      split
      · exact .aio hst hm hs haio
      · rename_i hfailed
        exact absurd hfailed haio
      · exact .writing rfl (hm.congr rfl rfl) hs

/-- A write continues the answer from the response buffer. -/
theorem advanceWrite_replying {cells : List Cell} (hst : c.state = .writing)
    (hcells : cells <+: (c.buffer w).drop c.respSent) (hsound : Sound fs.Reads w c)
    (h : Replying fs root c) : Replying fs root (advanceWrite cells c w).1 := by
  cases h with
  | reading h => exact absurd (h.symm.trans hst) (by decide)
  | aio h => exact absurd (h.symm.trans hst) (by decide)
  | sendfile h => exact absurd (h.symm.trans hst) (by decide)
  | @writing p _ hm hs =>
      obtain ⟨-, hvalues⟩ := Disk.values_of_whole hsound.whole
      obtain ⟨lines, line, hreq, hans, hp, hsent⟩ := hm
      have hnew : p ++ values cells <+: fs.fileBytes c.cacheKey := by
        have htake : (fs.fileBytes c.cacheKey).take p.length = p :=
          (List.prefix_iff_eq_take.mp hp).symm
        have hdrop : values cells <+: (fs.fileBytes c.cacheKey).drop p.length := by
          rw [← hvalues, ← hs]
          have := hcells.map Cell.value
          rwa [List.map_drop] at this
        have hboth :=
          (List.prefix_append_right_inj ((fs.fileBytes c.cacheKey).take p.length)).mpr hdrop
        rwa [List.take_append_drop, htake] at hboth
      have hm : Midway fs root c (fs.fileBytes c.cacheKey) p := ⟨lines, line, hreq, hans, hp, hsent⟩
      unfold advanceWrite
      simp only
      split
      · rename_i hall
        -- the buffer is not longer than `resp_size`
        have hle : (fs.fileBytes c.cacheKey).length ≤ c.respSize := by
          rw [← hvalues, values, List.length_map]
          exact c.length_buffer_le w
        have heq : p ++ values cells = fs.fileBytes c.cacheKey := by
          refine hnew.eq_of_length_le ?_
          rw [List.length_append, values, List.length_map, ← hs]
          omega
        have hdone := fun d => hm.advance d cells
        rw [heq] at hdone
        refine .reading rfl ?_
        apply Midway.complete
        exact hdone _ rfl rfl List.prefix_rfl
      · refine .writing (p := p ++ values cells) hst (hm.advance _ cells rfl rfl hnew) ?_
        show c.respSent + cells.length = _
        rw [List.length_append, values, List.length_map, hs]

/-- `sendfile` continues the answer from the file. -/
theorem advanceSendfile_replying {data : List Byte} (hst : c.state = .sendfile)
    (hdata : ∀ f, c.sfFd = some f → data <+: (fs.content f.path).drop c.sfOffset)
    (h : Replying fs root c) : Replying fs root (advanceSendfile data c w).1 := by
  cases h with
  | reading h => exact absurd (h.symm.trans hst) (by decide)
  | aio h => exact absurd (h.symm.trans hst) (by decide)
  | writing h => exact absurd (h.symm.trans hst) (by decide)
  | @sendfile f _ hf hoff hm =>
      -- the sent bytes continue the file at `sf_offset`
      have htake : (fs.content f.path).take (c.sfOffset + data.length) =
          (fs.content f.path).take c.sfOffset ++ data := by
        rw [List.take_add, ← List.prefix_iff_eq_take.mp (hdata f hf)]
      have hlen : data.length ≤ c.sfRemaining := by
        have := (hdata f hf).length_le
        rw [List.length_drop] at this
        omega
      have hnew : values (okHeader (fs.content f.path).length) ++
          (fs.content f.path).take c.sfOffset ++ data <+: fs.fileBytes f.path := by
        rw [List.append_assoc, ← htake]
        exact (List.prefix_append_right_inj _).mpr (List.take_prefix _ _)
      unfold advanceSendfile
      simp only
      generalize Source.mk ((c.sfFd.map Handle.path).getD []) w.flushes = src
      have hm' : ∀ d : Client, d.requests = c.requests → d.sent = c.sent ++ fileCells src data →
          Midway fs root d (fs.fileBytes f.path) (values (okHeader (fs.content f.path).length) ++
            (fs.content f.path).take (c.sfOffset + data.length)) := by
        intro d hreq hsent
        have hadv := hm.advance d (fileCells src data) hreq hsent (by rwa [values_fileCells])
        rwa [values_fileCells, List.append_assoc, ← htake] at hadv
      split
      · rename_i hzero
        rw [List.take_of_length_le (by omega)] at hm'
        refine .reading rfl ?_
        apply Midway.complete
        exact hm' _ rfl rfl
      · refine .sendfile hst hf ?_ (hm' _ rfl rfl)
        show c.sfOffset + data.length + (c.sfRemaining - data.length) = _
        omega

end

theorem replying_init (fs : StaticFs) (root : DocRoot) (fd : ℕ) : Replying fs root (.init fd) :=
  .reading rfl rfl

theorem replying_body {fs : StaticFs} {root : DocRoot} {e : HandleEnv}
    (he : ∀ k, (e.serves k).Reports fs)
    (hsend : ∀ f off data, e.sendfile (some f) off = .sent data →
      data <+: (fs.content f.path).drop off) (i : ℕ) :
    BodyRule root e i (Keeps (Filling fs.Reads)
      (fun w _ c => Honest fs.Reads w c ∧ Replying fs root c) i) where
  refl := Keeps.refl
  trans := Keeps.trans
  input c w buf received := by
    refine ((integrity_body fs.Reads root e i).input c w buf received).and_client fun _ _ h => ?_
    cases h with
    | reading h hsent => exact .reading h hsent
    | aio h hm hs haio => exact .aio h hm hs haio
    | writing h hm hs => exact .writing h hm hs
    | sendfile h hf hoff hm => exact .sendfile h hf hoff hm
  checkAio c w hst := ((integrity_body fs.Reads root e i).checkAio c w hst).and_client
    fun _ _ h => checkAio_replying e hst h
  beginFileServe k c w line hst := by
    refine ((integrity_body fs.Reads root e i).beginFileServe k c w line hst).and_client
      fun hw _ h => ?_
    cases h with
    | reading _ hsent =>
        exact beginFileServe_replying (c := { c with requests := c.requests ++ [line] }) (he k)
          hw.cache hst rfl hsent
    | aio h => exact absurd (h.symm.trans hst) (by decide)
    | writing h => exact absurd (h.symm.trans hst) (by decide)
    | sendfile h => exact absurd (h.symm.trans hst) (by decide)
  advanceWrite c w cells hst hcells :=
    ((integrity_body fs.Reads root e i).advanceWrite c w cells hst hcells).and_client
      fun _ hc h => advanceWrite_replying hst (nbWrite_isPrefix hcells) (hc.writing hst) h
  advanceSendfile c w data hst hdata := by
    refine ((integrity_body fs.Reads root e i).advanceSendfile c w data hst hdata).and_client
      fun _ _ h => advanceSendfile_replying hst (fun f hf => ?_) h
    rcases hdata with rfl | ⟨d, hd, rfl⟩
    · exact List.nil_prefix
    · exact (List.take_prefix _ _).trans (hsend f _ d (hf ▸ hd))

/-- The invariant of the runs whose system calls report the file system. -/
theorem replying_rule (fs : StaticFs) (root : DocRoot) :
    LocalRule root (fun s a => Reports fs s a ∧ OwnReadInFull fs.Reads s a)
      (fun _ => Filling fs.Reads) (fun w _ c => Honest fs.Reads w c ∧ Replying fs root c)
      (fun c => Cell.junk ∉ c.sent) := by
  refine (integrity_rule fs.Reads root).and_client (fun _ _ h => h.2) (replying_init fs root) ?_ ?_
  · intro s k r result hr hok c h
    obtain ⟨data, rfl, -⟩ := hok.1 r hr
    cases h with
    | reading h hsent => exact .reading h hsent
    | aio h hm hs haio => exact .aio h hm hs nofun
    | writing h hm hs => exact .writing h hm hs
    | sendfile h hf hoff hm => exact .sendfile h hf hoff hm
  · exact fun s e i hok _ => replying_body hok.1.1 hok.1.2 i

/-! ## The requests -/

/-- The requests of a client are the lines of its input, and none is longer than the buffer
allows. -/
structure Framed (c : Client) : Prop where
  received : c.received = unlines c.requests ++ c.reqBuf.pending
  lines : ∀ l ∈ c.requests, LF ∉ l ∧ l.length < REQ_BUF_SIZE - 1

/-- The input side of a client is not touched. -/
def SameInput (c c' : Client) : Prop :=
  c'.received = c.received ∧ c'.requests = c.requests ∧ c'.reqBuf = c.reqBuf

section

variable {root : DocRoot} {e : HandleEnv} {i : ℕ} {readable writable : Bool} {c c' : Client}
  {w w' : World}

theorem Framed.congr (h : Framed c) (hc : SameInput c c') : Framed c' := by
  obtain ⟨hrec, hreq, hbuf⟩ := hc
  exact ⟨by rw [hrec, hreq, hbuf]; exact h.received, hreq ▸ h.lines⟩

theorem aioStage_sameInput (h : aioStage e c w = .ok (c', w')) : SameInput c c' := by
  unfold aioStage at h
  split at h
  · have hcheck : c' = (checkAio e c w).1 := congrArg Prod.fst (Except.ok.inj h).symm
    subst hcheck
    unfold checkAio
    split <;> exact ⟨rfl, rfl, rfl⟩
  · cases h
    exact ⟨rfl, rfl, rfl⟩

theorem writeStage_sameInput (h : writeStage e writable c w = .ok (c', w')) : SameInput c c' := by
  unfold writeStage at h
  split at h
  · split at h
    · cases h
    · rename_i cells _
      have hadv : c' = (advanceWrite cells c w).1 := congrArg Prod.fst (Except.ok.inj h).symm
      subst hadv
      unfold advanceWrite
      simp only
      split <;> exact ⟨rfl, rfl, rfl⟩
  · cases h
    exact ⟨rfl, rfl, rfl⟩

theorem sendfileStage_sameInput (h : sendfileStage e writable c w = .ok (c', w')) :
    SameInput c c' := by
  have hadvance : ∀ data, c' = (advanceSendfile data c w).1 → SameInput c c' := by
    rintro data rfl
    unfold advanceSendfile
    simp only
    split <;> exact ⟨rfl, rfl, rfl⟩
  unfold sendfileStage at h
  split at h
  · split at h
    · cases h
    · exact hadvance _ (congrArg Prod.fst (Except.ok.inj h).symm)
    · exact hadvance _ (congrArg Prod.fst (Except.ok.inj h).symm)
  · cases h
    exact ⟨rfl, rfl, rfl⟩

theorem Begun.input {e : ServeEnv} {name : List Byte} {p : Client × World}
    (h : Begun root e i name c w p) : p.1.received = c.received ∧ p.1.requests = c.requests := by
  cases h with
  | refused h hq => exact ⟨hq.received, hq.requests⟩
  | cached => exact ⟨rfl, rfl⟩
  | sendfile => exact ⟨rfl, rfl⟩
  | aio hne hrel hreal hacc hstat hsize hmalloc haio =>
      rw [startRead_of_ok hmalloc haio]
      exact ⟨rfl, rfl⟩

/-- The line loop turns lines of the buffer into requests. -/
theorem drainLines_framed (root : DocRoot) (e : HandleEnv) (i : ℕ) (st : Serving) {buf : List Byte}
    (hrec : st.client.received = unlines st.client.requests ++ buf)
    (hlines : ∀ l ∈ st.client.requests, LF ∉ l ∧ l.length < REQ_BUF_SIZE - 1)
    (hbuf : buf.length ≤ REQ_BUF_SIZE - 1) :
    let d := drainLines root e i st buf
    d.1.client.received = unlines d.1.client.requests ++ d.2.1 ∧
      ∀ l ∈ d.1.client.requests, LF ∉ l ∧ l.length < REQ_BUF_SIZE - 1 := by
  refine drainLines_rule (I := fun (st : Serving) buf =>
      (st.client.received = unlines st.client.requests ++ buf ∧
        ∀ l ∈ st.client.requests, LF ∉ l ∧ l.length < REQ_BUF_SIZE - 1) ∧
        buf.length ≤ REQ_BUF_SIZE - 1)
    (J := fun (st : Serving) buf => st.client.received = unlines st.client.requests ++ buf ∧
      ∀ l ∈ st.client.requests, LF ∉ l ∧ l.length < REQ_BUF_SIZE - 1) ?_ ?_ ⟨⟨hrec, hlines⟩, hbuf⟩
  · exact fun _ _ h _ => h.1
  · rintro st line rest ⟨⟨hrec, hlines⟩, hbuf⟩ hlf st'
    rw [List.length_append, List.length_cons] at hbuf
    have hbegun := (beginFileServe_begun root (e.serves st.calls) i (LineBuf.lineString true line)
      { st.client with requests := st.client.requests ++ [line] } st.world).input
    have hrec' : st'.client.received = st.client.received := hbegun.1
    have hreq' : st'.client.requests = st.client.requests ++ [line] := hbegun.2
    -- the line moves from the buffer to the requests, so their concatenation is unchanged
    have hnew : st'.client.received = unlines st'.client.requests ++ rest ∧
        ∀ l ∈ st'.client.requests, LF ∉ l ∧ l.length < REQ_BUF_SIZE - 1 := by
      rw [hrec', hreq']
      constructor
      · rw [hrec, unlines_append_singleton]
        simp
      · intro l hl
        rcases List.mem_append.mp hl with hl | hl
        · exact hlines l hl
        · rw [List.mem_singleton.mp hl]
          exact ⟨hlf, by omega⟩
    exact ⟨fun _ => ⟨hnew, by omega⟩, fun _ => hnew⟩

theorem readStage_framed (h : readStage root e i readable c w = .ok (c', w')) (hc : Framed c) :
    Framed c' := by
  rcases readStage_cases root e i readable c w with
    ⟨-, heq⟩ | ⟨-, -, heq⟩ | ⟨-, -, bytes, buf, hne, hbytes, hpend, heq⟩
  · cases heq.symm.trans h
    exact hc
  · cases heq.symm.trans h
  · have hlen : (c.reqBuf.pending ++ bytes).length ≤ REQ_BUF_SIZE - 1 := by
      have hpos := List.length_pos_iff.mpr hne
      rw [hbytes, List.length_take] at hpos
      rw [List.length_append, LineBuf.length_pending, hbytes, List.length_take]
      omega
    have hrec : c.received ++ bytes = unlines c.requests ++ (c.reqBuf.pending ++ bytes) := by
      rw [hc.received, List.append_assoc]
    have hdrain := drainLines_framed root e i ⟨0, { c with received := c.received ++ bytes }, w⟩
      hrec hc.lines hlen
    rw [h] at heq
    split at heq
    · cases heq
    · cases heq
      exact ⟨by rw [hpend]; exact hdrain.1, hdrain.2⟩

theorem stages_framed (h : stages root e i readable writable c w = .ok (c', w')) (hc : Framed c) :
    Framed c' := by
  obtain ⟨c₁, w₁, c₂, w₂, c₃, w₃, -, haio, hread, hwrite, hsend⟩ := stages_of_ok h
  have hc₂ := readStage_framed hread (hc.congr (aioStage_sameInput haio))
  exact (hc₂.congr (writeStage_sameInput hwrite)).congr (sendfileStage_sameInput hsend)

end

/-- The invariant of the input side, in all runs. -/
theorem framed (root : DocRoot) :
    (server root).LocalInvariant (fun _ _ => True) (fun _ _ => True) (fun _ _ c => Framed c)
      (fun _ => True) := by
  refine clientInvariant ?_ (fun _ _ hc => hc.congr ⟨rfl, rfl, rfl⟩) ?_
  · intro fd
    refine ⟨?_, nofun⟩
    show [] = unlines [] ++ (LineBuf.empty REQ_BUF_SIZE).pending
    rw [LineBuf.pending_empty, unlines_nil, List.append_nil]
  · exact fun _ _ _ _ _ _ _ _ hc hst => stages_framed hst hc

/-! ## The refinement -/

/-- **`aio-file-server.c` gives the answers**: in every run in which the system calls report the
file system and no client is moved while its read is in flight, what a client has been sent is a
prefix of the answers to the requests it has made. -/
theorem sent_isPrefix_answers (fs : StaticFs) (root : DocRoot)
    {tr : List (State × Action)} {s : State} (h : (server root).lts.Exec tr s)
    (hok : ∀ p ∈ tr, Reports fs p.1 p.2)
    (hmove : ∀ p ∈ tr, ¬MovesInFlight root p.1 p.2) {i : ℕ} (hi : i < s.table.size) :
    values (s.table.slots i).sent <+: fs.responses root (s.table.slots i).requests := by
  have hown := ownReadInFull_of_reports h hok hmove
  have hholds := (replying_rule fs root).localInvariant.holds h fun p hp => ⟨hok p hp, hown p hp⟩
  exact (hholds.client i hi).2.sent_isPrefix

/-- The connection of the synchronous server has been fed this input: all of it, or as much as the
server takes before it closes the connection because of a line that is too long. -/
def Fed (d : FileServer.Client) (input : List Byte) : Prop :=
  d.received <+: input ∧ (d.received = input ∨ REQ_BUF_SIZE - 1 ≤ d.buf.len)

/-- **Refinement.** Over a static file system, for every run of `aio-file-server.c` up to its first
`remove_client` and every run of `file-server.c`, what a client of the first has been sent is a
prefix of what a client of the second has been sent that was fed the same input. -/
theorem aio_refines_file_server (fs : StaticFs) (root : DocRoot) {tr : List (State × Action)}
    {s : State} (h : (server root).lts.Exec tr s) (hok : ∀ p ∈ tr, Reports fs p.1 p.2)
    (hgone : s.gone = [])
    {tr' : List (LoopState FileServer.Client FileServer.World ×
      LoopAction FileServer.Signal FileServer.HandleEnv)}
    {s' : LoopState FileServer.Client FileServer.World}
    (h' : (FileServer.server root).lts.Exec tr' s')
    (hok' : ∀ p ∈ tr', FileServer.Shows fs.toDisk p.2) {i : ℕ} (hi : i < s.table.size)
    {d : FileServer.Client}
    (hd : d ∈ s'.table.entries ∨ d ∈ s'.gone) {input : List Byte}
    (hc : (s.table.slots i).received <+: input) (hfed : Fed d input) :
    values (s.table.slots i).sent <+: values d.sent := by
  have hsent := sent_isPrefix_answers fs root h hok (not_moves_of_gone_nil h hgone) hi
  have hframed := ((framed root).holds h fun _ _ => trivial).client i hi
  obtain ⟨lines, hlines, hreceived, hlf, hanswers⟩ := FileServer.responded_of_shows h' hok' hd
  -- the requests of the one are the first lines of the other
  have hreq : (s.table.slots i).requests <+: lines := by
    refine isPrefix_of_unlines (fun l hl => (hframed.lines l hl).1) hlines hlf
      (s := input) ?_ (hreceived ▸ hfed.1) ?_
    · rw [hframed.received] at hc
      exact (List.prefix_append _ _).trans hc
    · rcases hfed.2 with hall | hlong
      · exact .inl (hreceived ▸ hall)
      · refine .inr fun l hl => ?_
        rw [LineBuf.length_pending]
        exact Nat.lt_of_lt_of_le (hframed.lines l hl).2 hlong
  rw [hanswers]
  exact hsent.trans (Disk.responses_mono hreq)

namespace Example

/-- A file system in which everything is the file `/d/a` of one byte. -/
def fs : StaticFs where
  realpath _ := some path
  realpath_fits := by
    rintro _ _ ⟨⟩
    decide
  kind _ := .readable
  content _ := [104]
  opens _ := .inr rfl

/-- The system calls of a `serve_file` on it. -/
def syncServe : FileServer.ServeEnv :=
  ⟨fun _ => some path, fun _ => .ok true 1, fun _ => true, true, fun _ => some [104],
    fun _ => [[104]], fun _ => []⟩

/-- A client of `file-server.c` requests the file. -/
def syncRun : List (LoopAction FileServer.Signal FileServer.HandleEnv) :=
  [.turn, .select (.ready ⟨true, [], []⟩), .accept (some 5), .accept none,
    .handle ⟨[], fun _ => syncServe⟩, .next, .turn, .select (.ready ⟨false, [5], []⟩),
    .handle ⟨[97, LF], fun _ => syncServe⟩]

theorem serve_reports : (serve 1).Reports fs :=
  ⟨rfl, fun _ => ⟨rfl, rfl⟩, fun _ => rfl, rfl, rfl, by decide⟩

theorem syncServe_shows : syncServe.Shows fs.toDisk where
  realpath := rfl
  tells _ := ⟨rfl, rfl⟩
  pread _ _ h := by
    cases h
    exact List.prefix_rfl
  reads _ := by
    refine ⟨rfl, fun chunk hchunk => ?_⟩
    rw [List.mem_singleton.mp hchunk]
    exact ⟨by decide, by decide⟩
  writes _ := by
    show NoFailure []
    decide

end Example

/-- One request to each of the servers. -/
theorem aio_refines_file_server_readRun :
    ∃ s s', (server Example.root).lts.Exec
        ((server Example.root).lts.trace (server Example.root).start (readRun [104])) s ∧
      (FileServer.server Example.root).lts.Exec ((FileServer.server Example.root).lts.trace
        (FileServer.server Example.root).start Example.syncRun) s' ∧
      (s.table.slots 0).sent.length = 7 ∧
      values (s.table.slots 0).sent <+: values (s'.table.slots 0).sent := by
  obtain ⟨s, hs, hcheck⟩ := LTS.exec_of_run_any (server Example.root).lts
    (server Example.root).start (readRun [104]) (fun s => 0 < s.table.size ∧ s.gone.length = 0 ∧
      (s.table.slots 0).received = [97, LF] ∧ (s.table.slots 0).sent.length = 7) rfl
      (by decide +kernel)
  obtain ⟨hsize, hgone, hreceived, hsent⟩ := of_decide_eq_true hcheck
  obtain ⟨s', hs', hcheck'⟩ := LTS.exec_of_run_any (FileServer.server Example.root).lts
    (FileServer.server Example.root).start Example.syncRun (fun s => 0 < s.table.size ∧
      (s.table.slots 0).received = [97, LF]) rfl (by decide +kernel)
  obtain ⟨hsize', hreceived'⟩ := of_decide_eq_true hcheck'
  refine ⟨s, s', hs, hs', hsent, ?_⟩
  refine aio_refines_file_server Example.fs Example.root hs ?_
    (List.length_eq_zero_iff.mp hgone) hs' ?_ hsize (.inl (Table.mem_entries.mpr ⟨0, hsize', rfl⟩))
    (hreceived ▸ List.prefix_rfl) ⟨hreceived' ▸ List.prefix_rfl, .inl hreceived'⟩
  · have hall : ∀ a ∈ readRun [104], ∀ t, Reports Example.fs t a := by
      have hcontent : ∀ p, Example.fs.content p = [104] := fun _ => rfl
      simp [readRun, Example.accept, Example.round, Example.idle, Reports, Example.serve_reports,
        hcontent]
    exact fun p hp => hall p.2 (LTS.action_mem_of_mem_trace _ hp) p.1
  · have hall : ∀ a ∈ Example.syncRun, FileServer.Shows Example.fs.toDisk a := by
      simp [Example.syncRun, FileServer.Shows, Example.syncServe_shows]
    exact fun p hp => hall p.2 (LTS.action_mem_of_mem_trace _ hp)

end AioServer

end Osvcp.Servers
