import Osvcp.Servers.AioBody

/-! # Containment in the document root

Whatever the clients ask for and however the file system resolves it, both file servers only look
at, open, cache and send files inside the document root. In `file-server.c` the fact goes through
`serve_file` and the loops around it; in `aio-file-server.c` it has to follow a path through the
saved cache key, the outstanding read, the response buffer and the cache.
-/

namespace Osvcp.Servers

/-- If the byte comes from a file, the file lies inside the root. -/
def CellInside (root : DocRoot) (x : Cell) : Prop :=
  ∀ src b, x = .file src b → root.Inside src.path

/-- All bytes that come from files come from inside the root. -/
def CellsInside (root : DocRoot) (cells : List Cell) : Prop := ∀ x ∈ cells, CellInside root x

/-- The cached responses and their keys lie inside the root. -/
def CacheInside (root : DocRoot) (cache : List CacheEntry) : Prop :=
  ∀ entry ∈ cache, root.Inside entry.key ∧ CellsInside root entry.resp

section Cells

variable {root : DocRoot}

theorem cellsInside_iff {cells : List Cell} :
    CellsInside root cells ↔ FilesFrom (fun src => root.Inside src.path) cells := by
  constructor
  · intro h src b hb
    exact h _ hb src b rfl
  · rintro h x hx src b rfl
    exact h src b hx

theorem cellsInside_nil : CellsInside root [] := cellsInside_iff.mpr filesFrom_nil

theorem CellsInside.append {a b : List Cell} (ha : CellsInside root a) (hb : CellsInside root b) :
    CellsInside root (a ++ b) := List.forall_mem_append.mpr ⟨ha, hb⟩

theorem CellsInside.subset {a b : List Cell} (hb : CellsInside root b) (h : a ⊆ b) :
    CellsInside root a := fun x hx => hb x (h hx)

theorem cellsInside_okHeader (size : ℕ) : CellsInside root (okHeader size) :=
  cellsInside_iff.mpr (filesFrom_okHeader size)

theorem cellsInside_errLine (reason : String) : CellsInside root (errLine reason) :=
  cellsInside_iff.mpr (filesFrom_errLine reason)

theorem cellsInside_fileCells {src : Source} (h : root.Inside src.path) (data : List Byte) :
    CellsInside root (fileCells src data) :=
  cellsInside_iff.mpr (filesFrom_fileCells h data)

theorem CacheInside.insert {cache : List CacheEntry} {key : List Byte} {resp : List Cell}
    (hc : CacheInside root cache) (hkey : root.Inside (strncpyPath key))
    (hresp : CellsInside root resp) : CacheInside root (cacheInsert cache key resp) := by
  intro entry hentry
  rcases mem_cacheInsert hentry with hold | ⟨rfl, ⟨rfl, d, hd, hkd⟩ | hk⟩
  · exact hc entry hold
  · exact ⟨hkd ▸ (hc d hd).1, hresp⟩
  · exact ⟨hk ▸ hkey, hresp⟩

end Cells

/-! ## `file-server.c` -/

namespace FileServer

/-- What the synchronous server has looked at, cached and sent lies inside the root. -/
structure Contained (root : DocRoot) (w : World) : Prop where
  touched : ∀ path ∈ w.touched, root.Inside path
  cache : CacheInside root w.cache

/-- The same in the middle of a client's requests. -/
structure ServingContained (root : DocRoot) (st : Serving) : Prop where
  world : Contained root st.world
  sent : CellsInside root st.sent

section

variable {root : DocRoot} {st : Serving}

theorem ServingContained.write (h : ServingContained root st) (rs : List WriteResult)
    {msg : List Cell} (hm : CellsInside root msg) : ServingContained root (st.write rs msg).1 :=
  ⟨h.world, h.sent.append (hm.subset (writeAll_spec rs msg).1.subset)⟩

theorem ServingContained.sendError (h : ServingContained root st) (rs : List WriteResult)
    (reason : String) : ServingContained root (st.sendError rs reason).1 :=
  h.write rs (cellsInside_errLine reason)

theorem ServingContained.touch (h : ServingContained root st) {path : List Byte}
    (hp : root.Inside path) : ServingContained root (st.touch path) := by
  refine ⟨⟨?_, h.world.cache⟩, h.sent⟩
  intro p hmem
  rcases List.mem_append.mp hmem with hmem | hmem
  · exact h.world.touched p hmem
  · rw [List.mem_singleton] at hmem
    exact hmem ▸ hp

theorem ServingContained.stream (h : ServingContained root st) {src : Source}
    (hsrc : root.Inside src.path) (writes : ℕ → List WriteResult) (k : ℕ)
    (chunks : List (List Byte)) : ServingContained root (stream writes src k chunks st).1 := by
  induction chunks generalizing k st with
  | nil => exact h
  | cons chunk chunks ih =>
      rw [FileServer.stream]
      split
      · exact h
      · rename_i bytes _
        have hw := h.write (writes k) (cellsInside_fileCells hsrc (chunk.take FILE_BUF_SIZE))
        split
        · rename_i st' heq
          rw [heq] at hw
          exact hw
        · rename_i st' heq
          rw [heq] at hw
          exact ih hw (k + 1)

theorem ServingContained.serveFromDisk (h : ServingContained root st) (e : ServeEnv)
    {resolved : List Byte} (hacc : root.accessOk resolved = true) :
    ServingContained root (serveFromDisk e resolved st).1 := by
  have hin := DocRoot.inside_of_accessOk hacc
  unfold FileServer.serveFromDisk
  simp only
  split
  · exact (h.touch hin).sendError _ _
  · exact (h.touch hin).sendError _ _
  · rename_i size hstat
    have h₂ := (h.touch hin).touch hin
    split
    · exact h₂.sendError _ _
    · split
      · rename_i data hdata
        -- the response becomes a cache entry under the first PATH_MAX - 1 bytes of the path
        have hresp : CellsInside root (okHeader size ++
            fileCells (((st.touch resolved).touch resolved).source resolved) data) :=
          (cellsInside_okHeader size).append (cellsInside_fileCells hin data)
        have hw := h₂.write (e.writes 0) hresp
        split
        · rename_i st' heq
          rw [heq] at hw
          exact hw
        · rename_i st' heq
          rw [heq] at hw
          exact ⟨⟨hw.world.touched, hw.world.cache.insert (DocRoot.inside_take hacc) hresp⟩,
            hw.sent⟩
      · have hw := h₂.write (e.writes 0) (cellsInside_okHeader size)
        split
        · rename_i st' heq
          rw [heq] at hw
          exact hw
        · rename_i st' heq
          rw [heq] at hw
          exact hw.stream hin _ _ _

/-- `serve_file` stays inside the root. -/
theorem ServingContained.serveFile (h : ServingContained root st) (e : ServeEnv)
    (filename : List Byte) : ServingContained root (serveFile root e filename st).1 := by
  unfold FileServer.serveFile
  split
  · exact h.sendError _ _
  · split
    · exact h.sendError _ _
    · split
      · exact h.sendError _ _
      · rename_i path hreal
        split
        · exact h.sendError _ _
        · rename_i hacc
          split
          · rename_i entry hlook
            obtain ⟨hmem, -⟩ := mem_of_cacheLookup hlook
            exact h.write _ (h.world.cache entry hmem).2
          · exact h.serveFromDisk e (by simpa using hacc)

theorem serveLine_contained {envs : ℕ → ServeEnv} (st : Serving) (line name : List Byte)
    (h : ServingContained root st) :
    ServingContained root (serveLine root envs st line name).1 := by
  have h' : ServingContained root { st with calls := st.calls + 1 } := ⟨h.world, h.sent⟩
  exact h'.serveFile (envs st.calls) name

end

/-- The handling of one client stays inside the root. -/
theorem handle_contained {root : DocRoot} (i : ℕ) (readable writable : Bool)
    {c : Client} {w : World}
    {e : HandleEnv} (hw : Contained root w) (hc : CellsInside root c.sent)
    {o : Outcome Client World} (h : handle root i readable writable c w e = some o) :
    match o with
    | .keep c' w' => Contained root w' ∧ CellsInside root c'.sent
    | .drop c' w' => Contained root w' ∧ CellsInside root c'.sent := by
  unfold handle at h
  split at h
  · cases h
    exact ⟨hw, hc⟩
  · split at h
    · cases h
      exact ⟨hw, hc⟩
    · have hstart : ServingContained root ⟨0, c.sent, w⟩ := ⟨hw, hc⟩
      have hloop := processRequests_rule (serveLine root e.serves) serveLine_contained hstart
      split at h
      rename_i st buf closed heq
      have hloop := hloop (c.buf.fill (e.read.take (REQ_BUF_SIZE - 1 - c.buf.len)))
      rw [heq] at hloop
      cases h
      cases closed with
      | true => exact ⟨hloop.world, hloop.sent⟩
      | false => exact ⟨hloop.world, hloop.sent⟩

/-- The invariant of `file-server.c`. -/
theorem contained (root : DocRoot) :
    (server root).LocalInvariant (fun _ _ => True) (fun _ => Contained root)
      (fun _ _ c => CellsInside root c.sent) (fun c => CellsInside root c.sent) where
  init := ⟨fun _ h => absurd h List.not_mem_nil, fun _ h => absurd h List.not_mem_nil⟩
  connect _ _ _ _ hw := ⟨hw, cellsInside_nil⟩
  turn := by
    intro n w hw
    refine ⟨?_, fun _ _ hc => hc⟩
    simp only [server, turn]
    split
    · exact ⟨hw.touched, fun _ h => absurd h List.not_mem_nil⟩
    · exact hw
  async := by
    intro s a t w hw hc _ h
    cases a with
    | sigint => cases h; exact ⟨rfl, ⟨hw.touched, hw.cache⟩, hc⟩
    | sigusr1 => cases h; exact ⟨rfl, ⟨hw.touched, hw.cache⟩, hc⟩
  keep := by
    intro s r k e c' w' _ hk hw hc _ hh
    obtain ⟨hw', hc'⟩ := handle_contained k _ false hw (hc k hk) hh
    exact ⟨hw', hc', fun i hi _ => hc i hi⟩
  drop := by
    intro s r k e c' w' _ hk hw hc _ hh
    obtain ⟨hw', hc'⟩ := handle_contained k _ false hw (hc k hk) hh
    exact ⟨hw', hc', fun i hi _ => hc i hi, fun hlast => hc _ (by omega)⟩

end FileServer

/-! ## `aio-file-server.c` -/

namespace AioServer

/-- What the asynchronous server has looked at, cached, buffered and is reading lies inside the
root. -/
structure Contained (root : DocRoot) (w : World) : Prop where
  touched : ∀ path ∈ w.touched, root.Inside path
  cache : CacheInside root w.cache
  heap : ∀ id, CellsInside root (w.heap id)
  pending : ∀ r ∈ w.pending, root.Inside r.file.path

/-- What a client has been sent and the file it is being sent lie inside the root; its saved key has
passed the check. -/
structure ClientContained (root : DocRoot) (c : Client) : Prop where
  sent : CellsInside root c.sent
  key : c.cacheKey ≠ [] → ∃ path, root.accessOk path = true ∧ c.cacheKey = strncpyPath path
  sendfile : c.state = .sendfile → ∃ f, c.sfFd = some f ∧ root.Inside f.path

section

variable {root : DocRoot} {c : Client} {w : World}

theorem ClientContained.init (root : DocRoot) (sock : ℕ) : ClientContained root (.init sock) :=
  ⟨cellsInside_nil, fun h => absurd rfl h, nofun⟩

theorem Contained.alloc (h : Contained root w) {cells : List Cell} (hc : CellsInside root cells) :
    Contained root (w.alloc cells) := by
  refine ⟨h.touched, h.cache, fun id => ?_, h.pending⟩
  by_cases hid : id = w.nextBuf
  · subst hid
    simpa [World.alloc] using hc
  · simpa [World.alloc, hid] using h.heap id

theorem Contained.free (h : Contained root w) (id : Option ℕ) : Contained root (w.free id) := by
  cases id with
  | none => exact h
  | some id => exact ⟨h.touched, h.cache, h.heap, h.pending⟩

theorem Contained.close (h : Contained root w) (f : Option Handle) :
    Contained root (w.close f) := by
  cases f with
  | none => exact h
  | some f => exact ⟨h.touched, h.cache, h.heap, h.pending⟩

theorem Contained.opened (h : Contained root w) {path : List Byte} (hp : root.Inside path) :
    Contained root (w.opened path) := by
  refine ⟨?_, h.cache, h.heap, h.pending⟩
  intro p hmem
  simp only [World.opened, World.openFile, World.touch, List.mem_append, List.mem_singleton] at hmem
  rcases hmem with (hmem | rfl) | rfl
  · exact h.touched p hmem
  · exact hp
  · exact hp

/-- What a read delivers comes from its file. -/
theorem Contained.complete (h : Contained root w) {k : ℕ} {r : AioRequest}
    (hr : w.pending[k]? = some r) (result : AioResult) :
    Contained root (w.complete k r result) := by
  have hin := h.pending r (List.mem_of_getElem? hr)
  have hpending : ∀ r' ∈ w.pending.eraseIdx k, root.Inside r'.file.path :=
    fun r' hr' => h.pending r' (List.mem_of_mem_eraseIdx hr')
  cases result with
  | failed => exact ⟨h.touched, h.cache, h.heap, hpending⟩
  | delivered data =>
      refine ⟨h.touched, h.cache, fun id => ?_, hpending⟩
      by_cases hid : id = r.buf
      · subst hid
        simp only [World.complete, World.store, Function.update_self]
        refine CellsInside.append (CellsInside.append ?_ ?_) ?_
        · exact (h.heap _).subset (List.take_subset _ _)
        · exact cellsInside_fileCells hin _
        · exact (h.heap _).subset (List.drop_subset _ _)
      · simpa [World.complete, World.store, hid] using h.heap id

theorem Contained.buffer (h : Contained root w) (c : Client) : CellsInside root (c.buffer w) := by
  unfold Client.buffer
  split
  · exact (h.heap _).subset (List.take_subset _ _)
  · exact cellsInside_nil

theorem ClientContained.reply (h : ClientContained root c) (rs : List WriteResult) {msg : List Cell}
    (hm : CellsInside root msg) : ClientContained root (c.reply rs msg) :=
  ⟨h.sent.append (hm.subset (sockSend_isPrefix rs msg).subset), h.key, h.sendfile⟩

/-- A refused request leaves everything inside. -/
theorem contained_of_quiet {q : Client × World} (hq : Quiet root (c, w) q) (hw : Contained root w)
    (hc : ClientContained root c) : Contained root q.2 ∧ ClientContained root q.1 := by
  refine ⟨⟨?_, hq.cache ▸ hw.cache, ?_, hq.pending ▸ hw.pending⟩, ⟨hq.sent ▸ hc.sent, ?_, ?_⟩⟩
  · intro path hp
    rcases hq.touched path hp with hp | hacc
    · exact hw.touched path hp
    · exact DocRoot.inside_of_accessOk hacc
  · intro id x hx
    rcases hq.fresh id x hx with hx | hnot
    · exact hw.heap id x hx
    · exact fun src b heq => absurd heq (hnot src b)
  · intro hne
    rcases hq.cacheKey with heq | hkey
    · rw [heq] at hne ⊢
      exact hc.key hne
    · exact hkey
  · intro hst
    exact hq.sfFd ▸ hc.sendfile (hq.state ▸ hst)

/-- `begin_file_serve` stays inside the root. -/
theorem beginFileServe_contained (hw : Contained root w) (hc : ClientContained root c)
    (e : ServeEnv) (i : ℕ) (name : List Byte) :
    Contained root (beginFileServe root e i name c w).2 ∧
      ClientContained root (beginFileServe root e i name c w).1 := by
  have key : ∀ path, root.accessOk path = true →
      ClientContained root { c with cacheKey := strncpyPath path } := fun path hacc =>
    ⟨hc.sent, fun _ => ⟨path, hacc, rfl⟩, hc.sendfile⟩
  have hbegun := beginFileServe_begun root e i name c w
  generalize beginFileServe root e i name c w = p at hbegun ⊢
  cases hbegun with
  | @refused reason q h hq =>
      obtain ⟨hw', hc'⟩ := contained_of_quiet hq hw hc
      exact ⟨hw', hc'.reply _ (cellsInside_errLine reason)⟩
  | @cached path entry hne hrel hreal hacc hlook =>
      have hentry := hw.cache entry (mem_of_cacheLookup hlook).1
      exact ⟨hw.alloc hentry.2, ⟨hc.sent, (key _ hacc).key, nofun⟩⟩
  | @sendfile path size hne hrel hreal hacc hstat hsize =>
      have hin := DocRoot.inside_of_accessOk hacc
      have hsent := ((key _ hacc).reply e.sends (cellsInside_okHeader size)).sent
      exact ⟨hw.opened hin, ⟨hsent, (key _ hacc).key, fun _ => ⟨_, rfl, hin⟩⟩⟩
  | @aio path size hne hrel hreal hacc hstat hsize hmalloc haio =>
      have hin := DocRoot.inside_of_accessOk hacc
      rw [startRead_of_ok hmalloc haio]
      have halloc : CellsInside root (okHeader size ++ List.replicate size Cell.junk) :=
        fun x hx src b heq => absurd heq (okHeader_junk_not_file hx src b)
      have hw' := (hw.opened hin).alloc halloc
      refine ⟨⟨hw'.touched, hw'.cache, hw'.heap, ?_⟩, ⟨hc.sent, (key _ hacc).key, nofun⟩⟩
      intro r hr
      rcases List.mem_append.mp hr with hr | hr
      · exact hw.pending r hr
      · rw [List.mem_singleton] at hr
        exact hr ▸ hin

/-- `check_aio` stays inside the root. -/
theorem checkAio_contained (hw : Contained root w) (hc : ClientContained root c) (e : HandleEnv) :
    Contained root (checkAio e c w).2 ∧ ClientContained root (checkAio e c w).1 := by
  unfold checkAio
  split
  · exact ⟨hw, hc⟩
  · refine ⟨(hw.close _).free _, ?_⟩
    have hc' : ClientContained root { c with fileFd := none, resp := none, state := .reading } :=
      ⟨hc.sent, hc.key, nofun⟩
    exact hc'.reply _ (cellsInside_errLine _)
  · unfold finishRead
    simp only
    refine ⟨?_, ⟨hc.sent, hc.key, nofun⟩⟩
    have hw' := hw.close c.fileFd
    split
    · rename_i h
      obtain ⟨path, hacc, hkey⟩ := hc.key h.2.1
      have hin : root.Inside (strncpyPath c.cacheKey) := by
        rw [hkey, strncpyPath_idem]
        exact DocRoot.inside_take hacc
      exact ⟨hw'.touched, hw'.cache.insert hin (hw'.buffer c), hw'.heap, hw'.pending⟩
    · exact hw'

/-- A write sends bytes of the response buffer. -/
theorem advanceWrite_contained (hw : Contained root w) (hc : ClientContained root c)
    {cells : List Cell} (hcells : CellsInside root cells) (hst : c.state = .writing) :
    Contained root (advanceWrite cells c w).2 ∧
    ClientContained root (advanceWrite cells c w).1 := by
  have hsent := hc.sent.append hcells
  unfold advanceWrite
  simp only
  split
  · exact ⟨hw.free _, ⟨hsent, hc.key, nofun⟩⟩
  · exact ⟨hw, ⟨hsent, hc.key, fun h => absurd (hst.symm.trans h) (by decide)⟩⟩

/-- `sendfile` sends bytes of the file that was opened. -/
theorem advanceSendfile_contained (hw : Contained root w) (hc : ClientContained root c)
    (data : List Byte) (hst : c.state = .sendfile) :
    Contained root (advanceSendfile data c w).2 ∧
      ClientContained root (advanceSendfile data c w).1 := by
  obtain ⟨f, hf, hin⟩ := hc.sendfile hst
  have hdata : CellsInside root
      (fileCells ⟨(c.sfFd.map Handle.path).getD [], w.flushes⟩ data) := by
    rw [hf]
    exact cellsInside_fileCells hin data
  have hsent := hc.sent.append hdata
  unfold advanceSendfile
  simp only
  split
  · exact ⟨hw.close _, ⟨hsent, hc.key, nofun⟩⟩
  · exact ⟨hw, ⟨hsent, hc.key, fun _ => ⟨f, hf, hin⟩⟩⟩

theorem removeClient_contained (hw : Contained root w) {i : ℕ} {wait : WaitResult} {w' : World}
    (h : removeClient i wait c w = some w') : Contained root w' := by
  obtain ⟨w₁, f, id, rfl, hw₁⟩ := removeClient_cases h
  refine Contained.free (Contained.close ?_ f) id
  rcases hw₁ with ⟨rfl, -⟩ | ⟨k, r, hr, -, rfl | ⟨result, -, rfl⟩⟩
  · exact hw
  · exact ⟨hw.touched, hw.cache, hw.heap, fun r hr => hw.pending r (List.mem_of_mem_eraseIdx hr)⟩
  · exact hw.complete hr result

end

theorem contained_body (root : DocRoot) (e : HandleEnv) (i : ℕ) :
    BodyRule root e i (Keeps (Contained root) (fun _ _ => ClientContained root) i) where
  refl := Keeps.refl
  trans := Keeps.trans
  input c w buf received := Keeps.of_world_eq fun _ hc => ⟨hc.sent, hc.key, hc.sendfile⟩
  checkAio c w _ := fun ⟨hw, hc⟩ => ⟨checkAio_contained hw hc e, fun _ _ _ hd => hd⟩
  beginFileServe k c w line _ := by
    rintro ⟨hw, hc⟩
    have hc' : ClientContained root { c with requests := c.requests ++ [line] } :=
      ⟨hc.sent, hc.key, hc.sendfile⟩
    exact ⟨beginFileServe_contained hw hc' _ _ _, fun _ _ _ hd => hd⟩
  advanceWrite c w cells hst hcells := by
    rintro ⟨hw, hc⟩
    have hsub : CellsInside root cells :=
      (hw.buffer c).subset fun x hx => List.mem_of_mem_drop ((nbWrite_isPrefix hcells).subset hx)
    exact ⟨advanceWrite_contained hw hc hsub hst, fun _ _ _ hd => hd⟩
  advanceSendfile c w data hst _ := fun ⟨hw, hc⟩ =>
    ⟨advanceSendfile_contained hw hc data hst, fun _ _ _ hd => hd⟩

/-- The invariant of `aio-file-server.c`. -/
theorem contained (root : DocRoot) :
    LocalRule root (fun _ _ => True) (fun _ => Contained root) (fun _ _ => ClientContained root)
      (fun c => CellsInside root c.sent) where
  init := ⟨nofun, nofun, fun _ => cellsInside_nil, nofun⟩
  connect _ _ fd hw := ⟨hw, .init root fd⟩
  flags _ _ _ _ hw := ⟨⟨hw.touched, hw.cache, hw.heap, hw.pending⟩, fun _ _ hc => hc⟩
  clear _ _ hw := ⟨⟨hw.touched, nofun, hw.heap, hw.pending⟩, fun _ _ hc => hc⟩
  aioDone s k r result hr _ hw hc := by
    refine ⟨hw.complete hr result, fun i hi => ?_⟩
    split
    · exact ⟨(hc i hi).sent, (hc i hi).key, (hc i hi).sendfile⟩
    · exact hc i hi
  body _ e i _ _ := contained_body root e i
  remove s e i c w w' _ hw hc h :=
    ⟨⟨removeClient_contained hw h, .init root 0⟩, hc.sent, fun _ _ _ hd => hd⟩
  shrink s r k e w' _ hk _ hw _ hothers _ :=
    ⟨hw, fun hlast => hothers _ (by omega) (by omega)⟩

end AioServer

/-- A request for the file `/d/a` of one byte, with all system calls successful. -/
def FileServer.exampleServe : FileServer.ServeEnv :=
  ⟨fun _ => some AioServer.Example.path, fun _ => .ok true 1, fun _ => true, true,
    fun _ => some [104], fun _ => [], fun _ => []⟩

/-- **Docroot containment.** In every reachable state of either file server, every path that was
passed to `stat` or `open`, every key of the cache, and the source of every byte that was read from
a file and cached or sent, has the components of the document root as a prefix of its components. -/
theorem docroot_containment (root : DocRoot) :
    (∀ s, (FileServer.server root).lts.Reachable s →
      (∀ path ∈ s.world.touched, root.Inside path) ∧ CacheInside root s.world.cache ∧
      ∀ c, c ∈ s.table.entries ∨ c ∈ s.gone → CellsInside root c.sent) ∧
    (∀ s, (AioServer.server root).lts.Reachable s →
      (∀ path ∈ s.world.touched, root.Inside path) ∧ CacheInside root s.world.cache ∧
      ∀ c, c ∈ s.table.entries ∨ c ∈ s.gone → CellsInside root c.sent) := by
  constructor
  · rintro s ⟨tr, h⟩
    have hI := (FileServer.contained root).holds h fun _ _ => trivial
    refine ⟨hI.world.touched, hI.world.cache, ?_⟩
    rintro c (hc | hc)
    · obtain ⟨i, hi, rfl⟩ := Table.mem_entries.mp hc
      exact hI.client i hi
    · exact hI.gone c hc
  · rintro s ⟨tr, h⟩
    have hI := (AioServer.contained root).localInvariant.holds h fun _ _ => trivial
    refine ⟨hI.world.touched, hI.world.cache, ?_⟩
    rintro c (hc | hc)
    · obtain ⟨i, hi, rfl⟩ := Table.mem_entries.mp hc
      exact (hI.client i hi).sent
    · exact hI.gone c hc

/-- A run of each server that serves the file `/d/a`. -/
theorem docroot_containment_example :
    (∃ s, (FileServer.server AioServer.Example.root).lts.Reachable s ∧
      (∃ c ∈ s.table.entries, ∃ src b, Cell.file src b ∈ c.sent) ∧
      CacheInside AioServer.Example.root s.world.cache) ∧
    ∃ s, (AioServer.server AioServer.Example.root).lts.Reachable s ∧
      (∃ c ∈ s.table.entries, ∃ src b, Cell.file src b ∈ c.sent) ∧
      CacheInside AioServer.Example.root s.world.cache := by
  have h := docroot_containment AioServer.Example.root
  constructor
  · obtain ⟨s, hs, hsent⟩ := LTS.exec_of_run_any (FileServer.server AioServer.Example.root).lts
      (FileServer.server AioServer.Example.root).start
      [.turn, .select (.ready ⟨true, [], []⟩), .accept (some 5), .accept none,
        .handle ⟨[], fun _ => FileServer.exampleServe⟩, .next, .turn,
        .select (.ready ⟨false, [5], []⟩), .handle ⟨[97, LF], fun _ => FileServer.exampleServe⟩]
      (fun s => s.table.size = 1 ∧
        (s.table.slots 0).sent.getLast? = some (.file ⟨AioServer.Example.path.bytes, 0⟩ 104))
      rfl (by decide +kernel)
    rw [decide_eq_true_iff] at hsent
    exact ⟨s, ⟨_, hs⟩, ⟨_, Table.mem_entries.mpr ⟨0, by omega, rfl⟩, _, _,
      List.mem_of_getLast? hsent.2⟩, (h.1 s ⟨_, hs⟩).2.1⟩
  · obtain ⟨s, hs, hsent⟩ := LTS.exec_of_run_any (AioServer.server AioServer.Example.root).lts
      (AioServer.server AioServer.Example.root).start
      (AioServer.Example.accept [5] 1 ++
        AioServer.Example.round [5] [] [{ AioServer.Example.idle with read := [97, LF] }] ++
        [.async (.aioDone 0 (.delivered [104]))] ++
        AioServer.Example.round [] [] [AioServer.Example.idle] ++
        AioServer.Example.round [] [5] [{ AioServer.Example.idle with write := .wrote 100 }])
      (fun s => s.table.size = 1 ∧
        (s.table.slots 0).sent.getLast? = some (.file ⟨AioServer.Example.path.bytes, 0⟩ 104))
      rfl (by decide +kernel)
    rw [decide_eq_true_iff] at hsent
    exact ⟨s, ⟨_, hs⟩, ⟨_, Table.mem_entries.mpr ⟨0, by omega, rfl⟩, _, _,
      List.mem_of_getLast? hsent.2⟩, (h.2 s ⟨_, hs⟩).2.1⟩

end Osvcp.Servers
