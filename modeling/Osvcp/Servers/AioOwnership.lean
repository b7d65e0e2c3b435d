import Osvcp.Lib.Ownership
import Osvcp.Servers.AioBody

/-! # What the clients of the asynchronous server own

A client of `aio-file-server.c` owns a descriptor while it waits for a read or sends a large file,
and a response buffer while it waits for the read or writes the response. Descriptors and buffers
are opened, allocated, closed and freed all over `begin_file_serve`, `check_aio`, the event loop and
`remove_client`, and the entries of the table are moved by copying them. `Holding` says what a
client has in each of its states, and `owning_files` and `owning_blocks` that every descriptor and
every buffer is held by one client or has been released, once.

A failed `aio_read` leaves the closed descriptor in `file_fd`, so that what a client owns is not
what its fields hold: `Client.openFiles` leaves out what has been closed, and `Client.heldFiles`,
which reads the state, is shown to be the same.
-/

namespace Osvcp.Servers.AioServer

/-! ## Resources -/

/-- The descriptors of files: how many were opened, and those closed. -/
def World.files (w : World) : Ledger := ⟨w.nextFd, w.closed⟩

/-- The response buffers: how many were allocated, and those freed. -/
def World.blocks (w : World) : Ledger := ⟨w.nextBuf, w.freed⟩

/-- The files of a client that are open. -/
def Client.openFiles (w : World) (c : Client) : List ℕ :=
  ((c.fileFd.toList ++ c.sfFd.toList).map Handle.num).filter (· ∉ w.closed)

/-! ## The ways out of `begin_file_serve` -/

/-- **The ways out of `begin_file_serve`**, with what each of them has opened, allocated and
released. -/
inductive ServeExit (e : ServeEnv) (i : ℕ) (c : Client) (w : World) : Client × World → Prop
  | refused (key : List Byte) (msg : List Cell) (touched : List (List Byte)) :
      ServeExit e i c w ({ c with cacheKey := key }.reply e.sends msg,
        { w with touched := touched })
  | cached (key : List Byte) {entry : CacheEntry} (h : entry ∈ w.cache) :
      ServeExit e i c w (serveCached entry { c with cacheKey := key } w)
  | large (key path : List Byte) {size : ℕ} (hstat : e.stat path = .ok true size)
      (hsize : MAX_CACHE_FILE_SIZE < size) :
      ServeExit e i c w (startSendfile e ⟨w.nextFd, path⟩ size { c with cacheKey := key }
        (w.opened path))
  | noMemory (key path : List Byte) (msg : List Cell) :
      ServeExit e i c w ({ c with cacheKey := key }.reply e.sends msg,
        (w.opened path).close (some ⟨w.nextFd, path⟩))
  | noRead (key path : List Byte) (size : ℕ) (msg : List Cell) :
      ServeExit e i c w
        ({ c with
            cacheKey := key, fileFd := some ⟨w.nextFd, path⟩, resp := none,
            respSize := (okHeader size).length + size, respSent := 0,
            aio := .done 0 }.reply e.sends msg,
          (((w.opened path).alloc (okHeader size ++ List.replicate size .junk)).free
            (some w.nextBuf)).close (some ⟨w.nextFd, path⟩))
  | reading (key path : List Byte) (size : ℕ) :
      ServeExit e i c w
        ({ c with
            cacheKey := key, fileFd := some ⟨w.nextFd, path⟩, resp := some w.nextBuf,
            respSize := (okHeader size).length + size, respSent := 0, aio := .inProgress,
            state := .aio },
          { (w.opened path).alloc (okHeader size ++ List.replicate size .junk) with
            pending := w.pending ++
              [⟨i, w.nextBuf, (okHeader size).length, size, ⟨w.nextFd, path⟩, w.flushes⟩] })

theorem startRead_exit (e : ServeEnv) (i : ℕ) (key path : List Byte) (size : ℕ) (c : Client)
    (w : World) :
    ServeExit e i c w
      (startRead e i ⟨w.nextFd, path⟩ size { c with cacheKey := key } (w.opened path)) := by
  by_cases hmalloc : e.malloc = false
  · unfold startRead
    rw [if_pos hmalloc]
    exact .noMemory key path _
  · by_cases haio : e.aioRead = false
    · unfold startRead
      simp only
      rw [if_neg hmalloc, if_pos haio]
      exact .noRead key path size _
    · rw [startRead_of_ok (by simpa using hmalloc) (by simpa using haio)]
      exact .reading key path size

theorem serveFromDisk_exit (e : ServeEnv) (i : ℕ) (key path : List Byte) (c : Client) (w : World) :
    ServeExit e i c w (serveFromDisk e i path { c with cacheKey := key } w) := by
  unfold serveFromDisk
  simp only
  split
  · exact .refused key _ (w.touched ++ [path])
  · exact .refused key _ (w.touched ++ [path])
  · rename_i size hstat
    split
    · exact .refused key _ (w.touched ++ [path] ++ [path])
    · split
      · rename_i hsize
        exact .large key path hstat hsize
      · exact startRead_exit e i key path size c w

theorem beginFileServe_exit (root : DocRoot) (e : ServeEnv) (i : ℕ) (name : List Byte) (c : Client)
    (w : World) : ServeExit e i c w (beginFileServe root e i name c w) := by
  unfold beginFileServe
  split
  · exact .refused c.cacheKey _ w.touched
  · split
    · exact .refused c.cacheKey _ w.touched
    · split
      · exact .refused c.cacheKey _ w.touched
      · rename_i path hreal
        split
        · exact .refused c.cacheKey _ w.touched
        · simp only
          split
          · rename_i entry hlook
            split
            · exact .cached _ (mem_of_cacheLookup hlook).1
            · exact serveFromDisk_exit e i _ path.bytes c w
          · exact serveFromDisk_exit e i _ path.bytes c w

/-! ## Closing and freeing -/

section

variable {w w' : World} {c : Client}

theorem files_close (w : World) (f : Option Handle) :
    w.files.Moves (f.toList.map Handle.num) (w.close f).files [] := by
  cases f with
  | none => exact .refl _ _
  | some f => exact w.files.moves_release f.num []

theorem blocks_free (w : World) (id : Option ℕ) :
    w.blocks.Moves id.toList (w.free id).blocks [] := by
  cases id with
  | none => exact .refl _ _
  | some id => exact w.blocks.moves_release id []

@[simp] theorem World.close_blocks (w : World) (f : Option Handle) :
    (w.close f).blocks = w.blocks := by
  cases f <;> rfl

@[simp] theorem World.free_files (w : World) (id : Option ℕ) : (w.free id).files = w.files := by
  cases id <;> rfl

@[simp] theorem World.close_nextFd (w : World) (f : Option Handle) :
    (w.close f).nextFd = w.nextFd := by
  cases f <;> rfl

@[simp] theorem World.free_nextFd (w : World) (id : Option ℕ) : (w.free id).nextFd = w.nextFd := by
  cases id <;> rfl

theorem World.closed_subset_close (w : World) (f : Option Handle) :
    w.closed ⊆ (w.close f).closed := by
  cases f with
  | none => exact List.Subset.refl _
  | some f => exact List.subset_append_left _ _

@[simp] theorem World.complete_files (w : World) (k : ℕ) (r : AioRequest) (result : AioResult) :
    (w.complete k r result).files = w.files := by cases result <;> rfl

@[simp] theorem World.complete_blocks (w : World) (k : ℕ) (r : AioRequest) (result : AioResult) :
    (w.complete k r result).blocks = w.blocks := by cases result <;> rfl

/-! ## The invariant of a client -/

/-- The descriptors a client holds, as its state says. -/
def Client.heldFiles (c : Client) : List ℕ :=
  match c.state with
  | .reading => []
  | .aio => c.fileFd.toList.map Handle.num
  | .writing => []
  | .sendfile => c.sfFd.toList.map Handle.num

/-- The buffers a client holds, as its state says. -/
def Client.heldBlocks (c : Client) : List ℕ :=
  match c.state with
  | .reading => []
  | .aio => c.resp.toList
  | .writing => c.resp.toList
  | .sendfile => []

/-- What is left in `file_fd` has been closed. -/
def Stale (w : World) (c : Client) : Prop := ∀ f, c.fileFd = some f → f.num ∈ w.closed

/-- What a client has, in each of its states. -/
inductive Holding (w : World) (c : Client) : Prop
  | reading (h : c.state = .reading) (hresp : c.resp = none) (hfile : Stale w c)
      (hsf : c.sfFd = none)
  | aio (f : Handle) (id : ℕ) (h : c.state = .aio) (hresp : c.resp = some id) (hid : id < w.nextBuf)
      (hsent : c.respSent = 0) (hsize : 0 < c.respSize) (hfile : c.fileFd = some f)
      (hsf : c.sfFd = none)
  | writing (id : ℕ) (h : c.state = .writing) (hresp : c.resp = some id)
      (hsent : c.respSent < c.respSize) (hfile : Stale w c) (hsf : c.sfFd = none)
  | sendfile (f : Handle) (h : c.state = .sendfile) (hresp : c.resp = none) (hfile : Stale w c)
      (hsf : c.sfFd = some f) (hrem : 0 < c.sfRemaining)

/-- No response is empty, neither in the cache nor in a buffer. -/
structure Filled (w : World) : Prop where
  cache : ∀ entry ∈ w.cache, entry.resp ≠ []
  blocks : ∀ id < w.nextBuf, w.heap id ≠ []

theorem stale_of_none (h : c.fileFd = none) : Stale w c := by
  intro f hf
  rw [h] at hf
  cases hf

theorem Stale.mono (h : Stale w c) (hclosed : w.closed ⊆ w'.closed) : Stale w' c :=
  fun f hf => hclosed (h f hf)

theorem Holding.mono (h : Holding w c) (hn : w.nextBuf ≤ w'.nextBuf)
    (hclosed : w.closed ⊆ w'.closed) :
    Holding w' c := by
  cases h with
  | reading h hresp hfile hsf => exact .reading h hresp (hfile.mono hclosed) hsf
  | aio f id h hresp hid hsent hsize hfile hsf =>
      exact .aio f id h hresp (Nat.lt_of_lt_of_le hid hn) hsent hsize hfile hsf
  | writing id h hresp hsent hfile hsf => exact .writing id h hresp hsent (hfile.mono hclosed) hsf
  | sendfile f h hresp hfile hsf hrem => exact .sendfile f h hresp (hfile.mono hclosed) hsf hrem

/-- The invariant is about the state and the resources of a client. -/
theorem Holding.congr {c' : Client} (h : Holding w c) (hst : c'.state = c.state)
    (hresp' : c'.resp = c.resp) (hsize' : c'.respSize = c.respSize)
    (hsent' : c'.respSent = c.respSent)
    (hfile' : c'.fileFd = c.fileFd) (hsf' : c'.sfFd = c.sfFd)
    (hrem' : c'.sfRemaining = c.sfRemaining) :
    Holding w c' := by
  have hstale : Stale w c → Stale w c' := fun hs f hf => hs f (hfile'.symm.trans hf)
  cases h with
  | reading h hresp hfile hsf =>
      exact .reading (hst.trans h) (hresp'.trans hresp) (hstale hfile) (hsf'.trans hsf)
  | aio f id h hresp hid hsent hsize hfile hsf =>
      exact .aio f id (hst.trans h) (hresp'.trans hresp) hid (hsent'.trans hsent) (hsize' ▸ hsize)
        (hfile'.trans hfile) (hsf'.trans hsf)
  | writing id h hresp hsent hfile hsf =>
      exact .writing id (hst.trans h) (hresp'.trans hresp) (by rw [hsent', hsize']; exact hsent)
        (hstale hfile) (hsf'.trans hsf)
  | sendfile f h hresp hfile hsf hrem =>
      exact .sendfile f (hst.trans h) (hresp'.trans hresp) (hstale hfile) (hsf'.trans hsf)
        (hrem' ▸ hrem)

theorem Holding.of_reading (h : Holding w c) (hst : c.state = .reading) :
    c.resp = none ∧ Stale w c ∧ c.sfFd = none := by
  cases h with
  | reading _ hresp hfile hsf => exact ⟨hresp, hfile, hsf⟩
  | aio _ _ h => cases h.symm.trans hst
  | writing _ h => cases h.symm.trans hst
  | sendfile _ h => cases h.symm.trans hst

theorem Holding.of_aio (h : Holding w c) (hst : c.state = .aio) :
    ∃ f, ∃ id < w.nextBuf, c.fileFd = some f ∧ c.resp = some id ∧ c.respSent = 0 ∧ 0 < c.respSize ∧
      c.sfFd = none := by
  cases h with
  | aio f id _ hresp hid hsent hsize hfile hsf =>
      exact ⟨f, id, hid, hfile, hresp, hsent, hsize, hsf⟩
  | reading h => cases h.symm.trans hst
  | writing _ h => cases h.symm.trans hst
  | sendfile _ h => cases h.symm.trans hst

theorem Holding.of_writing (h : Holding w c) (hst : c.state = .writing) :
    ∃ id, c.resp = some id ∧ c.respSent < c.respSize ∧ Stale w c ∧ c.sfFd = none := by
  cases h with
  | writing id _ hresp hsent hfile hsf => exact ⟨id, hresp, hsent, hfile, hsf⟩
  | reading h => cases h.symm.trans hst
  | aio _ _ h => cases h.symm.trans hst
  | sendfile _ h => cases h.symm.trans hst

theorem Holding.of_sendfile (h : Holding w c) (hst : c.state = .sendfile) :
    ∃ f, c.resp = none ∧ Stale w c ∧ c.sfFd = some f ∧ 0 < c.sfRemaining := by
  cases h with
  | sendfile f _ hresp hfile hsf hrem => exact ⟨f, hresp, hfile, hsf, hrem⟩
  | reading h => cases h.symm.trans hst
  | aio _ _ h => cases h.symm.trans hst
  | writing _ h => cases h.symm.trans hst

theorem Filled.of_eq (h : Filled w) (hcache : w'.cache = w.cache) (hheap : w'.heap = w.heap)
    (hn : w'.nextBuf = w.nextBuf) : Filled w' :=
  ⟨hcache ▸ h.cache, fun id hid => by rw [hheap]; exact h.blocks id (hn ▸ hid)⟩

theorem Filled.alloc (h : Filled w) {cells : List Cell} (hcells : cells ≠ []) :
    Filled (w.alloc cells) := by
  refine ⟨h.cache, fun id hid => ?_⟩
  show Function.update w.heap w.nextBuf cells id ≠ []
  by_cases hnew : id = w.nextBuf
  · subst hnew
    rw [Function.update_self]
    exact hcells
  · have hlt : id < w.nextBuf + 1 := hid
    rw [Function.update_of_ne hnew]
    exact h.blocks id (by omega)

/-- A read that ends overwrites a part of its buffer. -/
theorem Filled.complete (h : Filled w) (k : ℕ) (r : AioRequest) (result : AioResult) :
    Filled (w.complete k r result) := by
  refine ⟨by rw [World.complete_cache]; exact h.cache, fun id hid => ?_⟩
  rw [World.complete_nextBuf] at hid
  have hold := h.blocks id hid
  cases result with
  | failed => exact hold
  | delivered data =>
      show Function.update w.heap r.buf _ id ≠ []
      by_cases hbuf : id = r.buf
      · subst hbuf
        rw [Function.update_self]
        intro hnil
        have hlen := congrArg List.length hnil
        have hpos := List.length_pos_iff.mpr hold
        simp only [List.length_append, List.length_take, List.length_drop, List.length_nil] at hlen
        omega
      · rw [Function.update_of_ne hbuf]
        exact hold

theorem okHeader_ne_nil (size : ℕ) : okHeader size ≠ [] := by
  simp [okHeader, text, ascii]

/-! ## The operations of the body -/

/-- What an operation does with the resources: it moves them on behalf of its client, closes without
forgetting, and keeps the invariant. -/
structure Conserves (p q : Client × World) : Prop where
  files : p.2.files.Moves p.1.heldFiles q.2.files q.1.heldFiles
  blocks : p.2.blocks.Moves p.1.heldBlocks q.2.blocks q.1.heldBlocks
  nextBuf : p.2.nextBuf ≤ q.2.nextBuf
  closed : p.2.closed ⊆ q.2.closed
  holding : Filled p.2 → Holding p.2 p.1 → Filled q.2 ∧ Holding q.2 q.1

theorem Conserves.refl (p : Client × World) : Conserves p p :=
  ⟨.refl _ _, .refl _ _, Nat.le_refl _, List.Subset.refl _, fun hw hc => ⟨hw, hc⟩⟩

theorem Conserves.trans {p q r : Client × World} (h₁ : Conserves p q) (h₂ : Conserves q r) :
    Conserves p r where
  files := h₁.files.trans h₂.files
  blocks := h₁.blocks.trans h₂.blocks
  nextBuf := h₁.nextBuf.trans h₂.nextBuf
  closed := List.Subset.trans h₁.closed h₂.closed
  holding hw hc := by
    obtain ⟨hw', hc'⟩ := h₁.holding hw hc
    exact h₂.holding hw' hc'

/-- A reading client holds nothing. -/
theorem Conserves.of_reading {q : Client × World} (hst : c.state = .reading)
    (hfiles : w.files.Moves [] q.2.files q.1.heldFiles)
    (hblocks : w.blocks.Moves [] q.2.blocks q.1.heldBlocks) (hn : w.nextBuf ≤ q.2.nextBuf)
    (hclosed : w.closed ⊆ q.2.closed)
    (hholding : Filled w → c.resp = none → Stale w c → c.sfFd = none → Filled q.2 ∧
      Holding q.2 q.1) :
    Conserves (c, w) q where
  files := by simpa [Client.heldFiles, hst] using hfiles
  blocks := by simpa [Client.heldBlocks, hst] using hblocks
  nextBuf := hn
  closed := hclosed
  holding hw hc := by
    obtain ⟨hresp, hstale, hsf⟩ := hc.of_reading hst
    exact hholding hw hresp hstale hsf

/-- A reading client holds nothing in the end either. -/
theorem Conserves.of_refused {q : Client × World} (hst : c.state = .reading)
    (hst' : q.1.state = .reading) (hfiles : w.files.Moves [] q.2.files [])
    (hblocks : w.blocks.Moves [] q.2.blocks [])
    (hn : w.nextBuf ≤ q.2.nextBuf) (hclosed : w.closed ⊆ q.2.closed)
    (hholding : Filled w → c.resp = none → Stale w c → c.sfFd = none →
      Filled q.2 ∧ q.1.resp = none ∧ Stale q.2 q.1 ∧ q.1.sfFd = none) : Conserves (c, w) q := by
  refine .of_reading hst ?_ ?_ hn hclosed fun hw hresp hstale hsf => ?_
  · simpa [Client.heldFiles, hst'] using hfiles
  · simpa [Client.heldBlocks, hst'] using hblocks
  · obtain ⟨hw', hresp', hstale', hsf'⟩ := hholding hw hresp hstale hsf
    exact ⟨hw', .reading hst' hresp' hstale' hsf'⟩

theorem ServeExit.conserves {e : ServeEnv} {i : ℕ} {q : Client × World} (h : ServeExit e i c w q)
    (hst : c.state = .reading) : Conserves (c, w) q := by
  have hopen : ∀ path, w.files.Moves [] (w.opened path).files [w.nextFd] :=
    fun path => w.files.moves_issue []
  have halloc : ∀ cells, w.blocks.Moves [] (w.alloc cells).blocks [w.nextBuf] :=
    fun cells => w.blocks.moves_issue []
  have hblock : ∀ size, okHeader size ++ List.replicate size .junk ≠ [] := by
    intro size hnil
    exact okHeader_ne_nil size (List.append_eq_nil_iff.mp hnil).1
  cases h with
  | refused key msg touched =>
      refine .of_refused hst hst (.refl _ _) (.refl _ _) (Nat.le_refl _) (List.Subset.refl _) ?_
      intro hw hresp hstale hsf
      exact ⟨hw.of_eq rfl rfl rfl, hresp, hstale, hsf⟩
  | @cached key entry hentry =>
      refine .of_reading hst (.refl _ _) (halloc entry.resp) (Nat.le_succ _) (List.Subset.refl _) ?_
      intro hw hresp hstale hsf
      have hne := hw.cache entry hentry
      exact ⟨hw.alloc hne, .writing w.nextBuf rfl rfl (List.length_pos_iff.mpr hne) hstale hsf⟩
  | @large key path size hstat hsize =>
      refine .of_reading hst (hopen path) (.refl _ _) (Nat.le_refl _) (List.Subset.refl _) ?_
      intro hw hresp hstale hsf
      refine ⟨hw.of_eq rfl rfl rfl, .sendfile ⟨w.nextFd, path⟩ rfl hresp hstale rfl ?_⟩
      exact Nat.lt_of_le_of_lt (Nat.zero_le _) hsize
  | noMemory key path msg =>
      refine .of_refused hst hst ?_ (.refl _ _) (Nat.le_refl _) (List.subset_append_left _ _) ?_
      · exact (hopen path).trans (files_close (w.opened path) (some ⟨w.nextFd, path⟩))
      · intro hw hresp hstale hsf
        exact ⟨hw.of_eq rfl rfl rfl, hresp, hstale.mono (List.subset_append_left _ _), hsf⟩
  | noRead key path size msg =>
      -- opened, allocated, freed and closed; the descriptor stays in `file_fd`
      refine .of_refused hst hst ?_ ?_ (Nat.le_succ _) (List.subset_append_left _ _) ?_
      · exact (hopen path).trans (files_close (w.opened path) (some ⟨w.nextFd, path⟩))
      · exact (halloc (okHeader size ++ List.replicate size .junk)).trans
          (blocks_free _ (some w.nextBuf))
      · intro hw hresp hstale hsf
        refine ⟨(hw.alloc (hblock size)).of_eq rfl rfl rfl, rfl, ?_, hsf⟩
        rintro f ⟨⟩
        exact List.mem_append_right _ (List.mem_singleton_self _)
  | reading key path size =>
      refine .of_reading hst (hopen path) (halloc (okHeader size ++ List.replicate size .junk))
        (Nat.le_succ _) (List.Subset.refl _) ?_
      intro hw hresp hstale hsf
      refine ⟨(hw.alloc (hblock size)).of_eq rfl rfl rfl, .aio ⟨w.nextFd, path⟩ w.nextBuf rfl rfl
        (Nat.lt_succ_self _) rfl ?_ rfl hsf⟩
      exact Nat.add_pos_left (List.length_pos_iff.mpr (okHeader_ne_nil size)) size

theorem finishRead_files (e : HandleEnv) (c : Client) (w : World) :
    (finishRead e c w).2.files = (w.close c.fileFd).files := by
  unfold finishRead
  simp only
  split <;> rfl

theorem finishRead_blocks (e : HandleEnv) (c : Client) (w : World) :
    (finishRead e c w).2.blocks = w.blocks := by
  rw [← w.close_blocks c.fileFd]
  unfold finishRead
  simp only
  split <;> rfl

/-- The response of a waiting client is not empty. -/
theorem buffer_ne_nil {id : ℕ} (hw : Filled w) (hresp : c.resp = some id) (hid : id < w.nextBuf)
    (hsize : 0 < c.respSize) : c.buffer w ≠ [] := by
  have hlen := List.length_pos_iff.mpr (hw.blocks id hid)
  rw [Client.buffer, hresp]
  show (w.heap id).take c.respSize ≠ []
  rw [← List.length_pos_iff, List.length_take]
  omega

theorem checkAio_conserves (e : HandleEnv) (hst : c.state = .aio) :
    Conserves (c, w) (checkAio e c w) := by
  have hfiles : c.heldFiles = c.fileFd.toList.map Handle.num := by simp [Client.heldFiles, hst]
  have hblocks : c.heldBlocks = c.resp.toList := by simp [Client.heldBlocks, hst]
  unfold checkAio
  split
  · exact .refl _
  · refine ⟨?_, ?_, ?_, ?_, ?_⟩
    · show w.files.Moves c.heldFiles ((w.close c.fileFd).free c.resp).files []
      rw [hfiles, World.free_files]
      exact files_close w c.fileFd
    · show w.blocks.Moves c.heldBlocks ((w.close c.fileFd).free c.resp).blocks []
      rw [hblocks, ← w.close_blocks c.fileFd]
      exact blocks_free (w.close c.fileFd) c.resp
    · simp [failRead]
    · show w.closed ⊆ ((w.close c.fileFd).free c.resp).files.released
      rw [World.free_files]
      exact w.closed_subset_close c.fileFd
    · intro hw hc
      obtain ⟨f, id, hid, -, hresp, hsent, hsize, hsf⟩ := hc.of_aio hst
      exact ⟨hw.of_eq (by simp [failRead]) (by simp [failRead]) (by simp [failRead]),
        .reading rfl rfl (stale_of_none rfl) hsf⟩
  · refine ⟨?_, ?_, ?_, ?_, ?_⟩
    · show w.files.Moves c.heldFiles (finishRead e c w).2.files []
      rw [hfiles, finishRead_files]
      exact files_close w c.fileFd
    · show w.blocks.Moves c.heldBlocks (finishRead e c w).2.blocks c.resp.toList
      rw [hblocks, finishRead_blocks]
      exact .refl _ _
    · simp
    · show w.closed ⊆ (finishRead e c w).2.files.released
      rw [finishRead_files]
      exact w.closed_subset_close c.fileFd
    · intro hw hc
      obtain ⟨f, id, hid, -, hresp, hsent, hsize, hsf⟩ := hc.of_aio hst
      refine ⟨⟨fun entry hentry => ?_, ?_⟩, .writing id rfl hresp ?_ (stale_of_none rfl) hsf⟩
      · rcases mem_cache_finishRead hentry with hold | ⟨hbuf, -⟩
        · exact hw.cache entry hold
        · rw [hbuf]
          exact buffer_ne_nil hw hresp hid hsize
      · rw [finishRead_nextBuf, finishRead_heap]
        exact hw.blocks
      · exact hsent.trans_lt hsize

theorem advanceWrite_conserves {cells : List Cell} (hst : c.state = .writing)
    (hcells : cells <+: (c.buffer w).drop c.respSent) :
    Conserves (c, w) (advanceWrite cells c w) := by
  have hfiles : c.heldFiles = [] := by simp [Client.heldFiles, hst]
  have hblocks : c.heldBlocks = c.resp.toList := by simp [Client.heldBlocks, hst]
  have hclosed : w.closed ⊆ (w.free c.resp).closed := by
    show w.closed ⊆ (w.free c.resp).files.released
    rw [World.free_files]
    exact List.Subset.refl _
  unfold advanceWrite
  simp only
  split
  · refine ⟨?_, ?_, ?_, ?_, ?_⟩
    · show w.files.Moves c.heldFiles (w.free c.resp).files []
      rw [hfiles, World.free_files]
      exact .refl _ _
    · show w.blocks.Moves c.heldBlocks (w.free c.resp).blocks []
      rw [hblocks]
      exact blocks_free w c.resp
    · simp
    · exact hclosed
    · intro hw hc
      obtain ⟨id, hresp, hsent, hfile, hsf⟩ := hc.of_writing hst
      exact ⟨hw.of_eq (by simp) (by simp) (by simp), .reading rfl rfl (hfile.mono hclosed) hsf⟩
  · rename_i hmore
    have hlen : cells.length ≤ c.respSize - c.respSent := by
      have hle := hcells.length_le
      have hbuf := c.length_buffer_le w
      rw [List.length_drop] at hle
      omega
    refine ⟨.refl _ _, .refl _ _, Nat.le_refl _, List.Subset.refl _,
      fun hw (hc : Holding w c) => ⟨hw, ?_⟩⟩
    obtain ⟨id, hresp, hsent, hfile, hsf⟩ := hc.of_writing hst
    refine .writing id hst hresp ?_ hfile hsf
    show c.respSent + cells.length < c.respSize
    omega

theorem advanceSendfile_conserves (data : List Byte) (hst : c.state = .sendfile) :
    Conserves (c, w) (advanceSendfile data c w) := by
  have hfiles : c.heldFiles = c.sfFd.toList.map Handle.num := by simp [Client.heldFiles, hst]
  have hblocks : c.heldBlocks = [] := by simp [Client.heldBlocks, hst]
  unfold advanceSendfile
  simp only
  split
  · refine ⟨?_, ?_, ?_, w.closed_subset_close c.sfFd, ?_⟩
    · show w.files.Moves c.heldFiles (w.close c.sfFd).files []
      rw [hfiles]
      exact files_close w c.sfFd
    · show w.blocks.Moves c.heldBlocks (w.close c.sfFd).blocks []
      rw [hblocks, World.close_blocks]
      exact .refl _ _
    · simp
    · intro hw hc
      obtain ⟨f, hresp, hfile, hsf, hrem⟩ := hc.of_sendfile hst
      exact ⟨hw.of_eq (by simp) (by simp) (by simp),
        .reading rfl hresp (hfile.mono (w.closed_subset_close c.sfFd)) rfl⟩
  · rename_i hmore
    refine ⟨.refl _ _, .refl _ _, Nat.le_refl _, List.Subset.refl _, fun hw hc => ⟨hw, ?_⟩⟩
    obtain ⟨f, hresp, hfile, hsf, hrem⟩ := hc.of_sendfile hst
    exact .sendfile f hst hresp hfile hsf (Nat.pos_of_ne_zero hmore)

theorem conserves_body (root : DocRoot) (e : HandleEnv) (i : ℕ) : BodyRule root e i Conserves where
  refl := .refl
  trans := .trans
  input c w buf received := ⟨.refl _ _, .refl _ _, Nat.le_refl _, List.Subset.refl _,
    fun hw hc => ⟨hw, hc.congr rfl rfl rfl rfl rfl rfl rfl⟩⟩
  checkAio c w hst := checkAio_conserves e hst
  beginFileServe k c w line hst := by
    have hexit := beginFileServe_exit root (e.serves k) i (LineBuf.lineString true line)
      { c with requests := c.requests ++ [line] } w
    refine Conserves.trans ?_ (hexit.conserves hst)
    exact ⟨.refl _ _, .refl _ _, Nat.le_refl _, List.Subset.refl _,
      fun hw hc => ⟨hw, hc.congr rfl rfl rfl rfl rfl rfl rfl⟩⟩
  advanceWrite c w cells hst hcells := advanceWrite_conserves hst (nbWrite_isPrefix hcells)
  advanceSendfile c w data hst _ := advanceSendfile_conserves data hst

/-! ## Removing a client -/

/-- The wait for the read opens, closes, allocates and frees nothing. -/
theorem awaitAio_files {i : ℕ} {wait : WaitResult} (h : awaitAio i wait c w = some w') :
    w'.files = w.files ∧ w'.blocks = w.blocks ∧ (Filled w → Filled w') := by
  cases wait with
  | cancelled =>
      simp only [awaitAio] at h
      split at h
      · cases h
        exact ⟨rfl, rfl, fun hw => hw.of_eq rfl rfl rfl⟩
      · split at h
        · cases h
        · cases h
          exact ⟨rfl, rfl, id⟩
  | completed k result =>
      simp only [awaitAio] at h
      split at h
      · split at h
        · split at h
          · cases h
            exact ⟨by simp, by simp, fun hw => hw.complete _ _ _⟩
          · cases h
        · cases h
      · cases h
        exact ⟨rfl, rfl, id⟩

/-- **A removed client** leaves nothing behind. -/
theorem removeClient_releases {i : ℕ} {wait : WaitResult} (hc : Holding w c)
    (h : removeClient i wait c w = some w') :
    w.files.Moves c.heldFiles w'.files [] ∧ w.blocks.Moves c.heldBlocks w'.blocks [] ∧
      (Filled w → Filled w') ∧ w.nextBuf ≤ w'.nextBuf ∧ w.closed ⊆ w'.closed := by
  -- `close` and `free` after a wait that changes neither ledger
  have hrelease : ∀ (w₁ : World) f id, w₁.files = w.files → w₁.blocks = w.blocks →
      (Filled w → Filled w₁) → f.toList.map Handle.num = c.heldFiles → id.toList = c.heldBlocks →
      w' = (w₁.close f).free id →
      w.files.Moves c.heldFiles w'.files [] ∧ w.blocks.Moves c.heldBlocks w'.blocks [] ∧
        (Filled w → Filled w') ∧ w.nextBuf ≤ w'.nextBuf ∧ w.closed ⊆ w'.closed := by
    rintro w₁ f id hfiles hblocks hfilled hf hid rfl
    have hnext : w₁.nextBuf = w.nextBuf := congrArg Ledger.issued hblocks
    have hclosed : w₁.closed = w.closed := congrArg Ledger.released hfiles
    refine ⟨?_, ?_, ?_, ?_, ?_⟩
    · rw [← hf, ← hfiles, World.free_files]
      exact files_close w₁ f
    · rw [← hid, ← hblocks, ← w₁.close_blocks f]
      exact blocks_free (w₁.close f) id
    · exact fun hw => (hfilled hw).of_eq (by simp) (by simp) (by simp)
    · simp [hnext]
    · show w.closed ⊆ ((w₁.close f).free id).files.released
      rw [World.free_files, ← hclosed]
      exact w₁.closed_subset_close f
  unfold removeClient at h
  split at h
  · rename_i hst
    obtain ⟨w₁, hw₁, rfl⟩ := Option.map_eq_some_iff.mp h
    obtain ⟨hfiles, hblocks, hfilled⟩ := awaitAio_files hw₁
    exact hrelease w₁ c.fileFd c.resp hfiles hblocks hfilled (by simp [Client.heldFiles, hst])
      (by simp [Client.heldBlocks, hst]) rfl
  · rename_i hst
    cases h
    obtain ⟨f, hresp, -⟩ := hc.of_sendfile hst
    exact hrelease w c.sfFd c.resp rfl rfl id (by simp [Client.heldFiles, hst])
      (by simp [Client.heldBlocks, hst, hresp]) rfl
  · rename_i hst
    cases h
    exact hrelease w none c.resp rfl rfl id (by simp [Client.heldFiles, hst])
      (by simp [Client.heldBlocks, hst, (hc.of_reading hst).1]) rfl
  · rename_i hst
    cases h
    exact hrelease w none c.resp rfl rfl id (by simp [Client.heldFiles, hst])
      (by simp [Client.heldBlocks, hst]) rfl

end

/-! ## Runs -/

theorem Conserves.keeps {p q : Client × World} (h : Conserves p q) (i : ℕ) :
    Keeps Filled (fun w _ c => Holding w c) i p q :=
  fun hp => ⟨h.holding hp.1 hp.2, fun _ _ _ hd => hd.mono h.nextBuf h.closed⟩

theorem holding_body (root : DocRoot) (e : HandleEnv) (i : ℕ) :
    BodyRule root e i (Keeps Filled (fun w _ c => Holding w c) i) where
  refl := Keeps.refl
  trans := Keeps.trans
  input c w buf received := ((conserves_body root e i).input c w buf received).keeps i
  checkAio c w hst := ((conserves_body root e i).checkAio c w hst).keeps i
  beginFileServe k c w line hst := ((conserves_body root e i).beginFileServe k c w line hst).keeps i
  advanceWrite c w cells hst hcells :=
    ((conserves_body root e i).advanceWrite c w cells hst hcells).keeps i
  advanceSendfile c w data hst hdata :=
    ((conserves_body root e i).advanceSendfile c w data hst hdata).keeps i

/-- The invariant of all runs. -/
theorem holding_rule (root : DocRoot) :
    LocalRule root (fun _ _ => True) (fun _ => Filled) (fun w _ c => Holding w c)
      (fun _ => True) where
  init := ⟨nofun, nofun⟩
  connect _ w fd hw := ⟨hw, .reading rfl rfl (stale_of_none rfl) rfl⟩
  flags _ w running clear hw :=
    ⟨hw.of_eq rfl rfl rfl, fun _ _ hc => hc.mono (Nat.le_refl _) (List.Subset.refl _)⟩
  clear _ w hw := ⟨⟨nofun, hw.blocks⟩, fun _ _ hc => hc.mono (Nat.le_refl _) (List.Subset.refl _)⟩
  aioDone s k r result _ _ hw hc := by
    have hclosed : s.world.closed ⊆ (s.world.complete k r result).files.released := by
      rw [World.complete_files]
      exact List.Subset.refl _
    refine ⟨hw.complete k r result, fun i hi => ?_⟩
    have hc' := (hc i hi).mono (s.world.complete_nextBuf k r result).ge hclosed
    split
    · exact hc'.congr rfl rfl rfl rfl rfl rfl rfl
    · exact hc'
  body s e i _ _ := holding_body root e i
  remove s e i c w w' _ hw hc h := by
    obtain ⟨-, -, hfilled, hn, hclosed⟩ := removeClient_releases hc h
    exact ⟨⟨hfilled hw, .reading rfl rfl (stale_of_none rfl) rfl⟩, trivial,
      fun _ d _ hd => hd.mono hn hclosed⟩
  shrink s r k e w' _ _ _ hw _ hothers _ := ⟨hw, fun hk => hothers _ (by omega) (by omega)⟩

/-- Resources of which the ledger and the holdings of the clients are moved as `Conserves` says. -/
theorem owning_of_conserves (root : DocRoot) {ledger : World → Ledger} {held : Client → List ℕ}
    (hinit : ledger .init = ⟨0, []⟩) (hconnect : ∀ fd, held (.init fd) = [])
    (hturn : ∀ w, ledger (turn w) = ledger w)
    (hflags : ∀ w running clear,
      ledger { w with running := running, clearRequested := clear } = ledger w)
    (hcomplete : ∀ w k r result, ledger (World.complete w k r result) = ledger w)
    (hstatus : ∀ (c : Client) status, held { c with aio := status } = held c)
    (hbody : ∀ p q, Conserves p q → (ledger p.2).Moves (held p.1) (ledger q.2) (held q.1))
    (hremove : ∀ i wait c w w', Holding w c → removeClient i wait c w = some w' →
      (ledger w).Moves (held c) (ledger w') []) :
    (server root).Owning ledger held where
  init := hinit
  connect _ fd := hconnect fd
  turn := hturn
  async t w a t' w' h := by
    have h : event t w a = some (t', w') := h
    cases a with
    | sigint =>
        cases h
        exact ⟨hflags w false w.clearRequested, rfl, fun _ => rfl⟩
    | sigusr1 =>
        cases h
        exact ⟨hflags w w.running true, rfl, fun _ => rfl⟩
    | aioDone k result =>
        simp only [event] at h
        split at h
        · cases h
        · rename_i r hr
          cases h
          refine ⟨hcomplete w k r result, rfl, fun i => ?_⟩
          by_cases hi : i = r.slot
          · subst hi
            simpa [Table.set] using hstatus (t.slots r.slot) (World.status r result)
          · simp [Table.set, hi]
  keep s k rd wr e c' w' _ _ h := by
    have hstages := (conserves_body root e k).stages rd wr (s.table.slots k) s.world
    rw [stages_of_keep h] at hstages
    exact hbody _ _ hstages
  drop s k rd wr e c' w' hs hk h := by
    obtain ⟨tr, htr⟩ := hs
    have hholds := (holding_rule root).localInvariant.holds htr fun _ _ => trivial
    obtain ⟨w₁, hst, hrm⟩ := stages_of_drop h
    have hstages := (conserves_body root e k).stages rd wr (s.table.slots k) s.world
    rw [hst] at hstages
    have hc' : Holding w₁ c' := (hstages.holding hholds.world (hholds.client k hk)).2
    exact (hbody _ _ hstages).trans (hremove k e.wait c' w₁ w' hc' hrm)

theorem owning_files (root : DocRoot) : (server root).Owning World.files Client.heldFiles := by
  refine owning_of_conserves root rfl (fun _ => rfl) (fun w => ?_) (fun _ _ _ => rfl)
    World.complete_files (fun _ _ => rfl) (fun _ _ h => h.files) ?_
  · unfold turn
    split <;> rfl
  · exact fun i wait c w w' hc h => (removeClient_releases hc h).1

theorem owning_blocks (root : DocRoot) : (server root).Owning World.blocks Client.heldBlocks := by
  refine owning_of_conserves root rfl (fun _ => rfl) (fun w => ?_) (fun _ _ _ => rfl)
    World.complete_blocks (fun _ _ => rfl) (fun _ _ h => h.blocks) ?_
  · unfold turn
    split <;> rfl
  · exact fun i wait c w w' hc h => (removeClient_releases hc h).2.1

/-- What a client holds is what it owns and has not released. -/
theorem Holding.openFiles {w : World} {c : Client} (h : Holding w c)
    (hopen : ∀ n ∈ c.heldFiles, n ∉ w.closed) : c.openFiles w = c.heldFiles := by
  have hstale : Stale w c → (c.fileFd.toList.map Handle.num).filter (· ∉ w.closed) = [] := by
    intro hs
    cases hf : c.fileFd with
    | none => rfl
    | some f => simp [hs f hf]
  unfold Client.openFiles
  rw [List.map_append, List.filter_append]
  unfold Client.heldFiles at hopen ⊢
  cases h with
  | reading h hresp hfile hsf =>
      rw [hstale hfile, hsf, h]
      rfl
  | aio f id h hresp hid hsent hsize hfile hsf =>
      simp only [h, hfile] at hopen ⊢
      simpa [hsf] using hopen
  | writing id h hresp hsent hfile hsf =>
      rw [hstale hfile, hsf, h]
      rfl
  | sendfile f h hresp hfile hsf hrem =>
      simp only [h, hsf, hstale hfile] at hopen ⊢
      simpa using hopen

theorem Holding.resp {w : World} {c : Client} (h : Holding w c) : c.resp.toList = c.heldBlocks := by
  unfold Client.heldBlocks
  cases h with
  | reading h hresp hfile hsf => simp [h, hresp]
  | aio f id h hresp hid hsent hsize hfile hsf => simp [h]
  | writing id h hresp hsent hfile hsf => simp [h]
  | sendfile f h hresp hfile hsf hrem => simp [h, hresp]

end Osvcp.Servers.AioServer
