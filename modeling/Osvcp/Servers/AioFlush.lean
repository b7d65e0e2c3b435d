import Osvcp.Servers.AioBody

/-! # Flushes and reads in flight

A flush is to get rid of what was read before it. In `aio-file-server.c` the read of a file is
issued in one iteration of the loop and its result is cached by `check_aio` in a later one, with
nothing to tell `check_aio` that the cache was cleared in between: what was read before the flush is
cached after it, and answers requests until the next flush. `flushTakesEffect_of_no_read_in_flight`
shows that this is the only way it can happen.
-/

namespace Osvcp.Servers.AioServer

/-- A flush takes effect: the bytes of files in the cache, and those copied from it for a request,
come from reads issued after the last `cache_clear`. -/
structure FlushTakesEffect (s : State) : Prop where
  cache : ∀ entry ∈ s.world.cache, FilesFrom (·.flushes = s.world.flushes) entry.resp
  hit : ∀ key entry c, cacheLookup s.world.cache key = some entry →
    FilesFrom (·.flushes = s.world.flushes)
      ((serveCached entry c s.world).1.buffer (serveCached entry c s.world).2)

/-- `cache_clear` is only executed while no client waits for a read. -/
def ClearsWhenIdle (s : State) (a : Action) : Prop :=
  match a with
  | .turn => s.world.clearRequested = true → ∀ i < s.table.size, (s.table.slots i).state ≠ .aio
  | _ => True

/-- What is cached was read after the last flush, and reads go to buffers that are allocated. -/
structure CacheCurrent (w : World) : Prop where
  cache : ∀ entry ∈ w.cache, FilesFrom (·.flushes = w.flushes) entry.resp
  bufs : ∀ r ∈ w.pending, r.buf < w.nextBuf

/-- The response of a client holds, and will get, only bytes of reads issued after the last
flush. -/
structure RespCurrent (w : World) (c : Client) : Prop where
  bound : ∀ id, c.resp = some id → id < w.nextBuf
  heap : ∀ id, c.resp = some id → FilesFrom (·.flushes = w.flushes) (w.heap id)
  pending : ∀ id, c.resp = some id → ∀ r ∈ w.pending, r.buf = id → r.flushes = w.flushes

/-- This holds of a client that waits for a read. -/
def AwaitsCurrent (w : World) (c : Client) : Prop := c.state = .aio → RespCurrent w c

/-! ## One visit -/

section

variable (w : World) (f : Option Handle) (id : Option ℕ)

@[simp] theorem World.free_flushes : (w.free id).flushes = w.flushes := by cases id <;> rfl
@[simp] theorem World.close_flushes : (w.close f).flushes = w.flushes := by cases f <;> rfl

@[simp] theorem World.complete_flushes (k : ℕ) (r : AioRequest) (result : AioResult) :
    (w.complete k r result).flushes = w.flushes := by cases result <;> rfl

@[simp] theorem finishRead_flushes (e : HandleEnv) (c : Client) :
    (finishRead e c w).2.flushes = w.flushes := by
  unfold finishRead
  simp only
  split <;> simp

@[simp] theorem checkAio_flushes (e : HandleEnv) (c : Client) :
    (checkAio e c w).2.flushes = w.flushes := by
  unfold checkAio
  split
  · rfl
  · simp [failRead]
  · simp

@[simp] theorem advanceWrite_flushes (cells : List Cell) (c : Client) :
    (advanceWrite cells c w).2.flushes = w.flushes := by
  unfold advanceWrite
  simp only
  split <;> simp

@[simp] theorem advanceSendfile_flushes (data : List Byte) (c : Client) :
    (advanceSendfile data c w).2.flushes = w.flushes := by
  unfold advanceSendfile
  simp only
  split <;> simp

end

theorem Begun.flushes {root : DocRoot} {e : ServeEnv} {i : ℕ} {name : List Byte} {c : Client}
    {w : World} {p : Client × World} (h : Begun root e i name c w p) : p.2.flushes = w.flushes := by
  cases h with
  | refused h hq => exact hq.flushes
  | cached hne hrel hreal hacc hlook => rfl
  | sendfile hne hrel hreal hacc hstat hsize => rfl
  | aio hne hrel hreal hacc hstat hsize hmalloc haio =>
      rw [startRead_of_ok hmalloc haio]
      rfl

section

variable {root : DocRoot} {e : HandleEnv} {c : Client} {w w' : World}

theorem awaitsCurrent_of_ne (h : c.state ≠ .aio) : AwaitsCurrent w c := fun hst => absurd hst h

/-- Operations that leave the buffers of the others alone. -/
theorem RespCurrent.mono (h : RespCurrent w c) (hext : w.Extends w') (hf : w'.flushes = w.flushes) :
    RespCurrent w' c where
  bound id hid := Nat.lt_of_lt_of_le (h.bound id hid) hext.nextBuf
  heap id hid := by
    rw [hext.heap id (h.bound id hid), hf]
    exact h.heap id hid
  pending id hid r hr hbuf := by
    rw [hf]
    rcases hext.pending r hr with hold | hnew
    · exact h.pending id hid r hold hbuf
    · have := h.bound id hid
      omega

theorem AwaitsCurrent.mono (h : AwaitsCurrent w c) (hext : w.Extends w')
    (hf : w'.flushes = w.flushes) : AwaitsCurrent w' c := fun hst => (h hst).mono hext hf

/-- The cache stays as it is, and no read is started. -/
theorem CacheCurrent.mono (h : CacheCurrent w) (hcache : w'.cache = w.cache)
    (hp : ∀ r ∈ w'.pending, r ∈ w.pending) (hn : w.nextBuf ≤ w'.nextBuf)
    (hf : w'.flushes = w.flushes) : CacheCurrent w' where
  cache := by
    rw [hcache, hf]
    exact h.cache
  bufs r hr := Nat.lt_of_lt_of_le (h.bufs r (hp r hr)) hn

/-- A visit whose effects on the world are those on one client and on new buffers. -/
theorem keeps_current {i : ℕ} {p q : Client × World} (hext : p.2.Extends q.2)
    (hf : q.2.flushes = p.2.flushes)
    (h : CacheCurrent p.2 → AwaitsCurrent p.2 p.1 → CacheCurrent q.2 ∧ AwaitsCurrent q.2 q.1) :
    Keeps CacheCurrent (fun w _ c => AwaitsCurrent w c) i p q :=
  fun ⟨hw, hc⟩ => ⟨h hw hc, fun _ _ _ hd => hd.mono hext hf⟩

/-- `check_aio` caches what was read after the last flush. -/
theorem checkAio_current (e : HandleEnv) (hst : c.state = .aio) (hw : CacheCurrent w)
    (hc : AwaitsCurrent w c) :
    CacheCurrent (checkAio e c w).2 ∧ AwaitsCurrent (checkAio e c w).2 (checkAio e c w).1 := by
  unfold checkAio
  split
  · exact ⟨hw, hc⟩
  · refine ⟨hw.mono ?_ ?_ ?_ ?_, awaitsCurrent_of_ne (by rintro ⟨⟩)⟩ <;> simp [failRead]
  · refine ⟨⟨?_, ?_⟩, awaitsCurrent_of_ne (by rintro ⟨⟩)⟩
    · rw [finishRead_flushes]
      intro entry hentry
      rcases mem_cache_finishRead hentry with hold | ⟨hresp, -⟩
      · exact hw.cache entry hold
      · -- the response buffer of the waiting client
        rw [hresp, Client.buffer]
        split
        · rename_i id hid
          exact ((hc hst).heap id hid).subset (List.take_subset _ _)
        · exact filesFrom_nil
    · rw [finishRead_pending, finishRead_nextBuf]
      exact hw.bufs

theorem beginFileServe_current (e : ServeEnv) (i : ℕ) (name : List Byte) (hst : c.state = .reading)
    (hw : CacheCurrent w) :
    let p := beginFileServe root e i name c w
    CacheCurrent p.2 ∧ AwaitsCurrent p.2 p.1 := by
  have h := beginFileServe_begun root e i name c w
  generalize beginFileServe root e i name c w = p at h
  cases h with
  | refused h hq =>
      refine ⟨hw.mono hq.cache ?_ hq.nextBuf hq.flushes, awaitsCurrent_of_ne ?_⟩
      · exact fun r hr => hq.pending ▸ hr
      · have hstate := hq.state.trans hst
        exact fun h => absurd (hstate.symm.trans h) (by decide)
  | cached hne hrel hreal hacc hlook =>
      exact ⟨hw.mono rfl (fun _ hr => hr) (Nat.le_succ _) rfl, awaitsCurrent_of_ne (by rintro ⟨⟩)⟩
  | sendfile hne hrel hreal hacc hstat hsize =>
      exact ⟨hw.mono rfl (fun _ hr => hr) (Nat.le_refl _) rfl, awaitsCurrent_of_ne (by rintro ⟨⟩)⟩
  | @aio path size hne hrel hreal hacc hstat hsize hmalloc haio =>
      rw [startRead_of_ok hmalloc haio]
      have hlt : w.nextBuf < w.nextBuf + 1 := Nat.lt_succ_self _
      refine ⟨⟨hw.cache, ?_⟩, fun _ => ⟨?_, ?_, ?_⟩⟩
      · intro r hr
        rcases List.mem_append.mp hr with hr | hr
        · exact Nat.lt_succ_of_lt (hw.bufs r hr)
        · rw [List.mem_singleton.mp hr]
          exact hlt
      · rintro id ⟨⟩
        exact hlt
      · rintro id ⟨⟩ src b hb
        simp only [World.alloc, Function.update_self] at hb
        exact absurd rfl (okHeader_junk_not_file hb src b)
      · -- the buffer is new, so the only read that goes to it is the one just issued
        rintro id ⟨⟩ r hr hbuf
        rcases List.mem_append.mp hr with hr | hr
        · exact absurd hbuf (Nat.ne_of_lt (hw.bufs r hr))
        · rw [List.mem_singleton.mp hr]
          rfl

theorem flush_body (root : DocRoot) (e : HandleEnv) (i : ℕ) :
    BodyRule root e i (Keeps CacheCurrent (fun w _ c => AwaitsCurrent w c) i) where
  refl := Keeps.refl
  trans := Keeps.trans
  input c w buf received := Keeps.of_world_eq fun _ hc hst =>
    ⟨(hc hst).bound, (hc hst).heap, (hc hst).pending⟩
  checkAio c w hst := keeps_current (checkAio_extends e c w) (checkAio_flushes w e c)
    (checkAio_current e hst)
  beginFileServe k c w line hst := keeps_current (beginFileServe_begun ..).extends
    (beginFileServe_begun ..).flushes fun hw _ => beginFileServe_current _ _ _ hst hw
  advanceWrite c w cells hst _ := by
    refine keeps_current (advanceWrite_extends cells c w) (advanceWrite_flushes w cells c) ?_
    intro hw _
    have hne : (advanceWrite cells c w).1.state ≠ .aio := by
      unfold advanceWrite
      simp only
      split <;> simp [hst]
    refine ⟨hw.mono ?_ ?_ (advanceWrite_extends cells c w).nextBuf (by simp),
      awaitsCurrent_of_ne hne⟩
    · unfold advanceWrite
      simp only
      split <;> simp
    · simp
  advanceSendfile c w data hst _ := by
    refine keeps_current (advanceSendfile_extends data c w) (advanceSendfile_flushes w data c) ?_
    intro hw _
    have hne : (advanceSendfile data c w).1.state ≠ .aio := by
      unfold advanceSendfile
      simp only
      split <;> simp [hst]
    refine ⟨hw.mono ?_ ?_ (advanceSendfile_extends data c w).nextBuf (by simp),
      awaitsCurrent_of_ne hne⟩
    · unfold advanceSendfile
      simp only
      split <;> simp
    · simp

/-! ## Runs -/

/-- A read that ends stores bytes that carry the flush count of its issue. -/
theorem RespCurrent.complete (h : RespCurrent w c) {k : ℕ} {r : AioRequest}
    (hr : w.pending[k]? = some r) (result : AioResult) : RespCurrent (w.complete k r result) c where
  bound id hid := by
    rw [World.complete_nextBuf]
    exact h.bound id hid
  heap id hid := by
    rw [World.complete_flushes]
    cases result with
    | failed => exact h.heap id hid
    | delivered data =>
        by_cases hbuf : r.buf = id
        · subst hbuf
          have hcells : FilesFrom (·.flushes = w.flushes)
              (fileCells ⟨r.file.path, r.flushes⟩ (data.take r.nbytes)) :=
            filesFrom_fileCells (h.pending _ hid r (List.mem_of_getElem? hr) rfl) _
          simp only [World.complete, World.store, Function.update_self]
          exact (((h.heap _ hid).subset (List.take_subset _ _)).append hcells).append
            ((h.heap _ hid).subset (List.drop_subset _ _))
        · simp only [World.complete, World.store, Function.update_of_ne (Ne.symm hbuf)]
          exact h.heap id hid
  pending id hid q hq := by
    rw [World.complete_flushes]
    rw [World.complete_pending] at hq
    exact h.pending id hid q (List.mem_of_mem_eraseIdx hq)

theorem CacheCurrent.complete (h : CacheCurrent w) (k : ℕ) (r : AioRequest) (result : AioResult) :
    CacheCurrent (w.complete k r result) := by
  refine h.mono (by simp) (fun q hq => ?_) (by simp) (by simp)
  rw [World.complete_pending] at hq
  exact List.mem_of_mem_eraseIdx hq

theorem removeClient_current {i : ℕ} {wait : WaitResult} (hw : CacheCurrent w)
    (h : removeClient i wait c w = some w') :
    CacheCurrent w' ∧ ∀ d, AwaitsCurrent w d → AwaitsCurrent w' d := by
  obtain ⟨w₁, f, id, rfl, hw₁⟩ := removeClient_cases h
  have hrel := w₁.extends_release f id
  suffices hsuff : CacheCurrent w₁ ∧ ∀ d, AwaitsCurrent w d → AwaitsCurrent w₁ d by
    obtain ⟨hcur, hframe⟩ := hsuff
    exact ⟨hcur.mono (by simp) (by simp) hrel.nextBuf (by simp),
      fun d hd => (hframe d hd).mono hrel (by simp)⟩
  rcases hw₁ with ⟨rfl, -⟩ | ⟨k, r, hr, -, rfl | ⟨result, -, rfl⟩⟩
  · exact ⟨hw, fun _ hd => hd⟩
  · -- a cancelled read stores nothing
    exact ⟨hw.complete k r .failed, fun d hd hst => (hd hst).complete hr .failed⟩
  · exact ⟨hw.complete k r result, fun d hd hst => (hd hst).complete hr result⟩

end

/-- What all steps but a flush keep. -/
theorem flush_rule (root : DocRoot) :
    VisitRule root ClearsWhenIdle (fun _ => CacheCurrent) (fun w _ c => AwaitsCurrent w c)
      (fun _ => True) where
  init := ⟨fun _ h => absurd h List.not_mem_nil, fun _ h => absurd h List.not_mem_nil⟩
  connect _ _ _ hw := ⟨hw, awaitsCurrent_of_ne (by rintro ⟨⟩)⟩
  flags _ w running clear hw := by
    have hext : w.Extends { w with running := running, clearRequested := clear } :=
      .of_heap_eq rfl rfl fun _ hr => hr
    exact ⟨hw.mono rfl (fun _ hr => hr) (Nat.le_refl _) rfl, fun _ _ hc => hc.mono hext rfl⟩
  aioDone s k r result hr _ hw hc := by
    refine ⟨hw.complete k r result, fun i hi => ?_⟩
    have hc' : AwaitsCurrent (s.world.complete k r result) (s.table.slots i) :=
      fun hst => (hc i hi hst).complete hr result
    split
    · exact fun hst => ⟨(hc' hst).bound, (hc' hst).heap, (hc' hst).pending⟩
    · exact hc'
  body s e i _ _ := flush_body root e i
  remove s e i c w w' _ hw _ h := by
    obtain ⟨hw', hframe⟩ := removeClient_current hw h
    exact ⟨⟨hw', awaitsCurrent_of_ne (by rintro ⟨⟩)⟩, trivial, fun _ d _ hd => hframe d hd⟩
  shrink s r k e w' _ _ _ hw _ hothers _ := ⟨hw, fun hk => hothers _ (by omega) (by omega)⟩

/-- A flush while no client waits leaves nothing from before it. -/
theorem turn_current {s : State} (hw : CacheCurrent s.world)
    (hc : ∀ i < s.table.size, AwaitsCurrent s.world (s.table.slots i))
    (hok : ClearsWhenIdle s .turn) :
    CacheCurrent (turn s.world) ∧ ∀ i < s.table.size, AwaitsCurrent (turn s.world)
      (s.table.slots i) := by
  unfold turn
  split
  · rename_i hclear
    refine ⟨⟨fun _ h => absurd h List.not_mem_nil, hw.bufs⟩, fun i hi => ?_⟩
    exact awaitsCurrent_of_ne (hok hclear i hi)
  · exact ⟨hw, hc⟩

/-- **Flushes take effect** in every state of every run in which `cache_clear` is only executed
while no client waits for a read. -/
theorem flushTakesEffect_of_no_read_in_flight (root : DocRoot)
    {tr : List (State × Action)} {s : State} (h : (server root).lts.Exec tr s)
    (hok : ∀ p ∈ tr, ClearsWhenIdle p.1 p.2) :
    ∀ t ∈ LTS.visited tr s, FlushTakesEffect t := by
  intro t ht
  have hholds := (flush_rule root).still.still_holds_visited
    (fun s hs hok => turn_current hs.world hs.client hok) h hok t ht
  refine ⟨hholds.world.cache, ?_⟩
  intro key entry c hlook
  have hentry := hholds.world.cache entry (mem_of_cacheLookup hlook).1
  simp only [serveCached, Client.buffer, World.alloc, Function.update_self]
  exact hentry.subset (List.take_subset _ _)

/-- A client asks for the file, which holds one byte when it is read, and is sent the response. -/
def served (b : Byte) : List Action :=
  Example.round [5] [] [{ Example.idle with read := [97, LF] }] ++
    Example.round [] [] [Example.idle] ++
    [.async (.aioDone 0 (.delivered [b]))] ++ Example.round [] [] [Example.idle] ++
    Example.round [] [5] [{ Example.idle with write := .wrote 7 }]

/-- A response is cached, the signal comes, and the file, which has changed, is asked for again. -/
def refillRun : List Action :=
  Example.accept [5] 1 ++ served 104 ++ [.async .sigusr1] ++ served 105

/-- A flush of a filled cache, which is then filled with what has been read since. -/
theorem flushTakesEffect_of_no_read_in_flight_refillRun :
    ∃ tr s, (server Example.root).lts.Exec tr s ∧
      (∃ t ∈ LTS.visited tr s, t.world.flushes = 0 ∧ t.world.clearRequested = true ∧
        t.world.cache.map CacheEntry.resp =
          [okHeader 1 ++ fileCells ⟨Example.path.bytes, 0⟩ [104]]) ∧
      s.world.flushes = 1 ∧
      s.world.cache.map CacheEntry.resp = [okHeader 1 ++ fileCells ⟨Example.path.bytes, 1⟩ [105]] ∧
      ∀ t ∈ LTS.visited tr s, FlushTakesEffect t := by
  let M := (server Example.root).lts
  obtain ⟨s, hs, hcheck⟩ := LTS.exec_of_run_any M (server Example.root).start refillRun
    (fun s => s.world.flushes = 1 ∧ s.world.cache.map CacheEntry.resp =
      [okHeader 1 ++ fileCells ⟨Example.path.bytes, 1⟩ [105]]) rfl (by decide +kernel)
  obtain ⟨hflushes, hcache⟩ := of_decide_eq_true hcheck
  have hfilled : (M.trace (server Example.root).start refillRun).any
      (fun p => decide (p.1.world.flushes = 0 ∧ p.1.world.clearRequested = true ∧
        p.1.world.cache.map CacheEntry.resp =
        [okHeader 1 ++ fileCells ⟨Example.path.bytes, 0⟩ [104]])) =
      true := by decide +kernel
  obtain ⟨p, hp, hfull⟩ := List.any_eq_true.mp hfilled
  refine ⟨_, s, hs, ⟨p.1, LTS.mem_visited_of_mem hp, of_decide_eq_true hfull⟩, hflushes, hcache, ?_⟩
  refine flushTakesEffect_of_no_read_in_flight Example.root hs ?_
  have hsteps : (M.trace (server Example.root).start refillRun).all
      (fun p => match p.2 with
        | .turn => !p.1.world.clearRequested ||
            decide (∀ i < p.1.table.size, (p.1.table.slots i).state ≠ .aio)
        | _ => true) = true := by decide +kernel
  rintro ⟨t, a⟩ hp
  have hstep := List.all_eq_true.mp hsteps (t, a) hp
  cases a with
  | turn =>
      intro hclear
      have hclear : t.world.clearRequested = true := hclear
      simpa [hclear] using hstep
  | _ => trivial

/-- A client asks for the file, and the signal comes while it is read. -/
def flushRun : List Action :=
  Example.accept [5] 1 ++ Example.round [5] [] [{ Example.idle with read := [97, LF] }] ++
    [.async .sigusr1] ++ Example.round [] [] [Example.idle] ++
    [.async (.aioDone 0 (.delivered [104]))] ++ Example.round [] [] [Example.idle]

/-- **The defect.** After a flush during the read, the bytes that were read before it are cached. -/
theorem flushRun_not_flushTakesEffect :
    ∃ s, (server Example.root).lts.Exec ((server Example.root).lts.trace (server Example.root).start
      flushRun) s ∧ s.world.flushes = 1 ∧
      s.world.cache.map CacheEntry.resp = [okHeader 1 ++ fileCells ⟨Example.path.bytes, 0⟩ [104]] ∧
      ¬FlushTakesEffect s := by
  obtain ⟨s, hs, hcheck⟩ := LTS.exec_of_run_any (server Example.root).lts
    (server Example.root).start flushRun (fun s => s.world.flushes = 1 ∧
      s.world.cache.map CacheEntry.resp =
      [okHeader 1 ++ fileCells ⟨Example.path.bytes, 0⟩ [104]]) rfl (by decide +kernel)
  obtain ⟨hflushes, hcache⟩ := of_decide_eq_true hcheck
  refine ⟨s, hs, hflushes, hcache, fun h => ?_⟩
  obtain ⟨entry, hentry, hresp⟩ : ∃ entry ∈ s.world.cache, entry.resp =
      okHeader 1 ++ fileCells ⟨Example.path.bytes, 0⟩ [104] := by
    have hmem : okHeader 1 ++ fileCells ⟨Example.path.bytes, 0⟩ [104] ∈
        s.world.cache.map CacheEntry.resp := by
      rw [hcache]
      exact List.mem_singleton.mpr rfl
    exact List.mem_map.mp hmem
  have hfiles := h.cache entry hentry
  rw [hresp, hflushes] at hfiles
  have hzero := hfiles ⟨Example.path.bytes, 0⟩ 104 (by simp [fileCells])
  exact absurd hzero (by decide)

end Osvcp.Servers.AioServer
