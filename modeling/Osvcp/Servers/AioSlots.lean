import Osvcp.Servers.AioBody

/-! # Control blocks and the compaction of the client table

An `aio_read` is registered at the slot of its client. As long as no removal moves a client whose
read is outstanding, every outstanding read is registered at the slot in which its client sits, so
its completion reaches that client and no other. `remove_client` does not look at the client it
moves: a removal while the last client's read is in flight leaves the read registered at the old
slot. `slots_iff_no_move` says that this is the only way to lose the invariant.

A read and the client it belongs to are related by the response buffer, whose number is never used
again.
-/

namespace Osvcp.Servers.AioServer

/-! ## The property -/

/-- Every client in `STATE_AIO` sits in the slot at which its outstanding read was registered, and
while its control block is in progress it has one. -/
def SlotsMatch (s : State) : Prop :=
  ∀ i < s.table.size, (s.table.slots i).state = .aio →
    (∀ r ∈ s.world.pending, (s.table.slots i).resp = some r.buf → r.slot = i) ∧
    ((s.table.slots i).aio = .inProgress →
      ∃ r ∈ s.world.pending, (s.table.slots i).resp = some r.buf)

/-- A completion changes the AIO status of no client but the one whose read it is. -/
def CompletionsMatch (root : DocRoot) (s : State) : Prop :=
  ∀ k r result t, s.world.pending[k]? = some r →
    (server root).step s (.async (.aioDone k result)) = some t →
    ∀ j < s.table.size, (s.table.slots j).resp ≠ some r.buf →
      (t.table.slots j).aio = (s.table.slots j).aio

/-- The step calls `remove_client(k)`. -/
def CallsRemove (root : DocRoot) (s : State) (e : HandleEnv) (k : ℕ) : Prop :=
  ∃ r p, s.phase = .pass r (k + 1) ∧
    stages root e k (decide ((s.table.slots k).sock ∈ r.rd))
    (decide ((s.table.slots k).sock ∈ r.wr))
      (s.table.slots k) s.world = .error p

/-- The step removes a client other than the last one while the read of the last one is in
flight. -/
def MovesInFlight (root : DocRoot) (s : State) (a : Action) : Prop :=
  ∃ e k, a = .handle e ∧ CallsRemove root s e k ∧ k < s.table.size - 1 ∧
    (s.table.slots (s.table.size - 1)).state = .aio ∧
    (s.table.slots (s.table.size - 1)).aio = .inProgress

/-! ## The invariant -/

/-- The outstanding reads are registered at different slots in use. -/
structure Slots (n : ℕ) (w : World) : Prop where
  lt : ∀ r ∈ w.pending, r.slot < n
  bufs : ∀ r ∈ w.pending, r.buf < w.nextBuf
  distinct : w.pending.Pairwise fun r r' => r.slot ≠ r'.slot

/-- The read registered at a slot belongs to the client in it. -/
structure Registered (w : World) (i : ℕ) (c : Client) : Prop where
  bound : ∀ id, c.resp = some id → id < w.nextBuf
  busy : c.state = .aio → c.aio = .inProgress → ∃ r ∈ w.pending, r.slot = i ∧ c.resp = some r.buf
  owner : ∀ r ∈ w.pending, r.slot = i →
    c.state = .aio ∧ c.aio = .inProgress ∧ c.resp = some r.buf
  slot : ∀ r ∈ w.pending, c.resp = some r.buf → r.slot = i

section

variable {n i : ℕ} {c c' : Client} {w w' : World}

theorem Slots.of_pending_eq (h : Slots n w) (hp : w'.pending = w.pending)
    (hn : w.nextBuf ≤ w'.nextBuf) : Slots n w' :=
  ⟨hp ▸ h.lt, fun r hr => Nat.lt_of_lt_of_le (h.bufs r (hp ▸ hr)) hn, hp ▸ h.distinct⟩

theorem Registered.of_pending_eq (h : Registered w i c) (hp : w'.pending = w.pending)
    (hn : w.nextBuf ≤ w'.nextBuf) : Registered w' i c :=
  ⟨fun id hid => Nat.lt_of_lt_of_le (h.bound id hid) hn, hp ▸ h.busy, hp ▸ h.owner, hp ▸ h.slot⟩

/-- A client that waits for nothing occupies a slot where nothing is registered. -/
theorem Registered.idle (h : Registered w i c) (hc : ¬(c.state = .aio ∧ c.aio = .inProgress)) :
    ∀ r ∈ w.pending, r.slot ≠ i :=
  fun r hr hslot => hc ⟨(h.owner r hr hslot).1, (h.owner r hr hslot).2.1⟩

/-- Conversely such a slot can hold any client that waits for nothing and owns no registered
buffer. -/
theorem registered_of_idle (hidle : ∀ r ∈ w.pending, r.slot ≠ i)
    (hc : ¬(c.state = .aio ∧ c.aio = .inProgress))
    (hbound : ∀ id, c.resp = some id → id < w.nextBuf)
    (hbuf : ∀ r ∈ w.pending, c.resp ≠ some r.buf) : Registered w i c :=
  ⟨hbound, fun h₁ h₂ => absurd ⟨h₁, h₂⟩ hc, fun r hr hs => absurd hs (hidle r hr),
    fun r hr hresp => absurd hresp (hbuf r hr)⟩

/-- A client that stops waiting keeps its slot and its buffer, or gives the buffer up. -/
theorem Registered.settle (h : Registered w i c) (hc : ¬(c.state = .aio ∧ c.aio = .inProgress))
    (hp : w'.pending = w.pending) (hn : w.nextBuf ≤ w'.nextBuf)
    (hc' : c'.state ≠ .aio) (hresp : c'.resp = c.resp ∨ c'.resp = none) : Registered w' i c' := by
  have hidle := h.idle hc
  refine registered_of_idle (hp ▸ hidle) (fun h => hc' h.1) ?_ ?_
  · intro id hid
    rcases hresp with heq | heq
    · exact Nat.lt_of_lt_of_le (h.bound id (heq ▸ hid)) hn
    · rw [heq] at hid
      cases hid
  · intro r hr hid
    rw [hp] at hr
    rcases hresp with heq | heq
    · exact hidle r hr (h.slot r hr (heq ▸ hid))
    · rw [heq] at hid
      cases hid

theorem Slots.erase (h : Slots n w) (k : ℕ) (hp : w'.pending = w.pending.eraseIdx k)
    (hn : w'.nextBuf = w.nextBuf) : Slots n w' := by
  refine ⟨?_, ?_, ?_⟩
  · intro r hr
    rw [hp] at hr
    exact h.lt r (List.mem_of_mem_eraseIdx hr)
  · intro r hr
    rw [hp] at hr
    exact hn ▸ h.bufs r (List.mem_of_mem_eraseIdx hr)
  · rw [hp]
    exact h.distinct.sublist (List.eraseIdx_sublist _ _)

/-- The end of a read registered at another slot. -/
theorem Registered.erase (h : Registered w i c) {k : ℕ} {r : AioRequest}
    (hr : w.pending[k]? = some r) (hi : r.slot ≠ i) (hp : w'.pending = w.pending.eraseIdx k)
    (hn : w'.nextBuf = w.nextBuf) : Registered w' i c := by
  have hmem : ∀ r' ∈ w'.pending, r' ∈ w.pending := by
    intro r' hr'
    rw [hp] at hr'
    exact List.mem_of_mem_eraseIdx hr'
  refine ⟨hn ▸ h.bound, ?_, fun r' hr' => h.owner r' (hmem r' hr'),
    fun r' hr' => h.slot r' (hmem r' hr')⟩
  intro h₁ h₂
  obtain ⟨r', hr', hslot, hresp⟩ := h.busy h₁ h₂
  refine ⟨r', ?_, hslot, hresp⟩
  obtain ⟨j, hj⟩ := List.mem_iff_getElem?.mp hr'
  rw [hp]
  refine List.mem_eraseIdx_iff_getElem?.mpr ⟨j, ?_, hj⟩
  rintro rfl
  rw [hr] at hj
  cases hj
  exact hi hslot

/-- The end of the read registered at the slot itself. -/
theorem Registered.erase_self (h : Registered w i c) (hs : Slots n w) {k : ℕ} {r : AioRequest}
    (hr : w.pending[k]? = some r) (hi : r.slot = i) (hp : w'.pending = w.pending.eraseIdx k)
    (hn : w'.nextBuf = w.nextBuf) (hc' : ¬(c'.state = .aio ∧ c'.aio = .inProgress))
    (hresp : c'.resp = c.resp ∨ c'.resp = none) : Registered w' i c' := by
  have hidle : ∀ r' ∈ w'.pending, r'.slot ≠ i := by
    intro r' hr'
    rw [hp] at hr'
    exact hi ▸ ne_of_mem_eraseIdx hs.distinct hr hr'
  refine registered_of_idle hidle hc' ?_ ?_
  · intro id hid
    rcases hresp with heq | heq
    · exact hn ▸ h.bound id (heq ▸ hid)
    · rw [heq] at hid
      cases hid
  · intro r' hr' hid
    rcases hresp with heq | heq
    · have hmem : r' ∈ w.pending := by
        rw [hp] at hr'
        exact List.mem_of_mem_eraseIdx hr'
      exact hidle r' hr' (h.slot r' hmem (heq ▸ hid))
    · rw [heq] at hid
      cases hid

/-- A read into a new buffer, at a slot where none is registered. -/
theorem Slots.append (h : Slots n w) {r : AioRequest} (hi : r.slot < n) (hbuf : r.buf = w.nextBuf)
    (hidle : ∀ r' ∈ w.pending, r'.slot ≠ r.slot) (hp : w'.pending = w.pending ++ [r])
    (hn : w'.nextBuf = w.nextBuf + 1) : Slots n w' := by
  refine ⟨?lt, ?bufs, ?distinct⟩
  case lt =>
    intro r' hr'
    rw [hp, List.mem_append, List.mem_singleton] at hr'
    rcases hr' with hr' | rfl
    · exact h.lt r' hr'
    · exact hi
  case bufs =>
    intro r' hr'
    rw [hp, List.mem_append, List.mem_singleton] at hr'
    rw [hn]
    rcases hr' with hr' | rfl
    · exact Nat.lt_succ_of_lt (h.bufs r' hr')
    · exact hbuf ▸ Nat.lt_succ_self _
  case distinct =>
    rw [hp, List.pairwise_append]
    refine ⟨h.distinct, List.pairwise_singleton _ _, fun r' hr' r'' hr'' => ?_⟩
    rw [List.mem_singleton] at hr''
    rw [hr'']
    exact hidle r' hr'

/-- The client that waits for the new read. -/
theorem Slots.registered_append (h : Slots n w) {r : AioRequest}
    (hidle : ∀ r' ∈ w.pending, r'.slot ≠ i) (hi : r.slot = i) (hbuf : r.buf = w.nextBuf)
    (hp : w'.pending = w.pending ++ [r]) (hn : w'.nextBuf = w.nextBuf + 1) (hst : c'.state = .aio)
    (haio : c'.aio = .inProgress) (hresp : c'.resp = some w.nextBuf) : Registered w' i c' := by
  refine ⟨?bound, ?busy, ?owner, ?slot⟩
  case bound =>
    intro id hid
    rw [hresp, Option.some_inj] at hid
    exact hid ▸ hn ▸ Nat.lt_succ_self _
  case busy =>
    intro _ _
    refine ⟨r, ?_, hi, hbuf ▸ hresp⟩
    rw [hp]
    exact List.mem_append_right _ (List.mem_singleton.mpr rfl)
  case owner =>
    intro r' hr' hslot
    rw [hp, List.mem_append, List.mem_singleton] at hr'
    rcases hr' with hr' | rfl
    · exact absurd hslot (hidle r' hr')
    · exact ⟨hst, haio, hbuf ▸ hresp⟩
  case slot =>
    intro r' hr' hid
    rw [hp, List.mem_append, List.mem_singleton] at hr'
    rcases hr' with hr' | rfl
    · -- the buffer of an older read has a smaller number
      rw [hresp, Option.some_inj] at hid
      exact absurd (h.bufs r' hr') (hid ▸ Nat.lt_irrefl _)
    · exact hi

/-- The start of a read at another slot. -/
theorem Registered.append (h : Registered w i c) {r : AioRequest} (hbuf : r.buf = w.nextBuf)
    (hi : r.slot ≠ i) (hp : w'.pending = w.pending ++ [r]) (hn : w'.nextBuf = w.nextBuf + 1) :
    Registered w' i c := by
  refine ⟨fun id hid => hn ▸ Nat.lt_succ_of_lt (h.bound id hid), ?busy, ?owner, ?slot⟩
  case busy =>
    intro h₁ h₂
    obtain ⟨r', hr', hslot, hresp⟩ := h.busy h₁ h₂
    refine ⟨r', ?_, hslot, hresp⟩
    rw [hp]
    exact List.mem_append_left _ hr'
  case owner =>
    intro r' hr' hslot
    rw [hp, List.mem_append, List.mem_singleton] at hr'
    rcases hr' with hr' | rfl
    · exact h.owner r' hr' hslot
    · exact absurd hslot hi
  case slot =>
    intro r' hr' hid
    rw [hp, List.mem_append, List.mem_singleton] at hr'
    rcases hr' with hr' | rfl
    · exact h.slot r' hr' hid
    · -- the new buffer is not one that a client already has
      rw [hbuf] at hid
      exact absurd (h.bound _ hid) (Nat.lt_irrefl _)

end

/-! ## The operations of the body -/

section

variable {n i : ℕ} {c : Client} {w : World}

theorem checkAio_slots (hs : Slots n w) (hc : Registered w i c) (e : HandleEnv) :
    Slots n (checkAio e c w).2 ∧ Registered (checkAio e c w).2 i (checkAio e c w).1 ∧
      (checkAio e c w).2.pending = w.pending ∧ (checkAio e c w).2.nextBuf = w.nextBuf := by
  unfold checkAio
  split
  · exact ⟨hs, hc, rfl, rfl⟩
  · rename_i hfailed
    have hidle : ¬(c.state = .aio ∧ c.aio = .inProgress) := by simp [hfailed]
    have hp : ((w.close c.fileFd).free c.resp).pending = w.pending := by simp
    have hn : ((w.close c.fileFd).free c.resp).nextBuf = w.nextBuf := by simp
    exact ⟨hs.of_pending_eq hp hn.ge, hc.settle hidle hp hn.ge nofun (.inr rfl), hp, hn⟩
  · rename_i m hdone
    have hidle : ¬(c.state = .aio ∧ c.aio = .inProgress) := by simp [hdone]
    have hp := finishRead_pending e c w
    have hn := finishRead_nextBuf e c w
    exact ⟨hs.of_pending_eq hp hn.ge, hc.settle hidle hp hn.ge nofun (.inl rfl), hp, hn⟩

/-- The start of a read registers it at the slot of its client, where nothing was registered. -/
theorem startRead_slots {e : ServeEnv} (hs : Slots n w) (hc : Registered w i c) (hi : i < n)
    (hst : c.state = .reading) (hmalloc : e.malloc = true) (haio : e.aioRead = true) (f : Handle)
    (size : ℕ) :
    let p := startRead e i f size c w
    (Slots n p.2 ∧ Registered p.2 i p.1) ∧
      ∀ j d, j ≠ i → Registered w j d → Registered p.2 j d := by
  intro p
  have hp : p = startRead e i f size c w := rfl
  rw [startRead_of_ok hmalloc haio] at hp
  have hidle := hc.idle (by simp [hst])
  have hnext : p.2.nextBuf = w.nextBuf + 1 := by rw [hp]; rfl
  have hpending : p.2.pending = w.pending ++
      [⟨i, w.nextBuf, (okHeader size).length, size, f, w.flushes⟩] := by rw [hp]
  refine ⟨⟨hs.append hi rfl hidle hpending hnext, ?_⟩, ?_⟩
  · exact hs.registered_append hidle rfl rfl hpending hnext (by rw [hp]) (by rw [hp]) (by rw [hp])
  · intro j d hj hd
    exact hd.append rfl (fun h => hj h.symm) hpending hnext

theorem beginFileServe_slots {root : DocRoot} (hi : i < n) (hst : c.state = .reading)
    (e : ServeEnv) (name : List Byte) :
    Keeps (Slots n) Registered i (c, w) (beginFileServe root e i name c w) := by
  rintro ⟨hs, hc⟩
  have hidle : ¬(c.state = .aio ∧ c.aio = .inProgress) := by simp [hst]
  have hkey : ∀ path, Registered (w.opened path) i { c with cacheKey := strncpyPath path } :=
    fun path => ⟨hc.bound, hc.busy, hc.owner, hc.slot⟩
  have hbegun := beginFileServe_begun root e i name c w
  generalize beginFileServe root e i name c w = p at hbegun ⊢
  cases hbegun with
  | @refused reason q h hq =>
      have hframe : ∀ j d, j ≠ i → Registered w j d → Registered q.2 j d :=
        fun j d _ hd => hd.of_pending_eq hq.pending hq.nextBuf
      refine ⟨⟨hs.of_pending_eq hq.pending hq.nextBuf, ?_⟩, hframe⟩
      apply hc.settle hidle hq.pending hq.nextBuf
      · show q.1.state ≠ .aio
        rw [hq.state, hst]
        nofun
      · exact hq.resp
  | @cached path entry hne hrel hreal hacc hlook =>
      have hn : w.nextBuf ≤ (w.alloc entry.resp).nextBuf := Nat.le_succ _
      refine ⟨⟨hs.of_pending_eq rfl hn, ?_⟩, fun j d _ hd => hd.of_pending_eq rfl hn⟩
      -- the copy is in a new buffer, into which no read was started
      refine registered_of_idle (hc.idle hidle) (fun h => by cases h.1) ?_ ?_
      · intro id hid
        cases hid
        exact Nat.lt_succ_self _
      · intro r hr hbuf
        have hbuf : w.nextBuf = r.buf := Option.some_inj.mp hbuf
        exact Nat.lt_irrefl _ (hbuf ▸ hs.bufs r hr)
  | @sendfile path size hne hrel hreal hacc hstat hsize =>
      refine ⟨⟨hs.of_pending_eq rfl (Nat.le_refl _), ?_⟩,
        fun j d _ hd => hd.of_pending_eq rfl (Nat.le_refl _)⟩
      exact hc.settle hidle rfl (Nat.le_refl _) nofun (.inl rfl)
  | @aio path size hne hrel hreal hacc hstat hsize hmalloc haio =>
      have hs' : Slots n (w.opened path.bytes) := ⟨hs.lt, hs.bufs, hs.distinct⟩
      obtain ⟨hown, hframe⟩ := startRead_slots hs' (hkey path.bytes) hi hst hmalloc haio
        ⟨w.nextFd, path.bytes⟩ size
      exact ⟨hown, fun j d hj hd => hframe j d hj ⟨hd.bound, hd.busy, hd.owner, hd.slot⟩⟩

theorem slots_body (root : DocRoot) (e : HandleEnv) (hi : i < n) :
    BodyRule root e i (Keeps (Slots n) Registered i) where
  refl := Keeps.refl
  trans := Keeps.trans
  input c w buf received := Keeps.of_world_eq fun _ hc => ⟨hc.bound, hc.busy, hc.owner, hc.slot⟩
  checkAio c w _ := by
    rintro ⟨hs, hc⟩
    obtain ⟨hs', hc', hp, hn⟩ := checkAio_slots hs hc e
    exact ⟨⟨hs', hc'⟩, fun j d _ hd => hd.of_pending_eq hp hn.ge⟩
  beginFileServe k c w line hst := by
    rintro ⟨hs, hc⟩
    have hc' : Registered w i { c with requests := c.requests ++ [line] } :=
      ⟨hc.bound, hc.busy, hc.owner, hc.slot⟩
    exact beginFileServe_slots (c := { c with requests := c.requests ++ [line] }) hi hst
      (e.serves k) _ ⟨hs, hc'⟩
  advanceWrite c w cells hst _ := by
    rintro ⟨hs, hc⟩
    have hidle : ¬(c.state = .aio ∧ c.aio = .inProgress) := by simp [hst]
    unfold AioServer.advanceWrite
    simp only
    split
    · have hp : (w.free c.resp).pending = w.pending := by simp
      have hn : (w.free c.resp).nextBuf = w.nextBuf := by simp
      exact ⟨⟨hs.of_pending_eq hp hn.ge, hc.settle hidle hp hn.ge nofun (.inr rfl)⟩,
        fun j d _ hd => hd.of_pending_eq hp hn.ge⟩
    · refine ⟨⟨hs, hc.settle hidle rfl (Nat.le_refl _) ?_ (.inl rfl)⟩, fun j d _ hd => hd⟩
      show c.state ≠ .aio
      rw [hst]
      nofun
  advanceSendfile c w data hst _ := by
    rintro ⟨hs, hc⟩
    have hidle : ¬(c.state = .aio ∧ c.aio = .inProgress) := by simp [hst]
    unfold AioServer.advanceSendfile
    simp only
    split
    · have hp : (w.close c.sfFd).pending = w.pending := by simp
      have hn : (w.close c.sfFd).nextBuf = w.nextBuf := by simp
      exact ⟨⟨hs.of_pending_eq hp hn.ge, hc.settle hidle hp hn.ge nofun (.inl rfl)⟩,
        fun j d _ hd => hd.of_pending_eq hp hn.ge⟩
    · refine ⟨⟨hs, hc.settle hidle rfl (Nat.le_refl _) ?_ (.inl rfl)⟩, fun j d _ hd => hd⟩
      show c.state ≠ .aio
      rw [hst]
      nofun

end

/-! ## Runs -/

theorem status_ne_inProgress (r : AioRequest) (result : AioResult) :
    World.status r result ≠ .inProgress := by
  cases result <;> nofun

theorem removeClient_slots {n i : ℕ} {wait : WaitResult} {c : Client} {w w' : World}
    (hs : Slots n w) (hc : Registered w i c) (h : removeClient i wait c w = some w') :
    (Slots n w' ∧ Registered w' i (.init 0)) ∧ ∀ j d, j ≠ i → Registered w j d →
    Registered w' j d := by
  obtain ⟨w₁, f, id, rfl, hw₁⟩ := removeClient_cases h
  have hp : ((w₁.close f).free id).pending = w₁.pending := by simp
  have hn : ((w₁.close f).free id).nextBuf = w₁.nextBuf := by simp
  suffices hsuff : (Slots n w₁ ∧ Registered w₁ i (.init 0)) ∧
      ∀ j d, j ≠ i → Registered w j d → Registered w₁ j d by
    obtain ⟨⟨hs₁, hc₁⟩, hframe⟩ := hsuff
    exact ⟨⟨hs₁.of_pending_eq hp hn.ge, hc₁.of_pending_eq hp hn.ge⟩,
      fun j d hj hd => (hframe j d hj hd).of_pending_eq hp hn.ge⟩
  rcases hw₁ with ⟨rfl, hidle⟩ | ⟨k, r, hr, hslot, hw₁⟩
  · exact ⟨⟨hs, hc.settle hidle rfl (Nat.le_refl _) nofun (.inr rfl)⟩, fun _ _ _ hd => hd⟩
  · have hp₁ : w₁.pending = w.pending.eraseIdx k := by
      rcases hw₁ with rfl | ⟨result, -, rfl⟩
      · rfl
      · simp
    have hn₁ : w₁.nextBuf = w.nextBuf := by
      rcases hw₁ with rfl | ⟨result, -, rfl⟩
      · rfl
      · simp
    refine ⟨⟨hs.erase k hp₁ hn₁, ?_⟩, fun j d hj hd => ?_⟩
    · exact hc.erase_self hs hr hslot hp₁ hn₁ nofun (.inr rfl)
    · exact hd.erase hr (hslot ▸ hj.symm) hp₁ hn₁

/-- The invariant of the runs in which no client is moved while its read is in flight. -/
theorem slots_rule (root : DocRoot) :
    LocalRule root (fun s a => ¬MovesInFlight root s a) Slots Registered (fun _ => True) where
  init := ⟨nofun, nofun, .nil⟩
  connect n w fd hs := by
    refine ⟨⟨fun r hr => Nat.lt_succ_of_lt (hs.lt r hr), hs.bufs, hs.distinct⟩, ?_⟩
    -- the reads are registered at slots in use, and the new client gets the next one
    exact registered_of_idle (fun r hr => Nat.ne_of_lt (hs.lt r hr)) nofun nofun nofun
  flags _ _ _ _ hs :=
    ⟨⟨hs.lt, hs.bufs, hs.distinct⟩, fun _ _ hc => ⟨hc.bound, hc.busy, hc.owner, hc.slot⟩⟩
  clear _ _ hs :=
    ⟨⟨hs.lt, hs.bufs, hs.distinct⟩, fun _ _ hc => ⟨hc.bound, hc.busy, hc.owner, hc.slot⟩⟩
  aioDone s k r result hr _ hs hc := by
    have hp := World.complete_pending s.world k r result
    have hn := World.complete_nextBuf s.world k r result
    refine ⟨hs.erase k hp hn, fun i hi => ?_⟩
    split
    · rename_i his
      exact (hc i hi).erase_self hs hr his.symm hp hn
        (fun h => status_ne_inProgress r result h.2) (.inl rfl)
    · rename_i his
      exact (hc i hi).erase hr (fun h => his h.symm) hp hn
  body s e i _ hi := slots_body root e hi
  remove s e i c w w' _ hs hc h := by
    obtain ⟨hown, hframe⟩ := removeClient_slots hs hc h
    exact ⟨hown, trivial, hframe⟩
  shrink s r k e w' hp hk hok hs hfree hothers hdrop := by
    have hnotk : ∀ r ∈ w'.pending, r.slot ≠ k := hfree.idle nofun
    by_cases hlast : k < s.table.size - 1
    · have hQ := hothers (s.table.size - 1) (by omega) (by omega)
      -- the client that moves into the slot is not waiting for a read
      have hidle : ¬((s.table.slots (s.table.size - 1)).state = .aio ∧
          (s.table.slots (s.table.size - 1)).aio = .inProgress) := by
        intro hbusy
        obtain ⟨c', hdrop⟩ := hdrop
        obtain ⟨w₁, hst, -⟩ := stages_of_drop hdrop
        exact hok ⟨e, k, rfl, ⟨r, _, hp, hst⟩, hlast, hbusy⟩
      have hnotlast := hQ.idle hidle
      refine ⟨⟨fun r hr => ?_, hs.bufs, hs.distinct⟩, fun _ => ?_⟩
      · have := hs.lt r hr
        have := hnotlast r hr
        omega
      · refine registered_of_idle hnotk hidle hQ.bound ?_
        intro r hr hbuf
        exact hnotlast r hr (hQ.slot r hr hbuf)
    · refine ⟨⟨fun r hr => ?_, hs.bufs, hs.distinct⟩, fun h => absurd h hlast⟩
      have := hs.lt r hr
      have := hnotk r hr
      omega

/-- The invariant gives the property. -/
theorem slotsMatch_of_holds {root : DocRoot} {s : State}
    (h : SelectServer.Holds Slots Registered (fun _ => True) s) :
    SlotsMatch s ∧ CompletionsMatch root s := by
  constructor
  · intro i hi hst
    refine ⟨(h.client i hi).slot, fun haio => ?_⟩
    obtain ⟨r, hr, -, hresp⟩ := (h.client i hi).busy hst haio
    exact ⟨r, hr, hresp⟩
  · intro k r result t hr hstep j hj hne
    have hjr : j ≠ r.slot := by
      rintro rfl
      exact hne ((h.client _ hj).owner r (List.mem_of_getElem? hr) rfl).2.2
    have ht : t.table = s.table.set r.slot
        { s.table.slots r.slot with aio := World.status r result } := by
      simp only [SelectServer.step, server, event, hr, Option.map_some, Option.some_inj] at hstep
      rw [← hstep]
    rw [ht]
    simp [Table.set, hjr]

/-- The removal of a client leaves the reads of the others registered. -/
theorem handle_drop_slots {root : DocRoot} {n k : ℕ} {readable writable : Bool} {c c' : Client}
    {w w' : World} {e : HandleEnv} (hs : Slots n w) (hc : Registered w k c) (hk : k < n)
    (h : handle root k readable writable c w e = some (.drop c' w')) :
    ∀ j d, j ≠ k → Registered w j d → Registered w' j d := by
  obtain ⟨w₁, hst, hrm⟩ := stages_of_drop h
  have hbody := (slots_body root e hk).stages readable writable c w ⟨hs, hc⟩
  rw [hst] at hbody
  obtain ⟨⟨hs₁, hc₁⟩, hframe₁⟩ := hbody
  obtain ⟨-, hframe₂⟩ := removeClient_slots hs₁ hc₁ hrm
  exact fun j d hj hd => hframe₂ j d hj (hframe₁ j d hj hd)

/-- **A moved read is lost**: after a removal that moves a client whose read is in flight, the
client sits in another slot than the one the read is registered at. -/
theorem not_slotsMatch_of_moves {root : DocRoot} {s t : State} {a : Action}
    (hs : SelectServer.Holds Slots Registered (fun _ => True) s) (hm : MovesInFlight root s a)
    (hstep : (server root).step s a = some t) : ¬SlotsMatch t := by
  obtain ⟨e, k, rfl, ⟨r, p, hp, herr⟩, hlast, hst, haio⟩ := hm
  have hk : k < s.table.size := by omega
  cases SelectServer.step_cases hstep with
  | @keep e r' k' c' w' hp' hh =>
      -- the step removes the client, it does not keep it
      obtain ⟨rfl, rfl⟩ : r = r' ∧ k = k' := by
        have := hp.symm.trans hp'
        cases this
        exact ⟨rfl, rfl⟩
      cases herr.symm.trans (stages_of_keep hh)
  | @drop e r' k' c' w' hp' hh =>
      obtain ⟨rfl, rfl⟩ : r = r' ∧ k = k' := by
        have := hp.symm.trans hp'
        cases this
        exact ⟨rfl, rfl⟩
      have hframe := handle_drop_slots hs.world (hs.client k hk) hk hh
      -- the read stays registered at the last slot, while its client now sits in slot `k`
      have hmoved := hframe _ _ (by omega) (hs.client (s.table.size - 1) (by omega))
      obtain ⟨q, hq, hslot, hresp⟩ := hmoved.busy hst haio
      intro hmatch
      have hnew : (s.table.swapRemove k).slots k = s.table.slots (s.table.size - 1) := by
        simp [Table.swapRemove]
      have hk' := hmatch k hlast
      simp only [hnew] at hk'
      have := (hk' hst).1 q hq hresp
      omega

/-- Before the first removal nothing is moved. -/
theorem not_moves_of_gone_nil {root : DocRoot} {tr : List (State × Action)} {s : State}
    (h : (server root).lts.Exec tr s) (hgone : s.gone = []) :
    ∀ p ∈ tr, ¬MovesInFlight root p.1 p.2 := by
  rintro ⟨s₁, a⟩ hp ⟨e, k, rfl, ⟨r, q, hphase, herr⟩, -⟩
  obtain ⟨t, hstep, ht⟩ := h.step_of_mem hp
  have hnil : t.gone = [] := by
    have hpre := SelectServer.gone_of_mem_visited h ht
    rw [hgone] at hpre
    exact List.prefix_nil.mp hpre
  cases SelectServer.step_cases hstep with
  | @keep e r' k' c' w' hphase' hh =>
      cases hphase.symm.trans hphase'
      cases herr.symm.trans (stages_of_keep hh)
  | @drop e r' k' c' w' hphase' hh => simp at hnil

/-- **When control blocks and clients stay together.** In every run, every state reached has each
client in `STATE_AIO` in the slot of its outstanding read and lets completions change no other
client's status, if and only if no step of the run removes a client other than the last one while
the read of the last one is in flight. -/
theorem slots_iff_no_move (root : DocRoot) {tr : List (State × Action)} {s : State}
    (h : (server root).lts.Exec tr s) :
    (∀ t ∈ LTS.visited tr s, SlotsMatch t ∧ CompletionsMatch root t) ↔
      ∀ p ∈ tr, ¬MovesInFlight root p.1 p.2 := by
  constructor
  · intro hall
    induction h with
    | start hinit =>
        intro p hp
        exact absurd hp List.not_mem_nil
    | @snoc tr s t a hexec hstep ih =>
        have hprefix : ∀ p ∈ tr, ¬MovesInFlight root p.1 p.2 := by
          apply ih
          intro t' ht'
          apply hall
          simp only [LTS.visited, List.map_append, List.map_cons, List.map_nil,
            List.mem_append] at ht' ⊢
          exact .inl ht'
        intro p hp
        rcases List.mem_append.mp hp with hp | hp
        · exact hprefix p hp
        · rw [List.mem_singleton] at hp
          subst hp
          intro hmoves
          -- nothing was moved before this step, so the invariant holds where it starts
          have hholds := (slots_rule root).localInvariant.holds hexec hprefix
          exact not_slotsMatch_of_moves hholds hmoves hstep (hall t (LTS.last_mem_visited _ _)).1
  · intro hok t ht
    exact slotsMatch_of_holds ((slots_rule root).localInvariant.holds_visited h hok t ht)

/-- Two clients, of which the second one has a read in flight when the first one disconnects; a
third client is then accepted. -/
def movedRun : List Action :=
  Example.accept [5, 6] 2 ++
    Example.round [6] [] [{ Example.idle with read := [97, LF] }, Example.idle] ++
    Example.round [5] [] [Example.idle, Example.idle] ++ Example.accept [7] 2

/-- **The defect.** The client whose read was registered at slot 1 waits in slot 0, and the
completion of its read changes the status of the client that is now in slot 1. -/
theorem movedRun_not_slotsMatch :
    ∃ s, (server Example.root).lts.Exec ((server Example.root).lts.trace (server Example.root).start
      movedRun) s ∧ ¬SlotsMatch s ∧ ¬CompletionsMatch Example.root s := by
  obtain ⟨s, hs, hcheck⟩ := LTS.exec_of_run_any (server Example.root).lts
    (server Example.root).start movedRun
    (fun s => s.table.size = 2 ∧ (s.table.slots 0).state = .aio ∧ (s.table.slots 0).resp = some 0 ∧
      s.world.pending = [⟨1, 0, 6, 1, ⟨0, Example.path.bytes⟩, 0⟩] ∧
      (s.table.slots 1).resp = none ∧ (s.table.slots 1).aio = .done 0)
    rfl (by decide +kernel)
  rw [decide_eq_true_iff] at hcheck
  obtain ⟨hsize, hst, hresp, hpending, hresp₁, haio₁⟩ := hcheck
  refine ⟨s, hs, ?_, ?_⟩
  · intro hmatch
    have := (hmatch 0 (by omega) hst).1 _ (by rw [hpending]; exact List.mem_singleton.mpr rfl) hresp
    cases this
  · intro hmatch
    have hr : s.world.pending[0]? = some ⟨1, 0, 6, 1, ⟨0, Example.path.bytes⟩, 0⟩ := by
      rw [hpending]
      rfl
    have := hmatch 0 _ .failed _ hr (by simp only [SelectServer.step, server, event, hr]; rfl) 1
      (by omega) (by simp [hresp₁])
    rw [haio₁] at this
    simp [Table.set, World.status] at this

/-- Two clients; the first one disconnects after the read of the second one has ended. -/
def settledRun : List Action :=
  Example.accept [5, 6] 2 ++
    Example.round [6] [] [{ Example.idle with read := [97, LF] }, Example.idle] ++
    [.async (.aioDone 0 (.delivered [104]))] ++
    Example.round [5] [] [Example.idle, Example.idle]

/-- In this run the client that is moved is not waiting for a read. -/
theorem slots_iff_no_move_settledRun :
    ∃ s, (server Example.root).lts.Exec ((server Example.root).lts.trace (server Example.root).start
      settledRun) s ∧ s.gone.length = 1 ∧
      ((∀ t ∈ LTS.visited ((server Example.root).lts.trace (server Example.root).start settledRun)
        s, SlotsMatch t ∧ CompletionsMatch Example.root t) ↔
        ∀ p ∈ (server Example.root).lts.trace (server Example.root).start settledRun,
          ¬MovesInFlight Example.root p.1 p.2) := by
  obtain ⟨s, hs, hcheck⟩ := LTS.exec_of_run_any (server Example.root).lts
    (server Example.root).start settledRun (fun s => s.gone.length = 1) rfl (by decide +kernel)
  exact ⟨s, hs, of_decide_eq_true hcheck, slots_iff_no_move Example.root hs⟩

end Osvcp.Servers.AioServer
