import Osvcp.Servers.Containment
import Osvcp.Servers.RustEventLoop
import Osvcp.Servers.TokioOneResponse

/-! # Containment in the document root: the Rust servers

The Rust servers compare whole components (`startsWith`), once, between `canonicalize` and the
cache. In every run, whatever the file system and the sockets do, what they cache and send comes
from inside the document root. In the Tokio server a path also waits in the tasks while the others
run: `Pc.Inside` follows it from the lookup to the store.
-/

namespace Osvcp.Servers

/-- **The component check is sound.** -/
theorem inside_of_startsWith {root : DocRoot} {path : CanonPath}
    (h : startsWith path root.path = true) :
    root.Inside path.bytes := by
  rw [DocRoot.Inside, CanonPath.components_bytes]
  exact startsWith_iff.mp h

/-- Where all bytes come from one file inside the root. -/
theorem cellsInside_of_filesFrom {root : DocRoot} {src : Source} (h : root.Inside src.path)
    {cells : List Cell} (hcells : FilesFrom (· = src) cells) : CellsInside root cells :=
  cellsInside_iff.mpr fun src' b hb => hcells src' b hb ▸ h

/-! ## `rust-file-server` -/

namespace RustServer

/-- The keys and the contents of the cache lie inside the root. -/
def CacheInside (root : DocRoot) (cache : FileCache CanonPath (List Cell)) : Prop :=
  ∀ path resp, cache.get path = some resp → root.Inside path.bytes ∧ CellsInside root resp

/-- What `serve_file` keeps. -/
def Contained (root : DocRoot) (st : Serving) : Prop :=
  CacheInside root st.cache ∧ CellsInside root st.sent

section

variable {root : DocRoot} {st : Serving}

theorem Contained.write (h : Contained root st) (rs : List WriteResult) {msg : List Cell}
    (hmsg : CellsInside root msg) : Contained root (st.write rs msg).1 :=
  ⟨h.1, h.2.append (hmsg.subset (writeAllOrZero_isPrefix rs msg).subset)⟩

/-- What is read behind the cache lies inside the root if the path does. -/
theorem Contained.fromDisk (h : Contained root st) {path : CanonPath}
    (hpath : root.Inside path.bytes) {time : ℕ} {r : Serving}
    (hr : FromDisk ⟨path.bytes, time⟩ path st r) : Contained root r := by
  obtain ⟨⟨cells, hsent, hcells⟩, hcache⟩ := hr
  refine ⟨?_, ?_⟩
  · rcases hcache with hsame | ⟨resp, hinsert, hresp⟩
    · rw [hsame]
      exact h.1
    · rw [hinsert]
      intro path' resp' hget
      rcases FileCache.get_insert hget with hold | ⟨rfl, rfl⟩
      · exact h.1 path' resp' hold
      · exact ⟨hpath, cellsInside_of_filesFrom hpath hresp⟩
  · rw [hsent]
    exact h.2.append (cellsInside_of_filesFrom hpath hcells)

/-- **`serve_file` stays inside the root.** -/
theorem serveFile_contained (e : FileEnv) (name : List Byte) (h : Contained root st) :
    Contained root (serveFile root e name st).1 := by
  cases hres : resolve root e name with
  | none =>
      obtain ⟨reason, -, heq⟩ := serveFile_of_resolve_none st hres
      rw [heq]
      exact h.write _ (cellsInside_errLine reason)
  | some path =>
      have hpath := inside_of_startsWith (resolve_eq_some hres).2.2.2
      cases hget : st.cache.get path with
      | some resp =>
          rw [serveFile_hit hres hget]
          exact h.write _ (h.1 path resp hget).2
      | none =>
          rw [serveFile_miss hres hget]
          exact h.fromDisk hpath (serveFromDisk_fromDisk e path st).1

theorem handle_contained (i : ℕ) (writable : Bool) {readable : Bool} {c : Client} {w : World}
    {e : HandleEnv} (hw : CacheInside root w.cache) (hc : CellsInside root c.sent)
    {o : Outcome Client World}
    (h : handle root i readable writable c w e = some o) :
    CacheInside root o.world.cache ∧
      match o with
      | .keep c' _ => CellsInside root c'.sent
      | .drop c' _ => CellsInside root c'.sent := by
  cases handle_cases i writable h with
  | idle => exact ⟨hw, hc⟩
  | ended => exact ⟨hw, hc⟩
  | @processed bytes buf st closed hread hp =>
      have hline : ∀ (st st' : Processing) (line : List Byte) (ended : Bool),
          Contained root st.serving →
          serveLine root e.serves st (stripCr line) = (st', ended) →
          Contained root st'.serving := by
        intro st st' line ended hst hserve
        have hnext := serveFile_contained (e.serves st.calls) (fromUtf8Lossy (stripCr line)) hst
        unfold serveLine at hserve
        generalize serveFile root (e.serves st.calls) (fromUtf8Lossy (stripCr line)) st.serving =
          r at *
        cases hserve
        exact hnext
      have hrule := processClient_rule (I := fun st _ => Contained root st.serving)
        (J := fun st => Contained root st.serving)
        (fun st st' line rest hst _ hserve => hline st st' line false hst hserve)
        (fun st st' line rest hst _ hserve => hline st st' line true hst hserve) ⟨hw, hc⟩ hp
      have hst : Contained root st.serving := hrule.2.elim id And.left
      cases closed with
      | true => exact hst
      | false => exact hst

/-- The invariant of all runs. -/
theorem contained (root : DocRoot) :
    (server root).LocalInvariant (fun _ _ => True) (fun _ w => CacheInside root w.cache)
      (fun _ _ c => CellsInside root c.sent) (fun c => CellsInside root c.sent) where
  init _ _ h := by cases h
  connect _ _ _ _ hw := ⟨hw, cellsInside_nil⟩
  turn n w hw := by
    refine ⟨?_, fun _ _ hc => hc⟩
    show CacheInside root (turn w).cache
    unfold turn
    split
    · intro path resp hget
      cases hget
    · exact hw
  async s a t w hw hc _ h := by
    cases a with
    | sigint =>
        cases h
        exact ⟨rfl, hw, hc⟩
    | sigusr1 =>
        cases h
        exact ⟨rfl, hw, hc⟩
  keep s r k e c' w' _ hk hw hc _ hh := by
    obtain ⟨hw', hc'⟩ := handle_contained k false hw (hc k hk) hh
    exact ⟨hw', hc', fun i hi _ => hc i hi⟩
  drop s r k e c' w' _ hk hw hc _ hh := by
    obtain ⟨hw', hc'⟩ := handle_contained k false hw (hc k hk) hh
    exact ⟨hw', hc', fun i hi _ => hc i hi, fun _ => hc _ (by omega)⟩

end

end RustServer

/-! ## `tokio-file-server` -/

namespace TokioServer

/-- The keys and the contents of the cache lie inside the root. -/
def CacheInside (root : DocRoot) (cache : FileCache CanonPath Entry) : Prop :=
  ∀ path entry, cache.get path = some entry → root.Inside path.bytes ∧ CellsInside root entry.resp

/-- What a task holds lies inside the root. -/
def Pc.Inside (root : DocRoot) : Pc → Prop
  | .waiting => True
  | .refuse msg => CellsInside root msg
  | .lookup path => root.Inside path.bytes
  | .hit path entry => root.Inside path.bytes ∧ CellsInside root entry.resp
  | .metadata path => root.Inside path.bytes
  | .openFile path _ => root.Inside path.bytes
  | .readBody path _ => root.Inside path.bytes
  | .write path entry => root.Inside path.bytes ∧ CellsInside root entry.resp
  | .insert path entry => root.Inside path.bytes ∧ CellsInside root entry.resp
  | .header path _ => root.Inside path.bytes
  | .readChunk path => root.Inside path.bytes
  | .writeChunk path _ _ => root.Inside path.bytes
  | .closed => True

/-- What a step of a task leaves. -/
structure Effect.Inside (root : DocRoot) (e : Effect) : Prop where
  pc : e.pc.Inside root
  sent : CellsInside root e.sent
  stored : ∀ p, e.stored = some p → root.Inside p.1.bytes ∧ CellsInside root p.2.resp

section

variable {root : DocRoot}

theorem Effect.Inside.goto {pc : Pc} (h : pc.Inside root) : (Effect.goto pc).Inside root :=
  ⟨h, cellsInside_nil, fun _ h => by cases h⟩

theorem Effect.Inside.write {msg : List Cell} (hmsg : CellsInside root msg) {pc : Pc}
    (hpc : pc.Inside root) (rs : List WriteResult) (delivered : Option (CanonPath × ℕ)) :
    (Effect.write rs msg pc delivered).Inside root := by
  have hsent := hmsg.subset (writeAllOrZero_isPrefix rs msg).subset
  unfold Effect.write
  split
  · exact ⟨hpc, hsent, fun _ h => by cases h⟩
  · exact ⟨trivial, hsent, fun _ h => by cases h⟩

/-- `resolve_path` resolves to paths inside the root. -/
theorem inside_of_resolvePath {canonicalize : List Byte → Option CanonPath} {name : List Byte}
    {path : CanonPath} (h : resolvePath root canonicalize name = .ok path) :
    root.Inside path.bytes := by
  unfold resolvePath at h
  split at h
  · cases h
  · split at h
    · cases h
    · split at h
      · cases h
      · split at h
        · rename_i hin
          cases h
          exact inside_of_startsWith hin
        · cases h

/-- **One step of a task stays inside the root.** -/
theorem serve_inside {now : ℕ} {cache : FileCache CanonPath Entry}
    (hcache : CacheInside root cache) {pc : Pc} {op : Op} {e : Effect} (h : pc.Inside root)
    (he : serve root now cache pc op = some e) :
    e.Inside root := by
  unfold serve at he
  split at he
  · split at he
    · cases he
      exact .goto (cellsInside_errLine _)
    · rename_i path hres
      cases he
      exact .goto (inside_of_resolvePath hres)
  · cases he
    exact .goto trivial
  · cases he
    refine .write ?_ ?_ _ _
    · exact h
    · exact trivial
  · split at he
    · rename_i entry hget
      cases he
      exact .goto (hcache _ _ hget)
    · cases he
      exact .goto h
  · cases he
    refine .write ?_ ?_ _ _
    · exact h.2
    · exact trivial
  · split at he
    · cases he
      exact .goto h
    · cases he
      exact .goto (cellsInside_errLine _)
    · cases he
      exact .goto (cellsInside_errLine _)
  · split at he
    · cases he
      exact .goto (cellsInside_errLine _)
    · split at he
      · cases he
        exact .goto h
      · cases he
        exact .goto h
  · rename_i path size reads
    split at he
    · cases he
      exact .goto trivial
    · rename_i body hbody
      cases he
      have hfile := @cellsInside_fileCells root ⟨path.bytes, now⟩ h body
      exact .goto ⟨h, (cellsInside_okHeader size).append hfile⟩
  · cases he
    refine .write ?_ ?_ _ _
    · exact h.2
    · exact h
  · cases he
    refine ⟨trivial, cellsInside_nil, fun p hp => ?_⟩
    cases hp
    exact h
  · cases he
    refine .write ?_ ?_ _ _
    · exact cellsInside_okHeader _
    · exact h
  · split at he
    · split at he
      · cases he
        exact .goto trivial
      · cases he
        exact .goto h
    · cases he
      exact .goto trivial
    · cases he
      exact .goto trivial
  · rename_i path readAt chunk rs
    cases he
    refine .write ?_ ?_ _ _
    · exact @cellsInside_fileCells root ⟨path.bytes, readAt⟩ h chunk
    · exact h
  · cases he

/-- The invariant of all runs. -/
structure Contained (root : DocRoot) (s : State) : Prop where
  cache : CacheInside root s.cache
  pc : ∀ i, (s.conns i).pc.Inside root
  sent : ∀ i, CellsInside root (s.conns i).sent

theorem contained {s : State} (h : (lts root).Reachable s) : Contained root s := by
  refine h.invariant ?_ ?_
  · rintro s rfl
    exact ⟨fun _ _ hget => (by cases hget), fun _ => trivial, fun _ => cellsInside_nil⟩
  · intro s a u hs hstep
    cases a with
    | clear =>
        cases hstep
        exact ⟨fun _ _ hget => (by cases hget), hs.pc, hs.sent⟩
    | change =>
        cases hstep
        exact ⟨hs.cache, hs.pc, hs.sent⟩
    | task j op =>
        obtain ⟨e, he, rfl⟩ := Option.map_eq_some_iff.mp hstep
        have hinside := serve_inside hs.cache (hs.pc j) he
        have hconn : ∀ i, ((s.apply j op e).conns i).pc.Inside root ∧
            CellsInside root ((s.apply j op e).conns i).sent := by
          intro i
          by_cases hj : i = j
          · subst hj
            obtain ⟨hpc, hsent⟩ := conns_apply_self s i op e
            rw [hpc, hsent]
            exact ⟨hinside.pc, (hs.sent i).append hinside.sent⟩
          · rw [conns_apply_of_ne s hj]
            exact ⟨hs.pc i, hs.sent i⟩
        refine ⟨?_, fun i => (hconn i).1, fun i => (hconn i).2⟩
        cases hstored : e.stored with
        | none =>
            rw [State.apply, hstored]
            exact hs.cache
        | some p =>
            rw [State.apply, hstored]
            intro path entry hget
            rcases FileCache.get_insert hget with hold | ⟨rfl, rfl⟩
            · exact hs.cache path entry hold
            · exact hinside.stored p hstored

end

/-- The file a task works on lies inside the root. -/
theorem Pc.Inside.missing {root : DocRoot} {pc : Pc} (h : pc.Inside root) {path : CanonPath}
    (hp : pc.missing = some path) : root.Inside path.bytes := by
  cases pc with
  | metadata path => exact Option.some.inj hp ▸ h
  | openFile path size => exact Option.some.inj hp ▸ h
  | readBody path size => exact Option.some.inj hp ▸ h
  | write path entry => exact Option.some.inj hp ▸ h.1
  | insert path entry => exact Option.some.inj hp ▸ h.1
  | header path size => exact Option.some.inj hp ▸ h
  | readChunk path => exact Option.some.inj hp ▸ h
  | writeChunk path readAt chunk => exact Option.some.inj hp ▸ h
  | _ => cases hp

end TokioServer

/-- **Docroot containment in the Rust servers.** In every reachable state of either server, every
key of the cache and the source of every byte that was read from a file and cached or sent has the
components of the document root as a prefix of its components; in the Tokio server also every path
that a task passes to `metadata` and `open` or reads from. -/
theorem rust_docroot_containment (root : DocRoot) :
    (∀ s, (RustServer.server root).lts.Reachable s →
      RustServer.CacheInside root s.world.cache ∧
      ∀ c, c ∈ s.table.entries ∨ c ∈ s.gone → CellsInside root c.sent) ∧
    ∀ s, (TokioServer.lts root).Reachable s →
      TokioServer.CacheInside root s.cache ∧
      ∀ i, CellsInside root (s.conns i).sent ∧
        ∀ path, (s.conns i).pc.missing = some path → root.Inside path.bytes := by
  constructor
  · rintro s ⟨tr, h⟩
    have hI := (RustServer.contained root).holds h fun _ _ => trivial
    refine ⟨hI.world, ?_⟩
    rintro c (hc | hc)
    · obtain ⟨i, hi, rfl⟩ := Table.mem_entries.mp hc
      exact hI.client i hi
    · exact hI.gone c hc
  · intro s h
    have hs := TokioServer.contained h
    exact ⟨hs.cache, fun i => ⟨hs.sent i, fun path hp => (hs.pc i).missing hp⟩⟩

open DocRoot.Example in
/-- A run of each server that serves the file `/r/a`. -/
theorem rust_docroot_containment_example :
    (∃ s, (RustServer.server root).lts.Reachable s ∧
      (∃ c ∈ s.table.entries, c.sent.getLast? = some (.file ⟨path.bytes, 0⟩ 104) ∧
        CellsInside root c.sent) ∧
      RustServer.CacheInside root s.world.cache) ∧
    ∃ s, (TokioServer.lts root).Reachable s ∧
      (s.conns 0).sent.getLast? = some (.file ⟨path.bytes, 5⟩ 104) ∧
      CellsInside root (s.conns 0).sent := by
  obtain ⟨hrust, htokio⟩ := rust_docroot_containment root
  constructor
  · let e : FileEnv :=
      ⟨fun _ => some path, fun _ => .ok (true, 1), fun _ => none, fun _ => [.data [104]],
        fun _ => []⟩
    obtain ⟨s, hs, hcheck⟩ := LTS.exec_of_run_any (RustServer.server root).lts
      (RustServer.server root).start [.turn, .select (.ready ⟨true, [], []⟩), .accept (some 5),
        .accept none, .handle ⟨[], fun _ => e⟩, .next,
        .turn, .select (.ready ⟨false, [5], []⟩), .handle ⟨[97, LF], fun _ => e⟩]
      (fun s => 0 < s.table.size ∧
        (s.table.slots 0).sent.getLast? = some (.file ⟨path.bytes, 0⟩ 104)) rfl (by decide +kernel)
    obtain ⟨hsize, hsent⟩ := of_decide_eq_true hcheck
    have hc := Table.mem_entries.mpr ⟨0, hsize, rfl⟩
    obtain ⟨hcache, hinside⟩ := hrust s ⟨_, hs⟩
    exact ⟨s, ⟨_, hs⟩, ⟨_, hc, hsent, hinside _ (.inl hc)⟩, hcache⟩
  · open TokioServer TokioServer.Example in
    obtain ⟨s, hs, hcheck⟩ := LTS.exec_of_run_any (lts root) start (ask 0 ++ read 0 104 ++ send 0)
      (fun s => (s.conns 0).sent.getLast? = some (.file ⟨path.bytes, 5⟩ 104)) rfl
      (by decide +kernel)
    exact ⟨s, ⟨_, hs⟩, of_decide_eq_true hcheck, ((htokio s ⟨_, hs⟩).2 0).1⟩

end Osvcp.Servers
