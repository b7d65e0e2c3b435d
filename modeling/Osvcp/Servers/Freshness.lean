import Osvcp.Lib.ReadThrough
import Osvcp.Servers.FileServer
import Osvcp.Servers.RustFileServer

/-! # Freshness of the select servers

`file-server.c` and `rust-file-server` answer one request at a time, so between two requests, file
changes or flushes nothing is half done. Both are read-through caches in the sense of `ReadThrough`:
a response comes from the entry of the resolved path, or from a read of the file that may become the
entry. The time of a step is what the bytes of a file read in it carry, so that the stamp of a
response is on its own bytes; for a file that is empty, `ReadThrough.Timed.readAt` keeps it.
-/

namespace Osvcp.Servers

/-- What happens to a server: a request, a change of the files, or an executed flush. -/
inductive ServerEvent (R : Type*)
  | request (r : R)
  | change
  | flush

/-! ## `file-server.c` -/

namespace FileServer

/-- `stat` reports a regular file and it can be opened. -/
def opens (e : ServeEnv) (path : List Byte) : Bool :=
  match e.stat path with
  | .ok true _ => e.openOk path
  | _ => false

section

variable {root : DocRoot} {e : ServeEnv} {name : List Byte} {st : Serving}

/-- What the disk part of `serve_file` leaves: the bytes it adds, and the cache with at most one new
entry. -/
structure FromDisk (src : Source) (path : List Byte) (st r : Serving) : Prop where
  sent : ∃ cells, r.sent = st.sent ++ cells ∧ FilesFrom (· = src) cells
  cache : r.world.cache = st.world.cache ∨
    ∃ resp, r.world.cache = cacheInsert st.world.cache path resp ∧ FilesFrom (· = src) resp
  flushes : r.world.flushes = st.world.flushes

theorem FromDisk.write {src : Source} {path : List Byte} {r : Serving} (h : FromDisk src path st r)
    (rs : List WriteResult) {msg : List Cell} (hmsg : FilesFrom (· = src) msg) :
    FromDisk src path st (r.write rs msg).1 := by
  obtain ⟨⟨cells, hsent, hcells⟩, hcache, hflushes⟩ := h
  refine ⟨⟨cells ++ (writeAll rs msg).1, ?_, ?_⟩, hcache, hflushes⟩
  · show r.sent ++ _ = _
    rw [hsent, List.append_assoc]
  · exact hcells.append (hmsg.subset (writeAll_spec rs msg).1.subset)

theorem FromDisk.stream {src : Source} {path : List Byte} {r : Serving} (h : FromDisk src path st r)
    (writes : ℕ → List WriteResult) (k : ℕ) (chunks : List (List Byte)) :
    FromDisk src path st (stream writes src k chunks r).1 := by
  induction chunks generalizing k r with
  | nil => exact h
  | cons chunk chunks ih =>
      rw [FileServer.stream]
      split
      · exact h
      · have hw :=
          h.write (writes k) (filesFrom_fileCells (p := (· = src)) rfl (chunk.take FILE_BUF_SIZE))
        split
        · rename_i st' heq
          rw [heq] at hw
          exact hw
        · rename_i st' heq
          rw [heq] at hw
          exact ih hw (k + 1)

/-- `serve_file` behind the cache. -/
theorem serveFromDisk_fromDisk (e : ServeEnv) (path : List Byte) (st : Serving) :
    FromDisk (st.source path) path st (serveFromDisk e path st).1 ∧
      (opens e path = false → (serveFromDisk e path st).1.world.cache = st.world.cache) := by
  have h₁ : FromDisk (st.source path) path st (st.touch path) :=
    ⟨⟨[], (List.append_nil _).symm, filesFrom_nil⟩, .inl rfl, rfl⟩
  have h₂ : FromDisk (st.source path) path st ((st.touch path).touch path) :=
    ⟨h₁.sent, .inl rfl, rfl⟩
  unfold serveFromDisk opens
  simp only
  split
  · exact ⟨h₁.write _ (filesFrom_errLine _), fun _ => rfl⟩
  · exact ⟨h₁.write _ (filesFrom_errLine _), fun _ => rfl⟩
  · rename_i size hstat
    split
    · exact ⟨h₂.write _ (filesFrom_errLine _), fun _ => rfl⟩
    · rename_i hopen
      refine ⟨?_, fun hno => absurd (by simpa [hstat] using hno) hopen⟩
      split
      · rename_i data hdata
        have hresp : FilesFrom (· = st.source path)
            (okHeader size ++ fileCells (((st.touch path).touch path).source path) data) :=
          (filesFrom_okHeader size).append
            (filesFrom_fileCells (p := (· = st.source path)) rfl data)
        have hw := h₂.write (e.writes 0) hresp
        split
        · rename_i st' heq
          rw [heq] at hw
          exact hw
        · rename_i st' heq
          have hcache : st'.world.cache = st.world.cache :=
            congrArg (fun r => r.1.world.cache) heq.symm
          rw [heq] at hw
          exact ⟨hw.sent, .inr ⟨_, by rw [Serving.insert, hcache], hresp⟩, hw.flushes⟩
      · have hw := h₂.write (e.writes 0) (filesFrom_okHeader size)
        split
        · rename_i st' heq
          rw [heq] at hw
          exact hw
        · rename_i st' heq
          rw [heq] at hw
          exact hw.stream _ _ _

end

/-- A request with the system calls made for it. What `realpath` returns fits its buffer. -/
structure Request where
  env : ServeEnv
  fits : ∀ name path, env.realpath name = some path → path.bytes.length < PATH_MAX
  name : List Byte

/-- `serve_file` at a time. -/
def served (root : DocRoot) (now : ℕ) (w : World) (r : Request) : Serving :=
  (serveFile root r.env r.name ⟨0, [], { w with flushes := now }⟩).1

/-- How a request is answered. -/
def answeredBy (root : DocRoot) (w : World) (r : Request) : CacheEvent (List Byte) :=
  match resolve root r.env r.name with
  | none => .other
  | some path =>
      if (cacheLookup w.cache path.bytes).isSome then .hit path.bytes
      else if opens r.env path.bytes then .read path.bytes
      else .other

/-- `file-server.c` as a read-through cache. -/
def readThrough (root : DocRoot) :
    ReadThrough World (ServerEvent Request) (List Byte) (List Cell) where
  start := (server root).world₀
  cached w key resp := ∃ entry ∈ w.cache, entry.key = key ∧ entry.resp = resp
  carries := Stamped
  step now w
    | .request r => (served root now w r).world
    | .change => w
    | .flush => turn { w with clearRequested := true }
  event w
    | .request r => answeredBy root w r
    | .change => .other
    | .flush => .flush
  response now w
    | .request r => (served root now w r).sent
    | _ => []

section

variable {root : DocRoot} {w : World} {r : Request}

/-- **How a request is answered**: with an error line before the cache is looked at, from the cache,
from the disk, or with an error line of the disk part. -/
theorem answeredBy_cases (root : DocRoot) (w : World) (r : Request) :
    (resolve root r.env r.name = none ∧ answeredBy root w r = .other) ∨
    ∃ path, resolve root r.env r.name = some path ∧
      ((∃ entry, cacheLookup w.cache path.bytes = some entry ∧
        answeredBy root w r = .hit path.bytes) ∨ cacheLookup w.cache path.bytes = none ∧
          (answeredBy root w r = .read path.bytes ∨
            opens r.env path.bytes = false ∧ answeredBy root w r = .other)) := by
  unfold answeredBy
  cases hres : resolve root r.env r.name with
  | none => exact .inl ⟨rfl, rfl⟩
  | some path =>
      refine .inr ⟨path, rfl, ?_⟩
      cases hlook : cacheLookup w.cache path.bytes with
      | some entry => exact .inl ⟨entry, rfl, by simp [hlook]⟩
      | none =>
          refine .inr ⟨rfl, ?_⟩
          cases hopen : opens r.env path.bytes with
          | true => exact .inl (by simp [hlook, hopen])
          | false => exact .inr ⟨rfl, by simp [hlook, hopen]⟩

/-- A request without data of a file leaves the cache alone. -/
theorem cache_of_other (now : ℕ) (h : answeredBy root w r = .other) :
    (served root now w r).world.cache = w.cache := by
  unfold served
  rcases answeredBy_cases root w r with ⟨hres, -⟩ |
    ⟨path, hres, ⟨entry, -, heq⟩ | ⟨hlook, heq | ⟨hopen, -⟩⟩⟩
  · obtain ⟨reason, -, hsend⟩ := serveFile_of_resolve_none ⟨0, [], { w with flushes := now }⟩ hres
    rw [hsend]
    rfl
  · cases heq.symm.trans h
  · cases heq.symm.trans h
  · rw [serveFile_miss hres hlook]
    exact (serveFromDisk_fromDisk _ _ _).2 hopen

/-- A hit sends a part of the entry. -/
theorem hit_spec {key : List Byte} (now : ℕ) (h : answeredBy root w r = .hit key) :
    (served root now w r).world.cache = w.cache ∧
      ∃ entry ∈ w.cache, entry.key = key ∧ (served root now w r).sent <+: entry.resp := by
  unfold served
  rcases answeredBy_cases root w r with ⟨-, heq⟩ |
    ⟨path, hres, ⟨entry, hlook, heq⟩ | ⟨-, heq | ⟨-, heq⟩⟩⟩
  · cases heq.symm.trans h
  · cases heq.symm.trans h
    obtain ⟨hmem, hkey⟩ := mem_of_cacheLookup hlook
    rw [serveFile_hit hres hlook]
    exact ⟨rfl, entry, hmem, hkey, (writeAll_spec _ _).1⟩
  · cases heq.symm.trans h
  · cases heq.symm.trans h

/-- A read is of a file without an entry, and may become its entry. -/
theorem read_spec {key : List Byte} (now : ℕ) (h : answeredBy root w r = .read key) :
    (∀ entry ∈ w.cache, entry.key ≠ key) ∧ strncpyPath key = key ∧
      ∃ st, st.world.cache = w.cache ∧ st.sent = [] ∧
        FromDisk ⟨key, now⟩ key st (served root now w r) := by
  unfold served
  rcases answeredBy_cases root w r with ⟨-, heq⟩ |
    ⟨path, hres, ⟨entry, -, heq⟩ | ⟨hlook, heq | ⟨-, heq⟩⟩⟩
  · cases heq.symm.trans h
  · cases heq.symm.trans h
  · cases heq.symm.trans h
    obtain ⟨-, -, hreal, -⟩ := resolve_eq_some hres
    refine ⟨fun entry hentry hkey => ?_, ?_, ⟨0, [], { w with flushes := now }⟩, rfl, rfl, ?_⟩
    · have hnot := List.find?_eq_none.mp hlook entry hentry
      exact hnot (by simpa using hkey)
    · exact List.take_of_length_le (Nat.le_sub_one_of_lt (r.fits _ _ hreal))
    · rw [serveFile_miss hres hlook]
      exact (serveFromDisk_fromDisk r.env path.bytes ⟨0, [], { w with flushes := now }⟩).1
  · cases heq.symm.trans h

/-- No request is a flush. -/
theorem answeredBy_ne_flush (root : DocRoot) (w : World) (r : Request) :
    answeredBy root w r ≠ .flush := by
  intro h
  rcases answeredBy_cases root w r with ⟨-, heq⟩ |
    ⟨path, -, ⟨entry, -, heq⟩ | ⟨-, heq | ⟨-, heq⟩⟩⟩ <;> cases heq.symm.trans h

/-- **`file-server.c` is a lawful read-through cache.** -/
theorem readThrough_lawful (root : DocRoot) : (readThrough root).Lawful where
  start key resp h := by
    obtain ⟨entry, hentry, -⟩ := h
    exact absurd hentry List.not_mem_nil
  other now w a h key resp := by
    cases a with
    | request r =>
        rintro ⟨entry, hentry, hkey⟩
        exact ⟨entry, cache_of_other now h ▸ hentry, hkey⟩
    | change => exact id
    | flush => cases h
  hit now w a key h := by
    cases a with
    | request r =>
        obtain ⟨hcache, entry, hentry, hkey, hsent⟩ := hit_spec now h
        refine ⟨fun j resp hj => ?_, entry.resp, ⟨entry, hentry, hkey, rfl⟩, fun t ht => ?_⟩
        · obtain ⟨entry', hentry', hkey'⟩ := hj
          exact ⟨entry', hcache ▸ hentry', hkey'⟩
        · exact FilesFrom.subset ht hsent.subset
    | change => cases h
    | flush => cases h
  read now w a key h := by
    cases a with
    | request r =>
        obtain ⟨hnone, hcut, st, hst, hsent₀, ⟨cells, hsent, hcells⟩, hcache, -⟩ := read_spec now h
        refine ⟨?_, ?_, ?_⟩
        · rintro resp ⟨entry, hentry, hkey, -⟩
          exact hnone entry hentry hkey
        · show Stamped now key (served root now w r).sent
          rw [hsent, hsent₀, List.nil_append]
          exact hcells
        · rintro j resp ⟨entry, hentry, rfl, rfl⟩
          rcases hcache with hsame | ⟨resp, hinsert, hresp⟩
          · exact .inl ⟨entry, hst ▸ hsame ▸ hentry, rfl, rfl⟩
          · -- the path fits the key buffer, so the entry is found under the path itself
            rw [show (readThrough root).step now w (.request r) = (served root now w r).world
              from rfl, hinsert, hst] at hentry
            rcases mem_cacheInsert hentry with hold | ⟨hr, ⟨hkey, -⟩ | hkey⟩
            · exact .inl ⟨entry, hold, rfl, rfl⟩
            · exact .inr ⟨hkey, hr ▸ hresp⟩
            · exact .inr ⟨hkey.trans hcut, hr ▸ hresp⟩
    | change => cases h
    | flush => cases h
  flush now w a h key resp := by
    cases a with
    | request r => exact absurd h (answeredBy_ne_flush root w r)
    | change => cases h
    | flush =>
        rintro ⟨entry, hentry, -⟩
        exact absurd hentry List.not_mem_nil

end

end FileServer

/-! ## `rust-file-server` -/

namespace RustServer

/-- The path a request is resolved to, if it passes the checks before the cache. -/
def resolve (root : DocRoot) (e : FileEnv) (name : List Byte) : Option CanonPath :=
  if name = [] ∨ name.head? = some SLASH then none
  else (e.canonicalize (root.join name)).filter fun path => startsWith path root.path

/-- The file can be opened, and read if it is small. -/
def opens (e : FileEnv) (path : CanonPath) : Bool :=
  match e.metadata path, e.openError path with
  | .ok (true, size), none =>
      decide (MAX_CACHE_FILE_BYTES < size) || (readExact (e.reads path) size).isSome
  | _, _ => false

section

variable {root : DocRoot} {e : FileEnv} {name : List Byte} {st : Serving}

/-- A request that does not pass the checks gets an error line. -/
theorem serveFile_of_resolve_none (st : Serving) (h : resolve root e name = none) :
    ∃ reason, LF ∉ ascii reason ∧
      serveFile root e name st = st.write (e.writes 0) (errLine reason) := by
  unfold resolve at h
  unfold serveFile
  by_cases hempty : name = []
  · exact ⟨"empty filename", by decide, if_pos hempty⟩
  · by_cases habs : name.head? = some SLASH
    · exact ⟨"absolute paths not allowed", by decide, by rw [if_neg hempty, if_pos habs]⟩
    · rw [if_neg (not_or.mpr ⟨hempty, habs⟩)] at h
      rw [if_neg hempty, if_neg habs]
      cases hreal : e.canonicalize (root.join name) with
      | none => exact ⟨"not found", by decide, rfl⟩
      | some path =>
          rw [hreal, Option.filter_eq_none_iff] at h
          have hacc : startsWith path root.path = false := by simpa using h path rfl
          exact ⟨"access denied", by decide, if_pos hacc⟩

/-- The checks are passed by the name and by what it is resolved to. -/
theorem resolve_eq_some {path : CanonPath} (h : resolve root e name = some path) :
    name ≠ [] ∧ name.head? ≠ some SLASH ∧ e.canonicalize (root.join name) = some path ∧
      startsWith path root.path = true := by
  unfold resolve at h
  split at h
  · cases h
  · rename_i hname
    obtain ⟨hempty, habs⟩ := not_or.mp hname
    exact ⟨hempty, habs, Option.filter_eq_some_iff.mp h⟩

/-- A request that passes them is answered from the cache. -/
theorem serveFile_hit {path : CanonPath} (h : resolve root e name = some path) {resp : List Cell}
    (hget : st.cache.get path = some resp) :
    serveFile root e name st = st.write (e.writes 0) resp := by
  obtain ⟨hempty, habs, hreal, hacc⟩ := resolve_eq_some h
  simp only [serveFile, hempty, habs, hreal, hacc, hget, if_false, Bool.true_eq_false]

/-- Or from the disk. -/
theorem serveFile_miss {path : CanonPath} (h : resolve root e name = some path)
    (hget : st.cache.get path = none) : serveFile root e name st = serveFromDisk e path st := by
  obtain ⟨hempty, habs, hreal, hacc⟩ := resolve_eq_some h
  simp only [serveFile, hempty, habs, hreal, hacc, hget, if_false, Bool.true_eq_false]

/-- What the disk part of `serve_file` leaves: the bytes it adds, and the cache with at most one new
entry. -/
structure FromDisk (src : Source) (path : CanonPath) (st r : Serving) : Prop where
  sent : ∃ cells, r.sent = st.sent ++ cells ∧ FilesFrom (· = src) cells
  cache : r.cache = st.cache ∨
    ∃ resp, r.cache = st.cache.insert path resp ∧ FilesFrom (· = src) resp

theorem FromDisk.refl (src : Source) (path : CanonPath) (st : Serving) : FromDisk src path st st :=
  ⟨⟨[], (List.append_nil _).symm, filesFrom_nil⟩, .inl rfl⟩

theorem FromDisk.write {src : Source} {path : CanonPath} {r : Serving} (h : FromDisk src path st r)
    (rs : List WriteResult) {msg : List Cell} (hmsg : FilesFrom (· = src) msg) :
    FromDisk src path st (r.write rs msg).1 := by
  obtain ⟨⟨cells, hsent, hcells⟩, hcache⟩ := h
  refine ⟨⟨cells ++ (writeAllOrZero rs msg).1, ?_, ?_⟩, hcache⟩
  · show r.sent ++ _ = _
    rw [hsent, List.append_assoc]
  · exact hcells.append (hmsg.subset (writeAllOrZero_isPrefix rs msg).subset)

theorem FromDisk.stream {src : Source} {path : CanonPath} {r : Serving} (h : FromDisk src path st r)
    (writes : ℕ → List WriteResult) (k : ℕ) (reads : List FileRead) :
    FromDisk src path st (stream writes src k reads r).1 := by
  induction reads generalizing k r with
  | nil => exact h
  | cons read reads ih =>
      cases read with
      | interrupted => exact h
      | failed => exact h
      | data bytes =>
          rw [RustServer.stream]
          split
          · exact h
          · have hw := h.write (writes k)
              (filesFrom_fileCells (p := (· = src)) rfl (bytes.take FILE_CHUNK))
            split
            · rename_i st' heq
              rw [heq] at hw
              exact hw
            · rename_i st' heq
              rw [heq] at hw
              exact ih hw (k + 1)

/-- `serve_file` behind the cache. -/
theorem serveFromDisk_fromDisk (e : FileEnv) (path : CanonPath) (st : Serving) :
    FromDisk ⟨path.bytes, st.time⟩ path st (serveFromDisk e path st).1 ∧
      (opens e path = false → (serveFromDisk e path st).1.cache = st.cache) := by
  have h := FromDisk.refl ⟨path.bytes, st.time⟩ path st
  unfold serveFromDisk opens
  split
  · exact ⟨h.write _ (filesFrom_errLine _), fun _ => rfl⟩
  · exact ⟨h.write _ (filesFrom_errLine _), fun _ => rfl⟩
  · rename_i size hmeta
    split
    · exact ⟨h.write _ (filesFrom_errLine _), fun _ => rfl⟩
    · rename_i hopen
      split
      · rename_i hsize
        split
        · exact ⟨h, fun _ => rfl⟩
        · rename_i body hbody
          refine ⟨?_, fun hno => ?_⟩
          · have hresp : FilesFrom (· = ⟨path.bytes, st.time⟩)
                (okHeader size ++ fileCells ⟨path.bytes, st.time⟩ body) :=
              (filesFrom_okHeader size).append
                (filesFrom_fileCells (p := (· = ⟨path.bytes, st.time⟩)) rfl body)
            have hw := h.write (e.writes 0) hresp
            simp only
            split
            · rename_i st' heq
              rw [heq] at hw
              exact hw
            · rename_i st' heq
              have hcache : st'.cache = st.cache := congrArg (fun r => r.1.cache) heq.symm
              rw [heq] at hw
              exact ⟨hw.sent, .inr ⟨_, by rw [hcache], hresp⟩⟩
          · simp [hmeta, hopen, hbody] at hno
      · rename_i hsize
        refine ⟨?_, fun hno => ?_⟩
        · have hw := h.write (e.writes 0) (filesFrom_okHeader size)
          split
          · rename_i st' heq
            rw [heq] at hw
            exact hw
          · rename_i st' heq
            rw [heq] at hw
            exact hw.stream _ _ _
        · simp [hmeta, hopen] at hno
          omega

end

/-- A request with the system calls made for it. -/
structure Request where
  env : FileEnv
  name : List Byte

/-- `serve_file` at a time. -/
def served (root : DocRoot) (now : ℕ) (cache : FileCache CanonPath (List Cell)) (r : Request) :
    Serving :=
  (serveFile root r.env r.name ⟨[], cache, now⟩).1

/-- How a request is answered. -/
def answeredBy (root : DocRoot) (cache : FileCache CanonPath (List Cell)) (r : Request) :
    CacheEvent CanonPath :=
  match resolve root r.env r.name with
  | none => .other
  | some path =>
      if (cache.get path).isSome then .hit path
      else if opens r.env path then .read path
      else .other

/-- `rust-file-server` as a read-through cache. -/
def readThrough (root : DocRoot) :
    ReadThrough (FileCache CanonPath (List Cell)) (ServerEvent Request) CanonPath (List Cell) where
  start := .new
  cached cache path resp := cache.get path = some resp
  carries t path := Stamped t path.bytes
  step now cache
    | .request r => (served root now cache r).cache
    | .change => cache
    | .flush => cache.clear
  event cache
    | .request r => answeredBy root cache r
    | .change => .other
    | .flush => .flush
  response now cache
    | .request r => (served root now cache r).sent
    | _ => []

section

variable {root : DocRoot} {cache : FileCache CanonPath (List Cell)} {r : Request}

/-- **How a request is answered**: with an error line before the cache is looked at, from the cache,
from the disk, or with an error of the disk part. -/
theorem answeredBy_cases (root : DocRoot) (cache : FileCache CanonPath (List Cell)) (r : Request) :
    (resolve root r.env r.name = none ∧ answeredBy root cache r = .other) ∨
    ∃ path, resolve root r.env r.name = some path ∧
      ((∃ resp, cache.get path = some resp ∧ answeredBy root cache r = .hit path) ∨
        cache.get path = none ∧
          (answeredBy root cache r = .read path ∨
            opens r.env path = false ∧ answeredBy root cache r = .other)) := by
  unfold answeredBy
  cases hres : resolve root r.env r.name with
  | none => exact .inl ⟨rfl, rfl⟩
  | some path =>
      refine .inr ⟨path, rfl, ?_⟩
      cases hget : cache.get path with
      | some resp => exact .inl ⟨resp, rfl, by simp [hget]⟩
      | none =>
          refine .inr ⟨rfl, ?_⟩
          cases hopen : opens r.env path with
          | true => exact .inl (by simp [hget, hopen])
          | false => exact .inr ⟨rfl, by simp [hget, hopen]⟩

/-- A request without data of a file leaves the cache alone. -/
theorem cache_of_other (now : ℕ) (h : answeredBy root cache r = .other) :
    (served root now cache r).cache = cache := by
  unfold served
  rcases answeredBy_cases root cache r with
    ⟨hres, -⟩ | ⟨path, hres, ⟨resp, -, heq⟩ | ⟨hget, heq | ⟨hopen, -⟩⟩⟩
  · obtain ⟨reason, -, hsend⟩ := serveFile_of_resolve_none ⟨[], cache, now⟩ hres
    rw [hsend]
    rfl
  · cases heq.symm.trans h
  · cases heq.symm.trans h
  · rw [serveFile_miss hres hget]
    exact (serveFromDisk_fromDisk _ _ _).2 hopen

/-- A hit sends a part of the entry. -/
theorem hit_spec {path : CanonPath} (now : ℕ) (h : answeredBy root cache r = .hit path) :
    (served root now cache r).cache = cache ∧
      ∃ resp, cache.get path = some resp ∧ (served root now cache r).sent <+: resp := by
  unfold served
  rcases answeredBy_cases root cache r with ⟨-, heq⟩ |
    ⟨_, hres, ⟨resp, hget, heq⟩ | ⟨-, heq | ⟨-, heq⟩⟩⟩
  · cases heq.symm.trans h
  · cases heq.symm.trans h
    rw [serveFile_hit hres hget]
    exact ⟨rfl, resp, hget, writeAllOrZero_isPrefix _ _⟩
  · cases heq.symm.trans h
  · cases heq.symm.trans h

/-- A read is of a file without an entry, and may become its entry. -/
theorem read_spec {path : CanonPath} (now : ℕ) (h : answeredBy root cache r = .read path) :
    cache.get path = none ∧
      FromDisk ⟨path.bytes, now⟩ path ⟨[], cache, now⟩ (served root now cache r) := by
  unfold served
  rcases answeredBy_cases root cache r with ⟨-, heq⟩ |
    ⟨_, hres, ⟨resp, -, heq⟩ | ⟨hget, heq | ⟨-, heq⟩⟩⟩
  · cases heq.symm.trans h
  · cases heq.symm.trans h
  · cases heq.symm.trans h
    rw [serveFile_miss hres hget]
    exact ⟨hget, (serveFromDisk_fromDisk r.env path ⟨[], cache, now⟩).1⟩
  · cases heq.symm.trans h

/-- No request is a flush. -/
theorem answeredBy_ne_flush (root : DocRoot) (cache : FileCache CanonPath (List Cell))
    (r : Request) :
    answeredBy root cache r ≠ .flush := by
  intro h
  rcases answeredBy_cases root cache r with ⟨-, heq⟩ |
    ⟨path, -, ⟨resp, -, heq⟩ | ⟨-, heq | ⟨-, heq⟩⟩⟩ <;> cases heq.symm.trans h

/-- **`rust-file-server` is a lawful read-through cache.** -/
theorem readThrough_lawful (root : DocRoot) : (readThrough root).Lawful where
  start path resp h := by cases h
  other now cache a h path resp := by
    cases a with
    | request r =>
        intro hget
        exact cache_of_other now h ▸ hget
    | change => exact id
    | flush => cases h
  hit now cache a path h := by
    cases a with
    | request r =>
        obtain ⟨hcache, resp, hget, hsent⟩ := hit_spec now h
        refine ⟨fun j u hj => hcache ▸ hj, resp, hget, fun t ht => ?_⟩
        exact FilesFrom.subset ht hsent.subset
    | change => cases h
    | flush => cases h
  read now cache a path h := by
    cases a with
    | request r =>
        obtain ⟨hnone, ⟨cells, hsent, hcells⟩, hcache⟩ := read_spec now h
        refine ⟨?_, ?_, ?_⟩
        · intro resp hget
          cases hnone.symm.trans hget
        · show Stamped now path.bytes (served root now cache r).sent
          rw [hsent, List.nil_append]
          exact hcells
        · intro j u hj
          have hj : (served root now cache r).cache.get j = some u := hj
          rcases hcache with hsame | ⟨resp, hinsert, hresp⟩
          · rw [hsame] at hj
            exact .inl hj
          · rw [hinsert] at hj
            rcases FileCache.get_insert hj with hold | ⟨hjp, rfl⟩
            · exact .inl hold
            · exact .inr ⟨hjp, hresp⟩
    | change => cases h
    | flush => cases h
  flush now cache a h path resp := by
    cases a with
    | request r => exact absurd h (answeredBy_ne_flush root cache r)
    | change => cases h
    | flush =>
        intro hget
        cases hget

end

end RustServer

/-! ## Both servers -/

namespace FileServer

/-- What is cached was read after the last flush. -/
def CacheCurrent (w : World) : Prop :=
  ∀ entry ∈ w.cache, FilesFrom (·.flushes = w.flushes) entry.resp

theorem serveFile_current (root : DocRoot) (e : ServeEnv) (name : List Byte) {st : Serving}
    (h : CacheCurrent st.world) : CacheCurrent (serveFile root e name st).1.world := by
  cases hres : resolve root e name with
  | none =>
      obtain ⟨reason, -, heq⟩ := serveFile_of_resolve_none st hres
      rw [heq]
      exact h
  | some path =>
      cases hlook : cacheLookup st.world.cache path.bytes with
      | some entry =>
          rw [serveFile_hit hres hlook]
          exact h
      | none =>
          obtain ⟨-, hcache, hflushes⟩ := (serveFromDisk_fromDisk e path.bytes st).1
          rw [serveFile_miss hres hlook, CacheCurrent, hflushes]
          rcases hcache with hsame | ⟨resp, hinsert, hresp⟩
          · rw [hsame]
            exact h
          · rw [hinsert]
            intro entry hentry
            rcases mem_cacheInsert hentry with hold | ⟨rfl, -⟩
            · exact h entry hold
            · intro src b hb
              rw [hresp src b hb]
              rfl

/-- The invariant of the event loop. -/
theorem cacheCurrent (root : DocRoot) :
    (server root).LocalInvariant (fun _ _ => True) (fun _ => CacheCurrent) (fun _ _ _ => True)
      (fun _ => True) := by
  refine (world_invariant (fun _ => True) root (fun _ h => absurd h List.not_mem_nil)
    (fun w hw => ?_)
    (fun w hw => ⟨hw, hw⟩) fun e name st _ hst => serveFile_current root e name hst).mono
      fun _ a _ => serves_of_forall (fun _ => trivial) a
  unfold turn
  split
  · exact fun _ h => absurd h List.not_mem_nil
  · exact hw

end FileServer

/-- **Freshness.** In every run of either server with requests, file changes and flushes: every
entry was read after the last flush, and its bytes are those of that read; every response carries
the bytes of one read after the last flush before it; and for each path the times of the reads never
decrease along the responses to all clients. In the event loop of `file-server.c`, what is cached
was read after the last `cache_clear`. -/
theorem select_servers_fresh (root : DocRoot) :
    (∀ x, (FileServer.readThrough root).lts.Reachable x →
      (∀ entry ∈ x.state.cache, x.flushed < x.readAt entry.key ∧
        Stamped (x.readAt entry.key) entry.key entry.resp) ∧
      (∀ y ∈ x.log, y.flushed < y.snapshot ∧ Stamped y.snapshot y.key y.body) ∧
      x.log.Pairwise fun y z => y.key = z.key → y.snapshot ≤ z.snapshot) ∧
    (∀ x, (RustServer.readThrough root).lts.Reachable x →
      (∀ path resp, x.state.get path = some resp → x.flushed < x.readAt path ∧
        Stamped (x.readAt path) path.bytes resp) ∧
      (∀ y ∈ x.log, y.flushed < y.snapshot ∧ Stamped y.snapshot y.key.bytes y.body) ∧
      x.log.Pairwise fun y z => y.key = z.key → y.snapshot ≤ z.snapshot) ∧
    (∀ s, (FileServer.server root).lts.Reachable s → FileServer.CacheCurrent s.world) := by
  refine ⟨?_, ?_, ?_⟩
  · intro x hx
    have hfresh := (FileServer.readThrough_lawful root).fresh hx
    refine ⟨?_, ?_, hfresh.ordered⟩
    · intro entry hentry
      obtain ⟨hflushed, -, hstamped, -⟩ :=
        hfresh.cached entry.key entry.resp ⟨entry, hentry, rfl, rfl⟩
      exact ⟨hflushed, hstamped⟩
    · intro y hy
      obtain ⟨hflushed, -, hstamped⟩ := hfresh.sent y hy
      exact ⟨hflushed, hstamped⟩
  · intro x hx
    have hfresh := (RustServer.readThrough_lawful root).fresh hx
    refine ⟨?_, ?_, hfresh.ordered⟩
    · intro path resp hget
      obtain ⟨hflushed, -, hstamped, -⟩ := hfresh.cached path resp hget
      exact ⟨hflushed, hstamped⟩
    · intro y hy
      obtain ⟨hflushed, -, hstamped⟩ := hfresh.sent y hy
      exact ⟨hflushed, hstamped⟩
  · rintro s ⟨tr, h⟩
    exact ((FileServer.cacheCurrent root).holds h fun _ _ => trivial).world

namespace Freshness.Example

open DocRoot.Example

/-- A request for the file while it holds one byte, with all system calls successful. -/
def request (b : Byte) : FileServer.Request where
  env := ⟨fun _ => some path, fun _ => .ok true 1, fun _ => true, true, fun _ => some [b],
    fun _ => [], fun _ => []⟩
  fits := by
    rintro _ _ ⟨⟩
    decide
  name := [97]

/-- The same for the Rust server. -/
def rustRequest (b : Byte) : RustServer.Request :=
  ⟨⟨fun _ => some path, fun _ => .ok (true, 1), fun _ => none, fun _ => [.data [b]], fun _ => []⟩,
    [97]⟩

end Freshness.Example

open DocRoot.Example Freshness.Example in
/-- A file is read, changes, is answered from the cache, and is read again after a flush. -/
theorem select_servers_fresh_change :
    (∃ x, (FileServer.readThrough root).lts.Reachable x ∧
      x.log.map Sent.snapshot = [1, 1, 5] ∧ ∀ y ∈ x.log, Stamped y.snapshot y.key y.body) ∧
    ∃ x, (RustServer.readThrough root).lts.Reachable x ∧
      x.log.map Sent.snapshot = [1, 1, 5] ∧ ∀ y ∈ x.log, Stamped y.snapshot y.key.bytes y.body := by
  have hfresh := select_servers_fresh root
  constructor
  · obtain ⟨x, hx, hcheck⟩ := LTS.exec_of_run_any (FileServer.readThrough root).lts _
      [.request (request 104), .change, .request (request 105), .flush, .request (request 105)]
      (fun x => x.log.map Sent.snapshot = [1, 1, 5]) rfl (by decide +kernel)
    have hreach : (FileServer.readThrough root).lts.Reachable x := ⟨_, hx⟩
    obtain ⟨-, hsent, -⟩ := hfresh.1 x hreach
    exact ⟨x, hreach, of_decide_eq_true hcheck, fun y hy => (hsent y hy).2⟩
  · obtain ⟨x, hx, hcheck⟩ := LTS.exec_of_run_any (RustServer.readThrough root).lts _
      [.request (rustRequest 104), .change, .request (rustRequest 105), .flush,
        .request (rustRequest 105)]
      (fun x => x.log.map Sent.snapshot = [1, 1, 5]) rfl (by decide +kernel)
    have hreach : (RustServer.readThrough root).lts.Reachable x := ⟨_, hx⟩
    obtain ⟨-, hsent, -⟩ := hfresh.2.1 x hreach
    exact ⟨x, hreach, of_decide_eq_true hcheck, fun y hy => (hsent y hy).2⟩

end Osvcp.Servers
