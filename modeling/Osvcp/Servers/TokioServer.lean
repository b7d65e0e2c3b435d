import Osvcp.Lib.Transition
import Osvcp.Servers.RustFileServer

/-! # The Tokio server

`tokio-file-server/src/main.rs`: every connection is a task, and `serve_file` of a task is cut at
its await points and at the two places where it takes the lock of the cache. `Pc` is where a task
stands and `serve` is one step of it; the system interleaves the steps of any number of tasks with
clears of the cache and with the changes of the files, of which only the passing of time is seen
here. Every read of a file is stamped with its time, and a cached response with that of its read.
The stamps, the times at which requests start and the log of deliveries record what happened and are
not read by the server.
-/

namespace Osvcp.Servers.TokioServer

/-- A cached response, with the time at which the file was read. -/
structure Entry where
  readAt : ℕ
  resp : List Cell

/-- Where a task stands: what it does next. -/
inductive Pc
  /-- `next_line`. -/
  | waiting
  /-- `write_all` of an error line. -/
  | refuse (msg : List Cell)
  | lookup (path : CanonPath)
  /-- `write_all` of a cached response. -/
  | hit (path : CanonPath) (entry : Entry)
  | metadata (path : CanonPath)
  | openFile (path : CanonPath) (size : ℕ)
  | readBody (path : CanonPath) (size : ℕ)
  /-- `write_all` of a response that was read as a whole. -/
  | write (path : CanonPath) (entry : Entry)
  | insert (path : CanonPath) (entry : Entry)
  /-- `write_all` of the header of a large file. -/
  | header (path : CanonPath) (size : ℕ)
  | readChunk (path : CanonPath)
  /-- `write_all` of a chunk. -/
  | writeChunk (path : CanonPath) (readAt : ℕ) (chunk : List Byte)
  | closed

/-- What a task is given at a step: the next line with what `canonicalize` makes of it, the end of
the input, the lock of the cache, or the result of the call it awaits. -/
inductive Op
  | request (name : List Byte) (canonicalize : List Byte → Option CanonPath)
  | hangup
  | lookup
  | metadata (result : Except String (Bool × ℕ))
  | opened (error : Option String)
  | readBody (reads : List FileRead)
  | readChunk (read : FileRead)
  | wrote (rs : List WriteResult)
  | insert

/-- What a step of a task does: where it goes, the bytes it sends, the file whose data it has
delivered with the time of its read, and the entry it stores. -/
structure Effect where
  pc : Pc
  sent : List Cell
  delivered : Option (CanonPath × ℕ)
  stored : Option (CanonPath × Entry)

/-- A step that neither sends nor stores. -/
def Effect.goto (pc : Pc) : Effect := ⟨pc, [], none, none⟩

/-- `write_all(..).await?`: on an error the connection is closed. -/
def Effect.write (rs : List WriteResult) (msg : List Cell) (pc : Pc)
    (delivered : Option (CanonPath × ℕ)) : Effect :=
  if (writeAllOrZero rs msg).2 then ⟨pc, (writeAllOrZero rs msg).1, delivered, none⟩
  else ⟨.closed, (writeAllOrZero rs msg).1, none, none⟩

/-- `resolve_path`. -/
def resolvePath (root : DocRoot) (canonicalize : List Byte → Option CanonPath) (name : List Byte) :
    Except String CanonPath :=
  if name = [] then .error "empty filename"
  else if name.head? = some SLASH then .error "absolute paths not allowed"
  else
    match canonicalize (root.join name) with
    | none => .error "not found"
    | some path => if startsWith path root.path then .ok path else .error "access denied"

/-- One step of `serve_file` and of the loop of `handle_connection` around it, at a time and with
the cache at that time. -/
def serve (root : DocRoot) (now : ℕ) (cache : FileCache CanonPath Entry) : Pc → Op → Option Effect
  | .waiting, .request name canonicalize =>
      match resolvePath root canonicalize name with
      | .error msg => some (.goto (.refuse (errLine msg)))
      | .ok path => some (.goto (.lookup path))
  | .waiting, .hangup => some (.goto .closed)
  | .refuse msg, .wrote rs => some (.write rs msg .waiting none)
  | .lookup path, .lookup =>
      match cache.get path with
      | some entry => some (.goto (.hit path entry))
      | none => some (.goto (.metadata path))
  | .hit path entry, .wrote rs => some (.write rs entry.resp .waiting (some (path, entry.readAt)))
  | .metadata path, .metadata result =>
      match result with
      | .ok (true, size) => some (.goto (.openFile path size))
      | .ok (false, _) => some (.goto (.refuse (errLine "not a regular file")))
      | .error msg => some (.goto (.refuse (errLine ("metadata: " ++ msg))))
  | .openFile path size, .opened error =>
      match error with
      | some msg => some (.goto (.refuse (errLine ("open: " ++ msg))))
      | none =>
          if size ≤ MAX_CACHE_FILE_BYTES then some (.goto (.readBody path size))
          else some (.goto (.header path size))
  | .readBody path size, .readBody reads =>
      match readExact reads size with
      | none => some (.goto .closed)
      | some body =>
          some (.goto (.write path ⟨now, okHeader size ++ fileCells ⟨path.bytes, now⟩ body⟩))
  | .write path entry, .wrote rs =>
      some (.write rs entry.resp (.insert path entry) (some (path, entry.readAt)))
  | .insert path entry, .insert => some ⟨.waiting, [], none, some (path, entry)⟩
  | .header path size, .wrote rs => some (.write rs (okHeader size) (.readChunk path) none)
  | .readChunk path, .readChunk read =>
      match read with
      | .data bytes =>
          match bytes.take FILE_CHUNK with
          | [] => some (.goto .waiting)
          | chunk => some (.goto (.writeChunk path now chunk))
      | .interrupted => some (.goto .closed)
      | .failed => some (.goto .closed)
  | .writeChunk path readAt chunk, .wrote rs =>
      some (.write rs (fileCells ⟨path.bytes, readAt⟩ chunk) (.readChunk path)
        (some (path, readAt)))
  | _, _ => none

/-- A connection: where its task stands, the start of its request, the last clear before that, and
what it has been sent. -/
structure Conn where
  pc : Pc
  started : ℕ
  cleared : ℕ
  sent : List Cell

/-- Data of a file that was completely written to a client: the path, the start of the request, the
last clear before that, the time of the write, and the time of the read. -/
structure Delivery where
  path : CanonPath
  started : ℕ
  cleared : ℕ
  completed : ℕ
  stamp : ℕ
  deriving DecidableEq

/-- The state: the connections, the cache, the time, and the time of the last clear. -/
structure State where
  conns : ℕ → Conn
  cache : FileCache CanonPath Entry
  now : ℕ
  cleared : ℕ
  log : List Delivery

/-- What happens: a step of a task, a clear by the task that waits for `SIGUSR1`, or a change of the
files. -/
inductive Action
  | task (i : ℕ) (op : Op)
  | clear
  | change

/-- A request starts with the line it is read from. -/
def Conn.begin (c : Conn) (now cleared : ℕ) : Op → Conn
  | .request _ _ => { c with started := now, cleared := cleared }
  | _ => c

/-- What the effect of a step of task `i` makes of the state. -/
def State.apply (s : State) (i : ℕ) (op : Op) (e : Effect) : State :=
  let c := (s.conns i).begin s.now s.cleared op
  { s with
    conns := Function.update s.conns i { c with pc := e.pc, sent := c.sent ++ e.sent }
    cache := e.stored.elim s.cache fun p => s.cache.insert p.1 p.2
    log := s.log ++ (e.delivered.map fun p => ⟨p.1, c.started, c.cleared, s.now, p.2⟩).toList
    now := s.now + 1 }

/-- The server. -/
def lts (root : DocRoot) : LTS State Action where
  init s := s = ⟨fun _ => ⟨.waiting, 0, 0, []⟩, .new, 1, 0, []⟩
  step s
    | .task i op => (serve root s.now s.cache (s.conns i).pc op).map (s.apply i op)
    | .clear => some { s with cache := s.cache.clear, cleared := s.now, now := s.now + 1 }
    | .change => some { s with now := s.now + 1 }

/-! ## What a step can do -/

namespace Pc

/-- The file whose missing entry the task is working on: from the lookup that missed to the end of
the request. -/
def missing : Pc → Option CanonPath
  | .metadata path => some path
  | .openFile path _ => some path
  | .readBody path _ => some path
  | .write path _ => some path
  | .insert path _ => some path
  | .header path _ => some path
  | .readChunk path => some path
  | .writeChunk path _ _ => some path
  | _ => none

/-- The response that was read and is not yet stored. -/
def unstored : Pc → Option (CanonPath × Entry)
  | .write path entry => some (path, entry)
  | .insert path entry => some (path, entry)
  | _ => none

/-- The data the task is about to deliver. -/
def pending : Pc → Option (CanonPath × ℕ)
  | .hit path entry => some (path, entry.readAt)
  | .write path entry => some (path, entry.readAt)
  | .writeChunk path readAt _ => some (path, readAt)
  | _ => none

theorem missing_of_unstored {pc : Pc} {p : CanonPath × Entry} (h : pc.unstored = some p) :
    pc.missing = some p.1 := by
  cases pc <;> cases h <;> rfl

end Pc

/-- The steps of a task by what they mean for the cache and the log. -/
inductive Move (now : ℕ) (cache : FileCache CanonPath Entry) : Pc → Op → Effect → Prop
  | quiet {pc : Pc} {op : Op} {e : Effect}
      (hmissing : ∀ p, e.pc.missing = some p → pc.missing = some p)
      (hunstored : e.pc.unstored = none) (hpending : e.pc.pending = none)
      (hdelivered : e.delivered = none) (hstored : e.stored = none) : Move now cache pc op e
  | hit {path : CanonPath} {entry : Entry} (hget : cache.get path = some entry) :
      Move now cache (.lookup path) .lookup (.goto (.hit path entry))
  | miss {path : CanonPath} (hget : cache.get path = none) :
      Move now cache (.lookup path) .lookup (.goto (.metadata path))
  | read {path : CanonPath} {size : ℕ} {reads : List FileRead} (body : List Byte) :
      Move now cache (.readBody path size) (.readBody reads)
        (.goto (.write path ⟨now, okHeader size ++ fileCells ⟨path.bytes, now⟩ body⟩))
  | chunk {path : CanonPath} {read : FileRead} (chunk : List Byte) :
      Move now cache (.readChunk path) (.readChunk read) (.goto (.writeChunk path now chunk))
  | sendHit {path : CanonPath} {entry : Entry} {rs : List WriteResult} (sent : List Cell) :
      Move now cache (.hit path entry) (.wrote rs) ⟨.waiting, sent, some (path, entry.readAt), none⟩
  | send {path : CanonPath} {entry : Entry} {rs : List WriteResult} (sent : List Cell) :
      Move now cache (.write path entry) (.wrote rs)
        ⟨.insert path entry, sent, some (path, entry.readAt), none⟩
  | sendChunk {path : CanonPath} {readAt : ℕ} {chunk : List Byte} {rs : List WriteResult}
      (sent : List Cell) :
      Move now cache (.writeChunk path readAt chunk) (.wrote rs)
        ⟨.readChunk path, sent, some (path, readAt), none⟩
  | insert {path : CanonPath} {entry : Entry} :
      Move now cache (.insert path entry) .insert ⟨.waiting, [], none, some (path, entry)⟩

section

variable {root : DocRoot} {now : ℕ} {cache : FileCache CanonPath Entry}

theorem Move.goto {pc pc' : Pc} {op : Op}
    (hmissing : ∀ p, pc'.missing = some p → pc.missing = some p) (hunstored : pc'.unstored = none)
    (hpending : pc'.pending = none) :
    Move now cache pc op (.goto pc') :=
  .quiet hmissing hunstored hpending rfl rfl

/-- A write fails, or does what it does when it succeeds. -/
theorem Move.write {pc pc' : Pc} {rs : List WriteResult} {msg : List Cell}
    {delivered : Option (CanonPath × ℕ)}
    (h : ∀ sent, Move now cache pc (.wrote rs) ⟨pc', sent, delivered, none⟩) :
    Move now cache pc (.wrote rs) (.write rs msg pc' delivered) := by
  unfold Effect.write
  split
  · exact h _
  · exact .quiet nofun rfl rfl rfl rfl

/-- **What a step of a task can do.** -/
theorem serve_cases {pc : Pc} {op : Op} {e : Effect} (h : serve root now cache pc op = some e) :
    Move now cache pc op e := by
  unfold serve at h
  split at h
  · split at h
    · cases h
      exact .goto nofun rfl rfl
    · cases h
      exact .goto nofun rfl rfl
  · cases h
    exact .goto nofun rfl rfl
  · cases h
    exact .write fun _ => .quiet nofun rfl rfl rfl rfl
  · split at h
    · rename_i hget
      cases h
      exact .hit hget
    · rename_i hget
      cases h
      exact .miss hget
  · cases h
    exact .write .sendHit
  · split at h
    · cases h
      exact .goto (fun _ hp => hp) rfl rfl
    · cases h
      exact .goto nofun rfl rfl
    · cases h
      exact .goto nofun rfl rfl
  · split at h
    · cases h
      exact .goto nofun rfl rfl
    · split at h
      · cases h
        exact .goto (fun _ hp => hp) rfl rfl
      · cases h
        exact .goto (fun _ hp => hp) rfl rfl
  · split at h
    · cases h
      exact .goto nofun rfl rfl
    · cases h
      exact .read _
  · cases h
    exact .write .send
  · cases h
    exact .insert
  · cases h
    exact .write fun _ => .quiet (fun _ hp => hp) rfl rfl rfl rfl
  · split at h
    · split at h
      · cases h
        exact .goto nofun rfl rfl
      · cases h
        exact .chunk _
    · cases h
      exact .goto nofun rfl rfl
    · cases h
      exact .goto nofun rfl rfl
  · cases h
    exact .write .sendChunk
  · cases h

/-! Of the parts of an effect: where what is delivered, stored or held after a step comes from. -/

namespace Move

variable {pc : Pc} {op : Op} {e : Effect}

theorem delivered (h : Move now cache pc op e) {p : CanonPath × ℕ} (hp : e.delivered = some p) :
    pc.pending = some p ∧ ∃ rs, op = .wrote rs := by
  cases h with
  | quiet _ _ _ hdelivered _ => exact absurd (hdelivered.symm.trans hp) nofun
  | sendHit sent =>
      cases hp
      exact ⟨rfl, _, rfl⟩
  | send sent =>
      cases hp
      exact ⟨rfl, _, rfl⟩
  | sendChunk sent =>
      cases hp
      exact ⟨rfl, _, rfl⟩
  | _ => cases hp

theorem stored (h : Move now cache pc op e) {p : CanonPath × Entry} (hp : e.stored = some p) :
    pc.unstored = some p := by
  cases h with
  | quiet _ _ _ _ hstored => exact absurd (hstored.symm.trans hp) nofun
  | insert =>
      cases hp
      rfl
  | _ => cases hp

theorem unstored (h : Move now cache pc op e) {path : CanonPath} {entry : Entry}
    (hp : e.pc.unstored = some (path, entry)) : pc.unstored = some (path, entry) ∨
      entry.readAt = now ∧ Stamped now path.bytes entry.resp := by
  cases h with
  | quiet _ hunstored _ _ _ => exact absurd (hunstored.symm.trans hp) nofun
  | read body =>
      cases hp
      refine .inr ⟨rfl, ?_⟩
      exact (filesFrom_okHeader _).append (filesFrom_fileCells (p := (· = _)) rfl body)
  | send sent =>
      cases hp
      exact .inl rfl
  | _ => cases hp

theorem pending (h : Move now cache pc op e) {path : CanonPath} {t : ℕ}
    (hp : e.pc.pending = some (path, t)) :
    t = now ∨ ∃ entry, cache.get path = some entry ∧ entry.readAt = t := by
  cases h with
  | quiet _ _ hpending _ _ => exact absurd (hpending.symm.trans hp) nofun
  | hit hget =>
      cases hp
      exact .inr ⟨_, hget, rfl⟩
  | read body =>
      cases hp
      exact .inl rfl
  | chunk chunk =>
      cases hp
      exact .inl rfl
  | _ => cases hp

theorem missing (h : Move now cache pc op e) {path : CanonPath} (hp : e.pc.missing = some path) :
    pc.missing = some path ∨ pc = .lookup path ∧ op = .lookup ∧ cache.get path = none := by
  cases h with
  | quiet hmissing _ _ _ _ => exact .inl (hmissing path hp)
  | miss hget =>
      cases hp
      exact .inr ⟨rfl, rfl, hget⟩
  | hit hget => cases hp
  | sendHit sent => cases hp
  | insert => cases hp
  | _ => exact .inl hp

end Move

end

/-- Tasks that have taken no step wait for their first line. -/
theorem waiting_of_unused {root : DocRoot} {tr : List (State × Action)} {s : State}
    (h : (lts root).Exec tr s) {n : ℕ} (hn : ∀ p ∈ tr, ∀ i op, p.2 = .task i op → i < n) :
    ∀ t ∈ LTS.visited tr s, ∀ j, n ≤ j → (t.conns j).pc = .waiting := by
  refine h.invariant_visited (fun _ a => ∀ i op, a = .task i op → i < n) ?_ ?_ hn
  · rintro s rfl j _
    rfl
  · intro s a t hs hok hstep j hj
    cases a with
    | task i op =>
        obtain ⟨e, -, rfl⟩ := Option.map_eq_some_iff.mp hstep
        have hlt := hok i op rfl
        have hne : j ≠ i := by omega
        simp only [State.apply, Function.update_of_ne hne]
        exact hs j hj
    | clear =>
        cases hstep
        exact hs j hj
    | change =>
        cases hstep
        exact hs j hj

/-! ## Concrete runs

The document root `/d` with one file `/d/a`. -/

namespace Example

open DocRoot.Example

/-- The start of the system. -/
def start : State := ⟨fun _ => ⟨.waiting, 0, 0, []⟩, .new, 1, 0, []⟩

/-- Task `i` asks for the file. -/
def ask (i : ℕ) : List Action := [.task i (.request [97] fun _ => some path), .task i .lookup]

/-- Task `i` reads the file, which holds one byte. -/
def read (i : ℕ) (b : Byte) : List Action :=
  [.task i (.metadata (.ok (true, 1))), .task i (.opened none), .task i (.readBody [.data [b]])]

/-- Task `i` sends what it has. -/
def send (i : ℕ) : List Action := [.task i (.wrote [])]

/-- Task `i` stores what it has read. -/
def store (i : ℕ) : List Action := [.task i .insert]

end Example

end Osvcp.Servers.TokioServer
