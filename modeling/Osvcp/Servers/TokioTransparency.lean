import Osvcp.Servers.RustTransparency
import Osvcp.Servers.TokioOneResponse

/-! # Runs of the Tokio server over a static file system

Any number of tasks step through `serve_file` in any order, with clears of the cache in between.
Over a file system that does not change, what a connection is sent is still a function of its own
requests: always a prefix of their answers, and all of them when its task waits for the next line.
`Stands` says this for each place at which a task can stand, and a step of a task keeps it, whatever
the others have done to the cache in the meantime: they only store complete responses.

The position in a large file is what has been sent of it since its header, as every chunk is written
before the next one is read.
-/

namespace Osvcp.Servers

/-- A byte of a file. -/
def Cell.isFile : Cell → Bool
  | .file _ _ => true
  | _ => false

/-- The bytes of a file that were sent last. -/
def fileTail (sent : List Cell) : List Cell := (sent.reverse.takeWhile Cell.isFile).reverse

theorem isFile_of_mem_fileCells {src : Source} {data : List Byte} :
    ∀ c ∈ fileCells src data, c.isFile = true := by
  intro c hc
  obtain ⟨b, -, rfl⟩ := List.mem_map.mp hc
  rfl

/-- They reach back to the header. -/
theorem fileTail_append_header (cells : List Cell) (size : ℕ) {file : List Cell}
    (hfile : ∀ c ∈ file, c.isFile = true) : fileTail (cells ++ okHeader size ++ file) = file := by
  have hrev : ∀ c ∈ file.reverse, c.isFile = true := fun c hc => hfile c (List.mem_reverse.mp hc)
  rw [fileTail, List.reverse_append, List.takeWhile_append_of_pos hrev, okHeader]
  have hend : (text "\n").reverse = [Cell.text LF] := rfl
  simp [hend, Cell.isFile]

namespace TokioServer

/-! ## What a connection has been sent -/

/-- The names a connection has requested. -/
def requestOf (i : ℕ) (p : State × Action) : Option (List Byte) :=
  match p.2 with
  | .task j (.request name _) => if j = i then some name else none
  | _ => none

/-- What a request comes to. -/
def servedName (t : Tree) (root : DocRoot) (name : List Byte) : Served :=
  t.served "metadata: " root name

/-- An entry holds the file. -/
def EntryOk (t : Tree) (path : CanonPath) (entry : Entry) : Prop :=
  t.kind path = .readable ∧ values entry.resp = (Served.file (t.content path)).bytes

/-- The cached responses are those of the file system. -/
def CacheOk (t : Tree) (cache : FileCache CanonPath Entry) : Prop :=
  ∀ path entry, cache.get path = some entry → EntryOk t path entry

/-- Nothing of the answer to the last request has been sent, and `p` holds of that answer. -/
def Asked (t : Tree) (root : DocRoot) (names : List (List Byte)) (sent : List Cell)
    (p : Served → Prop) :
    Prop :=
  ∃ before name, names = before ++ [name] ∧ values sent = answerBytes (servedName t root) before ∧
    p (servedName t root name)

/-- The header and a part of a large file have been sent, and `more` comes next in the file. -/
def Streaming (t : Tree) (root : DocRoot) (names : List (List Byte)) (sent : List Cell)
    (path : CanonPath) (more : List Byte) : Prop :=
  ∃ before name cells file, names = before ++ [name] ∧
    servedName t root name = .file (t.content path) ∧
    sent = cells ++ okHeader (t.content path).length ++ file ∧
    values cells = answerBytes (servedName t root) before ∧
    (∀ c ∈ file, c.isFile = true) ∧ values file ++ more <+: t.content path

/-- What has been sent to a connection when its task stands there. -/
def Stands (t : Tree) (root : DocRoot) (names : List (List Byte)) (sent : List Cell) : Pc → Prop
  | .waiting => values sent = answerBytes (servedName t root) names
  | .refuse msg => Asked t root names sent fun a => values msg = a.bytes
  | .lookup path => Asked t root names sent (· = t.servedPath "metadata: " path)
  | .hit _ entry => Asked t root names sent fun a => values entry.resp = a.bytes
  | .metadata path => Asked t root names sent (· = t.servedPath "metadata: " path)
  | .openFile path size => Asked t root names sent fun a => a = t.servedPath "metadata: " path ∧
      ((∃ error, t.kind path = .unreadable error) ∨
        t.kind path = .readable ∧ size = (t.content path).length)
  | .readBody path size => Asked t root names sent fun a => a = .file (t.content path) ∧
      t.kind path = .readable ∧ size = (t.content path).length
  | .write path entry => EntryOk t path entry ∧ Asked t root names sent (· = .file (t.content path))
  | .insert path entry => EntryOk t path entry ∧ values sent = answerBytes (servedName t root) names
  | .header path size => size = (t.content path).length ∧
      Asked t root names sent (· = .file (t.content path))
  | .readChunk path => Streaming t root names sent path []
  | .writeChunk path _ chunk => Streaming t root names sent path chunk
  | .closed => values sent <+: answerBytes (servedName t root) names

/-- What a task is given at a step reports the file system: a read that succeeds reads the file,
from where the last one has stopped. The writes may do as they like. -/
def Op.Shows (t : Tree) (sent : List Cell) : Pc → Op → Prop
  | _, .request _ canonicalize => canonicalize = t.canonicalize
  | .metadata path, .metadata result => ∃ error, t.Tells path result error
  | .openFile path _, .opened error => ∃ result, t.Tells path result error
  | .readBody path size, .readBody reads => ∀ body, readExact reads size = some body →
      body = t.content path
  | .readChunk path, .readChunk (.data bytes) =>
      bytes.length ≤ FILE_CHUNK ∧ bytes <+: (t.content path).drop (fileTail sent).length ∧
        (bytes = [] → (t.content path).length ≤ (fileTail sent).length)
  | _, _ => True

/-- The step of the system reports the file system. -/
def Reports (t : Tree) (p : State × Action) : Prop :=
  ∀ i op, p.2 = .task i op → op.Shows t (p.1.conns i).sent (p.1.conns i).pc

section

variable {t : Tree} {root : DocRoot} {names : List (List Byte)} {sent : List Cell}

/-- Nothing of the last answer is a prefix. -/
theorem Asked.isPrefix {p : Served → Prop} (h : Asked t root names sent p) :
    values sent <+: answerBytes (servedName t root) names := by
  obtain ⟨before, name, rfl, hsent, -⟩ := h
  rw [hsent, answerBytes_append]
  exact List.prefix_append _ _

theorem Asked.mono {p q : Served → Prop} (h : Asked t root names sent p) (hpq : ∀ a, p a → q a) :
    Asked t root names sent q := by
  obtain ⟨before, name, hnames, hsent, hp⟩ := h
  exact ⟨before, name, hnames, hsent, hpq _ hp⟩

/-- Where the answer is sent in one write. -/
theorem Asked.write {msg : List Cell} (h : Asked t root names sent fun a => values msg = a.bytes)
    (rs : List WriteResult) {pc : Pc} (delivered : Option (CanonPath × ℕ))
    (hpc : ∀ cells, values cells = answerBytes (servedName t root) names →
      Stands t root names cells pc) :
    Stands t root names (sent ++ (Effect.write rs msg pc delivered).sent)
      (Effect.write rs msg pc delivered).pc := by
  obtain ⟨before, name, rfl, hsent, hmsg⟩ := h
  have hall : answerBytes (servedName t root) (before ++ [name]) = values sent ++ values msg := by
    rw [answerBytes_append, answerBytes_singleton, hsent, hmsg]
  unfold Effect.write
  split
  · rename_i hok
    apply hpc
    rw [values_append, writeAllOrZero_of_ok hok, hall]
  · show values (sent ++ (writeAllOrZero rs msg).1) <+: _
    rw [values_append, hall]
    exact (List.prefix_append_right_inj _).mpr ((writeAllOrZero_isPrefix rs msg).map _)

/-- What has been sent of a large file is a prefix. -/
theorem Streaming.isPrefix {path : CanonPath} {more : List Byte}
    (h : Streaming t root names sent path more) :
    values sent <+: answerBytes (servedName t root) names := by
  obtain ⟨before, name, cells, file, rfl, hserved, rfl, hcells, -, hfile⟩ := h
  rw [answerBytes_append, answerBytes_singleton, hserved, values_append, values_append, hcells,
    List.append_assoc, List.prefix_append_right_inj, Served.bytes, List.prefix_append_right_inj]
  exact (List.prefix_append _ _).trans hfile

/-- **Wherever a task stands**, its connection has been sent a prefix of the answers. -/
theorem Stands.isPrefix {pc : Pc} (h : Stands t root names sent pc) :
    values sent <+: answerBytes (servedName t root) names := by
  unfold Stands at h
  split at h
  · exact h ▸ List.prefix_rfl
  · exact h.isPrefix
  · exact h.isPrefix
  · exact h.isPrefix
  · exact h.isPrefix
  · exact h.isPrefix
  · exact h.isPrefix
  · exact h.2.isPrefix
  · exact h.2 ▸ List.prefix_rfl
  · exact h.2.isPrefix
  · exact h.isPrefix
  · exact h.isPrefix
  · exact h

/-! ## One step of a task -/

/-- A line is read. -/
theorem stands_request (h : values sent = answerBytes (servedName t root) names)
    (name : List Byte) :
    match resolvePath root t.canonicalize name with
    | .error msg => Stands t root (names ++ [name]) sent (.refuse (errLine msg))
    | .ok path => Stands t root (names ++ [name]) sent (.lookup path) := by
  have hasked : ∀ {a : Served}, servedName t root name = a →
      Asked t root (names ++ [name]) sent (· = a) :=
    fun ha => ⟨names, name, rfl, h, ha⟩
  have herror : ∀ {msg : String}, servedName t root name = .error msg →
      Stands t root (names ++ [name]) sent (.refuse (errLine msg)) := by
    intro msg ha
    rw [Stands]
    refine (hasked ha).mono fun a ha => ?_
    rw [ha]
    rfl
  unfold servedName Tree.served at hasked herror
  unfold resolvePath
  by_cases hempty : name = []
  · rw [if_pos hempty]
    exact herror (by rw [if_pos hempty])
  · rw [if_neg hempty] at hasked herror ⊢
    by_cases habs : name.head? = some SLASH
    · rw [if_pos habs]
      exact herror (by rw [if_pos habs])
    · rw [if_neg habs] at hasked herror ⊢
      cases hcanon : t.canonicalize (root.join name) with
      | none => exact herror (by rw [hcanon])
      | some path =>
          rw [hcanon] at hasked herror
          simp only at hasked herror ⊢
          cases hin : startsWith path root.path with
          | false => exact herror (by rw [if_pos hin])
          | true => exact hasked (by rw [if_neg (by simp [hin])])

/-- The cache is looked at. -/
theorem stands_lookup {cache : FileCache CanonPath Entry} (hcache : CacheOk t cache)
    {path : CanonPath} (h : Stands t root names sent (.lookup path)) :
    match cache.get path with
    | some entry => Stands t root names sent (.hit path entry)
    | none => Stands t root names sent (.metadata path) := by
  cases hget : cache.get path with
  | none => exact h
  | some entry =>
      obtain ⟨hkind, hresp⟩ := hcache path entry hget
      simp only [Stands] at h ⊢
      refine h.mono fun a ha => ?_
      rw [ha, Tree.servedPath_of_readable hkind]
      exact hresp

/-- `metadata` returns. -/
theorem stands_metadata {path : CanonPath} {result : Except String (Bool × ℕ)}
    {error : Option String} (h : Stands t root names sent (.metadata path)) :
    t.Tells path result error → match result with
    | .ok (true, size) => Stands t root names sent (.openFile path size)
    | .ok (false, _) => Stands t root names sent (.refuse (errLine "not a regular file"))
    | .error msg => Stands t root names sent (.refuse (errLine ("metadata: " ++ msg))) := by
  intro htells
  rw [Tree.Tells] at htells
  simp only [Stands] at h ⊢
  cases hkind : t.kind path with
  | noMetadata msg =>
      rw [hkind] at htells
      rw [htells]
      refine h.mono fun a ha => ?_
      rw [ha, Tree.servedPath, hkind]
      rfl
  | notRegular =>
      rw [hkind] at htells
      obtain ⟨size, rfl⟩ := htells
      refine h.mono fun a ha => ?_
      rw [ha, Tree.servedPath, hkind]
      rfl
  | unreadable msg =>
      rw [hkind] at htells
      obtain ⟨⟨size, rfl⟩, -⟩ := htells
      exact h.mono fun a ha => ⟨ha, .inl ⟨msg, rfl⟩⟩
  | readable =>
      rw [hkind] at htells
      obtain ⟨rfl, -⟩ := htells
      exact h.mono fun a ha => ⟨ha, .inr ⟨rfl, rfl⟩⟩

/-- `open` returns. -/
theorem stands_opened {path : CanonPath} {size : ℕ} {result : Except String (Bool × ℕ)}
    {error : Option String} (h : Stands t root names sent (.openFile path size)) :
    t.Tells path result error → match error with
    | some msg => Stands t root names sent (.refuse (errLine ("open: " ++ msg)))
    | none => Stands t root names sent (.readBody path size) ∧
        Stands t root names sent (.header path size) := by
  intro htells
  obtain ⟨before, name, hnames, hsent, hserved, hkind⟩ := h
  rw [Tree.Tells] at htells
  rcases hkind with ⟨msg, hkind⟩ | ⟨hkind, hsize⟩
  · rw [hkind] at htells
    obtain ⟨-, rfl⟩ := htells
    refine ⟨before, name, hnames, hsent, ?_⟩
    rw [hserved, Tree.servedPath, hkind]
    rfl
  · rw [hkind] at htells
    obtain ⟨-, rfl⟩ := htells
    rw [Tree.servedPath_of_readable hkind] at hserved
    exact ⟨⟨before, name, hnames, hsent, hserved, hkind, hsize⟩, hsize, before, name, hnames,
      hsent, hserved⟩

/-- The header of a large file is written. -/
theorem stands_header {path : CanonPath} {size : ℕ}
    (h : Stands t root names sent (.header path size)) (rs : List WriteResult) :
    Stands t root names (sent ++ (Effect.write rs (okHeader size) (.readChunk path) none).sent)
      (Effect.write rs (okHeader size) (.readChunk path) none).pc := by
  obtain ⟨rfl, before, name, rfl, hsent, hserved⟩ := h
  unfold Effect.write
  split
  · rename_i hok
    refine ⟨before, name, sent, [], rfl, hserved, ?_, hsent, nofun, List.nil_prefix⟩
    rw [List.append_nil]
    exact congrArg (sent ++ ·) (writeAllOrZero_of_ok hok)
  · show values (sent ++ (writeAllOrZero rs _).1) <+: _
    rw [values_append, answerBytes_append, answerBytes_singleton, hserved, hsent,
      List.prefix_append_right_inj]
    exact ((writeAllOrZero_isPrefix rs _).map _).trans (List.prefix_append _ _)

/-- A chunk of a large file is read: the next one, or nothing at its end. -/
theorem stands_readChunk {path : CanonPath} {bytes : List Byte} (now : ℕ)
    (hshows : bytes <+: (t.content path).drop (fileTail sent).length)
    (hend : bytes = [] → (t.content path).length ≤ (fileTail sent).length)
    (h : Stands t root names sent (.readChunk path)) :
    if bytes = [] then Stands t root names sent .waiting
    else Stands t root names sent (.writeChunk path now bytes) := by
  obtain ⟨before, name, cells, file, rfl, hserved, rfl, hcells, hisFile, hfile⟩ := h
  rw [fileTail_append_header _ _ hisFile] at hshows hend
  rw [List.append_nil] at hfile
  split
  · rename_i hbytes
    have hwhole : values file = t.content path := by
      refine hfile.eq_of_length_le ?_
      rw [values, List.length_map]
      exact hend hbytes
    show values _ = _
    rw [values_append, values_append, hcells, hwhole, answerBytes_append,
      answerBytes_singleton, hserved, List.append_assoc]
    rfl
  · refine ⟨before, name, cells, file, rfl, hserved, rfl, hcells, hisFile, ?_⟩
    obtain ⟨rest, hrest⟩ := hfile
    have hdrop : (t.content path).drop file.length = rest := by
      rw [← hrest, show file.length = (values file).length by rw [values, List.length_map],
        List.drop_left]
    rw [hdrop] at hshows
    rw [← hrest]
    exact (List.prefix_append_right_inj _).mpr hshows

/-- A chunk of a large file is written. -/
theorem stands_writeChunk {path : CanonPath} {readAt : ℕ} {chunk : List Byte}
    (h : Stands t root names sent (.writeChunk path readAt chunk)) (rs : List WriteResult)
    (delivered : Option (CanonPath × ℕ)) :
    Stands t root names
      (sent ++ (Effect.write rs (fileCells ⟨path.bytes, readAt⟩ chunk)
        (.readChunk path) delivered).sent)
      (Effect.write rs (fileCells ⟨path.bytes, readAt⟩ chunk) (.readChunk path) delivered).pc := by
  obtain ⟨before, name, cells, file, rfl, hserved, rfl, hcells, hisFile, hfile⟩ := h
  have hsub := writeAllOrZero_isPrefix rs (fileCells ⟨path.bytes, readAt⟩ chunk)
  have hpart : values (file ++ (writeAllOrZero rs (fileCells ⟨path.bytes, readAt⟩ chunk)).1) <+:
      t.content path := by
    rw [values_append]
    refine List.IsPrefix.trans ((List.prefix_append_right_inj _).mpr ?_) hfile
    have hvalues := hsub.map Cell.value
    rwa [show (fileCells ⟨path.bytes, readAt⟩ chunk).map Cell.value = chunk from
      values_fileCells _ chunk] at hvalues
  have hstream : Streaming t root (before ++ [name])
      (cells ++ okHeader (t.content path).length ++ file ++
      (writeAllOrZero rs (fileCells ⟨path.bytes, readAt⟩ chunk)).1) path [] := by
    refine ⟨before, name, cells, file ++ (writeAllOrZero rs _).1, rfl, hserved,
      List.append_assoc .., hcells, ?_, ?_⟩
    · intro c hc
      rcases List.mem_append.mp hc with hc | hc
      · exact hisFile c hc
      · exact isFile_of_mem_fileCells c (hsub.subset hc)
    · rw [List.append_nil]
      exact hpart
  unfold Effect.write
  split
  · exact hstream
  · exact hstream.isPrefix

/-- The name a step reads. -/
def Op.asks : Op → List (List Byte)
  | .request name _ => [name]
  | _ => []

/-- What a step of a task leaves: where it stands, and a complete response where it stores one. -/
def Keeps (t : Tree) (root : DocRoot) (names : List (List Byte)) (sent : List Cell)
    (e : Effect) : Prop :=
  Stands t root names (sent ++ e.sent) e.pc ∧ ∀ p, e.stored = some p → EntryOk t p.1 p.2

theorem keeps_goto {pc : Pc} (h : Stands t root names sent pc) :
    Keeps t root names sent (.goto pc) :=
  ⟨by rwa [Effect.goto, List.append_nil], fun _ h => by cases h⟩

theorem keeps_write {rs : List WriteResult} {msg : List Cell} {pc : Pc}
    {delivered : Option (CanonPath × ℕ)}
    (h : Stands t root names (sent ++ (Effect.write rs msg pc delivered).sent)
      (Effect.write rs msg pc delivered).pc) :
    Keeps t root names sent (.write rs msg pc delivered) := by
  refine ⟨h, fun p hp => ?_⟩
  unfold Effect.write at hp
  split at hp <;> cases hp

/-- **One step of a task**, with the cache as the others have left it. -/
theorem keeps_of_serve {now : ℕ} {cache : FileCache CanonPath Entry}
    (hcache : CacheOk t cache) {pc : Pc} {op : Op} {e : Effect} (hshows : op.Shows t sent pc)
    (h : Stands t root names sent pc)
    (he : serve root now cache pc op = some e) : Keeps t root (names ++ op.asks) sent e := by
  unfold serve at he
  split at he
  · -- a line
    rename_i name canonicalize
    obtain rfl : canonicalize = t.canonicalize := hshows
    have hnext := stands_request h name
    split at he
    · rename_i msg hres
      rw [hres] at hnext
      cases he
      exact keeps_goto hnext
    · rename_i path hres
      rw [hres] at hnext
      cases he
      exact keeps_goto hnext
  · cases he
    simp only [Op.asks, List.append_nil]
    exact keeps_goto h.isPrefix
  · cases he
    simp only [Op.asks, List.append_nil]
    simp only [Stands] at h
    exact keeps_write (h.write _ none fun cells hcells => hcells)
  · -- the cache
    rename_i path
    simp only [Op.asks, List.append_nil]
    have hnext := stands_lookup hcache h
    split at he
    · rename_i entry hget
      rw [hget] at hnext
      cases he
      exact keeps_goto hnext
    · rename_i hget
      rw [hget] at hnext
      cases he
      exact keeps_goto hnext
  · cases he
    simp only [Op.asks, List.append_nil]
    simp only [Stands] at h
    exact keeps_write (h.write _ _ fun cells hcells => hcells)
  · -- `metadata`
    simp only [Op.asks, List.append_nil]
    obtain ⟨error, htells⟩ := hshows
    have hnext := stands_metadata h htells
    split at he
    · cases he
      exact keeps_goto hnext
    · cases he
      exact keeps_goto hnext
    · cases he
      exact keeps_goto hnext
  · -- `open`
    simp only [Op.asks, List.append_nil]
    obtain ⟨result, htells⟩ := hshows
    have hnext := stands_opened h htells
    split at he
    · cases he
      exact keeps_goto hnext
    · split at he
      · cases he
        exact keeps_goto hnext.1
      · cases he
        exact keeps_goto hnext.2
  · -- a small file
    rename_i path size reads
    simp only [Op.asks, List.append_nil]
    split at he
    · cases he
      exact keeps_goto h.isPrefix
    · rename_i body hbody
      obtain rfl : body = t.content path := hshows body hbody
      obtain ⟨before, name, hnames, hsent, hserved, hkind, rfl⟩ := h
      cases he
      refine keeps_goto ⟨⟨hkind, ?_⟩, before, name, hnames, hsent, hserved⟩
      rw [values_append, values_fileCells]
      rfl
  · rename_i path entry rs
    cases he
    simp only [Op.asks, List.append_nil]
    obtain ⟨hentry, hasked⟩ := h
    refine keeps_write (Asked.write ?_ rs _ fun cells hcells => ⟨hentry, hcells⟩)
    refine hasked.mono fun a ha => ?_
    rw [ha]
    exact hentry.2
  · rename_i path entry
    cases he
    simp only [Op.asks, List.append_nil]
    refine ⟨?_, fun p hp => ?_⟩
    · show values (sent ++ []) = _
      rw [List.append_nil]
      exact h.2
    · cases hp
      exact h.1
  · cases he
    simp only [Op.asks, List.append_nil]
    exact keeps_write (stands_header h _)
  · -- a chunk of a large file
    rename_i path read
    simp only [Op.asks, List.append_nil]
    split at he
    · rename_i bytes
      obtain ⟨hlen, hbytes, hend⟩ := hshows
      have hnext := stands_readChunk now hbytes hend h
      rw [List.take_of_length_le hlen] at he
      split at he
      · cases he
        rw [if_pos rfl] at hnext
        exact keeps_goto hnext
      · rename_i hne
        cases he
        rw [if_neg hne] at hnext
        exact keeps_goto hnext
    · cases he
      exact keeps_goto h.isPrefix
    · cases he
      exact keeps_goto h.isPrefix
  · cases he
    simp only [Op.asks, List.append_nil]
    exact keeps_write (stands_writeChunk h _ _)
  · cases he

/-! ## Runs of the server -/

theorem requestOf_self (i : ℕ) (s : State) (op : Op) :
    (requestOf i (s, .task i op)).toList = op.asks := by
  cases op <;> simp [requestOf, Op.asks]

theorem requestOf_of_ne {i j : ℕ} (hj : j ≠ i) (s : State) (op : Op) :
    requestOf i (s, .task j op) = none := by
  cases op <;> simp [requestOf, hj]

/-- The names a connection has requested in a run. -/
def requested (i : ℕ) (tr : List (State × Action)) : List (List Byte) := tr.filterMap (requestOf i)

theorem requested_snoc (i : ℕ) (tr : List (State × Action)) (p : State × Action) :
    requested i (tr ++ [p]) = requested i tr ++ (requestOf i p).toList := by
  rw [requested, List.filterMap_append]
  cases hp : requestOf i p <;> simp [requested, hp]

/-- **Every run** whose steps report the file system: each task stands where its requests say. -/
theorem stands_of_exec {tr : List (State × Action)} {s : State} (h : (lts root).Exec tr s)
    (hok : ∀ p ∈ tr, Reports t p) :
    CacheOk t s.cache ∧ ∀ i, Stands t root (requested i tr) (s.conns i).sent (s.conns i).pc := by
  induction h with
  | start hs =>
      subst hs
      exact ⟨fun _ _ hget => (by cases hget), fun i => rfl⟩
  | @snoc tr s u a hex hstep ih =>
      obtain ⟨hcache, hstands⟩ := ih fun p hp => hok p (List.mem_append_left _ hp)
      have hreports := hok (s, a) (List.mem_append_right _ List.mem_cons_self)
      cases a with
      | clear =>
          cases hstep
          refine ⟨fun _ _ hget => (by cases hget), fun i => ?_⟩
          rw [requested_snoc]
          simpa [requestOf] using hstands i
      | change =>
          cases hstep
          refine ⟨hcache, fun i => ?_⟩
          rw [requested_snoc]
          simpa [requestOf] using hstands i
      | task j op =>
          obtain ⟨e, he, rfl⟩ := Option.map_eq_some_iff.mp hstep
          have hkeeps := keeps_of_serve hcache (hreports j op rfl) (hstands j) he
          refine ⟨?_, fun i => ?_⟩
          · cases hstored : e.stored with
            | none =>
                rw [State.apply, hstored]
                exact hcache
            | some p =>
                rw [State.apply, hstored]
                intro path entry hget
                rcases FileCache.get_insert hget with hold | ⟨rfl, rfl⟩
                · exact hcache path entry hold
                · exact hkeeps.2 p hstored
          · by_cases hj : i = j
            · subst hj
              obtain ⟨hpc, hsent⟩ := conns_apply_self s i op e
              rw [hpc, hsent, requested_snoc, requestOf_self]
              exact hkeeps.1
            · rw [conns_apply_of_ne s hj, requested_snoc, requestOf_of_ne (Ne.symm hj)]
              simpa using hstands i

end

end TokioServer

open TokioServer in
/-- **`tokio-file-server`, end to end.** Over a file system that does not change, in every
interleaving of any number of tasks with clears of the cache, and whatever the writes do: every
connection has been sent a prefix of the answers to its requests, all of them when its task waits
for the next one, and what its client has received of it makes the replies to its requests, in
order. -/
theorem tokio_server_end_to_end {t : Tree} (ht : t.Plain) (root : DocRoot) {tr s}
    (h : (lts root).Exec tr s) (hok : ∀ p ∈ tr, Reports t p) (i : ℕ) :
    values (s.conns i).sent <+: ((requested i tr).map (servedName t root)).flatMap Served.bytes ∧
    ((s.conns i).pc = .waiting →
      values (s.conns i).sent = ((requested i tr).map (servedName t root)).flatMap Served.bytes) ∧
    ∀ received, received <+: values (s.conns i).sent →
      ClientReads ((requested i tr).map (servedName t root)) received := by
  have hstands := (stands_of_exec h hok).2 i
  refine ⟨hstands.isPrefix, fun hpc => ?_, fun received hr => ?_⟩
  · rw [hpc] at hstands
    exact hstands
  · apply clientReads_of_isPrefix
    · intro a ha
      obtain ⟨name, -, rfl⟩ := List.mem_map.mp ha
      exact Tree.plain_served ht ⟨by decide, by decide, by decide⟩ _
    · exact hr.trans hstands.isPrefix

namespace TokioServer.Example

/-- Two tasks ask for the file, the first stores it after a clear, and both ask again. -/
def shared : List Action :=
  ask 0 ++ ask 1 ++ read 0 104 ++ read 1 104 ++ send 0 ++ [.clear] ++ store 0 ++ send 1 ++
    ask 0 ++ send 0

/-- A whole file is read where its size is 1. -/
def readsOne (p : State × Action) : Bool :=
  match p.2 with
  | .task i (.readBody _) =>
      match (p.1.conns i).pc with
      | .readBody _ size => size == 1
      | _ => false
  | _ => true

/-- The system calls of `shared` report the file system. -/
theorem shared_reports : ∀ p ∈ (lts DocRoot.Example.root).trace start shared,
    Reports RustServer.Example.tree p := by
  have hsize : ((lts DocRoot.Example.root).trace start shared).all readsOne =
      true := by decide +kernel
  rintro ⟨s, a⟩ hp i op rfl
  have hmem := LTS.action_mem_of_mem_trace _ hp
  have hone := List.all_eq_true.mp hsize _ hp
  simp only [shared, ask, read, send, store, List.cons_append, List.nil_append, List.mem_cons,
    Action.task.injEq, reduceCtorEq, List.not_mem_nil, or_false, false_or] at hmem
  cases op with
  | request name canonicalize =>
      simp only [Op.request.injEq, reduceCtorEq, and_false, or_false, false_or] at hmem
      have hcanon : canonicalize = fun _ => some DocRoot.Example.path := by
        rcases hmem with h | h | h <;> exact h.2.2
      exact hcanon
  | metadata result =>
      have hresult : result = .ok (true, 1) := by
        simp only [Op.metadata.injEq, reduceCtorEq, and_false, or_false, false_or] at hmem
        rcases hmem with h | h <;> exact h.2
      cases (s.conns i).pc <;> first | trivial | exact ⟨none, hresult, rfl⟩
  | opened error =>
      have herror : error = none := by
        simp only [Op.opened.injEq, reduceCtorEq, and_false, or_false, false_or] at hmem
        rcases hmem with h | h <;> exact h.2
      cases (s.conns i).pc <;> first | trivial | exact ⟨.ok (true, 1), rfl, herror⟩
  | readBody reads =>
      have hreads : reads = [.data [104]] := by
        simp only [Op.readBody.injEq, reduceCtorEq, and_false, or_false, false_or] at hmem
        rcases hmem with h | h <;> exact h.2
      simp only [readsOne] at hone
      split at hone
      · rename_i path size hpc
        rw [hpc, hreads, beq_iff_eq.mp hone]
        rintro body ⟨⟩
        rfl
      · cases hone
  | readChunk read => simp at hmem
  | _ => exact trivial

end TokioServer.Example

open TokioServer TokioServer.Example in
/-- Two tasks and a clear between the write and the store of one of them. -/
theorem tokio_server_end_to_end_shared :
    ∃ s, (lts DocRoot.Example.root).Exec ((lts DocRoot.Example.root).trace start shared) s ∧
      requested 0 ((lts DocRoot.Example.root).trace start shared) = [[97], [97]] ∧
      values (s.conns 0).sent = ([[97], [97]].map
        (servedName RustServer.Example.tree DocRoot.Example.root)).flatMap Served.bytes := by
  obtain ⟨s, hs, hcheck⟩ := LTS.exec_of_run_any (lts DocRoot.Example.root) start shared
    (fun s => (match (s.conns 0).pc with | .waiting => true | _ => false) = true) rfl
    (by decide +kernel)
  have hpc : (s.conns 0).pc = .waiting := by
    have hmatch := of_decide_eq_true hcheck
    split at hmatch
    · assumption
    · cases hmatch
  have hrequested : requested 0 ((lts DocRoot.Example.root).trace start shared) = [[97], [97]] := by
    decide +kernel
  have hsent := (tokio_server_end_to_end RustServer.Example.tree_plain DocRoot.Example.root hs
    shared_reports 0).2.1 hpc
  rw [hrequested] at hsent
  exact ⟨s, hs, hrequested, hsent⟩

end Osvcp.Servers
