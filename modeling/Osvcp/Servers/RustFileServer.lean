import Osvcp.Servers.FileCache

/-! # The Rust select server

`serve_file` of `rust-file-server/src/main.rs`: a file of at most `MAX_CACHE_FILE_BYTES` is read as
a whole, sent and cached; a larger one is sent in chunks. Unlike in `file-server.c` a failed read of
a small file ends the connection, and so does a failed write of an error line. The results of the
system calls are parameters. `Serving.time` is what the bytes of a file read now carry and is not
read by the server.
-/

namespace Osvcp.Servers

/-! ## Files and sockets in the Rust library -/

/-- The size of the chunks in which large files are sent. -/
def FILE_CHUNK : ℕ := 4096

/-- The largest file that is cached. -/
def MAX_CACHE_FILE_BYTES : ℕ := 64 * 1024

/-- The result of one `read` of a file. -/
inductive FileRead
  | data (bytes : List Byte)
  | interrupted
  | failed
  deriving DecidableEq

/-- `Read::read_exact` of `n` bytes, `none` on an error or at the end of the file. What is not
listed is the end of the file. -/
def readExact : List FileRead → ℕ → Option (List Byte)
  | _, 0 => some []
  | [], _ + 1 => none
  | .data bytes :: rs, n + 1 =>
      match bytes.take (n + 1) with
      | [] => none
      | b :: bs => (readExact rs (n - bs.length)).map ((b :: bs) ++ ·)
  | .interrupted :: rs, n + 1 => readExact rs (n + 1)
  | .failed :: _, _ + 1 => none

/-- `Write::write_all`, which takes a `write` of nothing for an error: the bytes that were sent, and
whether all were. -/
def writeAllOrZero : List WriteResult → List Cell → List Cell × Bool
  | _, [] => ([], true)
  | [], msg => (msg, true)
  | .wrote 0 :: _, _ => ([], false)
  | .wrote (n + 1) :: rs, msg =>
      (msg.take (n + 1) ++ (writeAllOrZero rs (msg.drop (n + 1))).1,
        (writeAllOrZero rs (msg.drop (n + 1))).2)
  | .eintr :: rs, msg => writeAllOrZero rs msg
  | .eagain :: _, _ => ([], false)
  | .error :: _, _ => ([], false)

/-- `Write::write_all` sends a prefix of the message. -/
theorem writeAllOrZero_isPrefix (rs : List WriteResult) (msg : List Cell) :
    (writeAllOrZero rs msg).1 <+: msg := by
  fun_induction writeAllOrZero rs msg with
  | case1 => exact List.prefix_rfl
  | case2 => exact List.prefix_rfl
  | case3 => exact List.nil_prefix
  | case4 n rs msg hne ih =>
      obtain ⟨t, ht⟩ := ih
      exact ⟨t, by rw [List.append_assoc, ht, List.take_append_drop]⟩
  | case5 rs msg hne ih => exact ih
  | case6 => exact List.nil_prefix
  | case7 => exact List.nil_prefix

/-- `Path::starts_with`, which compares whole components. -/
def startsWith (path root : CanonPath) : Bool := root.comps.isPrefixOf path.comps

theorem startsWith_iff {path root : CanonPath} :
    startsWith path root = true ↔ root.comps <+: path.comps :=
  List.isPrefixOf_iff_prefix

/-- The C check accepts below `/` only `/` itself: the byte behind the root is no slash. -/
theorem accessOk_slash {root : DocRoot} (hroot : root.path.comps = []) (path : CanonPath) :
    root.accessOk path.bytes = true ↔ path.comps = [] := by
  have hbytes : root.bytes =
      [SLASH] := by rw [DocRoot.bytes, CanonPath.bytes, hroot, CanonPath.render]
  rw [DocRoot.accessOk_iff, hbytes, CanonPath.bytes]
  cases hc : path.comps with
  | nil => simp [CanonPath.render]
  | cons c cs =>
      have hvalid := path.valid c (hc ▸ List.mem_cons_self)
      refine iff_of_false ?_ (List.cons_ne_nil c cs)
      rw [CanonPath.render, List.flatMap_cons, List.cons_append]
      rintro (h | ⟨rest, h⟩)
      · exact hvalid.ne_nil (List.append_eq_nil_iff.mp (List.cons.inj h).2).1
      · -- a component would start with a slash
        obtain ⟨b, c, rfl⟩ := List.exists_cons_of_ne_nil hvalid.ne_nil
        obtain ⟨rfl, -⟩ := List.cons.inj (List.cons.inj h).2
        exact hvalid.no_slash List.mem_cons_self

/-- **The access checks.** The check of the C servers accepts a path exactly if the components of
the root are a prefix of its components, as the Rust servers decide, if and only if the root is not
`/` or the path is `/`. -/
theorem access_checks_agree_iff (root : DocRoot) (path : CanonPath) :
    ((root.accessOk path.bytes = true ↔ root.path.comps <+: path.comps) ∧
      (startsWith path root.path = true ↔ root.path.comps <+: path.comps)) ↔
    (root.path.comps ≠ [] ∨ path.comps = []) := by
  have hinside : root.Inside path.bytes ↔ root.path.comps <+: path.comps := by
    rw [DocRoot.Inside, CanonPath.components_bytes]
  rw [and_iff_left startsWith_iff]
  by_cases hroot : root.path.comps = []
  · rw [accessOk_slash hroot, hroot]
    simp
  · refine iff_of_true ⟨fun h => ?_, fun h => ?_⟩ (.inl hroot)
    · exact hinside.mp (DocRoot.inside_of_accessOk h)
    · exact DocRoot.accessOk_of_inside hroot (hinside.mpr h)

/-- With the root `/`, the C servers deny access to `/r/a` and the Rust servers do not. -/
theorem access_checks_differ :
    DocRoot.Example.slash.accessOk DocRoot.Example.path.bytes = false ∧
      DocRoot.Example.slash.path.comps <+: DocRoot.Example.path.comps ∧
      startsWith DocRoot.Example.path DocRoot.Example.slash.path = true := by
  decide

/-- `Path::join` of the root and a relative name: a separator is added where there is none. -/
def DocRoot.join (root : DocRoot) (name : List Byte) : List Byte :=
  if root.bytes.getLast? = some SLASH then root.bytes ++ name else root.bytes ++ SLASH :: name

/-- The system calls of one `serve_file`: `canonicalize`, `metadata` (whether it is a file, and its
length; the text of the error where it fails), `open` (the text of the error where it fails), the
`read`s of the file, and the `write`s of the successive calls of `write_all`. -/
structure FileEnv where
  canonicalize : List Byte → Option CanonPath
  metadata : CanonPath → Except String (Bool × ℕ)
  openError : CanonPath → Option String
  reads : CanonPath → List FileRead
  writes : ℕ → List WriteResult

namespace RustServer

/-- What a request changes. -/
structure Serving where
  sent : List Cell
  cache : FileCache CanonPath (List Cell)
  time : ℕ

/-- `stream.write_all(..)?`. The flag is `true` where it fails. -/
def Serving.write (st : Serving) (rs : List WriteResult) (msg : List Cell) : Serving × Bool :=
  ({ st with sent := st.sent ++ (writeAllOrZero rs msg).1 }, !(writeAllOrZero rs msg).2)

/-- The loop that sends a large file. -/
def stream (writes : ℕ → List WriteResult) (src : Source) :
    ℕ → List FileRead → Serving → Serving × Bool
  | _, [], st => (st, false)
  | k, .data bytes :: rs, st =>
      match bytes.take FILE_CHUNK with
      | [] => (st, false)
      | chunk =>
          match st.write (writes k) (fileCells src chunk) with
          | (st', true) => (st', true)
          | (st', false) => stream writes src (k + 1) rs st'
  | _, .interrupted :: _, st => (st, true)
  | _, .failed :: _, st => (st, true)

/-- The part of `serve_file` behind the cache. -/
def serveFromDisk (e : FileEnv) (resolved : CanonPath) (st : Serving) : Serving × Bool :=
  match e.metadata resolved with
  | .error msg => st.write (e.writes 0) (errLine ("stat: " ++ msg))
  | .ok (false, _) => st.write (e.writes 0) (errLine "not a regular file")
  | .ok (true, size) =>
      match e.openError resolved with
      | some msg => st.write (e.writes 0) (errLine ("open: " ++ msg))
      | none =>
          if size ≤ MAX_CACHE_FILE_BYTES then
            match readExact (e.reads resolved) size with
            | none => (st, true)
            | some body =>
                let resp := okHeader size ++ fileCells ⟨resolved.bytes, st.time⟩ body
                match st.write (e.writes 0) resp with
                | (st', true) => (st', true)
                | (st', false) => ({ st' with cache := st'.cache.insert resolved resp }, false)
          else
            match st.write (e.writes 0) (okHeader size) with
            | (st', true) => (st', true)
            | (st', false) =>
                stream e.writes ⟨resolved.bytes, st.time⟩ 1 (e.reads resolved) st'

/-- `serve_file`. The flag is `true` where the source returns an error. -/
def serveFile (root : DocRoot) (e : FileEnv) (name : List Byte) (st : Serving) : Serving × Bool :=
  if name = [] then st.write (e.writes 0) (errLine "empty filename")
  else if name.head? = some SLASH then
    st.write (e.writes 0) (errLine "absolute paths not allowed")
  else
    match e.canonicalize (root.join name) with
    | none => st.write (e.writes 0) (errLine "not found")
    | some path =>
        if startsWith path root.path = false then st.write (e.writes 0) (errLine "access denied")
        else
          match st.cache.get path with
          | some resp => st.write (e.writes 0) resp
          | none => serveFromDisk e path st

end RustServer

end Osvcp.Servers
