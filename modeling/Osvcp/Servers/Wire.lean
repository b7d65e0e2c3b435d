import Osvcp.Lib.Lines

/-! # What the file servers put on the wire

A response is an error line or `+OK N` and a line feed followed by `N` bytes. Bytes carry where they
come from: from the server's own text, from a file, or from allocated memory that nothing was stored
in. `write` may take any part of what it is given, be interrupted, or fail; `sock_send` and
`write_all` are the two loops over it.
-/

namespace Osvcp.Servers

/-- Where a byte of a file was read: the path the file was opened by, and how many times the cache
had been flushed when the read was issued. -/
structure Source where
  path : List Byte
  flushes : ℕ
  deriving DecidableEq, Repr

/-- A byte in a response buffer or on the wire. -/
inductive Cell
  | text (b : Byte)
  | file (src : Source) (b : Byte)
  | junk
  deriving DecidableEq, Repr

/-- The value of a byte; that of uninitialised memory is arbitrary and given as 0. -/
def Cell.value : Cell → Byte
  | .text b => b
  | .file _ b => b
  | .junk => 0

/-- The bytes of a string of ASCII characters. -/
def ascii (s : String) : List Byte := s.toList.map fun ch => UInt8.ofNat ch.toNat

/-- The server's own text. -/
def text (s : String) : List Cell := (ascii s).map .text

/-- The bytes of a file. -/
def fileCells (src : Source) (data : List Byte) : List Cell := data.map (.file src)

/-- The bytes on the wire. -/
def values (cells : List Cell) : List Byte := cells.map Cell.value

@[simp] theorem values_append (a b : List Cell) : values (a ++ b) = values a ++ values b :=
  List.map_append

@[simp] theorem values_text (s : String) : values (text s) = ascii s := by
  rw [values, text, List.map_map]
  exact List.map_id _

@[simp] theorem values_fileCells (src : Source) (data : List Byte) :
    values (fileCells src data) = data := by
  rw [values, fileCells, List.map_map]
  exact List.map_id data

/-- The header of a successful response: `+OK N` and a line feed. -/
def okHeader (size : ℕ) : List Cell :=
  text "+OK " ++ (Nat.toDigits 10 size).map (fun ch => Cell.text (UInt8.ofNat ch.toNat)) ++
    text "\n"

/-- An error line. -/
def errLine (reason : String) : List Cell := text "-ERR " ++ text reason ++ text "\n"

/-- All bytes that come from files come from reads with `p`. -/
def FilesFrom (p : Source → Prop) (cells : List Cell) : Prop :=
  ∀ src b, Cell.file src b ∈ cells → p src

section FilesFrom

variable {p : Source → Prop} {a b : List Cell}

theorem filesFrom_nil : FilesFrom p [] := fun _ _ h => absurd h List.not_mem_nil

theorem FilesFrom.append (ha : FilesFrom p a) (hb : FilesFrom p b) : FilesFrom p (a ++ b) := by
  intro src x hx
  rcases List.mem_append.mp hx with hx | hx
  · exact ha src x hx
  · exact hb src x hx

theorem FilesFrom.subset (hb : FilesFrom p b) (h : a ⊆ b) : FilesFrom p a :=
  fun src x hx => hb src x (h hx)

theorem filesFrom_text (s : String) : FilesFrom p (text s) := by
  intro src x hx
  simp [text] at hx

theorem filesFrom_okHeader (size : ℕ) : FilesFrom p (okHeader size) := by
  intro src x hx
  simp [okHeader, text] at hx

theorem filesFrom_errLine (reason : String) : FilesFrom p (errLine reason) :=
  ((filesFrom_text _).append (filesFrom_text _)).append (filesFrom_text _)

theorem filesFrom_fileCells {src : Source} (h : p src) (data : List Byte) :
    FilesFrom p (fileCells src data) := by
  intro src' x hx
  obtain ⟨b', -, heq⟩ := List.mem_map.mp hx
  cases heq
  exact h

end FilesFrom

/-- Bytes of one file from a read at one time. -/
def Stamped (t : ℕ) (path : List Byte) (cells : List Cell) : Prop := FilesFrom (· = ⟨path, t⟩) cells

/-- The result of one `write` or `sendfile` on a socket: a number of bytes taken, or an error. -/
inductive WriteResult
  | wrote (n : ℕ)
  | eintr
  | eagain
  | error
  deriving DecidableEq, Repr

/-- `sock_send`: write until everything is sent, retry when interrupted, return on any other error.
Gives the bytes that were sent. The results that are not listed are those of a socket that takes all
it is given. -/
def sockSend : List WriteResult → List Cell → List Cell
  | _, [] => []
  | [], msg => msg
  | .wrote n :: rs, msg => msg.take n ++ sockSend rs (msg.drop n)
  | .eintr :: rs, msg => sockSend rs msg
  | .eagain :: _, _ => []
  | .error :: _, _ => []

/-- `write_all`: as `sock_send`, and reports whether everything was sent. -/
def writeAll : List WriteResult → List Cell → List Cell × Bool
  | _, [] => ([], true)
  | [], msg => (msg, true)
  | .wrote n :: rs, msg => (msg.take n ++ (writeAll rs (msg.drop n)).1,
      (writeAll rs (msg.drop n)).2)
  | .eintr :: rs, msg => writeAll rs msg
  | .eagain :: _, _ => ([], false)
  | .error :: _, _ => ([], false)

/-- `nb_write`: the bytes taken by one `write`, none when the socket is full; `none` on an error. -/
def nbWrite : WriteResult → List Cell → Option (List Cell)
  | .wrote n, buf => some (buf.take n)
  | .eagain, _ => some []
  | .eintr, _ => none
  | .error, _ => none

/-- No write fails for good. -/
def NoFailure (rs : List WriteResult) : Prop := WriteResult.eagain ∉ rs ∧ WriteResult.error ∉ rs

instance (rs : List WriteResult) : Decidable (NoFailure rs) :=
  inferInstanceAs (Decidable (_ ∧ _))

theorem NoFailure.tail {r : WriteResult} {rs : List WriteResult} (h : NoFailure (r :: rs)) :
    NoFailure rs :=
  ⟨fun hm => h.1 (List.mem_cons_of_mem r hm), fun hm => h.2 (List.mem_cons_of_mem r hm)⟩

/-- `sock_send` sends a prefix of the message. -/
theorem sockSend_isPrefix (rs : List WriteResult) (msg : List Cell) : sockSend rs msg <+: msg := by
  fun_induction sockSend rs msg with
  | case1 => exact List.prefix_rfl
  | case2 => exact List.prefix_rfl
  | case3 n rs msg hne ih =>
      obtain ⟨t, ht⟩ := ih
      exact ⟨t, by rw [List.append_assoc, ht, List.take_append_drop]⟩
  | case4 rs msg hne ih => exact ih
  | case5 => exact List.nil_prefix
  | case6 => exact List.nil_prefix

/-- Without failures `sock_send` sends the whole message. -/
theorem sockSend_of_noFailure {rs : List WriteResult} (h : NoFailure rs) (msg : List Cell) :
    sockSend rs msg = msg := by
  fun_induction sockSend rs msg with
  | case1 => rfl
  | case2 => rfl
  | case3 n rs msg hne ih => rw [ih h.tail, List.take_append_drop]
  | case4 rs msg hne ih => exact ih h.tail
  | case5 => exact absurd (List.mem_cons_self ..) h.1
  | case6 => exact absurd (List.mem_cons_self ..) h.2

/-- `nb_write` sends a prefix of the buffer. -/
theorem nbWrite_isPrefix {r : WriteResult} {buf cells : List Cell}
    (h : nbWrite r buf = some cells) :
    cells <+: buf := by
  cases r with
  | wrote n =>
      cases h
      exact List.take_prefix n buf
  | eagain =>
      cases h
      exact List.nil_prefix
  | eintr => cases h
  | error => cases h

/-- `write_all` sends a prefix of the message, and all of it if it reports success. -/
theorem writeAll_spec (rs : List WriteResult) (msg : List Cell) :
    (writeAll rs msg).1 <+: msg ∧ ((writeAll rs msg).2 = true → (writeAll rs msg).1 = msg) := by
  fun_induction writeAll rs msg with
  | case1 => exact ⟨List.prefix_rfl, fun _ => rfl⟩
  | case2 => exact ⟨List.prefix_rfl, fun _ => rfl⟩
  | case3 n rs msg hne ih =>
      obtain ⟨⟨t, ht⟩, hall⟩ := ih
      refine ⟨⟨t, by rw [List.append_assoc, ht, List.take_append_drop]⟩, fun hok => ?_⟩
      show msg.take n ++ (writeAll rs (msg.drop n)).1 = msg
      rw [hall hok, List.take_append_drop]
  | case4 rs msg hne ih => exact ih
  | case5 => exact ⟨List.nil_prefix, nofun⟩
  | case6 => exact ⟨List.nil_prefix, nofun⟩

/-- Without failures `write_all` succeeds. -/
theorem writeAll_of_noFailure {rs : List WriteResult} (h : NoFailure rs) (msg : List Cell) :
    writeAll rs msg = (msg, true) := by
  fun_induction writeAll rs msg with
  | case1 => rfl
  | case2 => rfl
  | case3 n rs msg hne ih => rw [ih h.tail, List.take_append_drop]
  | case4 rs msg hne ih => exact ih h.tail
  | case5 => exact absurd (List.mem_cons_self ..) h.1
  | case6 => exact absurd (List.mem_cons_self ..) h.2

end Osvcp.Servers
