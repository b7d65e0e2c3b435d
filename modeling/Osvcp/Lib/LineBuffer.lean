import Osvcp.Lib.Lines

/-! # Fixed-size line buffers

The in-place line buffer of C servers: an array of `cap` bytes of which the first `len` are pending.
The operations are those of the C library on the array: `memchr`, stores of single bytes, `memmove`
and the reading of a C string. `pending` is the abstraction to a list of bytes, and `drainLoop_eq`
says that the in-place loop computes `drain` on it, whatever stale bytes lie behind `len`.
-/

namespace Osvcp

/-- The C string at the start of an array: the bytes before the first NUL. -/
def cstr (data : List Byte) : List Byte := data.takeWhile (· != NUL)

/-- The index of the first `b` among the first `n` bytes. -/
def memchr (data : List Byte) (b : Byte) (n : ℕ) : Option ℕ := (data.take n).findIdx? (· == b)

/-- Copy `n` bytes from index `src` to index `dst`; the ranges may overlap. -/
def memmove (data : List Byte) (dst src n : ℕ) : List Byte :=
  data.take dst ++ (data.drop src).take n ++ data.drop (dst + n)

/-- Remove one trailing carriage return. -/
def stripCr (line : List Byte) : List Byte :=
  if line.getLast? = some CR then line.dropLast else line

theorem cstr_append_nul (l t : List Byte) : cstr (l ++ NUL :: t) = cstr l := by
  induction l with
  | nil => simp [cstr]
  | cons a l ih =>
      by_cases h : a = NUL
      · simp [cstr, h]
      · simpa [cstr, h] using ih

/-- What a handler wants after a line: the next line, a break out of the loop, or the connection
torn down. -/
inductive Verdict
  | next
  | pause
  | close
  deriving DecidableEq, Repr

/-- An array of `cap` bytes with `len` pending bytes at its start. -/
structure LineBuf (cap : ℕ) where
  data : List Byte
  len : ℕ
  data_length : data.length = cap
  len_le : len ≤ cap

namespace LineBuf

variable {cap : ℕ} {σ : Type*}

/-- The zeroed buffer. -/
def empty (cap : ℕ) : LineBuf cap := ⟨List.replicate cap NUL, 0, by simp, Nat.zero_le _⟩

/-- The pending bytes. -/
def pending (b : LineBuf cap) : List Byte := b.data.take b.len

/-- Store one byte. -/
def store (b : LineBuf cap) (i : ℕ) (v : Byte) : LineBuf cap :=
  { b with data := b.data.set i v, data_length := by simp [b.data_length] }

/-- `read` into the free space behind the pending bytes. -/
def fill (b : LineBuf cap) (bytes : List Byte) : LineBuf cap where
  data := b.data.take b.len ++ bytes.take (cap - b.len) ++
    b.data.drop (b.len + (bytes.take (cap - b.len)).length)
  len := b.len + (bytes.take (cap - b.len)).length
  data_length := by
    have h1 := b.data_length
    have h2 := b.len_le
    simp only [List.length_append, List.length_take, List.length_drop, h1]
    omega
  len_le := by
    have := b.len_le
    simp only [List.length_take]
    omega

/-- Drop the first `k` pending bytes and move the others to the start. -/
def consume (b : LineBuf cap) (k : ℕ) : LineBuf cap where
  data := memmove b.data 0 k (b.len - k)
  len := b.len - k
  data_length := by
    have h1 := b.data_length
    have h2 := b.len_le
    simp only [memmove, List.length_append, List.length_take, List.length_drop, h1]
    omega
  len_le := by
    have := b.len_le
    omega

@[simp] theorem pending_empty : (empty cap).pending = [] := by
  simp [pending, empty]

theorem length_pending (b : LineBuf cap) : b.pending.length = b.len := by
  have h1 := b.data_length
  have h2 := b.len_le
  simp only [pending, List.length_take]
  omega

theorem pending_fill (b : LineBuf cap) {bytes : List Byte} (h : bytes.length ≤ cap - b.len) :
    (b.fill bytes).pending = b.pending ++ bytes := by
  have h1 := b.data_length
  have h2 := b.len_le
  have htake : bytes.take (cap - b.len) = bytes := List.take_of_length_le h
  simp only [pending, fill, htake]
  rw [List.take_append_of_le_length (by simp only [List.length_append, List.length_take]; omega)]
  rw [List.take_of_length_le (by simp only [List.length_append, List.length_take]; omega)]

theorem pending_consume (b : LineBuf cap) (k : ℕ) : (b.consume k).pending = b.pending.drop k := by
  have h1 := b.data_length
  have h2 := b.len_le
  simp only [pending, consume, memmove, List.take_zero, List.nil_append]
  rw [List.take_append_of_le_length (by simp only [List.length_take, List.length_drop]; omega),
    List.take_of_length_le (by simp only [List.length_take]; omega), List.drop_take]

/-- Stores below `k` are gone after the first `k` bytes have been consumed. -/
theorem pending_consume_store (b : LineBuf cap) {i k : ℕ} (v : Byte) (h : i < k) :
    ((b.store i v).consume k).pending = (b.consume k).pending := by
  rw [pending_consume, pending_consume]
  simp only [pending, store]
  rw [List.drop_take, List.drop_take, List.drop_set_of_lt h]

/-- `memchr` finds the end of the first complete pending line. -/
theorem memchr_eq_some {b : LineBuf cap} {nl : ℕ} (h : memchr b.data LF b.len = some nl) :
    ∃ line rest, b.pending = line ++ LF :: rest ∧ LF ∉ line ∧ line.length = nl := by
  rw [memchr, List.findIdx?_eq_some_iff_getElem] at h
  obtain ⟨hlt, hnl, hbefore⟩ := h
  refine ⟨b.pending.take nl, b.pending.drop (nl + 1), ?_, ?_, ?_⟩
  · conv_lhs => rw [← List.take_append_drop nl b.pending]
    rw [List.drop_eq_getElem_cons (l := b.pending) hlt]
    congr 2
    simpa [pending] using hnl
  · intro hmem
    obtain ⟨i, hi, hget⟩ := List.getElem_of_mem hmem
    have hi' : i < nl := by
      simp only [List.length_take] at hi
      omega
    have := hbefore i hi'
    simp only [List.getElem_take] at hget
    simp only [pending, List.getElem_take] at hget
    simp [hget] at this
  · simp only [List.length_take]
    have : nl < b.pending.length := hlt
    omega

theorem memchr_eq_none {b : LineBuf cap} (h : memchr b.data LF b.len = none) : LF ∉ b.pending := by
  intro hmem
  rw [memchr, List.findIdx?_eq_none_iff] at h
  have := h LF hmem
  simp at this

theorem lt_len_of_memchr {b : LineBuf cap} {nl : ℕ} (h : memchr b.data LF b.len = some nl) :
    nl < b.len := by
  obtain ⟨line, rest, hp, -, rfl⟩ := memchr_eq_some h
  rw [← b.length_pending, hp]
  simp

/-- Turn the line that ends at index `nl` into a C string: store a NUL over the line feed and, if
carriage returns are stripped, over a carriage return right before it. -/
def terminate (crlf : Bool) (b : LineBuf cap) (nl : ℕ) : LineBuf cap :=
  if crlf = true ∧ 0 < nl ∧ b.data[nl - 1]? = some CR then (b.store nl NUL).store (nl - 1) NUL
  else b.store nl NUL

@[simp] theorem terminate_len (crlf : Bool) (b : LineBuf cap) (nl : ℕ) :
    (b.terminate crlf nl).len = b.len := by
  unfold terminate
  split <;> rfl

/-- Hand each complete pending line to the handler: find its end, make it a C string, call the
handler with the raw line and that string, and consume the line. The loop ends when no line is left,
when the handler pauses, or when it closes; a line that closes is not consumed. -/
def drainLoop (crlf : Bool) (h : σ → List Byte → List Byte → σ × Verdict) (st : σ)
    (b : LineBuf cap) : σ × LineBuf cap × Verdict :=
  match _hm : memchr b.data LF b.len with
  | none => (st, b, .next)
  | some nl =>
      match h st (b.data.take nl) (cstr (b.terminate crlf nl).data) with
      | (st', .close) => (st', b.terminate crlf nl, .close)
      | (st', .pause) => (st', (b.terminate crlf nl).consume (nl + 1), .pause)
      | (st', .next) => drainLoop crlf h st' ((b.terminate crlf nl).consume (nl + 1))
termination_by b.len
decreasing_by
  have := lt_len_of_memchr _hm
  simp only [consume, terminate_len]
  omega

theorem drainLoop_of_none {crlf : Bool} {h : σ → List Byte → List Byte → σ × Verdict} {st : σ}
    {b : LineBuf cap} (hm : memchr b.data LF b.len = none) :
    drainLoop crlf h st b = (st, b, .next) := by
  rw [drainLoop]
  split
  · rfl
  · rename_i nl hnl
    rw [hm] at hnl
    cases hnl

/-- One round of the loop. -/
theorem drainLoop_of_some {crlf : Bool} {h : σ → List Byte → List Byte → σ × Verdict} {st : σ}
    {b : LineBuf cap} {nl : ℕ} (hm : memchr b.data LF b.len = some nl) :
    drainLoop crlf h st b =
      match h st (b.data.take nl) (cstr (b.terminate crlf nl).data) with
      | (st', .close) => (st', b.terminate crlf nl, .close)
      | (st', .pause) => (st', (b.terminate crlf nl).consume (nl + 1), .pause)
      | (st', .next) => drainLoop crlf h st' ((b.terminate crlf nl).consume (nl + 1)) := by
  rw [drainLoop]
  split
  · rename_i hnl
    rw [hm] at hnl
    cases hnl
  · rename_i nl' hnl
    obtain rfl : nl = nl' := Option.some.inj (hm.symm.trans hnl)
    rfl

/-- The string a handler gets for a raw line. -/
def lineString (crlf : Bool) (line : List Byte) : List Byte :=
  cstr (if crlf then stripCr line else line)

/-- The C string made of a line ends where the line does. -/
theorem cstr_terminate (crlf : Bool) {b : LineBuf cap} {line tail : List Byte}
    (hd : b.data = line ++ LF :: tail) :
    cstr (b.terminate crlf line.length).data = lineString crlf line := by
  have hnul : (b.data.set line.length NUL) = line ++ NUL :: tail := by
    rw [hd, List.set_append_right _ _ (Nat.le_refl _)]
    simp
  unfold terminate lineString
  split
  · rename_i hc
    obtain ⟨hcr, hpos, hget⟩ := hc
    -- the line ends in a carriage return, which is overwritten too
    obtain ⟨l, c, rfl⟩ := (List.eq_nil_or_concat line).resolve_left (by rintro rfl; simp at hpos)
    rw [List.concat_eq_append] at *
    have hc : c = CR := by
      rw [hd] at hget
      simpa using hget
    subst hc
    have hset : ((b.store (l ++ [CR]).length NUL).store ((l ++ [CR]).length - 1) NUL).data =
        l ++ NUL :: NUL :: tail := by
      simp only [store, hnul]
      simp
    rw [hset, cstr_append_nul, if_pos hcr]
    simp [stripCr]
  · rename_i hc
    have hline : (if crlf then stripCr line else line) = line := by
      split
      · rename_i hcr
        rw [stripCr, if_neg]
        intro hlast
        obtain ⟨l, rfl⟩ := List.getLast?_eq_some_iff.mp hlast
        exact hc ⟨hcr, by simp, by rw [hd]; simp⟩
      · rfl
    rw [hline]
    simp only [store, hnul, cstr_append_nul]

/-- The line is consumed together with the bytes that were patched. -/
theorem pending_consume_terminate (crlf : Bool) (b : LineBuf cap) (nl : ℕ) :
    ((b.terminate crlf nl).consume (nl + 1)).pending = b.pending.drop (nl + 1) := by
  unfold terminate
  split
  · rw [pending_consume_store _ _ (by omega), pending_consume_store _ _ (by omega), pending_consume]
  · rw [pending_consume_store _ _ (by omega), pending_consume]

/-- **The in-place loop computes `drain`** on the pending bytes. -/
theorem drainLoop_eq (crlf : Bool) (h : σ → List Byte → List Byte → σ × Verdict) (st : σ)
    (b : LineBuf cap) :
    let r := drainLoop crlf h st b
    let d := drain (fun st line =>
      let s := h st line (lineString crlf line)
      (s.1, s.2 != .next)) st b.pending
    r.1 = d.1 ∧ (r.2.2 != .next) = d.2.2 ∧ (r.2.2 ≠ .close → r.2.1.pending = d.2.1) := by
  induction hn : b.len using Nat.strongRecOn generalizing st b with
  | _ n ih =>
    rw [drainLoop]
    split
    · rename_i hm
      rw [drain_of_none (splitLine_eq_none_iff.mpr (memchr_eq_none hm))]
      exact ⟨rfl, rfl, fun _ => rfl⟩
    · rename_i nl hm
      obtain ⟨line, rest, hp, hlf, rfl⟩ := memchr_eq_some hm
      have hlt := lt_len_of_memchr hm
      have hsplit : splitLine b.pending = some (line, rest) := splitLine_eq_some_iff.mpr ⟨hp, hlf⟩
      -- behind `len` the array holds whatever earlier lines left there
      have hdata : b.data = line ++ LF :: (rest ++ b.data.drop b.len) := by
        conv_lhs => rw [← List.take_append_drop b.len b.data]
        rw [show b.data.take b.len = line ++ LF :: rest from hp]
        simp
      have hline : b.data.take line.length = line := by rw [hdata]; simp
      have hrest : ((b.terminate crlf line.length).consume (line.length + 1)).pending = rest := by
        rw [pending_consume_terminate, hp]
        simp
      rw [hline, cstr_terminate crlf hdata]
      cases hh : h st line (lineString crlf line) with
      | mk st' v =>
        cases v with
        | close =>
            -- the source returns before `memmove`, so nothing is said about the buffer
            rw [drain_of_stop hsplit (by rw [hh]; rfl)]
            exact ⟨rfl, rfl, fun hf => absurd rfl hf⟩
        | pause =>
            rw [drain_of_stop hsplit (by rw [hh]; rfl)]
            exact ⟨rfl, rfl, fun _ => hrest⟩
        | next =>
            rw [drain_of_keep hsplit (by rw [hh]; rfl)]
            have hrec := ih _ (by simp only [consume, terminate_len]; omega) st'
              ((b.terminate crlf line.length).consume (line.length + 1)) rfl
            rw [hrest] at hrec
            exact hrec

/-- A loop ends with a verdict other than `next` only if its handler gives it. -/
theorem drainLoop_ne (crlf : Bool) {h : σ → List Byte → List Byte → σ × Verdict} {v : Verdict}
    (hv : v ≠ .next) (hh : ∀ st line name, (h st line name).2 ≠ v) (st : σ) (b : LineBuf cap) :
    (drainLoop crlf h st b).2.2 ≠ v := by
  induction hn : b.len using Nat.strongRecOn generalizing st b with
  | _ n ih =>
    rw [drainLoop]
    split
    · exact hv.symm
    · rename_i nl hm
      have hlt := lt_len_of_memchr hm
      have hhnl := hh st (b.data.take nl) (cstr (b.terminate crlf nl).data)
      split
      · rename_i st' heq
        rw [heq] at hhnl
        exact hhnl
      · rename_i st' heq
        rw [heq] at hhnl
        exact hhnl
      · exact ih _ (by simp only [consume, terminate_len]; omega) _ _ rfl

end LineBuf

end Osvcp
