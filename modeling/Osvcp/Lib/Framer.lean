import Osvcp.Lib.Lines

/-! # Line framers over successive reads

A framer keeps the bytes of an incomplete line between reads. On each read it appends the new bytes,
hands the complete lines to a handler and closes when the rest is too long. `Framer.Drains` is the
contract of one such step; from it follows, for every way of cutting a stream into reads, that the
connection does what the reference `frame` does on the whole stream (`feed_eq_frame`). The one thing
that can go wrong is a line that is already too long when its end arrives in the same read
(`lateLine`); a framer whose buffer is no larger than the limit never meets it (`lateLine_self`).
-/

namespace Osvcp

variable {β σ : Type*}

/-- One connection: what its handler has done so far, its buffer, and whether it has been closed. -/
structure Conn (β σ : Type*) where
  st : σ
  buf : β
  closed : Bool

/-- A framer: its empty buffer, the bytes it asks `read` for, how it stores them, and what it does
with them. The last component of `process` says whether the connection is to be torn down. -/
structure Framer (β σ : Type*) where
  empty : β
  space : β → ℕ
  extend : β → List Byte → β
  process : σ → β → σ × β × Bool

namespace Framer

variable (F : Framer β σ)

/-- A fresh connection. -/
def start (st : σ) : Conn β σ := ⟨st, F.empty, false⟩

/-- A `read` that returns `bytes`. A closed connection is not read any more. -/
def read (c : Conn β σ) (bytes : List Byte) : Conn β σ :=
  if c.closed then c
  else
    match F.process c.st (F.extend c.buf bytes) with
    | (st', b', closed) => ⟨st', b', closed⟩

/-- A sequence of reads. -/
def feed (c : Conn β σ) (reads : List (List Byte)) : Conn β σ := reads.foldl F.read c

/-- The reads are results that `read` can return: between 1 byte and the bytes asked for. What comes
after the connection has been closed is never read. -/
def ValidReads : Conn β σ → List (List Byte) → Prop
  | _, [] => True
  | c, bytes :: reads =>
      (c.closed = false → 1 ≤ bytes.length ∧ bytes.length ≤ F.space c.buf) ∧
        ValidReads (F.read c bytes) reads

variable {F}

theorem feed_cons (c : Conn β σ) (bytes : List Byte) (reads : List (List Byte)) :
    F.feed c (bytes :: reads) = F.feed (F.read c bytes) reads := rfl

theorem feed_append (c : Conn β σ) (reads reads' : List (List Byte)) :
    F.feed c (reads ++ reads') = F.feed (F.feed c reads) reads' := List.foldl_append

theorem read_of_closed {c : Conn β σ} (bytes : List Byte) (h : c.closed = true) :
    F.read c bytes = c := by
  rw [read, if_pos h]

theorem read_of_open {c : Conn β σ} (bytes : List Byte) (h : c.closed = false) :
    F.read c bytes =
      let r := F.process c.st (F.extend c.buf bytes)
      ⟨r.1, r.2.1, r.2.2⟩ := by
  rw [read, if_neg (by simp [h])]

theorem feed_of_closed {c : Conn β σ} (reads : List (List Byte)) (h : c.closed = true) :
    F.feed c reads = c := by
  induction reads with
  | nil => rfl
  | cons bytes reads ih => rw [feed_cons, read_of_closed bytes h, ih]

theorem validReads_of_closed {c : Conn β σ} (reads : List (List Byte)) (h : c.closed = true) :
    F.ValidReads c reads := by
  induction reads with
  | nil => trivial
  | cons bytes reads ih =>
      refine ⟨fun ho => absurd (h.symm.trans ho) (by decide), ?_⟩
      rw [read_of_closed bytes h]
      exact ih

/-- The contract of one step: with fewer than `limit` bytes pending there is room for a read, the
buffer never holds more than `cap` bytes, and `process` drains it and closes when `limit` bytes are
left. -/
structure Drains (F : Framer β σ) (limit cap : ℕ) (h : σ → List Byte → σ × Bool)
    (pending : β → List Byte) : Prop where
  pending_empty : pending F.empty = []
  limit_pos : 0 < limit
  space_pos : ∀ b, (pending b).length < limit → 1 ≤ F.space b
  space_le : ∀ b, (pending b).length < limit → (pending b).length + F.space b ≤ cap
  process : ∀ st b bytes, (pending b).length < limit → bytes.length ≤ F.space b →
    let r := F.process st (F.extend b bytes)
    let d := drain h st (pending b ++ bytes)
    r.1 = d.1 ∧ r.2.2 = (d.2.2 || decide (limit ≤ d.2.1.length)) ∧
      (r.2.2 = false → pending r.2.1 = d.2.1)

/-- A loop that drains the buffer, followed by the check on what it left, is such a `process`. -/
theorem drains_of_loop {limit : ℕ} {pending : β → List Byte} {r r' : σ × β × Bool}
    {d : σ × List Byte × Bool}
    (hr' : r' = if r.2.2 then r else (r.1, r.2.1, decide (limit ≤ (pending r.2.1).length)))
    (h : r.1 = d.1 ∧ r.2.2 = d.2.2 ∧ (r.2.2 = false → pending r.2.1 = d.2.1)) :
    r'.1 = d.1 ∧ r'.2.2 = (d.2.2 || decide (limit ≤ d.2.1.length)) ∧
      (r'.2.2 = false → pending r'.2.1 = d.2.1) := by
  obtain ⟨hst, hcl, hpend⟩ := h
  cases hc : r.2.2 with
  | true =>
      rw [hc, if_pos rfl] at hr'
      rw [hr', ← hcl, hc]
      exact ⟨hst, rfl, fun hf => by cases hf⟩
  | false =>
      rw [hc, if_neg (by decide)] at hr'
      rw [hr', ← hcl, hc, ← hpend hc]
      exact ⟨hst, rfl, fun _ => rfl⟩

/-- Between two reads an open connection holds an incomplete line that leaves room for the next
read. -/
structure Idle (limit : ℕ) (pending : β → List Byte) (c : Conn β σ) : Prop where
  no_line : LF ∉ pending c.buf
  room : (pending c.buf).length < limit

namespace Drains

variable {limit cap : ℕ} {h : σ → List Byte → σ × Bool} {pending : β → List Byte}

theorem idle_start (hF : F.Drains limit cap h pending) (st : σ) :
    Idle limit pending (F.start st) := by
  constructor
  · show LF ∉ pending F.empty
    simp [hF.pending_empty]
  · show (pending F.empty).length < limit
    simpa [hF.pending_empty] using hF.limit_pos

/-- After a read an open connection is idle again. -/
theorem idle_read (hF : F.Drains limit cap h pending) {c : Conn β σ} (hc : Idle limit pending c)
    (ho : c.closed = false) {bytes : List Byte} (hb : bytes.length ≤ F.space c.buf)
    (hopen : (F.read c bytes).closed = false) : Idle limit pending (F.read c bytes) := by
  obtain ⟨-, hclosed, hpend⟩ := hF.process c.st c.buf bytes hc.room hb
  rw [read_of_open bytes ho] at hopen ⊢
  have hor := hclosed.symm.trans hopen
  rw [Bool.or_eq_false_iff, decide_eq_false_iff_not] at hor
  obtain ⟨hd, hlong⟩ := hor
  constructor
  · show LF ∉ pending (F.process c.st (F.extend c.buf bytes)).2.1
    rw [hpend hopen]
    exact (drain_rest hd).1
  · show (pending (F.process c.st (F.extend c.buf bytes)).2.1).length < limit
    rw [hpend hopen]
    omega

/-- **One read.** If no overlong line ends within `cap` bytes, what the connection does with one
read is what `frame` does with its bytes, whatever the stream brings next. -/
theorem read_step (hF : F.Drains limit cap h pending) {c : Conn β σ} (hc : Idle limit pending c)
    (ho : c.closed = false) {bytes : List Byte} (hb : bytes.length ≤ F.space c.buf) (t : List Byte)
    (hlate : lateLine limit cap 0 (pending c.buf ++ bytes ++ t) = false) :
    let c' := F.read c bytes
    (frame limit h c.st (pending c.buf ++ bytes ++ t) =
      if c'.closed then (c'.st, true) else frame limit h c'.st (pending c'.buf ++ t)) ∧
    (c'.closed = false → lateLine limit cap 0 (pending c'.buf ++ t) = false) := by
  have hlen : (pending c.buf ++ bytes).length ≤ cap := by
    have := hF.space_le c.buf hc.room
    rw [List.length_append]
    omega
  have hframe := frame_drain h c.st _ t hlen hlate
  have hrest := @drain_rest _ h c.st (pending c.buf ++ bytes)
  obtain ⟨hst, hclosed, hpend⟩ := hF.process c.st c.buf bytes hc.room hb
  rw [read_of_open bytes ho, hframe]
  cases hd : (drain h c.st (pending c.buf ++ bytes)).2.2 with
  | true =>
      rw [hd, Bool.true_or] at hclosed
      simp [hst, hclosed]
  | false =>
      rw [hd, Bool.false_or] at hclosed
      by_cases hlong : limit ≤ (drain h c.st (pending c.buf ++ bytes)).2.1.length
      · -- the overflow check: what is left is the start of an overlong line
        rw [decide_eq_true hlong] at hclosed
        have hl := length_firstLine_append_le t (hrest hd).1
        simp [hst, hclosed, frame_of_long (Nat.le_trans hlong hl)]
      · rw [decide_eq_false hlong] at hclosed
        have hlate' := lateLine_drain hlen hd hlate
        simp [hst, hclosed, hpend hclosed, hlate']

/-- **Framing does not depend on the reads.** Any sequence of valid reads of a stream in which no
overlong line ends within `cap` bytes gives the handler's state and the decision to close that
`frame` gives for the whole stream. -/
theorem feed_eq_frame (hF : F.Drains limit cap h pending) {c : Conn β σ} (hc : Idle limit pending c)
    (ho : c.closed = false) {reads : List (List Byte)} (hv : F.ValidReads c reads)
    (hlate : lateLine limit cap 0 (pending c.buf ++ reads.flatten) = false) :
    ((F.feed c reads).st, (F.feed c reads).closed) =
      frame limit h c.st (pending c.buf ++ reads.flatten) := by
  induction reads generalizing c with
  | nil =>
      rw [List.flatten_nil, List.append_nil, frame_of_open hc.room hc.no_line]
      exact congrArg (Prod.mk _) ho
  | cons bytes reads ih =>
      obtain ⟨hb, hv⟩ := hv
      rw [List.flatten_cons, ← List.append_assoc] at hlate ⊢
      obtain ⟨hstep, hlate'⟩ := hF.read_step hc ho (hb ho).2 reads.flatten hlate
      rw [feed_cons, hstep]
      cases hcl : (F.read c bytes).closed with
      | true =>
          rw [feed_of_closed reads hcl]
          exact congrArg (Prod.mk _) hcl
      | false => exact ih (hF.idle_read hc ho (hb ho).2 hcl) hcl hv (hlate' hcl)

/-- As long as a connection is open it is idle between reads. -/
theorem idle_feed (hF : F.Drains limit cap h pending) {c : Conn β σ} (hc : Idle limit pending c)
    (ho : c.closed = false) {reads : List (List Byte)} (hv : F.ValidReads c reads)
    (hopen : (F.feed c reads).closed = false) : Idle limit pending (F.feed c reads) := by
  induction reads generalizing c with
  | nil => exact hc
  | cons bytes reads ih =>
      obtain ⟨hb, hv⟩ := hv
      rw [feed_cons] at hopen ⊢
      cases hcl : (F.read c bytes).closed with
      | true =>
          rw [feed_of_closed reads hcl, hcl] at hopen
          cases hopen
      | false => exact ih (hF.idle_read hc ho (hb ho).2 hcl) hcl hv hopen

/-- Reading byte by byte is one way of cutting a stream. -/
theorem validReads_bytes (hF : F.Drains limit cap h pending) {c : Conn β σ}
    (hc : c.closed = false → Idle limit pending c) (s : List Byte) :
    F.ValidReads c (s.map fun b => [b]) := by
  cases ho : c.closed with
  | true => exact validReads_of_closed _ ho
  | false =>
    have hc := hc ho
    induction s generalizing c with
    | nil => trivial
    | cons b s ih =>
        have hone : [b].length ≤ F.space c.buf := hF.space_pos c.buf hc.room
        refine ⟨fun _ => ⟨Nat.le_refl 1, hone⟩, ?_⟩
        cases hcl : (F.read c [b]).closed with
        | true => exact validReads_of_closed _ hcl
        | false =>
            have hidle := hF.idle_read hc ho hone hcl
            exact ih (fun _ => hidle) hcl hidle

end Drains

end Framer

end Osvcp
