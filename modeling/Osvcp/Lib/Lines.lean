import Mathlib.Data.List.TakeWhile
import Mathlib.Tactic.Common

/-! # Cutting byte streams into lines

A line ends at a line feed. `splitLine` takes the first complete line off a buffer, `drain` hands
the complete lines of a buffer to a handler one after the other, and `frame` is the reference for a
whole stream with a bound on the length of a line: a line of `limit` bytes without a line feed
closes the connection. A handler closes the connection by returning `true`. The main fact is
`frame_drain`: draining a buffer and framing what follows is the same as framing the whole, unless
the buffer can hold the end of a line that is already too long (`lateLine`).
-/

namespace Osvcp

/-- A byte. -/
abbrev Byte := UInt8

/-- The line feed. -/
def LF : Byte := 10

/-- The carriage return. -/
def CR : Byte := 13

/-- The byte that ends a C string. -/
def NUL : Byte := 0

/-- The bytes before the first line feed. -/
def firstLine (s : List Byte) : List Byte := s.takeWhile (· != LF)

/-- The first complete line without its line feed, and what follows it. -/
def splitLine : List Byte → Option (List Byte × List Byte)
  | [] => none
  | b :: s => if b = LF then some ([], s) else (splitLine s).map fun p => (b :: p.1, p.2)

theorem firstLine_append_of_not_mem {p : List Byte} (t : List Byte) (h : LF ∉ p) :
    firstLine (p ++ t) = p ++ firstLine t := by
  rw [firstLine, List.takeWhile_append_of_pos]
  · rfl
  · intro b hb
    rw [bne_iff_ne]
    rintro rfl
    exact h hb

theorem firstLine_of_not_mem {s : List Byte} (h : LF ∉ s) : firstLine s = s := by
  have happ := firstLine_append_of_not_mem [] h
  simpa [firstLine] using happ

theorem firstLine_append_lf {l : List Byte} (rest : List Byte) (h : LF ∉ l) :
    firstLine (l ++ LF :: rest) = l := by
  rw [firstLine_append_of_not_mem _ h]
  simp [firstLine]

/-- The first line of an extension is at least as long. -/
theorem length_firstLine_append_le {p : List Byte} (t : List Byte) (h : LF ∉ p) :
    p.length ≤ (firstLine (p ++ t)).length := by
  rw [firstLine_append_of_not_mem t h, List.length_append]
  omega

theorem splitLine_eq_some_iff {s l rest : List Byte} :
    splitLine s = some (l, rest) ↔ s = l ++ LF :: rest ∧ LF ∉ l := by
  induction s generalizing l with
  | nil => simp [splitLine]
  | cons b s ih =>
      by_cases hb : b = LF
      · rw [splitLine, if_pos hb, hb]
        constructor
        · intro h
          cases h
          exact ⟨rfl, by simp⟩
        · rintro ⟨h, hl⟩
          cases l with
          | nil => cases h; rfl
          | cons c l => exact absurd (List.cons.inj h).1 fun hc => hl (by simp [hc])
      · rw [splitLine, if_neg hb, Option.map_eq_some_iff]
        constructor
        · rintro ⟨⟨l', r⟩, hsome, heq⟩
          cases heq
          obtain ⟨rfl, hl⟩ := ih.mp hsome
          refine ⟨rfl, ?_⟩
          rw [List.mem_cons, not_or]
          exact ⟨fun h => hb h.symm, hl⟩
        · rintro ⟨h, hl⟩
          cases l with
          | nil => exact absurd (List.cons.inj h).1 hb
          | cons c l =>
              obtain ⟨rfl, rfl⟩ := List.cons.inj h
              exact ⟨(l, rest), ih.mpr ⟨rfl, fun hm => hl (by simp [hm])⟩, rfl⟩

theorem splitLine_eq_none_iff {s : List Byte} : splitLine s = none ↔ LF ∉ s := by
  induction s with
  | nil => simp [splitLine]
  | cons b s ih =>
      by_cases hb : b = LF
      · simp [splitLine, hb]
      · simp [splitLine, hb, ih, Ne.symm hb]

theorem splitLine_length {s l rest : List Byte} (h : splitLine s = some (l, rest)) :
    rest.length < s.length := by
  obtain ⟨rfl, -⟩ := splitLine_eq_some_iff.mp h
  simp only [List.length_append, List.length_cons]
  omega

/-- Later bytes do not change the first complete line. -/
theorem splitLine_append {s l rest : List Byte} (t : List Byte)
    (h : splitLine s = some (l, rest)) : splitLine (s ++ t) = some (l, rest ++ t) := by
  obtain ⟨rfl, hl⟩ := splitLine_eq_some_iff.mp h
  rw [splitLine_eq_some_iff]
  exact ⟨by simp, hl⟩

/-! ## Draining a buffer, framing a stream -/

variable {σ : Type*}

/-- Hand the complete lines of a buffer to the handler, in order, until none is left or the handler
stops. Returns the handler's state, the bytes left in the buffer and whether it stopped. -/
def drain (h : σ → List Byte → σ × Bool) (st : σ) (buf : List Byte) : σ × List Byte × Bool :=
  match _hs : splitLine buf with
  | none => (st, buf, false)
  | some (line, rest) =>
      match h st line with
      | (st', true) => (st', rest, true)
      | (st', false) => drain h st' rest
termination_by buf.length
decreasing_by exact splitLine_length _hs

theorem drain_of_none {h : σ → List Byte → σ × Bool} {st : σ} {buf : List Byte}
    (hs : splitLine buf = none) : drain h st buf = (st, buf, false) := by
  rw [drain]
  split
  · rfl
  · rename_i heq; rw [hs] at heq; cases heq

theorem drain_of_stop {h : σ → List Byte → σ × Bool} {st st' : σ} {buf line rest : List Byte}
    (hs : splitLine buf = some (line, rest)) (hh : h st line = (st', true)) :
    drain h st buf = (st', rest, true) := by
  rw [drain]
  split
  · rename_i heq; rw [hs] at heq; cases heq
  · rename_i l r heq
    rw [hs] at heq
    cases heq
    simp [hh]

theorem drain_of_keep {h : σ → List Byte → σ × Bool} {st st' : σ} {buf line rest : List Byte}
    (hs : splitLine buf = some (line, rest)) (hh : h st line = (st', false)) :
    drain h st buf = drain h st' rest := by
  rw [drain]
  split
  · rename_i heq; rw [hs] at heq; cases heq
  · rename_i l r heq
    rw [hs] at heq
    cases heq
    simp [hh]

/-- **Loop rule** for `drain`: `I` holds before each line, `J` at the end, with the flag that says
whether the handler stopped. -/
theorem drain_rule {h : σ → List Byte → σ × Bool} {I : σ → List Byte → Prop}
    {J : σ → List Byte → Bool → Prop}
    (hend : ∀ st buf, I st buf → LF ∉ buf → J st buf false)
    (hstop : ∀ st st' line rest, I st (line ++ LF :: rest) → LF ∉ line → h st line = (st', true) →
      J st' rest true)
    (hkeep : ∀ st st' line rest, I st (line ++ LF :: rest) → LF ∉ line → h st line = (st', false) →
      I st' rest)
    {st : σ} {buf : List Byte} (hI : I st buf) :
    J (drain h st buf).1 (drain h st buf).2.1 (drain h st buf).2.2 := by
  -- by the length of the buffer: every turn of the loop removes a line
  induction hn : buf.length using Nat.strongRecOn generalizing st buf with
  | _ n ih =>
    cases hs : splitLine buf with
    | none =>
        rw [drain_of_none hs]
        exact hend st buf hI (splitLine_eq_none_iff.mp hs)
    | some p =>
      obtain ⟨line, rest⟩ := p
      have hlen := splitLine_length hs
      obtain ⟨rfl, hlf⟩ := splitLine_eq_some_iff.mp hs
      cases hh : h st line with
      | mk st' stop =>
        cases stop with
        | true =>
            rw [drain_of_stop hs hh]
            exact hstop st st' line rest hI hlf hh
        | false =>
            rw [drain_of_keep hs hh]
            exact ih _ (by omega) (hkeep st st' line rest hI hlf hh) rfl

/-- The handler comes to this state with this rest of the buffer, without having stopped. -/
inductive Reaches (h : σ → List Byte → σ × Bool) (st : σ) (buf : List Byte) : σ → List Byte → Prop
  | start : Reaches h st buf st buf
  | line {st' st'' : σ} {line rest : List Byte} (hr : Reaches h st buf st' (line ++ LF :: rest))
      (hlf : LF ∉ line) (hh : h st' line = (st'', false)) : Reaches h st buf st'' rest

theorem Reaches.drain_eq {h : σ → List Byte → σ × Bool} {st st' : σ} {buf rest : List Byte}
    (hr : Reaches h st buf st' rest) : drain h st buf = drain h st' rest := by
  induction hr with
  | start => rfl
  | line hr hlf hh ih => rw [ih, drain_of_keep (splitLine_eq_some_iff.mpr ⟨rfl, hlf⟩) hh]

/-- **Where `drain` ends**: without a stop it reaches its end, which has no line, and with a stop it
has reached the line at which the handler stops. -/
theorem reaches_drain (h : σ → List Byte → σ × Bool) (st : σ) (buf : List Byte) :
    ((drain h st buf).2.2 = false →
      Reaches h st buf (drain h st buf).1 (drain h st buf).2.1 ∧ LF ∉ (drain h st buf).2.1) ∧
    ((drain h st buf).2.2 = true → ∃ st' line rest, Reaches h st buf st' (line ++ LF :: rest) ∧
      LF ∉ line ∧ (h st' line).2 = true) := by
  refine drain_rule (I := Reaches h st buf)
    (J := fun st' rest stopped => (stopped = false → Reaches h st buf st' rest ∧ LF ∉ rest) ∧
      (stopped = true → ∃ st' line rest, Reaches h st buf st' (line ++ LF :: rest) ∧ LF ∉ line ∧
        (h st' line).2 = true)) ?_ ?_ ?_ .start
  · exact fun st' rest hr hlf => ⟨fun _ => ⟨hr, hlf⟩, nofun⟩
  · exact fun st' st'' line rest hr hlf hh =>
      ⟨nofun, fun _ => ⟨st', line, rest, hr, hlf, by rw [hh]⟩⟩
  · exact fun st' st'' line rest hr hlf hh => hr.line hlf hh

/-- The handler stops exactly if it reaches a line at which it does. -/
theorem drain_stops_iff {h : σ → List Byte → σ × Bool} {st : σ} {buf : List Byte} :
    (drain h st buf).2.2 = true ↔ ∃ st' line rest, Reaches h st buf st' (line ++ LF :: rest) ∧
      LF ∉ line ∧ (h st' line).2 = true := by
  refine ⟨(reaches_drain h st buf).2, ?_⟩
  rintro ⟨st', line, rest, hr, hlf, hstop⟩
  rw [hr.drain_eq, drain_of_stop (splitLine_eq_some_iff.mpr ⟨rfl, hlf⟩) (Prod.ext rfl hstop)]

/-- The reference for a whole stream: cut it at the line feeds, handle the lines in order, and close
as soon as the current line has `limit` bytes without a line feed or the handler closes. -/
def frame (limit : ℕ) (h : σ → List Byte → σ × Bool) (st : σ) (s : List Byte) : σ × Bool :=
  if limit ≤ (firstLine s).length then (st, true)
  else
    match _hs : splitLine s with
    | none => (st, false)
    | some (line, rest) =>
        match h st line with
        | (st', true) => (st', true)
        | (st', false) => frame limit h st' rest
termination_by s.length
decreasing_by exact splitLine_length _hs

theorem frame_of_long {limit : ℕ} {h : σ → List Byte → σ × Bool} {st : σ} {s : List Byte}
    (hl : limit ≤ (firstLine s).length) : frame limit h st s = (st, true) := by
  rw [frame, if_pos hl]

theorem frame_of_open {limit : ℕ} {h : σ → List Byte → σ × Bool} {st : σ} {s : List Byte}
    (hl : s.length < limit) (hs : LF ∉ s) : frame limit h st s = (st, false) := by
  rw [frame, if_neg (by rw [firstLine_of_not_mem hs]; omega)]
  split
  · rfl
  · rename_i heq; rw [splitLine_eq_none_iff.mpr hs] at heq; cases heq

theorem frame_of_close {limit : ℕ} {h : σ → List Byte → σ × Bool} {st st' : σ}
    {s line rest : List Byte} (hs : splitLine s = some (line, rest)) (hl : line.length < limit)
    (hh : h st line = (st', true)) : frame limit h st s = (st', true) := by
  obtain ⟨rfl, hlf⟩ := splitLine_eq_some_iff.mp hs
  rw [frame, if_neg (by rw [firstLine_append_lf rest hlf]; omega)]
  split
  · rename_i heq; rw [hs] at heq; cases heq
  · rename_i l r heq
    rw [hs] at heq
    cases heq
    simp [hh]

theorem frame_of_keep {limit : ℕ} {h : σ → List Byte → σ × Bool} {st st' : σ}
    {s line rest : List Byte} (hs : splitLine s = some (line, rest)) (hl : line.length < limit)
    (hh : h st line = (st', false)) : frame limit h st s = frame limit h st' rest := by
  obtain ⟨rfl, hlf⟩ := splitLine_eq_some_iff.mp hs
  rw [frame, if_neg (by rw [firstLine_append_lf rest hlf]; omega)]
  split
  · rename_i heq; rw [hs] at heq; cases heq
  · rename_i l r heq
    rw [hs] at heq
    cases heq
    simp [hh]

/-- The first line of at least `limit` bytes ends in a line feed after fewer than `cap` bytes; `n`
bytes of the current line have been passed already. -/
def lateLine (limit cap : ℕ) : ℕ → List Byte → Bool
  | _, [] => false
  | n, b :: s =>
      if b = LF then if limit ≤ n then decide (n < cap) else lateLine limit cap 0 s
      else lateLine limit cap (n + 1) s

theorem lateLine_append {limit cap : ℕ} (n : ℕ) {p : List Byte} (t : List Byte) (hp : LF ∉ p) :
    lateLine limit cap n (p ++ t) = lateLine limit cap (n + p.length) t := by
  induction p generalizing n with
  | nil => rfl
  | cons b p ih =>
      have hb : b ≠ LF := fun hb => hp (by simp [hb])
      rw [List.cons_append, lateLine, if_neg hb, ih _ fun hm => hp (by simp [hm])]
      congr 1
      simp only [List.length_cons]
      omega

theorem lateLine_of_split {limit cap : ℕ} {s line rest : List Byte}
    (hs : splitLine s = some (line, rest)) :
    lateLine limit cap 0 s =
      if limit ≤ line.length then decide (line.length < cap) else lateLine limit cap 0 rest := by
  obtain ⟨rfl, hlf⟩ := splitLine_eq_some_iff.mp hs
  rw [lateLine_append 0 _ hlf, lateLine, if_pos rfl, Nat.zero_add]

theorem lateLine_of_none {limit cap : ℕ} {s : List Byte} (hs : splitLine s = none) :
    lateLine limit cap 0 s = false := by
  rw [← List.append_nil s, lateLine_append 0 [] (splitLine_eq_none_iff.mp hs), lateLine]

/-- No line is too long for the limit and yet ends within it. -/
theorem lateLine_self (limit : ℕ) (n : ℕ) (s : List Byte) : lateLine limit limit n s = false := by
  induction s generalizing n with
  | nil => rfl
  | cons b s ih =>
      rw [lateLine]
      split
      · split
        · rw [decide_eq_false_iff_not]
          omega
        · exact ih 0
      · exact ih (n + 1)

/-- A line that ends within `cap` bytes is short if no overlong line does. -/
theorem lateLine_split {limit cap : ℕ} {buf t line rest : List Byte}
    (hlen : buf.length ≤ cap) (hs : splitLine buf = some (line, rest))
    (hlate : lateLine limit cap 0 (buf ++ t) = false) :
    line.length < limit ∧ lateLine limit cap 0 (rest ++ t) = false := by
  have hcap : line.length < cap := by
    obtain ⟨rfl, -⟩ := splitLine_eq_some_iff.mp hs
    simp only [List.length_append, List.length_cons] at hlen
    omega
  rw [lateLine_of_split (splitLine_append t hs)] at hlate
  split at hlate
  · rw [decide_eq_false_iff_not] at hlate
    exact absurd hcap hlate
  · rename_i hlt
    exact ⟨Nat.lt_of_not_le hlt, hlate⟩

/-- **Draining then framing.** If a drained buffer holds at most `cap` bytes and no overlong line
ends within `cap` bytes, then framing the buffer followed by any stream goes on from what draining
it left behind. -/
theorem frame_drain {limit cap : ℕ} (h : σ → List Byte → σ × Bool) (st : σ) (buf t : List Byte)
    (hlen : buf.length ≤ cap) (hlate : lateLine limit cap 0 (buf ++ t) = false) :
    frame limit h st (buf ++ t) =
      if (drain h st buf).2.2 then ((drain h st buf).1, true)
      else frame limit h (drain h st buf).1 ((drain h st buf).2.1 ++ t) := by
  induction hn : buf.length using Nat.strongRecOn generalizing st buf with
  | _ n ih =>
    cases hs : splitLine buf with
    | none => simp [drain_of_none hs]
    | some p =>
      obtain ⟨line, rest⟩ := p
      have hrest := splitLine_length hs
      obtain ⟨hlt, hlate⟩ := lateLine_split hlen hs hlate
      cases hh : h st line with
      | mk st' c =>
        cases c with
        | true => rw [frame_of_close (splitLine_append t hs) hlt hh, drain_of_stop hs hh]; rfl
        | false =>
            rw [frame_of_keep (splitLine_append t hs) hlt hh, drain_of_keep hs hh]
            exact ih rest.length (by omega) st' rest (by omega) hlate rfl

/-- If no overlong line ends within `cap` bytes, then none does in what draining leaves behind. -/
theorem lateLine_drain {limit cap : ℕ} {h : σ → List Byte → σ × Bool} {st : σ} {buf t : List Byte}
    (hlen : buf.length ≤ cap) (hc : (drain h st buf).2.2 = false)
    (hlate : lateLine limit cap 0 (buf ++ t) = false) :
    lateLine limit cap 0 ((drain h st buf).2.1 ++ t) = false := by
  induction hn : buf.length using Nat.strongRecOn generalizing st buf with
  | _ n ih =>
    cases hs : splitLine buf with
    | none => rwa [drain_of_none hs]
    | some p =>
      obtain ⟨line, rest⟩ := p
      have hrest := splitLine_length hs
      have hlate' := (lateLine_split hlen hs hlate).2
      cases hh : h st line with
      | mk st' c =>
        cases c with
        | true => rw [drain_of_stop hs hh] at hc; cases hc
        | false =>
            rw [drain_of_keep hs hh] at hc ⊢
            exact ih rest.length (by omega) (by omega) hc hlate' rfl

/-- What draining leaves behind without stopping has no complete line, and is no longer than
before. -/
theorem drain_rest {h : σ → List Byte → σ × Bool} {st : σ} {buf : List Byte}
    (hc : (drain h st buf).2.2 = false) :
    LF ∉ (drain h st buf).2.1 ∧ (drain h st buf).2.1.length ≤ buf.length := by
  induction hn : buf.length using Nat.strongRecOn generalizing st buf with
  | _ n ih =>
    cases hs : splitLine buf with
    | none =>
      rw [drain_of_none hs]
      exact ⟨splitLine_eq_none_iff.mp hs, hn.le⟩
    | some p =>
      obtain ⟨line, rest⟩ := p
      have hrest := splitLine_length hs
      cases hh : h st line with
      | mk st' c =>
        cases c with
        | true => rw [drain_of_stop hs hh] at hc; cases hc
        | false =>
            rw [drain_of_keep hs hh] at hc ⊢
            obtain ⟨h1, h2⟩ := ih rest.length (by omega) hc rfl
            exact ⟨h1, by omega⟩

/-! ## Lines put together again -/

/-- The lines with their line feeds. -/
def unlines (ls : List (List Byte)) : List Byte := ls.flatMap (· ++ [LF])

@[simp] theorem unlines_nil : unlines [] = [] := rfl

@[simp] theorem unlines_cons (l : List Byte) (ls : List (List Byte)) :
    unlines (l :: ls) = l ++ LF :: unlines ls := by
  simp [unlines]

theorem unlines_append_singleton (ls : List (List Byte)) (l : List Byte) :
    unlines (ls ++ [l]) = unlines ls ++ (l ++ [LF]) := by
  simp [unlines]

/-- Every stream is lines and a rest. -/
theorem exists_unlines (s : List Byte) :
    ∃ ls rest, s = unlines ls ++ rest ∧ (∀ l ∈ ls, LF ∉ l) ∧ LF ∉ rest := by
  induction hn : s.length using Nat.strongRecOn generalizing s with
  | _ n ih =>
    cases hs : splitLine s with
    | none => exact ⟨[], s, rfl, fun _ h => absurd h List.not_mem_nil, splitLine_eq_none_iff.mp hs⟩
    | some p =>
      obtain ⟨l, t⟩ := p
      have hlen := splitLine_length hs
      obtain ⟨rfl, hlf⟩ := splitLine_eq_some_iff.mp hs
      obtain ⟨ls, rest, rfl, hls, hrest⟩ := ih _ (by omega) t rfl
      refine ⟨l :: ls, rest, ?_, ?_, hrest⟩
      · rw [unlines_cons, List.append_assoc, List.cons_append]
      · intro m hm
        rcases List.mem_cons.mp hm with rfl | hm
        · exact hlf
        · exact hls m hm

/-- The first line of lines put together. -/
theorem splitLine_unlines {l : List Byte} (ls : List (List Byte)) (rest : List Byte) (h : LF ∉ l) :
    splitLine (unlines (l :: ls) ++ rest) = some (l, unlines ls ++ rest) := by
  rw [splitLine_eq_some_iff, unlines_cons, List.append_assoc, List.cons_append]
  exact ⟨rfl, h⟩

/-- A stream of short lines has no overlong one. -/
theorem lateLine_unlines {limit cap : ℕ} {ls : List (List Byte)} {rest : List Byte}
    (hls : ∀ l ∈ ls, LF ∉ l) (hlen : ∀ l ∈ ls, l.length < limit) (hrest : LF ∉ rest) :
    lateLine limit cap 0 (unlines ls ++ rest) = false := by
  induction ls with
  | nil => exact lateLine_of_none (splitLine_eq_none_iff.mpr hrest)
  | cons l ls ih =>
      have hs := splitLine_unlines ls rest (hls l List.mem_cons_self)
      rw [lateLine_of_split hs, if_neg (Nat.not_le_of_lt (hlen l List.mem_cons_self))]
      exact ih (fun l h => hls l (List.mem_cons_of_mem _ h))
        (fun l h => hlen l (List.mem_cons_of_mem _ h))

theorem firstLine_of_isPrefix {l rest s : List Byte} (h : l ++ LF :: rest <+: s) (hl : LF ∉ l) :
    firstLine s = l := by
  obtain ⟨t, rfl⟩ := h
  rw [List.append_assoc, List.cons_append]
  exact firstLine_append_lf _ hl

/-- **Lines of one stream.** Two ways of reading the start of a stream as lines agree as far as both
go: the second one has all the lines of the first if it reads the whole stream, or if what it leaves
is longer than each of them. -/
theorem isPrefix_of_unlines {ls ms : List (List Byte)} {rest s : List Byte}
    (hls : ∀ l ∈ ls, LF ∉ l) (hms : ∀ m ∈ ms, LF ∉ m) (hrest : LF ∉ rest) (h₁ : unlines ls <+: s)
    (h₂ : unlines ms ++ rest <+: s)
    (hend : unlines ms ++ rest = s ∨ ∀ l ∈ ls, l.length < rest.length) : ls <+: ms := by
  induction ls generalizing ms s with
  | nil => exact List.nil_prefix
  | cons l ls ih =>
      have hl := hls l List.mem_cons_self
      rw [unlines_cons] at h₁
      cases ms with
      | nil =>
          -- the line feed behind `l` would lie in `rest`
          exfalso
          rw [unlines_nil, List.nil_append] at h₂ hend
          have hlf : s[l.length]? = some LF := by
            obtain ⟨t, rfl⟩ := h₁
            rw [List.append_assoc, List.getElem?_append_right (Nat.le_refl _), Nat.sub_self]
            rfl
          rcases hend with rfl | hlong
          · exact hrest (List.mem_of_getElem? hlf)
          · have hlt := hlong l List.mem_cons_self
            obtain ⟨t, rfl⟩ := h₂
            rw [List.getElem?_append_left hlt] at hlf
            exact hrest (List.mem_of_getElem? hlf)
      | cons m ms =>
          rw [unlines_cons, List.append_assoc] at h₂ hend
          have hm := hms m List.mem_cons_self
          obtain rfl : l = m :=
            (firstLine_of_isPrefix h₁ hl).symm.trans (firstLine_of_isPrefix h₂ hm)
          obtain ⟨s', rfl⟩ : ∃ s', s = l ++ LF :: s' := by
            obtain ⟨t, rfl⟩ := h₁
            exact ⟨unlines ls ++ t, by simp⟩
          simp only [List.cons_append, List.prefix_append_right_inj,
            List.cons_prefix_cons, true_and, List.append_cancel_left_eq, List.cons.injEq]
            at h₁ h₂ hend
          rw [List.cons_prefix_cons]
          refine ⟨rfl, ih (fun l h => hls l (List.mem_cons_of_mem _ h))
            (fun m h => hms m (List.mem_cons_of_mem _ h)) h₁ h₂ ?_⟩
          exact hend.imp_right fun h l hl => h l (List.mem_cons_of_mem _ hl)

end Osvcp
