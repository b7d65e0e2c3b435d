import Osvcp.Lib.Text
import Osvcp.Servers.RustFraming

/-! # The requests of the Tokio server

`handle_connection` of `tokio-file-server/src/main.rs` takes its lines from the line reader of tokio
and trims them once more. The reader is a parameter here: `LineReader` is what the loop calls, and
`LineReader.YieldsLines` what tokio documents of it. The names that reach `serve_file` are compared
with those of `process_client` in the Rust select server, however the stream is cut into reads for
either of them. Two things tell the servers apart: the reader also yields what stands behind the
last line feed, and the trimming removes all the carriage returns at the end of a line where
`process_client` removes one (`tokio_requests_iff`).
-/

namespace Osvcp.Servers

variable {ρ σ : Type*}

/-! ## The line reader -/

/-- What `next_line` returns. -/
inductive NextLine
  | line (text : List Byte)
  | eof
  | error
  deriving DecidableEq, Repr

/-- A line reader: `opened reads` is `BufReader::new(read_half).lines()` on a connection that
delivers `reads` and then the end of file. At most `remaining` bytes are still to come, and a line
takes some of them. -/
structure LineReader (ρ : Type*) where
  opened : List (List Byte) → ρ
  nextLine : ρ → NextLine × ρ
  remaining : ρ → ℕ
  remaining_lt : ∀ r text, (nextLine r).1 = .line text → remaining (nextLine r).2 < remaining r

namespace LineReader

/-- The reader gives these lines one after the other, and then the end. -/
def Yields (R : LineReader ρ) : ρ → List (List Byte) → Prop
  | r, [] => (R.nextLine r).1 = .eof
  | r, text :: texts => (R.nextLine r).1 = .line text ∧ R.Yields (R.nextLine r).2 texts

/-- A reader gives one sequence of lines. -/
theorem Yields.unique {R : LineReader ρ} {r : ρ} {ls ms : List (List Byte)} (hl : R.Yields r ls)
    (hm : R.Yields r ms) : ls = ms := by
  induction ls generalizing r ms with
  | nil =>
      cases ms with
      | nil => rfl
      | cons m ms => cases hl.symm.trans hm.1
  | cons l ls ih =>
      cases ms with
      | nil => cases hl.1.symm.trans hm
      | cons m ms =>
          obtain rfl : l = m := NextLine.line.inj (hl.1.symm.trans hm.1)
          rw [ih hl.2 hm.2]

/-- What `next_line` documents: on valid UTF-8 it gives each line without its line feed and the
carriage return before it, then the bytes behind the last line feed if there are any, then the
end. -/
def YieldsLines (R : LineReader ρ) : Prop :=
  ∀ (reads lines : List (List Byte)) (rest : List Byte), (∀ bytes ∈ reads, bytes ≠ []) →
    (∀ line ∈ lines, LF ∉ line) → LF ∉ rest → reads.flatten = unlines lines ++ rest →
    validUtf8 reads.flatten = true →
    R.Yields (R.opened reads) (lines.map stripCr ++ if rest = [] then [] else [rest])

end LineReader

/-- The loop of `handle_connection`. The handler's flag says that it failed. -/
def handleConnection (R : LineReader ρ) (serveFile : σ → List Byte → σ × Bool) (st : σ)
    (r : ρ) : σ :=
  match _hm : (R.nextLine r).1 with
  | .line text =>
      match serveFile st (trimEnd text) with
      | (st', true) => st'
      | (st', false) => handleConnection R serveFile st' (R.nextLine r).2
  | .eof => st
  | .error => st
termination_by R.remaining r
decreasing_by exact R.remaining_lt r text _hm

/-- The file names that `handle_connection` passes to `serve_file`, if none of the calls fails. -/
def tokioNames (R : LineReader ρ) (reads : List (List Byte)) : List (List Byte) :=
  handleConnection R logLine [] (R.opened reads)

/-- The Rust select server with a handler that logs the file name. -/
def rustNamer : Framer (List Byte) (List (List Byte)) :=
  rustFramer fun log line => logLine log (fromUtf8Lossy line)

/-- The file names that `process_client` passes to `serve_file` over these reads, if none of the
calls fails. The end of file closes the connection without another call. -/
def rustNames (reads : List (List Byte)) : List (List Byte) :=
  (rustNamer.feed (rustNamer.start []) reads).st

/-- A stream that a client can send: lines of at most 510 bytes and a rest without a line feed,
together valid UTF-8. -/
structure RequestStream where
  lines : List (List Byte)
  rest : List Byte
  lines_lf : ∀ line ∈ lines, LF ∉ line
  lines_le : ∀ line ∈ lines, line.length ≤ 510
  rest_lf : LF ∉ rest
  valid : validUtf8 (unlines lines ++ rest) = true

/-- The bytes of a stream. -/
def RequestStream.bytes (s : RequestStream) : List Byte := unlines s.lines ++ s.rest

/-! ## The names of the Tokio server -/

theorem handleConnection_line {R : LineReader ρ} {serveFile : σ → List Byte → σ × Bool} {st st' : σ}
    {r : ρ} {text : List Byte} (hl : (R.nextLine r).1 = .line text)
    (hh : serveFile st (trimEnd text) = (st', false)) :
    handleConnection R serveFile st r = handleConnection R serveFile st' (R.nextLine r).2 := by
  rw [handleConnection]
  split
  · rename_i text' heq
    obtain rfl : text = text' := NextLine.line.inj (hl.symm.trans heq)
    rw [hh]
  · rename_i heq
    cases hl.symm.trans heq
  · rename_i heq
    cases hl.symm.trans heq

theorem handleConnection_eof {R : LineReader ρ} {serveFile : σ → List Byte → σ × Bool}
    {st : σ} {r : ρ} (he : (R.nextLine r).1 = .eof) : handleConnection R serveFile st r = st := by
  rw [handleConnection]
  split
  · rename_i heq
    cases he.symm.trans heq
  · rfl
  · rfl

/-- Every line that the reader gives reaches `serve_file`, trimmed. -/
theorem handleConnection_yields {R : LineReader ρ} {r : ρ} {texts : List (List Byte)}
    (h : R.Yields r texts) (log : List (List Byte)) :
    handleConnection R logLine log r = log ++ texts.map trimEnd := by
  induction texts generalizing r log with
  | nil =>
      rw [handleConnection_eof h, List.map_nil, List.append_nil]
  | cons text texts ih =>
      obtain ⟨hl, hrest⟩ := h
      rw [handleConnection_line hl rfl, ih hrest, List.map_cons, List.append_assoc]
      rfl

/-- **The names of the Tokio server**: the lines of the stream without the carriage returns at their
ends, and the rest if there is one. -/
theorem tokioNames_eq {R : LineReader ρ} (hR : R.YieldsLines) (s : RequestStream)
    {reads : List (List Byte)} (hne : ∀ bytes ∈ reads, bytes ≠ [])
    (hflat : reads.flatten = s.bytes) :
    tokioNames R reads = s.lines.map (fun line => trimEnd (stripCr line)) ++
      if s.rest = [] then [] else [trimEnd s.rest] := by
  have hy := hR reads s.lines s.rest hne s.lines_lf s.rest_lf hflat (hflat ▸ s.valid)
  rw [tokioNames, handleConnection_yields hy, List.nil_append, List.map_append, List.map_map]
  congr 1
  split
  · rfl
  · rfl

/-! ## The names of the Rust select server -/

/-- The reference logs every line of the stream, and nothing for the rest. -/
theorem frame_logLine (f : List Byte → List Byte) {lines : List (List Byte)} {rest : List Byte}
    (hlf : ∀ line ∈ lines, LF ∉ line) (hle : ∀ line ∈ lines, line.length ≤ 510) (hrest : LF ∉ rest)
    (log : List (List Byte)) :
    (frame 511 (fun log line => logLine log (f line)) log (unlines lines ++ rest)).1 =
      log ++ lines.map f := by
  induction lines generalizing log with
  | nil =>
      rw [unlines_nil, List.nil_append, List.map_nil, List.append_nil]
      rcases Nat.lt_or_ge rest.length 511 with hlt | hge
      · rw [frame_of_open hlt hrest]
      · rw [frame_of_long (by rwa [firstLine_of_not_mem hrest])]
  | cons line lines ih =>
      have hs := splitLine_unlines lines rest (hlf line List.mem_cons_self)
      rw [frame_of_keep hs (Nat.lt_succ_of_le (hle line List.mem_cons_self)) rfl,
        ih (fun l h => hlf l (List.mem_cons_of_mem _ h))
        (fun l h => hle l (List.mem_cons_of_mem _ h)), List.map_cons, List.append_assoc]
      rfl

/-- A line of valid UTF-8 stays valid without its carriage return. -/
theorem validUtf8_stripCr {line : List Byte} (h : validUtf8 line = true) :
    validUtf8 (stripCr line) = true := by
  rw [stripCr]
  split
  · rename_i hlast
    obtain ⟨init, rfl⟩ := List.getLast?_eq_some_iff.mp hlast
    rw [List.dropLast_concat]
    exact (validUtf8_split (by decide) h).1
  · exact h

/-- The lines of valid UTF-8 are valid. -/
theorem validUtf8_of_mem_lines {lines : List (List Byte)} {rest line : List Byte}
    (h : validUtf8 (unlines lines ++ rest) = true) (hmem : line ∈ lines) :
    validUtf8 line = true := by
  induction lines with
  | nil => cases hmem
  | cons l lines ih =>
      rw [unlines_cons, List.append_assoc] at h
      obtain ⟨hl, hrest⟩ := validUtf8_split (by decide) h
      rcases List.mem_cons.mp hmem with rfl | hmem
      · exact hl
      · exact ih hrest hmem

/-- Valid lines make a valid stream. -/
theorem validUtf8_unlines {lines : List (List Byte)} (h : ∀ line ∈ lines, validUtf8 line = true) :
    validUtf8 (unlines lines) = true := by
  induction lines with
  | nil => exact validUtf8_of_ascii rfl
  | cons line lines ih =>
      rw [unlines_cons]
      have hlf : validUtf8 [LF] = true := validUtf8_of_ascii (by decide)
      have hrest := ih fun l hl => h l (List.mem_cons_of_mem _ hl)
      exact validUtf8_append (h line List.mem_cons_self) (validUtf8_append hlf hrest)

/-- **The names of the Rust select server**: the lines of the stream, each without one carriage
return, and nothing for the rest. -/
theorem rustNames_eq (s : RequestStream) {reads : List (List Byte)}
    (hflat : reads.flatten = s.bytes) (hv : rustNamer.ValidReads (rustNamer.start []) reads) :
    rustNames reads = s.lines.map stripCr := by
  have hdrains := rustFramer_drains fun log line => logLine log (fromUtf8Lossy line)
  have hlate : lateLine 511 1022 0 reads.flatten = false := by
    rw [hflat]
    exact lateLine_unlines s.lines_lf (fun l h => Nat.lt_succ_of_le (s.lines_le l h)) s.rest_lf
  have hfeed := congrArg Prod.fst (hdrains.feed_eq_frame (hdrains.idle_start []) rfl hv hlate)
  calc rustNames reads
      = s.lines.map (fun line => fromUtf8Lossy (stripCr line)) := by
        refine hfeed.trans ?_
        show (frame 511 _ [] reads.flatten).1 = _
        rw [hflat, RequestStream.bytes]
        exact frame_logLine (fun line => fromUtf8Lossy (stripCr line)) s.lines_lf s.lines_le
          s.rest_lf []
    _ = s.lines.map stripCr := by
        refine List.map_congr_left fun line hmem => ?_
        exact fromUtf8Lossy_of_valid (validUtf8_stripCr (validUtf8_of_mem_lines s.valid hmem))

/-! ## A reader

The lines of a connection do not depend on its reads, so a reader can be told by the bytes that are
still to come.
-/

/-- `next_line` when these bytes are still to come. -/
def nextLineOf (s : List Byte) : NextLine × List Byte :=
  match splitLine s with
  | some (line, rest) => (if validUtf8 line then .line (stripCr line) else .error, rest)
  | none => (if s = [] then .eof else if validUtf8 s then .line s else .error, [])

theorem nextLineOf_split {s line rest : List Byte} (hs : splitLine s = some (line, rest))
    (hv : validUtf8 line = true) : nextLineOf s = (.line (stripCr line), rest) := by
  rw [nextLineOf, hs]
  dsimp only
  rw [if_pos hv]

theorem nextLineOf_rest {s : List Byte} (hs : LF ∉ s) (hne : s ≠ []) (hv : validUtf8 s = true) :
    nextLineOf s = (.line s, []) := by
  rw [nextLineOf, splitLine_eq_none_iff.mpr hs]
  dsimp only
  rw [if_neg hne, if_pos hv]

theorem nextLineOf_length (s text : List Byte) (h : (nextLineOf s).1 = .line text) :
    (nextLineOf s).2.length < s.length := by
  rw [nextLineOf] at h ⊢
  split
  · rename_i hs
    exact splitLine_length hs
  · rename_i hs
    rw [hs] at h
    cases s with
    | nil => cases h
    | cons b s => exact Nat.succ_pos _

/-- The reader that is told by the bytes still to come. -/
def streamLines : LineReader (List Byte) where
  opened := List.flatten
  nextLine := nextLineOf
  remaining := List.length
  remaining_lt := nextLineOf_length

theorem streamLines_yieldsLines : streamLines.YieldsLines := by
  intro reads lines rest _ hlines hrest hflat hv
  show streamLines.Yields reads.flatten _
  rw [hflat] at hv ⊢
  clear hflat
  induction lines with
  | nil =>
      rw [unlines_nil, List.nil_append] at hv ⊢
      rw [List.map_nil, List.nil_append]
      by_cases hnil : rest = []
      · rw [if_pos hnil, hnil]
        rfl
      · have hnext := nextLineOf_rest hrest hnil hv
        rw [if_neg hnil]
        refine ⟨congrArg Prod.fst hnext, ?_⟩
        show (nextLineOf (nextLineOf rest).2).1 = .eof
        rw [hnext]
        rfl
  | cons line lines ih =>
      have hs := splitLine_unlines lines rest (hlines line List.mem_cons_self)
      have hnext := nextLineOf_split hs (validUtf8_of_mem_lines hv List.mem_cons_self)
      rw [unlines_cons, List.append_assoc] at hv
      have hrec := ih (fun l h => hlines l (List.mem_cons_of_mem _ h))
        (validUtf8_split (by decide) hv).2
      refine ⟨congrArg Prod.fst hnext, ?_⟩
      show streamLines.Yields (nextLineOf _).2 _
      rw [hnext]
      exact hrec

/-! ## Where the two agree -/

/-- The second trimming changes nothing if and only if there are no two carriage returns at the
end. -/
theorem trimEnd_stripCr_iff {line : List Byte} (hlf : LF ∉ line) :
    trimEnd (stripCr line) = stripCr line ↔ ¬[CR, CR] <:+ line := by
  by_cases hlast : line.getLast? = some CR
  · obtain ⟨init, rfl⟩ := List.getLast?_eq_some_iff.mp hlast
    have hinit : LF ∉ init := fun h => hlf (List.mem_append_left _ h)
    have hsuffix : [CR, CR] <:+ init ++ [CR] ↔ init.getLast? = some CR := by
      rw [List.getLast?_eq_some_iff]
      constructor
      · rintro ⟨t, ht⟩
        exact ⟨t, List.append_cancel_right (by rw [← ht]; simp)⟩
      · rintro ⟨t, rfl⟩
        exact ⟨t, by simp⟩
    rw [stripCr, if_pos hlast, List.dropLast_concat, trimEnd_eq_self_iff hinit, hsuffix]
  · rw [stripCr, if_neg hlast, trimEnd_eq_self_iff hlf]
    refine iff_of_true hlast ?_
    rintro ⟨t, rfl⟩
    exact hlast (by simp)

/-- The names agree if and only if there is no rest and the second trimming changes no line. -/
theorem names_eq_iff {lines : List (List Byte)} {rest : List Byte} :
    (lines.map (fun line => trimEnd (stripCr line)) ++ if rest = [] then [] else [trimEnd rest]) =
        lines.map stripCr ↔
      rest = [] ∧ ∀ line ∈ lines, trimEnd (stripCr line) = stripCr line := by
  constructor
  · intro h
    have hrest : rest = [] := by
      by_contra hne
      have hlen := congrArg List.length h
      rw [if_neg hne, List.length_append, List.length_map, List.length_map, List.length_singleton]
        at hlen
      omega
    rw [if_pos hrest, List.append_nil] at h
    exact ⟨hrest, List.map_inj_left.mp h⟩
  · rintro ⟨hrest, hall⟩
    rw [if_pos hrest, List.append_nil]
    exact List.map_congr_left hall

/-- **When the Tokio server parses the requests of the Rust select server.** The select server
serves the lines of the stream, each without one carriage return. The Tokio server passes the same
names to `serve_file` if and only if the stream ends with a line feed and no line ends with two
carriage returns before it. -/
theorem tokio_requests_iff {R : LineReader ρ} (hR : R.YieldsLines) (s : RequestStream)
    {tokioReads rustReads : List (List Byte)} (hne : ∀ bytes ∈ tokioReads, bytes ≠ [])
    (htokio : tokioReads.flatten = s.bytes) (hrust : rustReads.flatten = s.bytes)
    (hv : rustNamer.ValidReads (rustNamer.start []) rustReads) :
    rustNames rustReads = s.lines.map stripCr ∧
      (tokioNames R tokioReads = rustNames rustReads ↔
        s.rest = [] ∧ ∀ line ∈ s.lines, ¬[CR, CR] <:+ line) := by
  have hnames := rustNames_eq s hrust hv
  refine ⟨hnames, ?_⟩
  rw [hnames, tokioNames_eq hR s hne htokio, names_eq_iff]
  refine and_congr_right fun _ => forall₂_congr fun line hmem => ?_
  exact trimEnd_stripCr_iff (s.lines_lf line hmem)

/-- A stream of ASCII. -/
def RequestStream.ofAscii (lines : List (List Byte)) (rest : List Byte)
    (hlines : ∀ line ∈ lines, LF ∉ line ∧ line.length ≤ 510) (hrest : LF ∉ rest)
    (hascii : (unlines lines ++ rest).all (fun b => b.toNat < 128) = true) : RequestStream where
  lines := lines
  rest := rest
  lines_lf line h := (hlines line h).1
  lines_le line h := (hlines line h).2
  rest_lf := hrest
  valid := validUtf8_of_ascii hascii

/-- A name with a carriage return before the line feed, cut differently for the two servers. -/
theorem tokio_requests_iff_crlf :
    rustNames [[97, CR], [LF]] = [[97]] ∧
      tokioNames streamLines [[97], [CR, LF]] = rustNames [[97, CR], [LF]] := by
  have h : rustNames [[97, CR], [LF]] = [[97]] ∧
      (tokioNames streamLines [[97], [CR, LF]] = rustNames [[97, CR], [LF]] ↔
        [] = [] ∧ ∀ line ∈ [[97, CR]], ¬[CR, CR] <:+ line) :=
    tokio_requests_iff streamLines_yieldsLines
      (.ofAscii [[97, CR]] [] (by decide) (by decide) (by decide)) (by decide) rfl rfl
      ⟨fun _ => by decide, fun _ => by decide, trivial⟩
  exact ⟨h.1, h.2.mpr ⟨rfl, by decide⟩⟩

/-- A name without a line feed. -/
def RequestStream.unterminated : RequestStream :=
  .ofAscii [] [97] (by decide) (by decide) (by decide)

/-- A name with two carriage returns before the line feed. -/
def RequestStream.doubleCr : RequestStream :=
  .ofAscii [[97, CR, CR]] [] (by decide) (by decide) (by decide)

/-- Only the Tokio server serves a name without a line feed, and it removes both carriage returns
where the select server removes one. -/
theorem requests_differ :
    ([[97]].flatten = RequestStream.unterminated.bytes ∧
      rustNamer.ValidReads (rustNamer.start []) [[97]] ∧
      tokioNames streamLines [[97]] = [[97]] ∧ rustNames [[97]] = []) ∧
    ([[97, CR, CR, LF]].flatten = RequestStream.doubleCr.bytes ∧
      rustNamer.ValidReads (rustNamer.start []) [[97, CR, CR, LF]] ∧
      tokioNames streamLines [[97, CR, CR, LF]] = [[97]] ∧
      rustNames [[97, CR, CR, LF]] = [[97, CR]]) := by
  have hopen : rustNamer.ValidReads (rustNamer.start []) [[97]] := ⟨fun _ => by decide, trivial⟩
  have hcrs : rustNamer.ValidReads (rustNamer.start []) [[97, CR, CR, LF]] :=
    ⟨fun _ => by decide, trivial⟩
  refine ⟨⟨rfl, hopen, ?_, rustNames_eq .unterminated rfl hopen⟩, rfl, hcrs, ?_,
    rustNames_eq .doubleCr rfl hcrs⟩
  · exact tokioNames_eq streamLines_yieldsLines .unterminated (by decide) rfl
  · exact tokioNames_eq streamLines_yieldsLines .doubleCr (by decide) rfl

end Osvcp.Servers
