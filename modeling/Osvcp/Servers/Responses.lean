import Mathlib.Algebra.Group.Nat.Defs
import Osvcp.Lib.Messages
import Osvcp.Lib.Text
import Osvcp.Servers.Wire

/-! # Reading responses

The clients of the protocol: `fileConn.Do` of `file_server_test.go` and `Conn::do_request` of
`integration_test.rs`. Both read a status line, and for `+OK N` exactly `N` bytes of body. They
differ where the stream ends inside a line: `ReadString` fails, `read_line` returns what there is.
-/

namespace Osvcp.Servers

/-! ## Responses -/

/-- The reason of an error: text in UTF-8 without line ends. -/
structure Reason where
  bytes : List Byte
  cr : CR ∉ bytes
  lf : LF ∉ bytes
  utf8 : validUtf8 bytes = true

/-- A response: an error with its reason, or a body. -/
inductive Response
  | error (reason : Reason)
  | ok (body : { body : List Byte // body.length < 2 ^ 63 })

/-- The start of the status line of a success. -/
def okPrefix : List Byte := ascii "+OK "

/-- The start of an error line. -/
def errPrefix : List Byte := ascii "-ERR "

namespace Response

/-- The bytes a server sends for a response. -/
def encode : Response → List Byte
  | .error reason => errPrefix ++ reason.bytes ++ [LF]
  | .ok body => okPrefix ++ decimal body.1.length ++ [LF] ++ body.1

/-- The status line, without its line end. -/
def status : Response → List Byte
  | .error reason => errPrefix ++ reason.bytes
  | .ok body => okPrefix ++ decimal body.1.length

/-- The body, for a success. -/
def body : Response → Option (List Byte)
  | .error _ => none
  | .ok body => some body.1

end Response

theorem values_errLine (reason : String) :
    values (errLine reason) = errPrefix ++ ascii reason ++ [LF] := by
  rw [errLine, values_append, values_append, values_text, values_text, values_text]
  rfl

/-- The error line of a server is the encoding of an error. -/
theorem values_errLine_eq_encode {reason : String} {r : Reason} (h : r.bytes = ascii reason) :
    values (errLine reason) = (Response.error r).encode := by
  rw [values_errLine, Response.encode, h]

theorem values_digits (n : ℕ) :
    values ((Nat.toDigits 10 n).map fun ch => Cell.text (UInt8.ofNat ch.toNat)) = decimal n := by
  rw [values, List.map_map]
  rfl

theorem values_okHeader (n : ℕ) : values (okHeader n) = okPrefix ++ decimal n ++ [LF] := by
  rw [okHeader, values_append, values_append, values_text, values_text, values_digits]
  rfl

/-! ## The clients -/

/-- What a client returns: the status line and the body, if there is one. -/
abbrev Reply := List Byte × Option (List Byte)

/-- What a client returns for a response. -/
def Response.reply (r : Response) : Reply := (r.status, r.body)

/-- `strconv.ParseInt` with base 10 and 64 bits. -/
def parseInt (s : List Byte) : Option ℤ :=
  if s.head? = some 45 then
    (parseDecimal s.tail).bind fun n => if n ≤ 2 ^ 63 then some (-n : ℤ) else none
  else
    (parseDecimal (if s.head? = some 43 then s.tail else s)).bind fun n =>
      if n < 2 ^ 63 then some (n : ℤ) else none

/-- `u64::from_str`. -/
def parseU64 (s : List Byte) : Option ℕ :=
  (parseDecimal (if s.head? = some 43 then s.tail else s)).bind fun n =>
    if n < 2 ^ 64 then some n else none

/-- Read exactly `size` bytes of body. -/
def readBody (status : List Byte) (size : ℕ) (rest : List Byte) : Option (Reply × List Byte) :=
  if size ≤ rest.length then some ((status, some (rest.take size)), rest.drop size) else none

/-- `fileConn.Do`, behind the request. `ReadString` fails at the end of the stream, and `make`
panics for a negative size. -/
def goDo : Decoder Byte Reply := fun s =>
  match splitLine s with
  | none => none
  | some (line, rest) =>
      let status := trimEnd (line ++ [LF])
      if okPrefix <+: status then
        match parseInt (status.drop okPrefix.length) with
        | some (.ofNat size) => readBody status size rest
        | _ => none
      else some ((status, none), rest)

/-- `BufRead::read_line`: up to a line feed or the end of the stream. -/
def readLine (s : List Byte) : List Byte × List Byte :=
  match splitLine s with
  | none => (s, [])
  | some (line, rest) => (line ++ [LF], rest)

/-- `Conn::do_request`, behind the request. `read_line` fails on what is not UTF-8, and `expect`
panics where the size is not a number. -/
def doRequest : Decoder Byte Reply := fun s =>
  match readLine s with
  | (line, rest) =>
      if validUtf8 line = false then none
      else
        let status := trimEnd line
        if okPrefix <+: status then
          match parseU64 (status.drop okPrefix.length) with
          | some size => readBody status size rest
          | none => none
        else some ((status, none), rest)

/-! ## Status lines -/

section

variable {r : Response}

/-- A byte that is in no prefix, no reason and no number is in no status line. -/
theorem notMem_status {b : Byte} (hstart : b ∉ errPrefix ∧ b ∉ okPrefix)
    (hreason : ∀ reason : Reason, b ∉ reason.bytes) (hdigit : isDigit b ≠ true) (r : Response) :
    b ∉ r.status := by
  cases r with
  | error reason =>
      intro h
      rcases List.mem_append.mp h with h | h
      · exact hstart.1 h
      · exact hreason reason h
  | ok body =>
      intro h
      rcases List.mem_append.mp h with h | h
      · exact hstart.2 h
      · exact hdigit (isDigit_of_mem_decimal h)

theorem cr_notMem_status (r : Response) : CR ∉ r.status :=
  notMem_status (by decide) Reason.cr (by decide) r

theorem lf_notMem_status (r : Response) : LF ∉ r.status :=
  notMem_status (by decide) Reason.lf (by decide) r

/-- An encoding is the status line, a line feed, and the body. -/
theorem encode_eq (r : Response) : r.encode = r.status ++ LF :: r.body.getD [] := by
  cases r with
  | error reason => rfl
  | ok body => simp [Response.encode, Response.status, Response.body]

theorem splitLine_encode (r : Response) (rest : List Byte) :
    splitLine (r.encode ++ rest) = some (r.status, r.body.getD [] ++ rest) := by
  rw [splitLine_eq_some_iff, encode_eq, List.append_assoc, List.cons_append]
  exact ⟨rfl, lf_notMem_status r⟩

theorem trimEnd_status (r : Response) : trimEnd (r.status ++ [LF]) = r.status :=
  trimEnd_append_lf (cr_notMem_status r) (lf_notMem_status r)

/-- Errors and successes are told apart by their first byte. -/
theorem not_okPrefix_error (reason : Reason) {l : List Byte}
    (h : l <+: (Response.error reason).status) :
    ¬okPrefix <+: l := by
  intro hok
  obtain ⟨t, ht⟩ := hok.trans h
  have hfirst := congrArg List.head? ht
  cases hfirst

theorem validUtf8_status (r : Response) : validUtf8 r.status = true := by
  cases r with
  | error reason => exact validUtf8_append (validUtf8_of_ascii (by decide)) reason.utf8
  | ok body =>
      refine validUtf8_append (validUtf8_of_ascii (by decide)) (validUtf8_of_ascii ?_)
      refine List.all_eq_true.mpr fun b hb => decide_eq_true ?_
      have hdigit := isDigit_of_mem_decimal hb
      simp only [isDigit, Bool.and_eq_true, decide_eq_true_eq] at hdigit
      omega

/-! ## Sizes -/

/-- Digits do not start with a sign. -/
theorem head?_ne_of_digits {l : List Byte} (h : ∀ b ∈ l, isDigit b = true) :
    l.head? ≠ some 43 ∧ l.head? ≠ some 45 := by
  have hsign : ∀ {b : Byte}, isDigit b ≠ true → l.head? ≠ some b := by
    intro b hdigit hb
    exact hdigit (h b (List.mem_of_mem_head? hb))
  exact ⟨hsign (by decide), hsign (by decide)⟩

theorem parseInt_decimal {n : ℕ} (h : n < 2 ^ 63) : parseInt (decimal n) = some (n : ℤ) := by
  obtain ⟨hplus, hminus⟩ := head?_ne_of_digits fun b hb => isDigit_of_mem_decimal (n := n) hb
  rw [parseInt, if_neg hminus, if_neg hplus, parseDecimal_decimal, Option.bind_some, if_pos h]

theorem parseU64_of_digits {l : List Byte} (h : ∀ b ∈ l, isDigit b = true) :
    parseU64 l = (parseDecimal l).bind fun n => if n < 2 ^ 64 then some n else none := by
  rw [parseU64, if_neg (head?_ne_of_digits h).1]

theorem parseU64_decimal {n : ℕ} (h : n < 2 ^ 63) : parseU64 (decimal n) = some n := by
  rw [parseU64_of_digits fun b hb => isDigit_of_mem_decimal hb, parseDecimal_decimal,
    Option.bind_some, if_pos (Nat.lt_trans h (by decide))]

theorem readBody_append (status body rest : List Byte) :
    readBody status body.length (body ++ rest) = some ((status, some body), rest) := by
  simp [readBody]

/-! ## Complete responses -/

/-- **`fileConn.Do` reads every response back.** -/
theorem goDo_delimited : Delimited Response.encode Response.reply goDo := by
  intro r rest
  rw [goDo, splitLine_encode]
  simp only [trimEnd_status]
  cases r with
  | error reason =>
      rw [if_neg (not_okPrefix_error reason List.prefix_rfl)]
      rfl
  | ok body =>
      simp only [Response.status, List.prefix_append, if_true, List.drop_left,
        parseInt_decimal body.2]
      exact readBody_append _ body.1 rest

/-- **`Conn::do_request` reads every response back.** -/
theorem doRequest_delimited : Delimited Response.encode Response.reply doRequest := by
  intro r rest
  have hvalid : validUtf8 (r.status ++ [LF]) = true :=
    validUtf8_append (validUtf8_status r) (validUtf8_of_ascii (by decide))
  rw [doRequest, readLine, splitLine_encode]
  simp only [hvalid, trimEnd_status, Bool.true_eq_false, if_false]
  cases r with
  | error reason =>
      rw [if_neg (not_okPrefix_error reason List.prefix_rfl)]
      rfl
  | ok body =>
      simp only [Response.status, List.prefix_append, if_true, List.drop_left,
        parseU64_decimal body.2]
      exact readBody_append _ body.1 rest

/-! ## Responses that are cut off -/

/-- A response is cut in its status line or in its body. -/
theorem cut_cases {c : List Byte} (hcut : c <+: r.encode) (hne : c ≠ r.encode) :
    c <+: r.status ∨ ∃ body t, r = .ok body ∧ c = r.status ++ LF :: t ∧
    t.length < body.1.length := by
  rw [encode_eq] at hcut hne
  rcases List.prefix_or_prefix_of_prefix hcut (List.prefix_append _ _) with h | ⟨q, rfl⟩
  · exact .inl h
  · have hq : q <+: LF :: r.body.getD [] := (List.prefix_append_right_inj _).mp hcut
    cases q with
    | nil => exact .inl (by rw [List.append_nil])
    | cons b t =>
        obtain ⟨rfl, ht⟩ := List.cons_prefix_cons.mp hq
        have htne : t ≠ r.body.getD [] := fun h => hne (by rw [h])
        cases r with
        | error reason => exact absurd (List.prefix_nil.mp ht) htne
        | ok body =>
            refine .inr ⟨body, t, rfl, rfl, ?_⟩
            exact Nat.lt_of_le_of_ne ht.length_le fun h => htne (ht.eq_of_length h)

theorem splitLine_status (r : Response) (t : List Byte) :
    splitLine (r.status ++ LF :: t) = some (r.status, t) :=
  splitLine_eq_some_iff.mpr ⟨rfl, lf_notMem_status r⟩

/-- **`fileConn.Do` fails** on a response that is cut off. -/
theorem goDo_cut {c : List Byte} (hcut : c <+: r.encode) (hne : c ≠ r.encode) : goDo c = none := by
  rcases cut_cases hcut hne with hline | ⟨body, t, rfl, rfl, hlt⟩
  · have hlf : LF ∉ c := fun h => lf_notMem_status r (hline.subset h)
    rw [goDo, splitLine_eq_none_iff.mpr hlf]
  · rw [goDo, splitLine_status]
    simp only [trimEnd_status]
    simp only [Response.status, List.prefix_append, if_true, List.drop_left,
      parseInt_decimal body.2]
    exact if_neg (Nat.not_le_of_lt hlt)

/-- What is left of a response on which `do_request` fails: at least `+OK `, but not the status line
of an empty body, or bytes that are not UTF-8. -/
def Stops (c : List Byte) : Prop :=
  okPrefix <+: c ∧ c ≠ okPrefix ++ [48] ∨ validUtf8 c = false

/-- `do_request` where the stream ends in the status line. -/
theorem doRequest_line {c : List Byte} (hcr : CR ∉ c) (hlf : LF ∉ c) :
    doRequest c =
      if validUtf8 c = false then none
      else if okPrefix <+: c then (parseU64 (c.drop okPrefix.length)).bind fun size =>
        readBody c size []
      else some ((c, none), []) := by
  rw [doRequest, readLine, splitLine_eq_none_iff.mpr hlf]
  simp only [trimEnd_of_not_mem hcr hlf]
  cases parseU64 (c.drop okPrefix.length) <;> rfl

/-- Where the line has `+OK ` and some of the digits, it stops unless they are the 0 of an empty
body. -/
theorem readBody_digits (n : ℕ) {d : List Byte} (hd : d <+: decimal n) :
    ((parseU64 d).bind fun size => readBody (okPrefix ++ d) size []) = none ↔ d ≠ [48] := by
  have hdigits : ∀ b ∈ d, isDigit b = true := fun b hb => isDigit_of_mem_decimal (hd.subset hb)
  rw [parseU64_of_digits hdigits]
  by_cases hn : 0 < n
  · obtain ⟨hzero, hne⟩ := parseDecimal_of_prefix hn hd
    refine iff_of_true ?_ hne
    cases hparse : parseDecimal d with
    | none => rfl
    | some size =>
        have hpos : ¬ size ≤ 0 := fun h => hzero (by rw [hparse, Nat.le_zero.mp h])
        rw [Option.bind_some]
        split
        · exact if_neg hpos
        · rfl
  · obtain rfl : n = 0 := by omega
    have hzero : decimal 0 = [48] := by decide
    rw [hzero] at hd
    cases d with
    | nil => exact iff_of_true rfl (List.cons_ne_nil _ _).symm
    | cons b d =>
        obtain ⟨rfl, htail⟩ := List.cons_prefix_cons.mp hd
        obtain rfl := List.prefix_nil.mp htail
        refine iff_of_false ?_ (fun h => h rfl)
        decide

/-- What is cut in its body has a whole status line. -/
theorem stops_body (body : { body : List Byte // body.length < 2 ^ 63 }) (t : List Byte) :
    Stops ((Response.ok body).status ++ LF :: t) := by
  refine .inl ⟨⟨_, (List.append_assoc _ _ _).symm⟩, fun h => ?_⟩
  have hmem : LF ∈ okPrefix ++ [48] := h ▸ List.mem_append_right _ List.mem_cons_self
  revert hmem
  decide

/-- `do_request` fails where the body is cut. -/
theorem doRequest_body (body : { body : List Byte // body.length < 2 ^ 63 }) {t : List Byte}
    (ht : t.length < body.1.length) : doRequest ((Response.ok body).status ++ LF :: t) = none := by
  have hvalid : validUtf8 ((Response.ok body).status ++ [LF]) = true :=
    validUtf8_append (validUtf8_status _) (validUtf8_of_ascii (by decide))
  rw [doRequest, readLine, splitLine_status]
  simp only [hvalid, trimEnd_status, Bool.true_eq_false, if_false]
  simp only [Response.status, List.prefix_append, if_true, List.drop_left, parseU64_decimal body.2]
  exact if_neg (Nat.not_le_of_lt ht)

/-- **Where `do_request` fails** on a response that is cut off. -/
theorem doRequest_cut_eq_none {c : List Byte} (hcut : c <+: r.encode) (hne : c ≠ r.encode) :
    doRequest c = none ↔ Stops c := by
  rcases cut_cases hcut hne with hline | ⟨body, t, rfl, rfl, hlt⟩
  · rw [doRequest_line (fun h => cr_notMem_status r (hline.subset h))
      (fun h => lf_notMem_status r (hline.subset h)), Stops]
    cases hvalid : validUtf8 c with
    | false => simp
    | true =>
        simp only [Bool.true_eq_false, if_false, or_false]
        split
        · rename_i hok
          -- only a success starts like this, so the rest of the line is digits
          cases r with
          | error reason => exact absurd hok (not_okPrefix_error reason hline)
          | ok body =>
              obtain ⟨d, rfl⟩ := hok
              have hd : d <+: decimal body.1.length := (List.prefix_append_right_inj _).mp hline
              rw [List.drop_left, readBody_digits _ hd]
              simp
        · rename_i hok
          simp [hok]
  · exact iff_of_true (doRequest_body body hlt) (stops_body body t)

/-- Where it does not fail, it has read the stream to its end. -/
theorem doRequest_cut_rest {c rest : List Byte} {x : Reply} (hcut : c <+: r.encode)
    (hne : c ≠ r.encode) (h : doRequest c = some (x, rest)) : rest = [] := by
  rcases cut_cases hcut hne with hline | ⟨body, t, rfl, rfl, hlt⟩
  · rw [doRequest_line (fun h => cr_notMem_status r (hline.subset h))
      (fun h => lf_notMem_status r (hline.subset h))] at h
    split at h
    · cases h
    · split at h
      · obtain ⟨size, -, h⟩ := Option.bind_eq_some_iff.mp h
        rw [readBody] at h
        split at h
        · cases h
          exact List.drop_nil
        · cases h
      · cases h
        rfl
  · rw [doRequest_body body hlt] at h
    cases h

/-- At the end of the stream `do_request` returns an empty status line. -/
theorem doRequest_nil : doRequest [] = some (([], none), []) := by
  have hvalid : validUtf8 [] = true := validUtf8_of_ascii rfl
  rw [doRequest_line List.not_mem_nil List.not_mem_nil, hvalid]
  rfl

theorem reply_ne_nil (r : Response) : r.reply ≠ ([], none) := by
  intro h
  cases r <;> cases congrArg Prod.fst h

/-- **`do_request` on a stream that is cut off** only gives responses of the sequence where it
fails. -/
theorem doRequest_follows_iff {c : List Byte} {rs : List Response} (hcut : c <+: r.encode)
    (hne : c ≠ r.encode) : doRequest.Follows (rs.map Response.reply) c ↔ Stops c := by
  rw [← doRequest_cut_eq_none hcut hne]
  refine ⟨fun hf => ?_, fun hnone => Decoder.follows_of_none hnone _⟩
  cases hdo : doRequest c with
  | none => rfl
  | some p =>
      obtain ⟨x, rest⟩ := p
      obtain rfl := doRequest_cut_rest hcut hne hdo
      -- the next call finds the end of the stream and takes it for a status line
      have hend : doRequest.nth 1 c = some ([], none) := by
        simp only [Decoder.nth, hdo, Option.bind_some, doRequest_nil, Option.map_some]
      have hmem := List.mem_of_getElem? (hf 1 _ hend)
      obtain ⟨r', -, hr'⟩ := List.mem_map.mp hmem
      exact absurd hr' (reply_ne_nil r')

/-- What a client returns tells responses apart. -/
theorem reply_injective : Function.Injective Response.reply := by
  intro r r' h
  cases r with
  | error reason =>
      cases r' with
      | error reason' =>
          have hbytes : reason.bytes = reason'.bytes :=
            List.append_cancel_left (congrArg Prod.fst h)
          obtain ⟨bytes, _, _, _⟩ := reason
          obtain ⟨bytes', _, _, _⟩ := reason'
          subst hbytes
          rfl
      | ok body => cases congrArg Prod.snd h
  | ok body =>
      cases r' with
      | error reason => cases congrArg Prod.snd h
      | ok body' => exact congrArg Response.ok (Subtype.ext (Option.some.inj (congrArg Prod.snd h)))

end

/-- **The response format.** Both clients, run over the encodings of any sequence of responses,
return that sequence and leave nothing. On a proper prefix of the stream `fileConn.Do` never returns
a response that is not in the sequence at that position, and `Conn::do_request` never does if and
only if what is left behind the complete responses makes it fail: it has at least `+OK ` and is not
the status line of an empty body, or it is not UTF-8. -/
theorem responses_decodable (rs : List Response) :
    Function.Injective Response.reply ∧
    goDo.decodeMany rs.length (rs.flatMap Response.encode) = some (rs.map Response.reply, []) ∧
    doRequest.decodeMany rs.length (rs.flatMap Response.encode) = some (rs.map Response.reply, []) ∧
    ∀ p, p <+: rs.flatMap Response.encode → p ≠ rs.flatMap Response.encode →
      goDo.Follows (rs.map Response.reply) p ∧
      (doRequest.Follows (rs.map Response.reply) p ↔ Stops (leftover Response.encode rs p)) := by
  refine ⟨reply_injective, ?_, ?_, fun p hp hne => ⟨?_, ?_⟩⟩
  · simpa using goDo_delimited.decodeMany_encodings rs []
  · simpa using doRequest_delimited.decodeMany_encodings rs []
  · obtain ⟨r, rest, hcut, hcut', hiff⟩ := goDo_delimited.exists_cut hp hne
    exact hiff.mpr (Decoder.follows_of_none (goDo_cut hcut hcut') _)
  · obtain ⟨r, rest, hcut, hcut', hiff⟩ := doRequest_delimited.exists_cut hp hne
    exact hiff.trans (doRequest_follows_iff hcut hcut')

/-- A body that is cut off. -/
theorem responses_decodable_body :
    let rs := [Response.ok ⟨[104, 105], by decide⟩]
    let p := okPrefix ++ [50, LF, 104]
    p <+: rs.flatMap Response.encode ∧ goDo.Follows (rs.map Response.reply) p ∧
      doRequest.Follows (rs.map Response.reply) p := by
  intro rs p
  have hp : p <+: rs.flatMap Response.encode := by decide
  obtain ⟨-, -, -, h⟩ := responses_decodable rs
  obtain ⟨hgo, hrust⟩ := h p hp (by decide)
  exact ⟨hp, hgo, hrust.mpr (.inl (by decide))⟩

/-- **The defect.** `do_request` takes an error line that is cut off for the response. -/
theorem notFound_not_follows :
    ∃ reason : Reason, reason.bytes = ascii "not found" ∧
      ascii "-ERR not" <+: [Response.error reason].flatMap Response.encode ∧
      doRequest (ascii "-ERR not") = some ((ascii "-ERR not", none), []) ∧
      ¬doRequest.Follows ([Response.error reason].map Response.reply) (ascii "-ERR not") := by
  let reason : Reason := ⟨ascii "not found", by decide, by decide, validUtf8_of_ascii (by decide)⟩
  have hvalid : validUtf8 (ascii "-ERR not") = true := validUtf8_of_ascii (by decide)
  have hdo : doRequest (ascii "-ERR not") = some ((ascii "-ERR not", none), []) := by
    rw [doRequest_line (by decide) (by decide), hvalid]
    decide
  refine ⟨reason, rfl, by decide, hdo, fun hf => ?_⟩
  have hfirst := hf 0 (ascii "-ERR not", none) (by rw [Decoder.nth, hdo]; rfl)
  revert hfirst
  decide

end Osvcp.Servers
