import Mathlib.Data.Nat.Basic
import Mathlib.Data.List.DropRight
import Osvcp.Lib.Lines

/-! # Text in byte streams

Decimal numbers as bytes, the removal of line ends, and UTF-8. A number is read back from its digits
(`parseDecimal_decimal`), and no prefix of the digits of a positive number reads as zero. An ASCII
byte such as a line feed cuts valid UTF-8 into valid parts (`validUtf8_split`), and a lossy
conversion keeps valid UTF-8 as it is (`fromUtf8Lossy_of_valid`).
-/

namespace Osvcp

/-! ## Decimal numbers -/

/-- The decimal digits of a number. -/
def decimal (n : ℕ) : List Byte := (Nat.toDigits 10 n).map fun ch => UInt8.ofNat ch.toNat

/-- A byte that is a decimal digit. -/
def isDigit (b : Byte) : Bool := 48 ≤ b.toNat && b.toNat ≤ 57

/-- The number with these digits. -/
def digitsValue (l : List Byte) : ℕ := l.foldl (fun n b => 10 * n + (b.toNat - 48)) 0

/-- Read a number that has at least one digit and nothing else. -/
def parseDecimal (l : List Byte) : Option ℕ :=
  if l ≠ [] ∧ l.all isDigit = true then some (digitsValue l) else none

/-- A digit keeps its value as a byte. -/
theorem toNat_digit {ch : Char} (h : ch.isDigit = true) :
    (UInt8.ofNat ch.toNat).toNat = ch.toNat ∧ 48 ≤ ch.toNat ∧ ch.toNat ≤ 57 := by
  have hrange : 48 ≤ ch.toNat ∧ ch.toNat ≤ 57 := by
    simp only [Char.isDigit, Bool.and_eq_true, decide_eq_true_eq, UInt32.le_iff_toNat_le] at h
    exact h
  refine ⟨?_, hrange⟩
  rw [UInt8.toNat_ofNat']
  exact Nat.mod_eq_of_lt (by omega)

theorem isDigit_of_mem_decimal {n : ℕ} {b : Byte} (h : b ∈ decimal n) : isDigit b = true := by
  obtain ⟨ch, hch, rfl⟩ := List.mem_map.mp h
  obtain ⟨heq, hlo, hhi⟩ := toNat_digit (Nat.isDigit_of_mem_toDigits (by decide) (by decide) hch)
  simp [isDigit, heq, hlo, hhi]

theorem decimal_ne_nil (n : ℕ) : decimal n ≠ [] := by
  simp [decimal, Nat.toDigits_ne_nil]

/-- **A number is read back from its digits.** -/
theorem parseDecimal_decimal (n : ℕ) : parseDecimal (decimal n) = some n := by
  have hall : (decimal n).all isDigit = true :=
    List.all_eq_true.mpr fun b hb => isDigit_of_mem_decimal hb
  rw [parseDecimal, if_pos ⟨decimal_ne_nil n, hall⟩, Option.some.injEq, digitsValue, decimal,
    List.foldl_map]
  calc (Nat.toDigits 10 n).foldl (fun m ch => 10 * m + ((UInt8.ofNat ch.toNat).toNat - 48)) 0
      = (Nat.toDigits 10 n).foldl (fun m ch => 10 * m + (ch.toNat - '0'.toNat)) 0 := by
        refine List.foldl_ext _ _ _ fun m ch hch => ?_
        rw [(toNat_digit (Nat.isDigit_of_mem_toDigits (by decide) (by decide) hch)).1]
        rfl
    _ = n := Nat.ofDigitChars_ten_toDigits

/-- The first digit of a positive number is not zero. -/
theorem head_decimal_ne {n : ℕ} (hn : 0 < n) : (decimal n).head? ≠ some 48 := by
  induction n using Nat.strong_induction_on with
  | _ n ih =>
    by_cases hlt : n < 10
    · rw [decimal, Nat.toDigits_of_lt_base hlt]
      intro h
      have hdigit := Nat.toNat_digitChar_of_lt_ten hlt
      simp only [List.map_cons, List.head?_cons, Option.some.injEq] at h
      rw [hdigit] at h
      have h := congrArg UInt8.toNat h
      rw [UInt8.toNat_ofNat', Nat.mod_eq_of_lt (by omega)] at h
      have h : 48 + n = 48 := h
      omega
    · have hne : decimal (n / 10) ≠ [] := decimal_ne_nil _
      have hsplit : decimal n =
          decimal (n / 10) ++ [UInt8.ofNat (Nat.digitChar (n % 10)).toNat] := by
        rw [decimal, Nat.toDigits_of_base_le (by decide) (Nat.le_of_not_lt hlt), List.map_append]
        rfl
      rw [hsplit, List.head?_append_of_ne_nil _ hne]
      exact ih (n / 10) (by omega) (by omega)

/-- More digits do not make a positive number zero. -/
theorem foldl_digits_pos (l : List Byte) {m : ℕ} (hm : 0 < m) :
    0 < l.foldl (fun n b => 10 * n + (b.toNat - 48)) m := by
  induction l generalizing m with
  | nil => exact hm
  | cons b l ih =>
      have hnext : 0 < 10 * m + (b.toNat - 48) := by omega
      exact ih hnext

/-- **A prefix of the digits** of a positive number is empty or reads as a positive number. -/
theorem parseDecimal_of_prefix {n : ℕ} (hn : 0 < n) {l : List Byte} (h : l <+: decimal n) :
    parseDecimal l ≠ some 0 ∧ l ≠ [48] := by
  cases l with
  | nil => exact ⟨by simp [parseDecimal], List.cons_ne_nil _ _ |>.symm⟩
  | cons b l =>
      have hhead : (decimal n).head? = some b := by
        obtain ⟨t, ht⟩ := h
        rw [← ht]
        rfl
      have hne : b ≠ 48 := fun hb => head_decimal_ne hn (hb ▸ hhead)
      have hdigit : isDigit b = true := isDigit_of_mem_decimal (h.subset List.mem_cons_self)
      simp only [isDigit, Bool.and_eq_true, decide_eq_true_eq] at hdigit
      have hpos : 0 < b.toNat - 48 := by
        have hb : b.toNat ≠ 48 := fun hb => hne (UInt8.toNat_inj.mp hb)
        omega
      refine ⟨fun hzero => ?_, fun heq => hne (List.cons.inj heq).1⟩
      rw [parseDecimal] at hzero
      split at hzero
      · have hval : digitsValue (b :: l) = 0 := Option.some.inj hzero
        have := foldl_digits_pos l hpos
        rw [digitsValue, List.foldl_cons, Nat.mul_zero, Nat.zero_add] at hval
        omega
      · cases hzero

/-! ## Line ends -/

/-- Remove carriage returns and line feeds from the end. -/
def trimEnd (l : List Byte) : List Byte := l.rdropWhile fun b => b == CR || b == LF

/-- Nothing is removed from a line if and only if it does not end in a carriage return. -/
theorem trimEnd_eq_self_iff {l : List Byte} (hlf : LF ∉ l) :
    trimEnd l = l ↔ l.getLast? ≠ some CR := by
  rw [trimEnd, List.rdropWhile_eq_self_iff]
  constructor
  · intro h hlast
    obtain ⟨init, rfl⟩ := List.getLast?_eq_some_iff.mp hlast
    exact h (by simp) (by simp)
  · intro h hl hlast
    rcases Bool.or_eq_true_iff.mp hlast with hcr | hend
    · exact h (by rw [List.getLast?_eq_some_getLast hl, beq_iff_eq.mp hcr])
    · exact hlf (beq_iff_eq.mp hend ▸ List.getLast_mem hl)

theorem trimEnd_of_not_mem {l : List Byte} (hcr : CR ∉ l) (hlf : LF ∉ l) : trimEnd l = l :=
  (trimEnd_eq_self_iff hlf).mpr fun h => hcr (List.mem_of_getLast? h)

theorem trimEnd_append_lf {l : List Byte} (hcr : CR ∉ l) (hlf : LF ∉ l) :
    trimEnd (l ++ [LF]) = l := by
  rw [trimEnd, List.rdropWhile_concat_pos _ _ _ (by decide)]
  exact trimEnd_of_not_mem hcr hlf

/-! ## UTF-8 -/

/-- Whether bytes are valid UTF-8. -/
def validUtf8 (l : List Byte) : Bool := l.toByteArray.validateUTF8

theorem validUtf8_append {a b : List Byte} (ha : validUtf8 a = true) (hb : validUtf8 b = true) :
    validUtf8 (a ++ b) = true := by
  rw [validUtf8, ByteArray.validateUTF8_eq_true_iff] at ha hb ⊢
  rw [List.toByteArray_append]
  exact ha.append hb

/-- ASCII is valid UTF-8. -/
theorem validUtf8_of_ascii {l : List Byte} (h : l.all (fun b => b.toNat < 128) = true) :
    validUtf8 l = true := by
  induction l with
  | nil =>
      rw [validUtf8, ByteArray.validateUTF8_eq_true_iff, List.toByteArray_nil]
      exact ByteArray.isValidUTF8_empty
  | cons b l ih =>
      obtain ⟨hb, hl⟩ : b.toNat < 128 ∧ l.all (fun b => b.toNat < 128) = true := by simpa using h
      have hval : (Char.ofNat b.toNat).val.toNat = b.toNat := by
        rw [Char.ofNat, dif_pos (.inl (Nat.lt_trans hb (by decide)))]
        rfl
      have hsize : (Char.ofNat b.toNat).utf8Size = 1 := by
        rw [Char.utf8Size_eq_one_iff, UInt32.le_iff_toNat_le, hval]
        exact Nat.le_of_lt_succ hb
      have hchar : String.utf8EncodeChar (Char.ofNat b.toNat) = [b] := by
        rw [String.utf8EncodeChar_eq_singleton hsize]
        congr 1
        apply UInt8.toNat_inj.mp
        rw [UInt32.toNat_toUInt8, hval]
        exact Nat.mod_eq_of_lt (by omega)
      refine validUtf8_append (a := [b]) ?_ (ih hl)
      rw [validUtf8, ByteArray.validateUTF8_eq_true_iff, ← hchar]
      exact Char.isValidUTF8_toByteArray_utf8EncodeChar

/-- Valid UTF-8 is the encoding of characters. -/
theorem validUtf8_iff {l : List Byte} :
    validUtf8 l = true ↔ ∃ m : List Char, l = m.flatMap String.utf8EncodeChar := by
  rw [validUtf8, ByteArray.validateUTF8_eq_true_iff]
  constructor
  · rintro ⟨m, hm⟩
    exact ⟨m, List.toByteArray_inj.mp hm⟩
  · rintro ⟨m, rfl⟩
    exact ⟨m, rfl⟩

/-- An ASCII byte in the encoding of a character is the whole encoding. -/
theorem utf8EncodeChar_of_mem_ascii {c : Char} {b : Byte} (hb : b.toNat < 128)
    (h : b ∈ String.utf8EncodeChar c) : String.utf8EncodeChar c = [b] := by
  have hne : ∀ n : ℕ, 128 ≤ n → n < 256 → b ≠ UInt8.ofNat n := by
    rintro n hlo hhi rfl
    rw [UInt8.toNat_ofNat', Nat.mod_eq_of_lt hhi] at hb
    omega
  unfold String.utf8EncodeChar at h ⊢
  dsimp only at h ⊢
  split at h
  · rename_i hone
    rw [if_pos hone, List.mem_singleton.mp h]
  · exfalso
    split at h
    · simp only [List.mem_cons, List.not_mem_nil, or_false] at h
      rcases h with h | h
      · exact hne _ (by omega) (by omega) h
      · exact hne _ (by omega) (by omega) h
    · split at h
      · simp only [List.mem_cons, List.not_mem_nil, or_false] at h
        rcases h with h | h | h
        · exact hne _ (by omega) (by omega) h
        · exact hne _ (by omega) (by omega) h
        · exact hne _ (by omega) (by omega) h
      · simp only [List.mem_cons, List.not_mem_nil, or_false] at h
        rcases h with h | h | h | h
        · exact hne _ (by omega) (by omega) h
        · exact hne _ (by omega) (by omega) h
        · exact hne _ (by omega) (by omega) h
        · exact hne _ (by omega) (by omega) h

/-- **An ASCII byte cuts** valid UTF-8 into valid parts. -/
theorem validUtf8_split {a r : List Byte} {b : Byte} (hb : b.toNat < 128)
    (h : validUtf8 (a ++ b :: r) = true) : validUtf8 a = true ∧ validUtf8 r = true := by
  rw [validUtf8_iff] at h
  obtain ⟨m, hm⟩ := h
  induction m generalizing a with
  | nil => simp at hm
  | cons c m ih =>
      have hchar : validUtf8 (String.utf8EncodeChar c) = true := validUtf8_iff.mpr ⟨[c], by simp⟩
      rw [List.flatMap_cons] at hm
      rcases List.append_eq_append_iff.mp hm with ⟨t, hc, hr⟩ | ⟨t, ha, hr⟩
      · cases t with
        | nil =>
            -- the first character ends where `b` stands
            rw [List.append_nil] at hc
            exact ⟨hc ▸ hchar, (@ih [] hr).2⟩
        | cons b' t =>
            -- `b` lies in the first character, and is all of it
            obtain ⟨rfl, rfl⟩ := List.cons.inj hr
            have hone := utf8EncodeChar_of_mem_ascii hb (c := c) (by simp [hc])
            rw [hone, eq_comm, List.append_eq_singleton_iff] at hc
            obtain ⟨rfl, ht⟩ | ⟨-, ht⟩ := hc
            · obtain rfl : t = [] := (List.cons.inj ht).2
              exact ⟨validUtf8_iff.mpr ⟨[], rfl⟩, validUtf8_iff.mpr ⟨m, rfl⟩⟩
            · cases ht
      · -- the first character lies in `a`
        obtain ⟨hv, hrest⟩ := ih hr.symm
        rw [ha]
        exact ⟨validUtf8_append hchar hv, hrest⟩

/-- The lead byte of an encoding of three or four bytes, and a second byte that may follow it. -/
def startsLong (b c : Byte) : Bool :=
  let second (lo hi : ℕ) : Bool := lo ≤ c.toNat && c.toNat ≤ hi
  if b = 0xE0 then second 0xA0 0xBF
  else if b = 0xED then second 0x80 0x9F
  else if b = 0xF0 then second 0x90 0xBF
  else if b = 0xF4 then second 0x80 0x8F
  else decide (0xE1 ≤ b.toNat ∧ b.toNat ≤ 0xF3) && second 0x80 0xBF

/-- How many bytes at the head of `l`, which does not begin with a character, are replaced at once:
as many as begin the encoding of some character, and at least one. -/
def brokenWidth : List Byte → ℕ
  | b :: c :: l =>
      if startsLong b c then
        match l with
        | d :: _ => if 0xF0 ≤ b.toNat ∧ 0x80 ≤ d.toNat ∧ d.toNat ≤ 0xBF then 3 else 2
        | [] => 2
      else 1
  | _ => 1

theorem brokenWidth_pos (l : List Byte) : 0 < brokenWidth l := by
  unfold brokenWidth
  repeat' split
  all_goals decide

/-- `String::from_utf8_lossy` of Rust: the characters of the bytes, with the replacement character
U+FFFD for what is not UTF-8. -/
def fromUtf8Lossy (l : List Byte) : List Byte :=
  if _hl : l = [] then []
  else
    match l.toByteArray.utf8DecodeChar? 0 with
    | some c => String.utf8EncodeChar c ++ fromUtf8Lossy (l.drop c.utf8Size)
    | none => [0xEF, 0xBF, 0xBD] ++ fromUtf8Lossy (l.drop (brokenWidth l))
termination_by l.length
decreasing_by
  · have := Char.utf8Size_pos c
    have := List.length_pos_of_ne_nil _hl
    rw [List.length_drop]
    omega
  · have := brokenWidth_pos l
    have := List.length_pos_of_ne_nil _hl
    rw [List.length_drop]
    omega

/-- **Valid UTF-8** has nothing to replace. -/
theorem fromUtf8Lossy_of_valid {l : List Byte} (h : validUtf8 l = true) : fromUtf8Lossy l = l := by
  obtain ⟨m, rfl⟩ := validUtf8_iff.mp h
  clear h
  induction m with
  | nil => rw [List.flatMap_nil, fromUtf8Lossy, dif_pos rfl]
  | cons c m ih =>
      have hne : (c :: m).flatMap String.utf8EncodeChar ≠ [] := by
        simp [String.utf8EncodeChar_ne_nil]
      have hdec : ((c :: m).flatMap String.utf8EncodeChar).toByteArray.utf8DecodeChar? 0 =
          some c := by
        rw [List.flatMap_cons, List.toByteArray_append]
        exact ByteArray.utf8DecodeChar?_utf8EncodeChar_append
      rw [fromUtf8Lossy, dif_neg hne, hdec]
      dsimp only
      rw [List.flatMap_cons, List.drop_left' (String.length_utf8EncodeChar c), ih]

end Osvcp
