import Mathlib.Data.List.Infix
import Mathlib.Tactic.Common

/-! # Streams of self-delimiting messages

Messages are encoded one after the other; a decoder takes a stream and gives a result and the rest
of the stream, or fails. If it reads every encoding back whatever follows it, it reads back the
whole stream (`Delimited.decodeMany_encodings`). On a stream that is cut off it reads the complete
messages, and then whatever it makes of the rest: `Delimited.exists_cut` reduces what it does there
to a proper prefix of one encoding.
-/

namespace Osvcp

variable {α β ρ : Type*}

/-- A decoder: a result with the rest of the stream, or a failure. -/
abbrev Decoder (β ρ : Type*) := List β → Option (ρ × List β)

namespace Decoder

/-- Run the decoder `n` times. -/
def decodeMany (dec : Decoder β ρ) : ℕ → List β → Option (List ρ × List β)
  | 0, s => some ([], s)
  | n + 1, s => (dec s).bind fun p => (dec.decodeMany n p.2).map fun q => (p.1 :: q.1, q.2)

/-- The result at position `k` of the decoder run again and again, until it fails. -/
def nth (dec : Decoder β ρ) : ℕ → List β → Option ρ
  | 0, s => (dec s).map Prod.fst
  | k + 1, s => (dec s).bind fun p => dec.nth k p.2

/-- Whatever the decoder gives at a position of the stream is in the sequence at that position. -/
def Follows (dec : Decoder β ρ) (rs : List ρ) (s : List β) : Prop :=
  ∀ k r, dec.nth k s = some r → rs[k]? = some r

theorem nth_of_none {dec : Decoder β ρ} {s : List β} (h : dec s = none) (k : ℕ) :
    dec.nth k s = none := by
  cases k <;> simp [nth, h]

/-- A decoder that fails gives nothing. -/
theorem follows_of_none {dec : Decoder β ρ} {s : List β} (h : dec s = none) (rs : List ρ) :
    dec.Follows rs s := by
  intro k r hk
  rw [nth_of_none h] at hk
  cases hk

/-- What follows the first result. -/
theorem follows_cons {dec : Decoder β ρ} {s rest : List β} {r : ρ} (h : dec s = some (r, rest))
    (rs : List ρ) : dec.Follows (r :: rs) s ↔ dec.Follows rs rest := by
  constructor
  · intro hf k x hk
    exact hf (k + 1) x (by simpa [nth, h] using hk)
  · intro hf k x hk
    cases k with
    | zero =>
        simp only [nth, h, Option.map_some, Option.some.injEq] at hk
        simp [hk]
    | succ k => exact hf k x (by simpa [nth, h] using hk)

end Decoder

/-- What is left of a stream behind the complete messages of a sequence. -/
def leftover [DecidableEq β] (enc : α → List β) : List α → List β → List β
  | [], s => s
  | a :: as, s => if enc a <+: s then leftover enc as (s.drop (enc a).length) else s

/-- The decoder reads every encoding back, whatever follows it. -/
def Delimited (enc : α → List β) (shown : α → ρ) (dec : Decoder β ρ) : Prop :=
  ∀ a rest, dec (enc a ++ rest) = some (shown a, rest)

namespace Delimited

variable {enc : α → List β} {shown : α → ρ} {dec : Decoder β ρ}

/-- **The stream is read back**: all messages, and all bytes. -/
theorem decodeMany_encodings (h : Delimited enc shown dec) (as : List α) (rest : List β) :
    dec.decodeMany as.length (as.flatMap enc ++ rest) = some (as.map shown, rest) := by
  induction as with
  | nil => rfl
  | cons a as ih =>
      rw [List.length_cons, Decoder.decodeMany, List.flatMap_cons, List.append_assoc, h,
        Option.bind_some, ih]
      rfl

/-- **A stream that is cut off** is decoded as the cut message is, at its place. -/
theorem exists_cut [DecidableEq β] (h : Delimited enc shown dec) {as : List α} {s : List β}
    (hs : s <+: as.flatMap enc) (hne : s ≠ as.flatMap enc) :
    ∃ a rest, leftover enc as s <+: enc a ∧ leftover enc as s ≠ enc a ∧
      (dec.Follows (as.map shown) s ↔ dec.Follows ((a :: rest).map shown) (leftover enc as s)) := by
  induction as generalizing s with
  | nil => exact absurd (List.prefix_nil.mp hs) hne
  | cons a as ih =>
      rw [leftover]
      by_cases hwhole : enc a <+: s
      · -- the first message is complete
        obtain ⟨t, rfl⟩ := hwhole
        rw [List.flatMap_cons] at hs hne
        have ht : t <+: as.flatMap enc := (List.prefix_append_right_inj _).mp hs
        have hne' : t ≠ as.flatMap enc := fun heq => hne (by rw [heq])
        obtain ⟨b, rest, hcut, hcut', hiff⟩ := ih ht hne'
        rw [if_pos (List.prefix_append _ _), List.drop_left]
        refine ⟨b, rest, hcut, hcut', ?_⟩
        rw [List.map_cons, Decoder.follows_cons (h a t)]
        exact hiff
      · rw [if_neg hwhole]
        refine ⟨a, as, ?_, ?_, Iff.rfl⟩
        · rw [List.flatMap_cons] at hs
          exact (List.prefix_or_prefix_of_prefix hs (List.prefix_append _ _)).resolve_right hwhole
        · rintro rfl
          exact hwhole List.prefix_rfl

end Delimited

/-! ## Prefix codes -/

/-- Where an encoding ends is known from the encoding. -/
def PrefixCode (enc : α → List β) : Prop :=
  ∀ a b s t, enc a ++ s = enc b ++ t → enc a = enc b ∧ s = t

/-- The first occurrence of a delimiter splits a stream in one way. -/
theorem eq_of_append_cons_eq {x x' y y' : List β} {b : β} (hx : b ∉ x) (hx' : b ∉ x')
    (h : x ++ b :: y = x' ++ b :: y') : x = x' ∧ y = y' := by
  induction x generalizing x' with
  | nil =>
      cases x' with
      | nil => exact ⟨rfl, (List.cons.inj h).2⟩
      | cons b' x' => exact absurd ((List.cons.inj h).1 ▸ List.mem_cons_self) hx'
  | cons a x ih =>
      cases x' with
      | nil => exact absurd ((List.cons.inj h).1 ▸ List.mem_cons_self) hx
      | cons b' x' =>
          obtain ⟨rfl, hrest⟩ := List.cons.inj h
          obtain ⟨rfl, hy⟩ := ih (fun hm => hx (List.mem_cons_of_mem _ hm))
            (fun hm => hx' (List.mem_cons_of_mem _ hm)) hrest
          exact ⟨rfl, hy⟩

/-- A prefix of an encoding that is an encoding is all of it. -/
theorem PrefixCode.eq_of_prefix {enc : α → List β} (h : PrefixCode enc) {a b : α}
    (hab : enc a <+: enc b) : enc a = enc b := by
  obtain ⟨t, ht⟩ := hab
  exact (h a b t [] (by rw [ht, List.append_nil])).1

/-- The number of messages in a stream is known from the stream: what is left behind all but one of
them is the last one. -/
theorem PrefixCode.exists_last {enc : α → List β} (h : PrefixCode enc) {as bs : List α} {p : List β}
    (hlen : as.length = bs.length + 1) (heq : as.flatMap enc = bs.flatMap enc ++ p) :
    ∃ a, p = enc a := by
  induction bs generalizing as with
  | nil =>
      obtain ⟨a, rfl⟩ := List.length_eq_one_iff.mp hlen
      exact ⟨a, by simpa using heq.symm⟩
  | cons b bs ih =>
      obtain ⟨a, as, rfl⟩ := List.exists_cons_of_length_eq_add_one hlen
      rw [List.flatMap_cons, List.flatMap_cons, List.append_assoc] at heq
      exact ih (by simpa using hlen) (h a b _ _ heq).2

end Osvcp
