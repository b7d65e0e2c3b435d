import Mathlib.Data.List.Basic
import Mathlib.Tactic.Common

/-! # Singly linked lists in a heap

`Chain next p l` says that following the links `next` from the pointer `p` visits exactly the cells
of `l`, in this order, and ends in a null pointer. The lemmas are the usual ones for a queue kept
by a head and a tail pointer: a chain determines its list, storing into a cell outside of the list
does not change it, and storing a new cell into the link of the last cell appends it.
-/

namespace Osvcp

variable {α : Type*} {next next' : α → Option α}

/-- The cells visited from a pointer by following the links. -/
inductive Chain (next : α → Option α) : Option α → List α → Prop
  | nil : Chain next none []
  | cons {a : α} {l : List α} : Chain next (next a) l → Chain next (some a) (a :: l)

namespace Chain

@[simp] theorem none_iff {l : List α} : Chain next none l ↔ l = [] := by
  constructor
  · intro h; cases h; rfl
  · rintro rfl; exact .nil

@[simp] theorem nil_iff {p : Option α} : Chain next p [] ↔ p = none := by
  constructor
  · intro h; cases h; rfl
  · rintro rfl; exact .nil

theorem cons_iff {p : Option α} {a : α} {l : List α} :
    Chain next p (a :: l) ↔ p = some a ∧ Chain next (next a) l := by
  constructor
  · intro h; cases h with | cons h => exact ⟨rfl, h⟩
  · rintro ⟨rfl, h⟩; exact .cons h

/-- A chain that starts in a cell begins with that cell. -/
theorem exists_of_some {a : α} {l : List α} (h : Chain next (some a) l) :
    ∃ l', l = a :: l' ∧ Chain next (next a) l' := by
  cases h with
  | cons h => exact ⟨_, rfl, h⟩

/-- A pointer has at most one chain. -/
theorem unique {p : Option α} {l l' : List α} (h : Chain next p l) (h' : Chain next p l') :
    l = l' := by
  induction h generalizing l' with
  | nil => exact (none_iff.mp h').symm
  | @cons a l _ ih =>
      obtain ⟨k, rfl, hk⟩ := exists_of_some h'
      rw [ih hk]

/-- Stores that leave the links of the visited cells alone keep the chain. -/
theorem congr {p : Option α} {l : List α} (h : Chain next p l)
    (heq : ∀ a ∈ l, next' a = next a) : Chain next' p l := by
  induction h with
  | nil => exact .nil
  | @cons a l _ ih =>
      refine .cons ?_
      rw [heq a (by simp)]
      exact ih fun b hb => heq b (by simp [hb])

/-- Linking a new last cell behind the old one appends it. -/
theorem append_last {p : Option α} {l : List α} {z n : α} (h : Chain next p (l ++ [z]))
    (hz : next' z = some n) (hn : next' n = none)
    (heq : ∀ a ∈ l, next' a = next a) : Chain next' p (l ++ [z, n]) := by
  induction l generalizing p with
  | nil =>
      obtain ⟨rfl, -⟩ := cons_iff.mp h
      refine .cons ?_
      rw [hz]
      refine .cons ?_
      rw [hn]
      exact .nil
  | cons a l ih =>
      obtain ⟨rfl, hl⟩ := cons_iff.mp h
      refine .cons ?_
      rw [heq a (by simp)]
      exact ih hl fun b hb => heq b (by simp [hb])

end Chain

end Osvcp
