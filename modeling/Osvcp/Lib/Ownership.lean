import Osvcp.Lib.SelectPass

/-! # Resources that are handed out and given back

The resources of one kind are numbered in the order in which they are handed out. A ledger is
balanced with a list of holdings if every number handed out was given back or is held, and once in
all: nothing is lost, held by two, given back twice or held after it was given back. What an
operation does with the holdings of one party is judged whatever the others hold (`Ledger.Moves`),
so that the operations of an event loop on its clients, one at a time, keep the books of the whole
table (`Owning.balanced`).
-/

namespace Osvcp

variable {C W A H : Type*}

/-- How many resources were handed out, and those given back. -/
structure Ledger where
  issued : ℕ
  released : List ℕ

namespace Ledger

variable {l l₁ l₂ : Ledger} {held held₁ held₂ : List ℕ} {n : ℕ}

/-- Every resource was given back or is held, once in all. -/
def Balanced (l : Ledger) (held : List ℕ) : Prop := (l.released ++ held).Perm (List.range l.issued)

/-- The next resource is handed out. -/
def issue (l : Ledger) : Ledger := { l with issued := l.issued + 1 }

/-- A resource is given back. -/
def release (l : Ledger) (n : ℕ) : Ledger := { l with released := l.released ++ [n] }

theorem Balanced.perm (h : l.Balanced held) (hp : held.Perm held₁) : l.Balanced held₁ :=
  (List.Perm.append_left _ hp.symm).trans h

theorem Balanced.notMem_released (h : l.Balanced held) (hn : n ∈ held) : n ∉ l.released := by
  have hnodup : (l.released ++ held).Nodup := h.nodup_iff.mpr List.nodup_range
  intro hrel
  exact (List.nodup_append.mp hnodup).2.2 n hrel n hn rfl

/-- From holding `held` to holding `held₁`, whatever the others hold. -/
def Moves (l : Ledger) (held : List ℕ) (l₁ : Ledger) (held₁ : List ℕ) : Prop :=
  ∀ rest, l.Balanced (held ++ rest) → l₁.Balanced (held₁ ++ rest)

theorem Moves.refl (l : Ledger) (held : List ℕ) : l.Moves held l held := fun _ h => h

theorem Moves.trans (h₁ : l.Moves held l₁ held₁) (h₂ : l₁.Moves held₁ l₂ held₂) :
    l.Moves held l₂ held₂ :=
  fun rest h => h₂ rest (h₁ rest h)

theorem moves_issue (l : Ledger) (held : List ℕ) : l.Moves held l.issue (l.issued :: held) := by
  intro rest h
  have hlast : (l.released ++ l.issued :: (held ++ rest)).Perm
      (List.range l.issued ++ [l.issued]) :=
    List.perm_middle.trans ((h.cons _).trans (List.perm_append_singleton _ _).symm)
  rwa [← List.range_succ] at hlast

theorem moves_release (l : Ledger) (n : ℕ) (held : List ℕ) :
    l.Moves (n :: held) (l.release n) held := by
  intro rest h
  show (l.released ++ [n] ++ (held ++ rest)).Perm _
  rw [List.append_assoc]
  exact h

end Ledger

namespace Table

variable {t : Table C} {k : ℕ}

/-- The entries, with one of them in front. -/
theorem entries_perm (h : k < t.size) :
    t.entries.Perm (t.slots k :: (t.entries.take k ++ t.entries.drop (k + 1))) := by
  have hsplit := List.take_append_drop k t.entries
  rw [drop_entries_cons h] at hsplit
  exact (List.Perm.of_eq hsplit.symm).trans List.perm_middle

theorem entries_set_perm (h : k < t.size) (c : C) :
    (t.set k c).entries.Perm (c :: (t.entries.take k ++ t.entries.drop (k + 1))) := by
  have hsplit := List.take_append_drop k (t.set k c).entries
  rw [take_entries_set h, drop_entries_set h] at hsplit
  exact (List.Perm.of_eq hsplit.symm).trans List.perm_middle

theorem entries_swapRemove_perm (h : k < t.size) :
    (t.swapRemove k).entries.Perm (t.entries.take k ++ t.entries.drop (k + 1)) := by
  have hsplit := List.take_append_drop k (t.swapRemove k).entries
  rw [take_entries_swapRemove h] at hsplit
  exact (List.Perm.of_eq hsplit.symm).trans (List.Perm.append_left _ (drop_entries_swapRemove h))

end Table

namespace SelectServer

/-- A server whose clients hold resources: a new client holds none, only the handling of a client
takes or gives back any, and it does so on behalf of this client; a removed one leaves none
behind. -/
structure Owning (S : SelectServer C W A H) (ledger : W → Ledger) (held : C → List ℕ) : Prop where
  init : ledger S.world₀ = ⟨0, []⟩
  connect : ∀ c fd, held (S.connect c fd) = []
  turn : ∀ w, ledger (S.turn w) = ledger w
  async : ∀ t w a t' w', S.async t w a = some (t', w') →
    ledger w' = ledger w ∧ t'.size = t.size ∧ ∀ i, held (t'.slots i) = held (t.slots i)
  keep : ∀ s k rd wr h c' w', S.lts.Reachable s → k < s.table.size →
    S.handle k rd wr (s.table.slots k) s.world h = some (.keep c' w') →
    (ledger s.world).Moves (held (s.table.slots k)) (ledger w') (held c')
  drop : ∀ s k rd wr h c' w', S.lts.Reachable s → k < s.table.size →
    S.handle k rd wr (s.table.slots k) s.world h = some (.drop c' w') →
    (ledger s.world).Moves (held (s.table.slots k)) (ledger w') []

namespace Owning

variable {S : SelectServer C W A H} {ledger : W → Ledger} {held : C → List ℕ}

theorem inPass (hS : Owning S ledger held) {s : LoopState C W} (hs : S.lts.Reachable s) :
    InPass s := by
  obtain ⟨tr, htr⟩ := hs
  have hI : LocalInvariant S (fun _ _ => True) (fun _ _ => True) (fun _ _ _ => True)
      (fun _ => True) :=
    { init := trivial
      connect := fun _ _ _ _ _ => ⟨trivial, trivial⟩
      turn := fun _ _ _ => ⟨trivial, fun _ _ _ => trivial⟩
      async := fun s a t w _ _ _ h => ⟨(hS.async _ _ _ _ _ h).2.1, trivial, fun _ _ => trivial⟩
      keep := fun _ _ _ _ _ _ _ _ _ _ _ _ => ⟨trivial, trivial, fun _ _ _ => trivial⟩
      drop := fun _ _ _ _ _ _ _ _ _ _ _ _ =>
        ⟨trivial, trivial, fun _ _ _ => trivial, fun _ => trivial⟩ }
  exact (hI.holds htr fun _ _ => trivial).inPass

/-- **One step** keeps the books. -/
theorem balanced_step (hS : Owning S ledger held) {s t : LoopState C W} {a : LoopAction A H}
    (hs : S.lts.Reachable s) (hbal : (ledger s.world).Balanced (s.table.entries.flatMap held))
    (h : S.step s a = some t) : (ledger t.world).Balanced (t.table.entries.flatMap held) := by
  cases step_cases h with
  | @async a t w ha =>
      obtain ⟨hledger, hsize, hheld⟩ := hS.async _ _ _ _ _ ha
      have hentries : t.entries.flatMap held = s.table.entries.flatMap held := by
        simp [Table.entries, hsize, List.flatMap_map, hheld]
      show (ledger w).Balanced (t.entries.flatMap held)
      rw [hledger, hentries]
      exact hbal
  | turn hp hr =>
      show (ledger (S.turn s.world)).Balanced _
      rw [hS.turn]
      exact hbal
  | @accept fd r hp hfd hlt =>
      rw [Table.entries_push, List.flatMap_append, List.flatMap_singleton, hS.connect,
        List.append_nil]
      exact hbal
  | @keep e r k c' w' hp hh =>
      have hk : k < s.table.size := hS.inPass hs r (k + 1) hp
      have hmoves := hS.keep s k _ _ e c' w' hs hk hh
      exact (hmoves _ (hbal.perm ((Table.entries_perm hk).flatMap_right held))).perm
        ((Table.entries_set_perm hk c').flatMap_right held).symm
  | @drop e r k c' w' hp hh =>
      -- the entry moved into the freed slot keeps what it holds
      have hk : k < s.table.size := hS.inPass hs r (k + 1) hp
      have hmoves := hS.drop s k _ _ e c' w' hs hk hh
      exact (hmoves _ (hbal.perm ((Table.entries_perm hk).flatMap_right held))).perm
        ((Table.entries_swapRemove_perm hk).flatMap_right held).symm
  | leave hp hr => exact hbal
  | interrupted hp => exact hbal
  | failed hp => exact hbal
  | listening hp hr hl => exact hbal
  | quiet hp hr hl => exact hbal
  | acceptEnd hp => exact hbal
  | reject hp hfd hle => exact hbal
  | next hp => exact hbal

/-- **Every run** keeps the books. -/
theorem balanced (hS : Owning S ledger held) {s : LoopState C W} (hs : S.lts.Reachable s) :
    (ledger s.world).Balanced (s.table.entries.flatMap held) := by
  obtain ⟨tr, htr⟩ := hs
  induction htr with
  | start hs =>
      cases hs
      show (ledger S.world₀).Balanced []
      rw [hS.init]
      exact List.Perm.nil
  | snoc hexec hstep ih => exact hS.balanced_step ⟨_, hexec⟩ ih hstep

end Owning

end SelectServer

end Osvcp
