import Mathlib.Data.List.Induction
import Mathlib.Data.List.Nodup
import Mathlib.Data.List.Perm.Basic
import Osvcp.Lib.SelectLoop

/-! # One iteration of an event loop

What happens between the return of `select` and the end of the pass, for servers whose signal
handlers leave the table alone, that read once from a client that is ready and do nothing with one
that is not. The loop visits the clients that were there when `select` was called and then the ones
accepted since, from the last to the first, each once; only the former can be ready. A removal
copies the last entry into the freed slot, but the pass has been there already, so that no client is
skipped or visited twice (`Steady.during`). What was read is seen in the bytes that the client has
received.
-/

namespace Osvcp

variable {C W A H β : Type*}

namespace Table

variable {t : Table C} {k : ℕ}

@[simp] theorem length_entries (t : Table C) : t.entries.length = t.size := by
  simp [entries]

theorem entries_push (t : Table C) (c : C) : (t.push c).entries = t.entries ++ [c] := by
  have hold : (List.range t.size).map (t.push c).slots = (List.range t.size).map t.slots := by
    refine List.map_congr_left fun i hi => ?_
    simp [push, Nat.ne_of_lt (List.mem_range.mp hi)]
  rw [entries, show (t.push c).size = t.size + 1 from rfl, List.range_succ, List.map_append, hold]
  simp [entries, push]

theorem drop_entries (t : Table C) (k : ℕ) :
    t.entries.drop k = (List.range' k (t.size - k)).map t.slots := by
  rw [entries, ← List.map_drop, List.range_eq_range', List.drop_range']
  simp

theorem drop_entries_cons (h : k < t.size) :
    t.entries.drop k = t.slots k :: t.entries.drop (k + 1) := by
  rw [drop_entries, drop_entries, show t.size - k = t.size - (k + 1) + 1 by omega, List.range'_succ]
  rfl

/-- Tables that agree below `k`. -/
theorem take_entries_congr {u : Table C} (ht : k ≤ t.size) (hu : k ≤ u.size)
    (h : ∀ i < k, t.slots i = u.slots i) : t.entries.take k = u.entries.take k := by
  rw [entries, entries, ← List.map_take, ← List.map_take, List.take_range, List.take_range,
    Nat.min_eq_left ht, Nat.min_eq_left hu]
  exact List.map_congr_left fun i hi => h i (List.mem_range.mp hi)

theorem take_entries_set (h : k < t.size) (c : C) :
    (t.set k c).entries.take k = t.entries.take k := by
  refine take_entries_congr (Nat.le_of_lt h) (Nat.le_of_lt h) fun i hi => ?_
  simp [set, Nat.ne_of_lt hi]

theorem drop_entries_set (h : k < t.size) (c : C) :
    (t.set k c).entries.drop k = c :: t.entries.drop (k + 1) := by
  rw [drop_entries_cons (by exact h), drop_entries, drop_entries]
  congr 1
  · simp [set]
  · refine List.map_congr_left fun i hi => ?_
    have hik : k + 1 ≤ i := (List.mem_range'_1.mp hi).1
    simp [set, show i ≠ k by omega]

theorem take_entries_swapRemove (h : k < t.size) :
    (t.swapRemove k).entries.take k = t.entries.take k := by
  refine take_entries_congr (Nat.le_sub_one_of_lt h) (Nat.le_of_lt h) fun i hi => ?_
  simp [swapRemove, Nat.ne_of_lt hi]

/-- **A removal** keeps what stands behind the slot, in another order. -/
theorem drop_entries_swapRemove (h : k < t.size) :
    ((t.swapRemove k).entries.drop k).Perm (t.entries.drop (k + 1)) := by
  rw [drop_entries, drop_entries, show (t.swapRemove k).size - k = t.size - (k + 1) by
    show t.size - 1 - k = t.size - (k + 1); omega]
  cases hn : t.size - (k + 1) with
  | zero => exact List.Perm.refl _
  | succ n =>
      -- the last entry comes first, the others keep their places
      have hlast : k + 1 + n = t.size - 1 := by omega
      have hmid : (List.range' (k + 1) n).map (t.swapRemove k).slots =
          (List.range' (k + 1) n).map t.slots := by
        refine List.map_congr_left fun i hi => ?_
        have hik : k + 1 ≤ i := (List.mem_range'_1.mp hi).1
        simp [swapRemove, show i ≠ k by omega]
      rw [List.range'_succ, List.map_cons, hmid, List.range'_1_concat, List.map_append, hlast,
        show (t.swapRemove k).slots k = t.slots (t.size - 1) by simp [swapRemove]]
      exact (List.perm_append_singleton _ _).symm

/-- **A removal** takes one entry out and keeps the others as they are. -/
theorem entries_perm_swapRemove (h : k < t.size) :
    t.entries.Perm (t.slots k :: (t.swapRemove k).entries) := by
  have hold : t.entries = t.entries.take k ++ t.slots k :: t.entries.drop (k + 1) := by
    rw [← drop_entries_cons h, List.take_append_drop]
  have hnew : ((t.swapRemove k).entries).Perm (t.entries.take k ++ t.entries.drop (k + 1)) := by
    have hsplit := (List.take_append_drop k (t.swapRemove k).entries).symm
    rw [take_entries_swapRemove h] at hsplit
    rw [hsplit]
    exact (drop_entries_swapRemove h).append_left _
  rw [hold]
  exact List.perm_middle.trans (hnew.symm.cons _)

end Table

namespace SelectServer

/-- How clients are read from: what `read` returns in a step, nothing at the end of the stream or on
an error, and all that has been received from a client. -/
structure Reader (C H β : Type*) where
  read : C → H → List β
  received : C → List β

/-- One client in the pass: what it was, whether `select` reported it, what `read` returns for it in
this step, what the visit makes of it, and whether it stays in the table. -/
structure Visit (C β : Type*) where
  client : C
  ready : Bool
  input : List β
  left : C
  stays : Bool

namespace Visit

/-- The client, if it stays. -/
def kept (v : Visit C β) : Option C := if v.stays then some v.left else none

/-- The visit reads once from a client that is ready: what `read` returns is received, and where it
is nothing the client is removed. It reads nothing from any other, and leaves it as it is. A client
that stays keeps its socket. -/
structure ReadsOnce (fd : C → ℕ) (received : C → List β) (v : Visit C β) : Prop where
  ready : v.ready = true →
    received v.left = received v.client ++ v.input ∧ (v.input = [] → v.stays = false)
  idle : v.ready = false → v.left = v.client ∧ v.stays = true
  socket : v.stays = true → fd v.left = fd v.client

end Visit

variable (S : SelectServer C W A H) (R : Reader C H β)

/-- The client a step visits. -/
def visitOf (p : LoopState C W × LoopAction A H) : Option (Visit C β) :=
  match p.2, p.1.phase with
  | .handle h, .pass r (k + 1) =>
      let c := p.1.table.slots k
      let ready := decide (S.fd c ∈ r.rd)
      match S.handle k ready (decide (S.fd c ∈ r.wr)) c p.1.world h with
      | some (.keep c' _) => some ⟨c, ready, R.read c h, c', true⟩
      | some (.drop c' _) => some ⟨c, ready, R.read c h, c', false⟩
      | none => none
  | _, _ => none

/-- The client a step admits. -/
def admittedBy (p : LoopState C W × LoopAction A H) : Option C :=
  match p.2, p.1.phase with
  | .accept (some fd), .accepting _ =>
      if p.1.table.size < S.maxClients then some (S.connect (p.1.table.slots p.1.table.size) fd)
      else none
  | _, _ => none

/-- A server whose signal handlers leave the table alone, that does nothing with a client that is
not ready, and that reads once from one that is: a client that is kept was given some bytes, and the
bytes it was given are all that is received from any client. -/
structure Steady (S : SelectServer C W A H) (R : Reader C H β) : Prop extends Lawful S where
  async_table : ∀ t w a t' w', S.async t w a = some (t', w') → t' = t
  idle : ∀ i wr c w h, S.handle i false wr c w h = some (.keep c w)
  read_keep : ∀ i wr c w h c' w', S.handle i true wr c w h = some (.keep c' w') →
    R.received c' = R.received c ++ R.read c h ∧ R.read c h ≠ []
  read_drop : ∀ i wr c w h c' w', S.handle i true wr c w h = some (.drop c' w') →
    R.received c' = R.received c ++ R.read c h

variable {S R}

/-- Where an iteration stands: the clients that were there before and those accepted since are in
the table, or those still to visit are, together with what the visited ones have become. -/
inductive Progress (r : Ready) (clients : List C) (visits : List (Visit C β))
    (t : LoopState C W) : Prop
  | accepting (hp : t.phase = .accepting r) (htable : t.table.entries = clients)
      (hvisits : visits = [])
  | pass (left : ℕ) (hp : t.phase = .pass r left) (hle : left ≤ t.table.size)
      (hleft : t.table.entries.take left = clients.take left)
      (hvisits : visits.map Visit.client = (clients.drop left).reverse)
      (htable : (t.table.entries.drop left).Perm (visits.filterMap Visit.kept))

/-- What is known of the clients of an iteration. -/
structure During (S : SelectServer C W A H) (R : Reader C H β) (r : Ready) (old admitted : List C)
    (visits : List (Visit C β)) (t : LoopState C W) : Prop where
  progress : Progress r (old ++ admitted) visits t
  reported : ∀ fd ∈ r.rd, fd ∈ old.map S.fd
  admitted_fd : ∀ c ∈ admitted, S.fd c ∉ r.rd
  ready : ∀ v ∈ visits, v.ready = decide (S.fd v.client ∈ r.rd)
  reads : ∀ v ∈ visits, v.ReadsOnce S.fd R.received

section

variable {r : Ready} {old admitted : List C} {visits : List (Visit C β)} {s t : LoopState C W}

theorem Progress.of_eq {clients : List C} (h : Progress r clients visits s) (hp : t.phase = s.phase)
    (ht : t.table = s.table) : Progress r clients visits t := by
  cases h with
  | accepting hp' htable hvisits => exact .accepting (hp.trans hp') (ht ▸ htable) hvisits
  | pass left hp' hle hleft hvisits htable =>
      exact .pass left (hp.trans hp') (ht ▸ hle) (ht ▸ hleft) hvisits (ht ▸ htable)

theorem Progress.of_pass {clients : List C} {r' : Ready} {k : ℕ} (h : Progress r clients visits s)
    (hp : s.phase = .pass r' (k + 1)) : r = r' ∧ k < s.table.size := by
  cases h with
  | accepting hp' => cases hp'.symm.trans hp
  | pass left hp' hle =>
      cases hp'.symm.trans hp
      exact ⟨rfl, hle⟩

theorem Progress.of_accepting {clients : List C} {r' : Ready} (h : Progress r clients visits s)
    (hp : s.phase = .accepting r') : r = r' ∧ s.table.entries = clients ∧ visits = [] := by
  cases h with
  | accepting hp' htable hvisits =>
      cases hp'.symm.trans hp
      exact ⟨rfl, htable, hvisits⟩
  | pass left hp' => cases hp'.symm.trans hp

/-- The pass begins with all clients still to visit. -/
theorem Progress.begin {clients : List C} (htable : t.table.entries = clients)
    (hvisits : visits = []) (hp : t.phase = .pass r t.table.size) :
    Progress r clients visits t := by
  have hlength : clients.length = t.table.size := by rw [← htable, Table.length_entries]
  refine .pass t.table.size hp (Nat.le_refl _) ?_ ?_ ?_
  · rw [htable]
  · rw [hvisits, ← hlength, List.drop_length]
    rfl
  · rw [hvisits, htable, ← hlength, List.drop_length]
    exact List.Perm.refl _

/-- A step that neither admits nor visits a client. -/
theorem During.quiet (h : During S R r old admitted visits s) {p : LoopState C W × LoopAction A H}
    (haccept : S.admittedBy p = none) (hvisit : S.visitOf R p = none)
    (ht : Progress r (old ++ admitted) visits t) :
    During S R r old (admitted ++ (S.admittedBy p).toList)
      (visits ++ (S.visitOf R p).toList) t := by
  rw [haccept, hvisit, Option.toList_none, Option.toList_none, List.append_nil, List.append_nil]
  exact ⟨ht, h.reported, h.admitted_fd, h.ready, h.reads⟩

/-- A step that admits a client, with a descriptor that is none of those `select` was asked
about. -/
theorem During.admit (h : During S R r old admitted visits s)
    {p : LoopState C W × LoopAction A H} {c : C} (haccept : S.admittedBy p = some c)
    (hvisit : S.visitOf R p = none)
    (ht : Progress r (old ++ (admitted ++ [c])) visits t) (hnew : S.fd c ∉ r.rd) :
    During S R r old (admitted ++ (S.admittedBy p).toList)
      (visits ++ (S.visitOf R p).toList) t := by
  rw [haccept, hvisit, Option.toList_some, Option.toList_none, List.append_nil]
  refine ⟨ht, h.reported, ?_, h.ready, h.reads⟩
  exact List.forall_mem_append.mpr ⟨h.admitted_fd, List.forall_mem_singleton.mpr hnew⟩

/-- A step that visits a client. -/
theorem During.visit (h : During S R r old admitted visits s) {p : LoopState C W × LoopAction A H}
    {v : Visit C β} (haccept : S.admittedBy p = none) (hvisit : S.visitOf R p = some v)
    (ht : Progress r (old ++ admitted) (visits ++ [v]) t)
    (hready : v.ready = decide (S.fd v.client ∈ r.rd)) (hreads : v.ReadsOnce S.fd R.received) :
    During S R r old (admitted ++ (S.admittedBy p).toList)
      (visits ++ (S.visitOf R p).toList) t := by
  rw [haccept, hvisit, Option.toList_none, List.append_nil, Option.toList_some]
  refine ⟨ht, h.reported, h.admitted_fd, ?_, ?_⟩
  · exact List.forall_mem_append.mpr ⟨h.ready, List.forall_mem_singleton.mpr hready⟩
  · exact List.forall_mem_append.mpr ⟨h.reads, List.forall_mem_singleton.mpr hreads⟩

/-- A visit to the client in slot `k`. -/
theorem Progress.visit {clients : List C} {k : ℕ} {v : Visit C β} (h : Progress r clients visits s)
    (hclient : v.client = s.table.slots k) (hp : s.phase = .pass r (k + 1))
    (htp : t.phase = .pass r k) (hsize : k ≤ t.table.size)
    (htake : t.table.entries.take k = s.table.entries.take k)
    (hdrop : (t.table.entries.drop k).Perm (v.kept.toList ++ s.table.entries.drop (k + 1))) :
    Progress r clients (visits ++ [v]) t := by
  cases h with
  | accepting hp' => cases hp'.symm.trans hp
  | pass left hp' hle hleft hvisits htable =>
      cases hp'.symm.trans hp
      have hk : k < s.table.size := hle
      have hlen : k < clients.length := by
        have hlength := congrArg List.length hleft
        simp only [List.length_take, Table.length_entries] at hlength
        omega
      -- below `left` the table is as it was when the pass began
      have hslot : clients[k] = s.table.slots k := by
        have hget := congrArg (fun l => l[k]?) hleft
        have hentry : s.table.entries[k]? = some (s.table.slots k) := by
          simp [Table.entries, hk]
        simpa [List.getElem?_take, hentry, List.getElem?_eq_getElem hlen] using hget.symm
      refine .pass k htp hsize ?_ ?_ ?_
      · have hcut := congrArg (List.take k) hleft
        rw [List.take_take, List.take_take, Nat.min_eq_left (Nat.le_succ k)] at hcut
        exact htake.trans hcut
      · rw [List.map_append, hvisits, List.drop_eq_getElem_cons hlen, List.reverse_cons, hslot,
          ← hclient]
        rfl
      · rw [List.filterMap_append]
        refine hdrop.trans ((List.Perm.append_left _ htable).trans ?_)
        refine List.perm_append_comm.trans (List.Perm.append_left _ ?_)
        rw [List.filterMap_cons, List.filterMap_nil]
        cases v.kept <;> exact List.Perm.refl _

/-- The visit of a client that is kept. -/
theorem Steady.readsOnce_keep (hS : Steady S R) {i : ℕ} {ready wr : Bool} {c c' : C}
    {w w' : W} {e : H} (h : S.handle i ready wr c w e = some (.keep c' w')) :
    Visit.ReadsOnce S.fd R.received ⟨c, ready, R.read c e, c', true⟩ := by
  cases ready with
  | true =>
      obtain ⟨hreceived, hne⟩ := hS.read_keep _ _ _ _ _ _ _ h
      exact ⟨fun _ => ⟨hreceived, fun hnil => absurd hnil hne⟩, nofun,
        fun _ => hS.keep _ _ _ _ _ _ _ _ h⟩
  | false =>
      rw [hS.idle] at h
      cases h
      exact ⟨nofun, fun _ => ⟨rfl, rfl⟩, fun _ => rfl⟩

/-- The visit of a client that is removed. -/
theorem Steady.readsOnce_drop (hS : Steady S R) {i : ℕ} {ready wr : Bool} {c c' : C}
    {w w' : W} {e : H} (h : S.handle i ready wr c w e = some (.drop c' w')) :
    Visit.ReadsOnce S.fd R.received ⟨c, ready, R.read c e, c', false⟩ := by
  cases ready with
  | true => exact ⟨fun _ => ⟨hS.read_drop _ _ _ _ _ _ _ h, fun _ => rfl⟩, nofun, nofun⟩
  | false =>
      rw [hS.idle] at h
      cases h

variable {a : LoopAction A H}

/-- **One step** of an iteration. -/
theorem Steady.during_step (hS : Steady S R) (h : During S R r old admitted visits s)
    (ha : a ≠ .next) (hstep : S.step s a = some t) :
    During S R r old (admitted ++ (S.admittedBy (s, a)).toList)
      (visits ++ (S.visitOf R (s, a)).toList) t := by
  have hphase : ∀ {ph : Phase}, s.phase = ph → (∀ r', ph ≠ .accepting r') →
      (∀ r' left, ph ≠ .pass r' left) → False := by
    intro ph hp hacc hpass
    cases h.progress with
    | accepting hp' => exact hacc r (hp.symm.trans hp')
    | pass left hp' => exact hpass r left (hp.symm.trans hp')
  cases step_cases hstep with
  | @async a t w hasync =>
      exact h.quiet rfl rfl (h.progress.of_eq rfl (hS.async_table _ _ _ _ _ hasync))
  | turn hp hr => exact (hphase hp (by simp) (by simp)).elim
  | leave hp hr => exact (hphase hp (by simp) (by simp)).elim
  | interrupted hp => exact (hphase hp (by simp) (by simp)).elim
  | failed hp => exact (hphase hp (by simp) (by simp)).elim
  | listening hp hr hl => exact (hphase hp (by simp) (by simp)).elim
  | quiet hp hr hl => exact (hphase hp (by simp) (by simp)).elim
  | next hp => exact absurd rfl ha
  | @acceptEnd r' hp =>
      obtain ⟨rfl, htable, hvisits⟩ := h.progress.of_accepting hp
      exact h.quiet rfl rfl (.begin htable hvisits rfl)
  | @accept fd r' hp hfd hlt =>
      obtain ⟨rfl, htable, hvisits⟩ := h.progress.of_accepting hp
      have haccept : S.admittedBy (s, .accept (some fd)) =
          some (S.connect (s.table.slots s.table.size) fd) := by
        simp [admittedBy, hp, hlt]
      refine h.admit haccept rfl (.accepting hp ?_ hvisits) ?_
      · rw [Table.entries_push, htable, List.append_assoc]
      · rw [hS.connect]
        intro hmem
        refine hfd ?_
        rw [htable, List.map_append]
        exact List.mem_append_left _ (h.reported fd hmem)
  | @reject fd r' hp hfd hle =>
      refine h.quiet ?_ rfl h.progress
      simp [admittedBy, hp, Nat.not_lt_of_le hle]
  | @keep e r' k c' w' hp hh =>
      obtain ⟨rfl, hk⟩ := h.progress.of_pass hp
      have hvisit : S.visitOf R (s, .handle e) = some ⟨s.table.slots k,
          decide (S.fd (s.table.slots k) ∈ r.rd), R.read (s.table.slots k) e, c', true⟩ := by
        simp [visitOf, hp, hh]
      refine h.visit rfl hvisit (h.progress.visit rfl hp rfl ?_ ?_ ?_) rfl (hS.readsOnce_keep hh)
      · exact Nat.le_of_lt hk
      · exact Table.take_entries_set hk c'
      · rw [Table.drop_entries_set hk]
        exact List.Perm.refl _
  | @drop e r' k c' w' hp hh =>
      obtain ⟨rfl, hk⟩ := h.progress.of_pass hp
      have hvisit : S.visitOf R (s, .handle e) = some ⟨s.table.slots k,
          decide (S.fd (s.table.slots k) ∈ r.rd), R.read (s.table.slots k) e, c', false⟩ := by
        simp [visitOf, hp, hh]
      refine h.visit rfl hvisit (h.progress.visit rfl hp rfl ?_ ?_ ?_) rfl (hS.readsOnce_drop hh)
      · exact Nat.le_sub_one_of_lt hk
      · exact Table.take_entries_swapRemove hk
      · exact Table.drop_entries_swapRemove hk

/-- **A whole iteration**, up to any point before the end of its pass. -/
theorem Steady.during (hS : Steady S R) {pre tr : List (LoopState C W × LoopAction A H)}
    {s₀ : LoopState C W} (h : S.lts.Exec (pre ++ (s₀, .select (.ready r)) :: tr) t)
    (hnext : ∀ p ∈ tr, p.2 ≠ .next) :
    During S R r s₀.table.entries (tr.filterMap S.admittedBy) (tr.filterMap (S.visitOf R)) t := by
  induction tr using List.reverseRecOn generalizing t with
  | nil =>
      obtain ⟨-, hstep⟩ := h.of_append_singleton
      have hreported : S.requested s₀.table r = true → ∀ fd ∈ r.rd,
          fd ∈ s₀.table.entries.map S.fd := by
        intro hr fd hfd
        rw [requested, Bool.and_eq_true, List.all_eq_true] at hr
        exact of_decide_eq_true (hr.1 fd hfd)
      cases step_cases hstep with
      | listening hp hr hl =>
          exact ⟨.accepting rfl (by simp) rfl, hreported hr, by simp, by simp, by simp⟩
      | quiet hp hr hl =>
          refine ⟨.pass s₀.table.size rfl (Nat.le_refl _) (by simp) ?_ ?_, hreported hr,
            by simp, by simp, by simp⟩
          · simp [← Table.length_entries]
          · simp [← Table.length_entries]
  | append_singleton tr p ih =>
      rw [← List.cons_append, ← List.append_assoc] at h
      obtain ⟨hexec, hstep⟩ := h.of_append_singleton
      have hs := ih hexec fun q hq => hnext q (List.mem_append_left _ hq)
      have ht := hS.during_step hs (hnext p (by simp)) hstep
      rw [List.filterMap_append, List.filterMap_append]
      cases haccept : S.admittedBy p <;> cases hvisit : S.visitOf R p <;>
        simpa [haccept, hvisit] using ht

/-- **What an iteration has done**: every client that was there when `select` was called, and every
one accepted since, was visited once; the ready ones among the visited are those of the former that
`select` reported; each visit read once from a ready client and from no other; and the table holds
what the visits left. -/
structure PassDone (S : SelectServer C W A H) (R : Reader C H β) (r : Ready) (old admitted : List C)
    (visits : List (Visit C β)) (t : LoopState C W) : Prop where
  visited : visits.map Visit.client = (old ++ admitted).reverse
  ready : (visits.filter Visit.ready).map Visit.client =
    (old.filter fun c => decide (S.fd c ∈ r.rd)).reverse
  reads : ∀ v ∈ visits, v.ReadsOnce S.fd R.received
  table : t.table.entries.Perm (visits.filterMap Visit.kept)

theorem During.done (h : During S R r old admitted visits t) (hend : t.phase = .pass r 0) :
    PassDone S R r old admitted visits t := by
  obtain ⟨hprogress, -, hadmitted, hready, hreads⟩ := h
  cases hprogress with
  | accepting hp => cases hp.symm.trans hend
  | pass left hp hle hleft hvisits htable =>
      cases hp.symm.trans hend
      rw [List.drop_zero] at hvisits htable
      refine ⟨hvisits, ?_, hreads, htable⟩
      -- whether a visited client is ready depends on its descriptor, and no new client is
      have hfilter : visits.filter Visit.ready =
          visits.filter ((fun c => decide (S.fd c ∈ r.rd)) ∘ Visit.client) :=
        List.filter_congr fun v hv => hready v hv
      have hnone : admitted.filter (fun c => decide (S.fd c ∈ r.rd)) = [] := by
        rw [List.filter_eq_nil_iff]
        intro c hc
        simpa using hadmitted c hc
      rw [hfilter, ← List.filter_map, hvisits, List.filter_reverse, List.filter_append, hnone,
        List.append_nil]

end

/-- **The clients are kept apart and none is lost**: in every reachable state they have different
descriptors and fit the table, and every iteration of every run does what `PassDone` says with the
clients that were there when `select` was called. -/
structure KeepsClients (S : SelectServer C W A H) (R : Reader C H β) : Prop where
  distinct : ∀ s, S.lts.Reachable s → (s.table.entries.map S.fd).Nodup
  size_le : ∀ s, S.lts.Reachable s → s.table.size ≤ S.maxClients
  pass : ∀ (pre tr : List (LoopState C W × LoopAction A H)) (s₀ t : LoopState C W) (r : Ready),
    S.lts.Exec (pre ++ (s₀, .select (.ready r)) :: tr) t → (∀ p ∈ tr, p.2 ≠ .next) →
    t.phase = .pass r 0 →
    PassDone S R r s₀.table.entries (tr.filterMap S.admittedBy) (tr.filterMap (S.visitOf R)) t

/-- **A steady server keeps its clients.** -/
theorem Steady.keepsClients (hS : Steady S R) : KeepsClients S R where
  distinct s hs := by
    have hsockets := hS.toLawful.sockets hs
    rw [Table.entries, List.map_map]
    refine List.Nodup.map_on ?_ List.nodup_range
    intro i hi j hj heq
    exact hsockets.distinct i (List.mem_range.mp hi) j (List.mem_range.mp hj) heq
  size_le s hs := (hS.toLawful.sockets hs).size_le
  pass pre tr s₀ t r h hnext hend := (hS.during h hnext).done hend

end SelectServer

end Osvcp
