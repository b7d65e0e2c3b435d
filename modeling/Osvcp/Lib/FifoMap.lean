import Mathlib.Data.List.Basic
import Mathlib.Data.List.Nodup
import Mathlib.Tactic.Common

/-! # Bounded maps with first-in first-out eviction

The same cache in three forms. `Fifo` is a list of bindings, the oldest first: an insertion of a key
that is present changes its value in place, one of a new key drops the first binding of a full list.
`history` keeps nothing but the operations and reads the value of a key off them: it is that of the
last insertion of the key, provided that the key is among the last `cap` that were absent when they
were inserted. `Simulates` compares implementations by the results of their lookups.
-/

namespace Osvcp

variable {S T K V : Type*}

/-- An operation on a cache. -/
inductive CacheOp (K V : Type*)
  | insert (k : K) (v : V)
  | lookup (k : K)
  | clear

/-- The key of an operation satisfies `p`. -/
def CacheOp.Keys (p : K → Prop) : CacheOp K V → Prop
  | .insert k _ => p k
  | .lookup k => p k
  | .clear => True

instance (p : K → Prop) [DecidablePred p] : DecidablePred (CacheOp.Keys (V := V) p)
  | .insert k _ => inferInstanceAs (Decidable (p k))
  | .lookup k => inferInstanceAs (Decidable (p k))
  | .clear => inferInstanceAs (Decidable True)

/-- An implementation of a cache. -/
structure CacheImpl (S K V : Type*) where
  empty : S
  insert : S → K → V → S
  lookup : S → K → Option V
  clear : S → S

namespace CacheImpl

/-- The state after an operation. -/
def step (I : CacheImpl S K V) (s : S) : CacheOp K V → S
  | .insert k v => I.insert s k v
  | .lookup _ => s
  | .clear => I.clear s

/-- The state after a sequence of operations. -/
def run (I : CacheImpl S K V) (ops : List (CacheOp K V)) : S := ops.foldl I.step I.empty

/-- The results of the lookups of a sequence of operations. -/
def resultsFrom (I : CacheImpl S K V) : S → List (CacheOp K V) → List (Option V)
  | _, [] => []
  | s, .lookup k :: ops => I.lookup s k :: I.resultsFrom s ops
  | s, op :: ops => I.resultsFrom (I.step s op) ops

/-- The results from the empty cache. -/
def results (I : CacheImpl S K V) (ops : List (CacheOp K V)) : List (Option V) :=
  I.resultsFrom I.empty ops

/-- A relation between the states of two implementations that every operation on keys with `p` keeps
and under which lookups agree. -/
structure Simulates (p : K → Prop) (I : CacheImpl S K V) (J : CacheImpl T K V) (R : S → T → Prop) :
    Prop where
  empty : R I.empty J.empty
  insert : ∀ s t k v, p k → R s t → R (I.insert s k v) (J.insert t k v)
  lookup : ∀ s t k, p k → R s t → I.lookup s k = J.lookup t k
  clear : ∀ s t, R s t → R (I.clear s) (J.clear t)

namespace Simulates

variable {p : K → Prop} {I : CacheImpl S K V} {J : CacheImpl T K V} {R : S → T → Prop}

theorem step (h : Simulates p I J R) {s : S} {t : T} {op : CacheOp K V} (hop : op.Keys p)
    (hR : R s t) : R (I.step s op) (J.step t op) := by
  cases op with
  | insert k v => exact h.insert s t k v hop hR
  | lookup k => exact hR
  | clear => exact h.clear s t hR

theorem resultsFrom (h : Simulates p I J R) {ops : List (CacheOp K V)}
    (hops : ∀ op ∈ ops, op.Keys p) {s : S} {t : T} (hR : R s t) :
    I.resultsFrom s ops = J.resultsFrom t ops := by
  induction ops generalizing s t with
  | nil => rfl
  | cons op ops ih =>
      have hop := hops op List.mem_cons_self
      have ih := fun s t (hR : R s t) => ih (fun o ho => hops o (List.mem_cons_of_mem _ ho)) hR
      have hstep := ih _ _ (h.step hop hR)
      cases op with
      | insert k v => exact hstep
      | lookup k => exact congrArg₂ List.cons (h.lookup s t k hop hR) hstep
      | clear => exact hstep

/-- **Related implementations give the same results.** -/
theorem results (h : Simulates p I J R) {ops : List (CacheOp K V)} (hops : ∀ op ∈ ops, op.Keys p) :
    I.results ops = J.results ops :=
  h.resultsFrom hops h.empty

/-- Related implementations reach related states. -/
theorem run (h : Simulates p I J R) {ops : List (CacheOp K V)} (hops : ∀ op ∈ ops, op.Keys p) :
    R (I.run ops) (J.run ops) := by
  have hfrom : ∀ s t, R s t → R (ops.foldl I.step s) (ops.foldl J.step t) := by
    induction ops with
    | nil => exact fun _ _ hR => hR
    | cons op ops ih =>
        intro s t hR
        exact ih (fun o ho => hops o (List.mem_cons_of_mem _ ho)) _ _
          (h.step (hops op List.mem_cons_self) hR)
  exact hfrom _ _ h.empty

end Simulates

end CacheImpl

/-! ## The list of bindings -/

namespace Fifo

variable [DecidableEq K]

/-- Insert into a list of at most `cap` bindings. -/
def insert (cap : ℕ) (q : List (K × V)) (k : K) (v : V) : List (K × V) :=
  if k ∈ q.map Prod.fst then q.map fun b => if b.1 = k then (k, v) else b
  else (if q.length = cap then q.drop 1 else q) ++ [(k, v)]

/-- The value of a key. -/
def lookup (q : List (K × V)) (k : K) : Option V := (q.find? (·.1 = k)).map Prod.snd

/-- The list as an implementation. -/
def impl (cap : ℕ) : CacheImpl (List (K × V)) K V := ⟨[], insert cap, lookup, fun _ => []⟩

/-- What every operation keeps. -/
structure Ok (cap : ℕ) (q : List (K × V)) : Prop where
  nodup : (q.map Prod.fst).Nodup
  length_le : q.length ≤ cap

section

variable {cap : ℕ} {q : List (K × V)} {k : K} {v : V}

theorem keys_insert_of_mem (h : k ∈ q.map Prod.fst) :
    (insert cap q k v).map Prod.fst = q.map Prod.fst := by
  rw [insert, if_pos h, List.map_map]
  apply List.map_congr_left
  intro b _
  by_cases hb : b.1 = k <;> simp [hb]

theorem keys_insert_of_not_mem (h : k ∉ q.map Prod.fst) :
    (insert cap q k v).map Prod.fst =
      (if q.length = cap then (q.map Prod.fst).drop 1 else q.map Prod.fst) ++ [k] := by
  rw [insert, if_neg h, List.map_append]
  split <;> simp

theorem insert_ok (hcap : 0 < cap) (hq : Ok cap q) (k : K) (v : V) : Ok cap (insert cap q k v) := by
  by_cases hk : k ∈ q.map Prod.fst
  · have hkeys : (insert cap q k v).map Prod.fst = q.map Prod.fst := keys_insert_of_mem hk
    refine ⟨hkeys ▸ hq.nodup, ?_⟩
    have hlen := congrArg List.length hkeys
    rw [List.length_map, List.length_map] at hlen
    exact hlen ▸ hq.length_le
  · have hkeys : (insert cap q k v).map Prod.fst = _ := keys_insert_of_not_mem hk
    have hlen := congrArg List.length hkeys
    constructor
    · rw [hkeys, List.nodup_append]
      refine ⟨?_, List.nodup_singleton k, ?_⟩
      · split
        · exact hq.nodup.sublist (List.drop_sublist 1 _)
        · exact hq.nodup
      · rintro a ha b hb rfl
        rw [List.mem_singleton] at hb
        subst hb
        split at ha
        · exact hk (List.mem_of_mem_drop ha)
        · exact hk ha
    · have hle := hq.length_le
      rw [List.length_map, List.length_append, List.length_singleton] at hlen
      rw [hlen]
      split
      · rw [List.length_drop, List.length_map]
        omega
      · rw [List.length_map]
        omega

theorem lookup_eq_some_iff (h : (q.map Prod.fst).Nodup) : lookup q k = some v ↔ (k, v) ∈ q := by
  induction q with
  | nil => simp [lookup]
  | cons b q ih =>
      rw [List.map_cons, List.nodup_cons] at h
      have ih := ih h.2
      simp only [lookup] at ih ⊢
      by_cases hb : b.1 = k
      · have hnot : (k, v) ∉ q := fun hm => h.1 (hb ▸ List.mem_map_of_mem hm)
        rw [List.find?_cons_of_pos (by simpa using hb)]
        simp only [Option.map_some, Option.some_inj, List.mem_cons, hnot, or_false]
        constructor
        · rintro rfl
          exact Prod.ext hb.symm rfl
        · rintro rfl
          rfl
      · rw [List.find?_cons_of_neg (by simpa using hb), ih, List.mem_cons]
        constructor
        · exact .inr
        · rintro (rfl | hm)
          · exact absurd rfl hb
          · exact hm

theorem lookup_eq_none_iff : lookup q k = none ↔ k ∉ q.map Prod.fst := by
  simp only [lookup, Option.map_eq_none_iff, List.find?_eq_none, List.mem_map, not_exists, not_and,
    decide_eq_true_eq]

/-- The bindings after an insertion. -/
theorem mem_insert {j : K} {u : V} (h : (j, u) ∈ insert cap q k v) :
    j = k ∧ u = v ∨ j ≠ k ∧ (j, u) ∈ q := by
  unfold insert at h
  split at h
  · obtain ⟨b, hb, heq⟩ := List.mem_map.mp h
    split at heq
    · cases heq
      exact .inl ⟨rfl, rfl⟩
    · rename_i hne
      subst heq
      exact .inr ⟨hne, hb⟩
  · rename_i hk
    rcases List.mem_append.mp h with hq | hq
    · have hq : (j, u) ∈ q := by
        split at hq
        · exact List.mem_of_mem_drop hq
        · exact hq
      exact .inr ⟨fun hj => hk (hj ▸ List.mem_map_of_mem hq), hq⟩
    · cases List.mem_singleton.mp hq
      exact .inl ⟨rfl, rfl⟩

/-- The value that was inserted. -/
theorem lookup_insert_self (hcap : 0 < cap) (hq : Ok cap q) (k : K) (v : V) :
    lookup (insert cap q k v) k = some v := by
  have hok := insert_ok hcap hq k v
  cases hl : lookup (insert cap q k v) k with
  | none =>
      rw [lookup_eq_none_iff] at hl
      by_cases hk : k ∈ q.map Prod.fst
      · rw [keys_insert_of_mem hk] at hl
        exact absurd hk hl
      · rw [keys_insert_of_not_mem hk] at hl
        exact absurd (List.mem_append_right _ (List.mem_singleton.mpr rfl)) hl
  | some u =>
      rw [lookup_eq_some_iff hok.nodup] at hl
      rcases mem_insert hl with ⟨-, rfl⟩ | ⟨hne, -⟩
      · rfl
      · exact absurd rfl hne

/-- An update in place leaves the other keys alone. -/
theorem lookup_insert_of_mem (hk : k ∈ q.map Prod.fst) {j : K} (hj : j ≠ k) :
    lookup (insert cap q k v) j = lookup q j := by
  rw [insert, if_pos hk, lookup, lookup]
  clear hk
  induction q with
  | nil => rfl
  | cons b q ih =>
      rw [List.map_cons]
      by_cases hb : b.1 = j
      · have hbk : b.1 ≠ k := fun h => hj (hb.symm.trans h)
        rw [if_neg hbk, List.find?_cons_of_pos (by simpa using hb),
          List.find?_cons_of_pos (by simpa using hb)]
      · have hne : (if b.1 = k then (k, v) else b).1 ≠ j := by
          split
          · exact Ne.symm hj
          · exact hb
        rw [List.find?_cons_of_neg (by simpa using hne), List.find?_cons_of_neg (by simpa using hb)]
        exact ih

/-- A new key leaves the others alone, except the one that makes room. -/
theorem lookup_insert_of_not_mem (hk : k ∉ q.map Prod.fst) {j : K} (hj : j ≠ k) :
    lookup (insert cap q k v) j = lookup (if q.length = cap then q.drop 1 else q) j := by
  rw [insert, if_neg hk, lookup, lookup, List.find?_append]
  have hnew : [(k, v)].find? (·.1 = j) = none := by simp [Ne.symm hj]
  rw [hnew, Option.or_none]

theorem lookup_cons_of_ne {b : K × V} (h : b.1 ≠ k) : lookup (b :: q) k = lookup q k := by
  rw [lookup, List.find?_cons_of_neg (by simpa using h), lookup]

end

end Fifo

/-! ## The history of operations

Histories have the newest operation first. -/

section

variable [DecidableEq K]

/-- The value of the last insertion of a key since the last clear. -/
def lastValue : List (CacheOp K V) → K → Option V
  | [], _ => none
  | .insert j v :: h, k => if j = k then some v else lastValue h k
  | .lookup _ :: h, k => lastValue h k
  | .clear :: _, _ => none

/-- The keys that became present since the last clear, the last one first: an insertion makes its
key present unless the key is among the last `cap` of those before it. -/
def births (cap : ℕ) : List (CacheOp K V) → List K
  | [] => []
  | .insert k _ :: h => if k ∈ (births cap h).take cap then births cap h else k :: births cap h
  | .lookup _ :: h => births cap h
  | .clear :: _ => []

/-- **The result of a lookup after a history**: the value of the last insertion of the key since the
last clear, if fewer than `cap` keys became present after the key did, and nothing otherwise. -/
def historyLookup (cap : ℕ) (h : List (CacheOp K V)) (k : K) : Option V :=
  if k ∈ (births cap h).take cap then lastValue h k else none

/-- The history as an implementation. -/
def history (cap : ℕ) : CacheImpl (List (CacheOp K V)) K V where
  empty := []
  insert h k v := .insert k v :: h
  lookup := historyLookup cap
  clear h := .clear :: h

/-- The bindings of a list are those of a history. -/
structure Fifo.Follows (cap : ℕ) (q : List (K × V)) (h : List (CacheOp K V)) : Prop where
  keys : q.map Prod.fst = ((births cap h).take cap).reverse
  values : ∀ b ∈ q, lastValue h b.1 = some b.2
  ok : Fifo.Ok cap q

variable {cap : ℕ} {q : List (K × V)} {h : List (CacheOp K V)}

theorem Fifo.Follows.mem_keys (hf : Fifo.Follows cap q h) {k : K} :
    k ∈ q.map Prod.fst ↔ k ∈ (births cap h).take cap := by
  rw [hf.keys, List.mem_reverse]

theorem Fifo.Follows.insert (hcap : 0 < cap) (hf : Fifo.Follows cap q h) (k : K) (v : V) :
    Fifo.Follows cap (Fifo.insert cap q k v) (.insert k v :: h) := by
  refine ⟨?keys, ?values, Fifo.insert_ok hcap hf.ok k v⟩
  case keys =>
    by_cases hk : k ∈ q.map Prod.fst
    · rw [Fifo.keys_insert_of_mem hk, hf.keys, births, if_pos (hf.mem_keys.mp hk)]
    · -- the oldest key makes room exactly if `cap` keys are present
      have hlen : q.length = min cap (births cap h).length := by
        have hlen := congrArg List.length hf.keys
        rwa [List.length_map, List.length_reverse, List.length_take] at hlen
      rw [Fifo.keys_insert_of_not_mem hk, births, if_neg fun hm => hk (hf.mem_keys.mpr hm), hf.keys]
      obtain ⟨n, rfl⟩ : ∃ n, cap = n + 1 := ⟨cap - 1, by omega⟩
      rw [List.take_succ_cons, List.reverse_cons]
      congr 1
      split
      · have htake : ((births (n + 1) h).take (n + 1)).dropLast = (births (n + 1) h).take n := by
          rw [List.dropLast_eq_take, List.length_take, List.take_take]
          congr 1
          omega
        rw [List.drop_one, List.tail_reverse, htake]
      · rw [List.take_of_length_le (by omega), List.take_of_length_le (by omega)]
  case values =>
    rintro ⟨j, u⟩ hb
    rcases Fifo.mem_insert hb with ⟨rfl, rfl⟩ | ⟨hne, hb⟩
    · simp [lastValue]
    · have hold := hf.values _ hb
      simpa [lastValue, Ne.symm hne] using hold

theorem Fifo.Follows.lookup (hf : Fifo.Follows cap q h) (k : K) :
    Fifo.lookup q k = historyLookup cap h k := by
  unfold historyLookup
  split
  · rename_i hk
    obtain ⟨b, hb, rfl⟩ := List.mem_map.mp (hf.mem_keys.mpr hk)
    rw [hf.values b hb]
    exact (Fifo.lookup_eq_some_iff hf.ok.nodup).mpr hb
  · rename_i hk
    exact Fifo.lookup_eq_none_iff.mpr fun hm => hk (hf.mem_keys.mp hm)

/-- **The list of bindings implements the history.** -/
theorem Fifo.simulates (hcap : 0 < cap) (p : K → Prop) :
    CacheImpl.Simulates p (Fifo.impl (V := V) cap) (history cap) (Fifo.Follows cap) where
  empty := ⟨by simp [Fifo.impl, history, births], by simp [Fifo.impl], by simp [Fifo.impl],
    Nat.zero_le _⟩
  insert _ _ k v _ hf := hf.insert hcap k v
  lookup _ _ k _ hf := hf.lookup k
  clear _ _ _ := ⟨by simp [Fifo.impl, history, births], by simp [Fifo.impl], by simp [Fifo.impl],
    Nat.zero_le _⟩

end

end Osvcp
