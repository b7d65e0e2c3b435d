import Mathlib.Data.Finmap
import Osvcp.Lib.FifoMap
import Osvcp.Servers.Cache

/-! # The file caches as bounded maps

The C servers keep their cache in an array, the Rust servers in a hash map with a separate vector
for the order of insertion. Both behave as `history` says: a response stays until it is cleared or
until `MAX_CACHE_ENTRIES` other keys have become present after its own.
-/

namespace Osvcp.Servers

/-! ## The Rust caches -/

/-- `FileCache` of the `select` server and `FileCacheInner` of the Tokio server, which are the same:
the responses by key, and the keys in the order of insertion. -/
structure FileCache (K V : Type*) where
  entries : Finmap fun _ : K => V
  order : List K

namespace FileCache

variable {K V : Type*}

/-- `FileCache::new`. -/
def new : FileCache K V := ⟨∅, []⟩

/-- `FileCache::clear`. -/
def clear (_ : FileCache K V) : FileCache K V := ⟨∅, []⟩

variable [DecidableEq K]

/-- `FileCache::get`. -/
def get (c : FileCache K V) (key : K) : Option V := c.entries.lookup key

/-- The eviction of `FileCache::insert`: a full map loses its oldest entry. -/
def makeRoom (c : FileCache K V) : FileCache K V :=
  if MAX_CACHE_ENTRIES ≤ c.entries.keys.card then
    match c.order with
    | [] => c
    | oldest :: order => ⟨c.entries.erase oldest, order⟩
  else c

/-- `FileCache::insert`: update in place without changing the order, or make room and append. -/
def insert (c : FileCache K V) (key : K) (resp : V) : FileCache K V :=
  if key ∈ c.entries then { c with entries := c.entries.insert key resp }
  else ⟨c.makeRoom.entries.insert key resp, c.makeRoom.order ++ [key]⟩

/-- The cache as an implementation. -/
def impl : CacheImpl (FileCache K V) K V := ⟨new, insert, get, clear⟩

/-- The entries after an insertion. -/
theorem get_insert {c : FileCache K V} {k j : K} {v u : V}
    (h : (c.insert k v).get j = some u) : c.get j = some u ∨ j = k ∧ u = v := by
  have hroom : ∀ u, c.makeRoom.get j = some u → c.get j = some u := by
    intro u hu
    unfold makeRoom at hu
    split at hu
    · split at hu
      · exact hu
      · rename_i oldest order _
        by_cases hj : j = oldest
        · subst hj
          exact absurd ((Finmap.lookup_erase j c.entries).symm.trans hu) nofun
        · exact (Finmap.lookup_erase_ne hj).symm.trans hu
    · exact hu
  by_cases hj : j = k
  · subst hj
    unfold insert at h
    split at h
    · exact .inr ⟨rfl, Option.some_inj.mp (h.symm.trans (Finmap.lookup_insert c.entries))⟩
    · exact .inr ⟨rfl, Option.some_inj.mp (h.symm.trans (Finmap.lookup_insert c.makeRoom.entries))⟩
  · unfold insert at h
    split at h
    · exact .inl ((Finmap.lookup_insert_of_ne c.entries hj).symm.trans h)
    · exact .inl (hroom u ((Finmap.lookup_insert_of_ne c.makeRoom.entries hj).symm.trans h))

/-- The map and the order are those of a list of bindings. -/
structure Represents (c : FileCache K V) (q : List (K × V)) : Prop where
  order : c.order = q.map Prod.fst
  get : ∀ k, c.get k = Fifo.lookup q k
  ok : Fifo.Ok MAX_CACHE_ENTRIES q

section

variable {c : FileCache K V} {q : List (K × V)}

theorem Represents.mem_entries (h : c.Represents q) {k : K} :
    k ∈ c.entries ↔ k ∈ q.map Prod.fst := by
  rw [← not_iff_not, ← Finmap.lookup_eq_none, ← Fifo.lookup_eq_none_iff, ← h.get]
  rfl

theorem Represents.card (h : c.Represents q) : c.entries.keys.card = q.length := by
  have hkeys : c.entries.keys = (q.map Prod.fst).toFinset := by
    ext k
    rw [Finmap.mem_keys, h.mem_entries, List.mem_toFinset]
  rw [hkeys, List.toFinset_card_of_nodup h.ok.nodup, List.length_map]

theorem Represents.makeRoom (h : c.Represents q) :
    c.makeRoom.Represents (if q.length = MAX_CACHE_ENTRIES then q.drop 1 else q) := by
  have hle := h.ok.length_le
  rw [FileCache.makeRoom, h.card]
  by_cases hfull : q.length = MAX_CACHE_ENTRIES
  · rw [if_pos hfull.ge, if_pos hfull]
    cases q with
    | nil => cases hfull
    | cons b q =>
        obtain ⟨hnew, hnodup⟩ := List.nodup_cons.mp h.ok.nodup
        rw [h.order, List.map_cons]
        refine ⟨rfl, fun j => ?_, hnodup, Nat.le_of_succ_le hle⟩
        by_cases hj : j = b.1
        · subst hj
          rw [List.drop_one, List.tail_cons, Fifo.lookup_eq_none_iff.mpr hnew]
          exact Finmap.lookup_erase b.1 c.entries
        · have hget := h.get j
          rw [Fifo.lookup_cons_of_ne (Ne.symm hj)] at hget
          exact (Finmap.lookup_erase_ne hj).trans hget
  · rw [if_neg (by omega), if_neg hfull]
    exact h

theorem Represents.insert (h : c.Represents q) (k : K) (v : V) :
    (c.insert k v).Represents (Fifo.insert MAX_CACHE_ENTRIES q k v) := by
  have hok := Fifo.insert_ok (by decide) h.ok k v
  have hself := Fifo.lookup_insert_self (by decide) h.ok k v
  by_cases hk : k ∈ q.map Prod.fst
  · rw [FileCache.insert, if_pos (h.mem_entries.mpr hk)]
    refine ⟨by rw [Fifo.keys_insert_of_mem hk]; exact h.order, fun j => ?_, hok⟩
    by_cases hj : j = k
    · rw [hj, hself]
      exact Finmap.lookup_insert c.entries
    · rw [Fifo.lookup_insert_of_mem hk hj, ← h.get]
      exact Finmap.lookup_insert_of_ne c.entries hj
  · have hroom := h.makeRoom
    rw [FileCache.insert, if_neg fun hm => hk (h.mem_entries.mp hm)]
    refine ⟨?_, fun j => ?_, hok⟩
    · rw [Fifo.keys_insert_of_not_mem hk, hroom.order]
      split
      · rw [List.map_drop]
      · rfl
    · by_cases hj : j = k
      · rw [hj, hself]
        exact Finmap.lookup_insert c.makeRoom.entries
      · rw [Fifo.lookup_insert_of_not_mem hk hj, ← hroom.get]
        exact Finmap.lookup_insert_of_ne c.makeRoom.entries hj

end

/-- **The Rust caches are lists of bindings.** -/
theorem simulates (p : K → Prop) :
    CacheImpl.Simulates p (impl (K := K) (V := V)) (Fifo.impl MAX_CACHE_ENTRIES) Represents where
  empty := ⟨rfl, fun _ => rfl, List.nodup_nil, Nat.zero_le _⟩
  insert _ _ k v _ h := h.insert k v
  lookup _ _ k _ h := h.get k
  clear _ _ _ := ⟨rfl, fun _ => rfl, List.nodup_nil, Nat.zero_le _⟩

end FileCache

/-! ## The array of the C servers -/

section

variable {K : Type*} [DecidableEq K] (name : K → List Byte)

/-- The array cache of `file-server.c` and `aio-file-server.c`, with keys that are named by C
strings. -/
def arrayCache : CacheImpl (List CacheEntry) K (List Cell) where
  empty := []
  insert cache k resp := cacheInsert cache (name k) resp
  lookup cache k := (cacheLookup cache (name k)).map CacheEntry.resp
  clear _ := []

/-- The entry of a binding. -/
def CacheEntry.ofBinding (b : K × List Cell) : CacheEntry := ⟨name b.1, b.2⟩

/-- Keys that fit the key buffer. -/
def KeyFits (k : K) : Prop := (name k).length < PATH_MAX

instance : DecidablePred (KeyFits name) :=
  fun k => inferInstanceAs (Decidable ((name k).length < PATH_MAX))

/-- The entries are those of a list of bindings. -/
structure IsArrayOf (cache : List CacheEntry) (q : List (K × List Cell)) : Prop where
  entries : cache = q.map (CacheEntry.ofBinding name)
  ok : Fifo.Ok MAX_CACHE_ENTRIES q

variable {name} {q : List (K × List Cell)} {k : K}

/-- An update at the position of a key is one wherever the key is. -/
theorem modify_findIdx? {f : K × List Cell → K × List Cell} {i : ℕ} (h : (q.map Prod.fst).Nodup)
    (hi : q.findIdx? (·.1 = k) = some i) :
    q.modify i f = q.map fun b => if b.1 = k then f b else b := by
  obtain ⟨hlt, hkey, -⟩ := List.findIdx?_eq_some_iff_getElem.mp hi
  apply List.ext_getElem?
  intro j
  rw [List.getElem?_modify, List.getElem?_map]
  cases hj : q[j]? with
  | none => simp
  | some b =>
      have hiff : i = j ↔ b.1 = k := by
        obtain ⟨hjlt, rfl⟩ := List.getElem?_eq_some_iff.mp hj
        have hki : q[i].1 = k := by simpa using hkey
        constructor
        · rintro rfl
          exact hki
        · intro hkj
          -- two positions with the same key would be a duplicate
          have hkeys : (q.map Prod.fst)[i]? = (q.map Prod.fst)[j]? := by
            rw [List.getElem?_map, List.getElem?_map, List.getElem?_eq_getElem hlt,
              List.getElem?_eq_getElem hjlt]
            exact congrArg some (hki.trans hkj.symm)
          exact (List.getElem?_inj (by simpa using hlt) h).mp hkeys
      by_cases hij : i = j
      · simp [hij, hiff.mp hij]
      · simp [hij, mt hiff.mpr hij]

/-- Entries are found by their names where bindings are found by their keys. -/
theorem key_ofBinding (hname : Function.Injective name) (k : K) :
    (fun e : CacheEntry => e.key == name k) ∘ CacheEntry.ofBinding name = fun b =>
      decide (b.1 = k) := by
  funext b
  rw [Bool.eq_iff_iff, Function.comp_apply, beq_iff_eq, decide_eq_true_iff]
  exact hname.eq_iff

theorem IsArrayOf.lookup {cache : List CacheEntry} (hname : Function.Injective name)
    (h : IsArrayOf name cache q) (k : K) :
    (cacheLookup cache (name k)).map CacheEntry.resp = Fifo.lookup q k := by
  rw [h.entries, cacheLookup, List.find?_map, key_ofBinding hname, Fifo.lookup, Option.map_map]
  rfl

theorem IsArrayOf.insert {cache : List CacheEntry} (hname : Function.Injective name)
    (h : IsArrayOf name cache q) (hk : KeyFits name k) (resp : List Cell) :
    IsArrayOf name (cacheInsert cache (name k) resp) (Fifo.insert MAX_CACHE_ENTRIES q k resp) := by
  refine ⟨?_, Fifo.insert_ok (by decide) h.ok k resp⟩
  rw [cacheInsert, h.entries, List.findIdx?_map, key_ofBinding hname]
  cases hi : q.findIdx? (·.1 = k) with
  | some i =>
      have hmem : k ∈ q.map Prod.fst := by
        obtain ⟨hlt, hkey, -⟩ := List.findIdx?_eq_some_iff_getElem.mp hi
        exact List.mem_map.mpr ⟨q[i], List.getElem_mem hlt, by simpa using hkey⟩
      rw [Fifo.insert, if_pos hmem]
      have hmodify := modify_findIdx? (f := fun _ => (k, resp)) h.ok.nodup hi
      simp only at hmodify ⊢
      rw [← hmodify]
      apply List.ext_getElem?
      intro j
      simp only [List.getElem?_modify, List.getElem?_map]
      obtain ⟨hlt, hkey, -⟩ := List.findIdx?_eq_some_iff_getElem.mp hi
      by_cases hij : i = j
      · subst hij
        have hki : q[i].1 = k := by simpa using hkey
        simp [List.getElem?_eq_getElem hlt, CacheEntry.ofBinding, hki]
      · simp [hij]
  | none =>
      have hmem : k ∉ q.map Prod.fst := by
        intro hm
        obtain ⟨b, hb, rfl⟩ := List.mem_map.mp hm
        have := List.findIdx?_eq_none_iff.mp hi b hb
        simp at this
      have hcut : strncpyPath (name k) = name k :=
        List.take_of_length_le (Nat.le_sub_one_of_lt hk)
      rw [Fifo.insert, if_neg hmem, List.length_map, hcut, List.map_append,
        apply_ite (List.map (CacheEntry.ofBinding name)), List.map_drop]
      rfl

/-- **The C caches are lists of bindings.** -/
theorem arrayCache_simulates (hname : Function.Injective name) :
    CacheImpl.Simulates (KeyFits name) (arrayCache name) (Fifo.impl MAX_CACHE_ENTRIES)
      (IsArrayOf name) where
  empty := ⟨rfl, List.nodup_nil, Nat.zero_le _⟩
  insert _ _ _ v hk h := h.insert hname hk v
  lookup _ _ k _ h := h.lookup hname k
  clear _ _ _ := ⟨rfl, List.nodup_nil, Nat.zero_le _⟩

/-! ## Both as one map -/

/-- **The caches are one bounded map.** After any operations on keys that fit the key buffer, the
lookups in the array of the C servers and in the map of the Rust servers give what `history` reads
off the operations; the keys of the array are distinct, and the order of the Rust caches has no
duplicates and lists the keys of the map. -/
theorem caches_agree (hname : Function.Injective name) {ops : List (CacheOp K (List Cell))}
    (hops : ∀ op ∈ ops, op.Keys (KeyFits name)) :
    ((arrayCache name).results ops = (history MAX_CACHE_ENTRIES).results ops ∧
      FileCache.impl.results ops = (history MAX_CACHE_ENTRIES).results ops) ∧
    ((((arrayCache name).run ops).map CacheEntry.key).Nodup ∧
      ((arrayCache name).run ops).length ≤ MAX_CACHE_ENTRIES) ∧
    (FileCache.impl.run ops).order.Nodup ∧
      (∀ k, k ∈ (FileCache.impl.run ops).order ↔ k ∈ (FileCache.impl.run ops).entries) ∧
      (FileCache.impl.run ops).entries.keys.card ≤ MAX_CACHE_ENTRIES := by
  have hfifo : CacheImpl.Simulates (KeyFits name) (Fifo.impl (V := List Cell) MAX_CACHE_ENTRIES)
      (history MAX_CACHE_ENTRIES) (Fifo.Follows MAX_CACHE_ENTRIES) := Fifo.simulates (by decide) _
  have harray := arrayCache_simulates hname
  have hmap := FileCache.simulates (V := List Cell) (KeyFits name)
  obtain ⟨hentries, hok⟩ := harray.run hops
  have hrust := hmap.run hops
  refine ⟨⟨?_, ?_⟩, ⟨?_, ?_⟩, ?_, ?_, ?_⟩
  · exact (harray.results hops).trans (hfifo.results hops)
  · exact (hmap.results hops).trans (hfifo.results hops)
  · rw [hentries, List.map_map]
    have hkeys : CacheEntry.key ∘ CacheEntry.ofBinding name = name ∘ Prod.fst := rfl
    rw [hkeys, ← List.map_map]
    exact hok.nodup.map hname
  · rw [hentries, List.length_map]
    exact hok.length_le
  · rw [hrust.order]
    exact hrust.ok.nodup
  · intro k
    rw [hrust.order, hrust.mem_entries]
  · rw [hrust.card]
    exact hrust.ok.length_le

end

namespace FileCache.Example

/-- The canonical path with one component of one letter. -/
def letter (i : Fin 26) : CanonPath where
  comps := [[97 + UInt8.ofNat i]]
  valid := by
    revert i
    decide

/-- One more file than the cache has entries, an update of the second one, and lookups of the first
three. -/
def requests : List (CacheOp CanonPath (List Cell)) :=
  ([0, 1, 2, 3, 4, 5, 6, 7, 8, 9, 10, 11, 12, 13, 14, 15].map
    fun i => .insert (letter i) (okHeader i)) ++
    [.insert (letter 1) [], .insert (letter 16) [], .lookup (letter 0), .lookup (letter 1),
      .lookup (letter 2)]

end FileCache.Example

/-- The file that was first is evicted, and an update does not make a file younger. -/
theorem caches_agree_requests :
    (arrayCache CanonPath.bytes).results FileCache.Example.requests =
        [none, some [], some (okHeader 2)] ∧
      FileCache.impl.results FileCache.Example.requests = [none, some [], some (okHeader 2)] := by
  have hops : ∀ op ∈ FileCache.Example.requests, op.Keys (KeyFits CanonPath.bytes) := by
    decide +kernel
  obtain ⟨⟨harray, hmap⟩, -⟩ := caches_agree CanonPath.bytes_injective hops
  have hhistory : (history MAX_CACHE_ENTRIES).results FileCache.Example.requests =
      [none, some [], some (okHeader 2)] := by
    decide +kernel
  exact ⟨harray.trans hhistory, hmap.trans hhistory⟩

end Osvcp.Servers
