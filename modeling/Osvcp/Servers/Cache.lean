import Osvcp.Servers.DocRoot
import Osvcp.Servers.Wire

/-! # The file cache of the C servers

An array of at most `MAX_CACHE_ENTRIES` entries in the order of insertion; the list models its used
part. A key is stored cut off at the size of the key buffer.
-/

namespace Osvcp.Servers

/-- The number of cache entries. -/
def MAX_CACHE_ENTRIES : ℕ := 16

/-- The largest file that is cached. -/
def MAX_CACHE_FILE_SIZE : ℕ := 64 * 1024

/-- A cached response. -/
structure CacheEntry where
  key : List Byte
  resp : List Cell
  deriving DecidableEq

/-- `strncpy` into a buffer of `PATH_MAX` bytes, with the NUL that is stored behind it. -/
def strncpyPath (path : List Byte) : List Byte := path.take (PATH_MAX - 1)

theorem strncpyPath_idem (path : List Byte) :
    strncpyPath (strncpyPath path) = strncpyPath path := by
  rw [strncpyPath, strncpyPath, List.take_take, Nat.min_self]

/-- `cache_lookup`. -/
def cacheLookup (cache : List CacheEntry) (key : List Byte) : Option CacheEntry :=
  cache.find? (·.key == key)

/-- `cache_insert`: replace the response of an entry with this key, or evict the oldest entry when
the array is full and append. -/
def cacheInsert (cache : List CacheEntry) (key : List Byte) (resp : List Cell) : List CacheEntry :=
  match cache.findIdx? (·.key == key) with
  | some i => cache.modify i fun e => { e with resp := resp }
  | none =>
      (if cache.length = MAX_CACHE_ENTRIES then cache.drop 1 else cache) ++
        [⟨strncpyPath key, resp⟩]

theorem mem_of_cacheLookup {cache : List CacheEntry} {key : List Byte} {e : CacheEntry}
    (h : cacheLookup cache key = some e) : e ∈ cache ∧ e.key = key := by
  refine ⟨List.mem_of_find?_eq_some h, ?_⟩
  have := List.find?_some h
  simpa using this

theorem mem_modify {α : Type*} {l : List α} {i : ℕ} {f : α → α} {a : α} (h : a ∈ l.modify i f) :
    a ∈ l ∨ ∃ b, l[i]? = some b ∧ a = f b := by
  obtain ⟨j, hj⟩ := List.mem_iff_getElem?.mp h
  rw [List.getElem?_modify] at hj
  split at hj
  · rename_i hij
    subst hij
    obtain ⟨b, hb, rfl⟩ := Option.map_eq_some_iff.mp hj
    exact .inr ⟨b, hb, rfl⟩
  · have hj : l[j]? = some a := by simpa using hj
    exact .inl (List.mem_iff_getElem?.mpr ⟨j, hj⟩)

/-- **What is in the cache** after an insertion was there before, or is the new response under its
own or its cut-off key. -/
theorem mem_cacheInsert {cache : List CacheEntry} {key : List Byte} {resp : List Cell}
    {e : CacheEntry} (h : e ∈ cacheInsert cache key resp) :
    e ∈ cache ∨ e.resp = resp ∧
    (e.key = key ∧ (∃ d ∈ cache, d.key = key) ∨ e.key = strncpyPath key) := by
  unfold cacheInsert at h
  split at h
  · rename_i i hi
    rcases mem_modify h with hold | ⟨b, hb, rfl⟩
    · exact .inl hold
    · obtain ⟨hlt, hkey, -⟩ := List.findIdx?_eq_some_iff_getElem.mp hi
      rw [List.getElem?_eq_getElem hlt, Option.some_inj] at hb
      have hbkey : b.key = key := by simpa [hb] using hkey
      exact .inr ⟨rfl, .inl ⟨hbkey, b, hb ▸ List.getElem_mem hlt, hbkey⟩⟩
  · rcases List.mem_append.mp h with hold | hnew
    · split at hold
      · exact .inl (List.mem_of_mem_drop hold)
      · exact .inl hold
    · rw [List.mem_singleton] at hnew
      subst hnew
      exact .inr ⟨rfl, .inr rfl⟩

/-! ## Complete responses -/

/-- A complete response for the file with this key, with the data of a read of the file: `D` says
which data that may be. -/
def Whole (D : List Byte → List Byte → Prop) (key : List Byte) (cells : List Cell) : Prop :=
  ∃ path flushes data, strncpyPath path = key ∧ D path data ∧
    cells = okHeader data.length ++ fileCells ⟨path, flushes⟩ data

variable {D : List Byte → List Byte → Prop}

/-- A key of a complete response is not cut off any further. -/
theorem Whole.strncpyPath_eq {key : List Byte} {cells : List Cell} (h : Whole D key cells) :
    strncpyPath key = key := by
  obtain ⟨path, flushes, data, rfl, -, -⟩ := h
  exact strncpyPath_idem path

/-- A cache of complete responses stays one. -/
theorem whole_of_mem_cacheInsert {cache : List CacheEntry}
    (hcache : ∀ e ∈ cache, Whole D e.key e.resp) {key : List Byte} {resp : List Cell}
    (hresp : Whole D (strncpyPath key) resp) {e : CacheEntry}
    (he : e ∈ cacheInsert cache key resp) :
    Whole D e.key e.resp := by
  rcases mem_cacheInsert he with hold | ⟨rfl, ⟨rfl, d, hd, hkey⟩ | hkey⟩
  · exact hcache e hold
  · have hcut := (hcache d hd).strncpyPath_eq
    rw [hkey] at hcut
    rwa [hcut] at hresp
  · rw [hkey]
    exact hresp

end Osvcp.Servers
