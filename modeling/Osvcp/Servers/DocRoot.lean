import Osvcp.Lib.Path

/-! # The document root

Both C file servers append the requested name to the document root, let `realpath` resolve it, and
accept the result if it starts with the bytes of the root and goes on with a slash or ends there.
`inside_of_accessOk` says what this byte-level test guarantees: the components of the root are a
prefix of the components of the path.
-/

namespace Osvcp.Servers

/-- The size of the path buffers. -/
def PATH_MAX : ℕ := 4096

/-- The document root: a canonical path that fits its buffer. -/
structure DocRoot where
  path : CanonPath
  fits : path.bytes.length < PATH_MAX

namespace DocRoot

/-- The root as a C string. -/
def bytes (root : DocRoot) : List Byte := root.path.bytes

/-- What `snprintf` builds for `realpath` to resolve. -/
def candidate (root : DocRoot) (filename : List Byte) : List Byte :=
  (root.bytes ++ SLASH :: filename).take (2 * PATH_MAX - 1)

/-- The access check on a resolved path: `strncmp` over the length of the root, and the byte behind
it is a slash or the end of the string. -/
def accessOk (root : DocRoot) (resolved : List Byte) : Bool :=
  resolved.take root.bytes.length == root.bytes &&
    (resolved[root.bytes.length]? == some SLASH || resolved[root.bytes.length]? == none)

/-- The path lies at or below the root: the components of the root are a prefix of its
components. -/
def Inside (root : DocRoot) (path : List Byte) : Prop := root.path.comps <+: components path

/-- The byte-level form of the check. -/
theorem accessOk_iff {root : DocRoot} {resolved : List Byte} :
    root.accessOk resolved = true ↔
      resolved = root.bytes ∨ ∃ rest, resolved = root.bytes ++ SLASH :: rest := by
  rw [accessOk, Bool.and_eq_true, Bool.or_eq_true, beq_iff_eq, beq_iff_eq, beq_iff_eq]
  constructor
  · rintro ⟨htake, hnext⟩
    have hsplit := List.take_append_drop root.bytes.length resolved
    rw [htake] at hsplit
    cases hd : resolved.drop root.bytes.length with
    | nil =>
        rw [hd, List.append_nil] at hsplit
        exact .inl hsplit.symm
    | cons b rest =>
        rw [hd] at hsplit
        -- the character the source looks at is the first one behind the prefix
        have hb : resolved[root.bytes.length]? = some b := by
          rw [← hsplit]
          simp
        rw [hb] at hnext
        rcases hnext with hb' | hb'
        · cases hb'
          exact .inr ⟨rest, hsplit.symm⟩
        · cases hb'
  · rintro (rfl | ⟨rest, rfl⟩)
    · simp
    · simp

/-- What starts with the root and a slash lies inside it. -/
theorem inside_append (root : DocRoot) (rest : List Byte) :
    root.Inside (root.bytes ++ SLASH :: rest) := by
  rw [Inside, components_append_slash, bytes, CanonPath.components_bytes]
  exact List.prefix_append _ _

theorem inside_self (root : DocRoot) : root.Inside root.bytes := by
  simp [Inside, bytes, CanonPath.components_bytes]

/-- **The access check is sound**: what it accepts lies inside the root. -/
theorem inside_of_accessOk {root : DocRoot} {resolved : List Byte}
    (h : root.accessOk resolved = true) : root.Inside resolved := by
  rcases accessOk_iff.mp h with rfl | ⟨rest, rfl⟩
  · exact root.inside_self
  · exact root.inside_append rest

/-- **The access check is complete** below any root but `/`. -/
theorem accessOk_of_inside {root : DocRoot} (hroot : root.path.comps ≠ []) {path : CanonPath}
    (h : root.Inside path.bytes) : root.accessOk path.bytes = true := by
  rw [Inside, CanonPath.components_bytes] at h
  obtain ⟨rest, hrest⟩ := h
  rw [accessOk_iff, bytes, CanonPath.bytes, CanonPath.bytes, ← hrest]
  cases hc : root.path.comps with
  | nil => exact absurd hc hroot
  | cons c cs =>
      cases rest with
      | nil => exact .inl (by rw [List.append_nil])
      | cons b bs =>
          refine .inr ⟨b ++ bs.flatMap (SLASH :: ·), ?_⟩
          rw [List.cons_append, CanonPath.render, CanonPath.render, ← List.cons_append,
            List.flatMap_append, List.flatMap_cons]
          rfl

/-- A copy cut off at the size of a path buffer still lies inside. -/
theorem inside_take {root : DocRoot} {resolved : List Byte} (h : root.accessOk resolved = true) :
    root.Inside (resolved.take (PATH_MAX - 1)) := by
  have hfits : root.bytes.length ≤ PATH_MAX - 1 := Nat.le_sub_one_of_lt root.fits
  rcases accessOk_iff.mp h with rfl | ⟨rest, rfl⟩
  · rw [List.take_of_length_le hfits]
    exact root.inside_self
  · rw [List.take_append, List.take_of_length_le hfits]
    cases hn : PATH_MAX - 1 - root.bytes.length with
    | zero =>
        rw [List.take_zero, List.append_nil]
        exact root.inside_self
    | succ n => exact root.inside_append (rest.take n)

namespace Example

/-- The document root `/r`. -/
def root : DocRoot := ⟨⟨[[114]], by decide⟩, by decide⟩

theorem isComponent_of_mem_nil : ∀ c ∈ ([] : List (List Byte)), IsComponent c :=
  fun _ h => absurd h List.not_mem_nil

theorem slash_fits : (CanonPath.mk [] isComponent_of_mem_nil).bytes.length < PATH_MAX := by decide

/-- The document root `/`. -/
def slash : DocRoot := ⟨⟨[], isComponent_of_mem_nil⟩, slash_fits⟩

/-- The file `/r/a`. -/
def path : CanonPath := ⟨[[114], [97]], by decide⟩

end Example

end DocRoot

end Osvcp.Servers
