import Osvcp.Lib.Lines

/-! # Path names

A path is a byte string; its components are the non-empty pieces between slashes. A canonical
absolute path, as `realpath` returns it, is given by its components: no empty, `.` or `..`
component, no slash or NUL in one. `components_render` reads the components back from the bytes.
-/

namespace Osvcp

/-- The separator of path components. -/
def SLASH : Byte := 47

/-- The components of a path: what stands between the slashes, without empty pieces. -/
def components (path : List Byte) : List (List Byte) := (path.splitOn SLASH).filter (· ≠ [])

theorem components_nil : components [] = [] := by
  simp [components]

theorem components_append_slash (a b : List Byte) :
    components (a ++ SLASH :: b) = components a ++ components b := by
  rw [components, List.splitOn_append_cons_self, List.filter_append]
  rfl

theorem components_of_not_mem {c : List Byte} (hne : c ≠ []) (h : SLASH ∉ c) :
    components c = [c] := by
  rw [components, List.splitOn_eq_singleton h]
  simp [hne]

/-- A component of a canonical path. -/
structure IsComponent (c : List Byte) : Prop where
  ne_nil : c ≠ []
  no_slash : SLASH ∉ c
  no_nul : NUL ∉ c
  ne_dot : c ≠ [46]
  ne_dotdot : c ≠ [46, 46]

instance (c : List Byte) : Decidable (IsComponent c) :=
  decidable_of_iff (c ≠ [] ∧ SLASH ∉ c ∧ NUL ∉ c ∧ c ≠ [46] ∧ c ≠ [46, 46])
    ⟨fun ⟨h1, h2, h3, h4, h5⟩ => ⟨h1, h2, h3, h4, h5⟩,
      fun ⟨h1, h2, h3, h4, h5⟩ => ⟨h1, h2, h3, h4, h5⟩⟩

/-- A canonical absolute path. -/
structure CanonPath where
  comps : List (List Byte)
  valid : ∀ c ∈ comps, IsComponent c

namespace CanonPath

/-- The bytes of a path: a slash before each component, and one slash for the root. -/
def render : List (List Byte) → List Byte
  | [] => [SLASH]
  | c :: cs => (c :: cs).flatMap (SLASH :: ·)

/-- The path as a C string. -/
def bytes (p : CanonPath) : List Byte := render p.comps

theorem components_flatMap {cs : List (List Byte)} (h : ∀ c ∈ cs, IsComponent c) :
    components (cs.flatMap (SLASH :: ·)) = cs := by
  induction cs with
  | nil => exact components_nil
  | cons c cs ih =>
      have hc := h c (by simp)
      have hcs := ih fun d hd => h d (by simp [hd])
      have hsplit : components ([] ++ SLASH :: (c ++ cs.flatMap (SLASH :: ·))) = c :: cs := by
        rw [components_append_slash, components_nil, List.nil_append]
        cases cs with
        | nil => rw [List.flatMap_nil, List.append_nil, components_of_not_mem hc.ne_nil hc.no_slash]
        | cons d ds =>
            rw [List.flatMap_cons, List.cons_append] at hcs ⊢
            have htail : components (d ++ ds.flatMap (SLASH :: ·)) = d :: ds := by
              have := components_append_slash [] (d ++ ds.flatMap (SLASH :: ·))
              rwa [List.nil_append, hcs, components_nil, List.nil_append, eq_comm] at this
            rw [components_append_slash, htail, components_of_not_mem hc.ne_nil hc.no_slash]
            rfl
      rw [List.flatMap_cons]
      exact hsplit

/-- The components of a canonical path are the ones it was made of. -/
theorem components_bytes (p : CanonPath) : components p.bytes = p.comps := by
  unfold bytes
  cases hc : p.comps with
  | nil => decide
  | cons c cs =>
      rw [render, components_flatMap]
      rw [← hc]
      exact p.valid

theorem ext_comps {p q : CanonPath} (h : p.comps = q.comps) : p = q := by
  cases p
  cases q
  cases h
  rfl

/-- Canonical paths differ if their bytes do. -/
theorem bytes_injective : Function.Injective bytes := by
  intro p q h
  apply ext_comps
  rw [← p.components_bytes, h, q.components_bytes]

instance : DecidableEq CanonPath := fun p q =>
  decidable_of_iff (p.comps = q.comps) ⟨ext_comps, fun h => h ▸ rfl⟩

end CanonPath

end Osvcp
