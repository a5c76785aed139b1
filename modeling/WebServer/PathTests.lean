import WebServer.StaticFiles

/-!
# The tests of the path check

`SafePath` is a list of tests on one normal form of the path, and a path that fails one of them
is answered by the empty string. What passes the last two resolves to a place in the directory.
-/

namespace WebServer

/-! ## Substrings -/

theorem find_zero_prefix {pat s : Str} (h : find pat s = some 0) : pat <+: s := by
  cases s with
  | nil =>
    by_cases hpat : pat = []
    · exact hpat ▸ List.nil_prefix
    · simp [find, hpat] at h
  | cons b s =>
    by_cases hpat : pat.isPrefixOf (b :: s) = true
    · exact List.isPrefixOf_iff_prefix.mp hpat
    · simp [find, hpat] at h

theorem find_append (pat rest : Str) : find pat (pat ++ rest) = some 0 := by
  cases hs : pat ++ rest with
  | nil =>
    obtain ⟨rfl, -⟩ := List.append_eq_nil_iff.mp hs
    rfl
  | cons b s =>
    have hprefix : pat.isPrefixOf (b :: s) = true :=
      List.isPrefixOf_iff_prefix.mpr (hs ▸ List.prefix_append pat rest)
    rw [find, if_pos hprefix]

namespace PathUtil

variable {fs : FileSystem} {dir path : Str}

/-! ## Resolved names -/

theorem getAbsolutePath_some (h : getAbsolutePath fs path ≠ []) :
    fs.realpath (cStr path) = some (getAbsolutePath fs path) := by
  unfold getAbsolutePath at h ⊢
  cases hreal : fs.realpath (cStr path) with
  | none => exact absurd (by rw [hreal]; rfl) h
  | some name => rfl

theorem getAbsolutePath_eq {name : Str} (h : fs.realpath (cStr path) = some name) :
    getAbsolutePath fs path = name := by
  rw [getAbsolutePath, h, Option.getD_some]

theorem normalizePath_head (path : Str) : (normalizePath path).head? = some slash := by
  simp only [normalizePath]
  generalize (path.splitOn slash).foldl pushComponent [] = components
  cases components with
  | nil => rfl
  | cons comp rest => rfl

/-! ## The tests -/

/-- The path as `SafePath` tests it. -/
def normalOf (path : Str) : Str := normalizePath (urlDecode path)

/-- The tests that a path must pass. -/
structure Passes (fs : FileSystem) (dir path : Str) : Prop where
  raw : 0 ∉ path
  decoded : 0 ∉ urlDecode path
  dots : ¬contains (normalOf path) [dot, dot]
  resolved : getAbsolutePath fs dir ≠ []
  found : getAbsolutePath fs (dir ++ normalOf path) ≠ []
  starts : find (getAbsolutePath fs dir) (getAbsolutePath fs (dir ++ normalOf path)) = some 0
  boundary : ¬((getAbsolutePath fs dir).length < (getAbsolutePath fs (dir ++ normalOf path)).length ∧
    (getAbsolutePath fs (dir ++ normalOf path))[(getAbsolutePath fs dir).length]? ≠ some slash)

/-- The slash that `SafePath` may put in front is always there already. -/
theorem safePath_tests (fs : FileSystem) (dir path : Str) : safePath fs dir path =
    if 0 ∈ path then [] else if 0 ∈ urlDecode path then []
    else if contains (normalOf path) [dot, dot] then []
    else if getAbsolutePath fs dir = [] then []
    else if getAbsolutePath fs (dir ++ normalOf path) = [] then []
    else if find (getAbsolutePath fs dir) (getAbsolutePath fs (dir ++ normalOf path)) ≠ some 0
      then []
    else if (getAbsolutePath fs dir).length < (getAbsolutePath fs (dir ++ normalOf path)).length ∧
        (getAbsolutePath fs (dir ++ normalOf path))[(getAbsolutePath fs dir).length]? ≠ some slash
      then []
    else normalOf path := by
  have hhead : (normalizePath (urlDecode path)).head? = some slash :=
    normalizePath_head (urlDecode path)
  simp only [safePath, if_pos hhead]
  rfl

theorem safePath_of_passes (h : Passes fs dir path) : safePath fs dir path = normalOf path := by
  rw [safePath_tests, if_neg h.raw, if_neg h.decoded, if_neg h.dots, if_neg h.resolved,
    if_neg h.found, if_neg (not_not.mpr h.starts), if_neg h.boundary]

theorem passes_of_safePath (h : safePath fs dir path ≠ []) : Passes fs dir path := by
  rw [safePath_tests] at h
  split at h
  · exact absurd rfl h
  next raw =>
  split at h
  · exact absurd rfl h
  next decoded =>
  split at h
  · exact absurd rfl h
  next dots =>
  split at h
  · exact absurd rfl h
  next resolved =>
  split at h
  · exact absurd rfl h
  next found =>
  split at h
  · exact absurd rfl h
  next starts =>
  split at h
  · exact absurd rfl h
  next boundary =>
  exact ⟨raw, decoded, dots, resolved, found, not_not.mp starts, boundary⟩

/-- The resolved name is that of the directory, or goes on behind it with a slash. -/
theorem under_directory {root name : Str} (starts : find root name = some 0)
    (boundary : ¬(root.length < name.length ∧ name[root.length]? ≠ some slash)) :
    name = root ∨ root ++ [slash] <+: name := by
  obtain ⟨rest, rfl⟩ := find_zero_prefix starts
  cases rest with
  | nil => exact .inl (List.append_nil root)
  | cons b rest =>
    have hb : b = slash := by
      by_contra hne
      apply boundary
      simp [hne]
    refine .inr ⟨rest, ?_⟩
    simp [hb]

end PathUtil

end WebServer
