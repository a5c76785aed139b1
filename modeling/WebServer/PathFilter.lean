import WebServer.PercentEncoding
import WebServer.PathTests

/-!
# The path filter

What `SafePath` lets through, and what of the files under the resource directory it lets
through. A path is a list of components, each behind a slash; a name that is reached without
links resolves to the resolved directory followed by the path.
-/

namespace WebServer

open PathUtil

/-! ## Substrings -/

theorem find_isSome_iff (pat s : Str) : (find pat s).isSome = true ↔ pat <:+: s := by
  induction s with
  | nil =>
    by_cases hpat : pat = []
    · simp [find, hpat]
    · simp [find, hpat]
  | cons b s ih =>
    rw [find, List.infix_cons_iff, ← ih]
    by_cases hstart : pat <+: b :: s
    · simp [List.isPrefixOf_iff_prefix.mpr hstart, hstart]
    · have hnot : ¬pat.isPrefixOf (b :: s) = true := mt List.isPrefixOf_iff_prefix.mp hstart
      simp [hnot, hstart]

theorem contains_iff (s pat : Str) : contains s pat = true ↔ pat <:+: s := find_isSome_iff pat s

/-- Two equal bytes in a row do not cross another byte. -/
theorem pair_infix_iff {d x : Byte} (hne : d ≠ x) (s t : Str) :
    [d, d] <:+: s ++ x :: t ↔ [d, d] <:+: s ∨ [d, d] <:+: t := by
  have htail : [d, d] <:+: x :: t ↔ [d, d] <:+: t := by
    rw [List.infix_cons_iff, List.cons_prefix_cons]
    simp [hne]
  rw [pair_infix_append_iff, htail]
  constructor
  · rintro (h | h | ⟨_, hnext⟩)
    · exact .inl h
    · exact .inr h
    · exact absurd (Option.some.inj hnext).symm hne
  · rintro (h | h)
    · exact .inl h
    · exact .inr (.inl h)

/-! ## Components -/

/-- A path of components, each behind a slash. -/
def joined (components : List Str) : Str := components.flatMap fun c => slash :: c

/-- Neither empty, nor one of the two names of directories, nor with a slash inside. -/
def IsComponent (c : Str) : Prop := c ≠ [] ∧ c ≠ [dot] ∧ c ≠ [dot, dot] ∧ slash ∉ c

instance (c : Str) : Decidable (IsComponent c) := inferInstanceAs (Decidable (_ ∧ _ ∧ _ ∧ _))

theorem normalizePath_eq (path : Str) : normalizePath path =
    if joined ((path.splitOn slash).foldl pushComponent []) = [] then [slash]
    else joined ((path.splitOn slash).foldl pushComponent []) := rfl

theorem mem_pushComponent {components : List Str} {piece c : Str}
    (h : c ∈ pushComponent components piece) :
    c ∈ components ∨ c = piece ∧ piece ≠ [] ∧ piece ≠ [dot] ∧ piece ≠ [dot, dot] := by
  unfold pushComponent at h
  split at h
  · exact .inl h
  · next hkeep =>
    split at h
    · exact .inl (List.mem_of_mem_dropLast h)
    · next hup =>
      rcases List.mem_append.mp h with h | h
      · exact .inl h
      · rw [not_or] at hkeep
        exact .inr ⟨List.mem_singleton.mp h, hkeep.1, hkeep.2, hup⟩

/-- What is left after the loop are pieces that name something. -/
theorem mem_components {pieces components : List Str} {c : Str}
    (h : c ∈ pieces.foldl pushComponent components) :
    c ∈ components ∨ c ∈ pieces ∧ c ≠ [] ∧ c ≠ [dot] ∧ c ≠ [dot, dot] := by
  induction pieces generalizing components with
  | nil => exact .inl h
  | cons piece pieces ih =>
    rcases ih h with h | ⟨h, hname⟩
    · rcases mem_pushComponent h with h | ⟨rfl, hname⟩
      · exact .inl h
      · exact .inr ⟨List.mem_cons_self, hname⟩
    · exact .inr ⟨List.mem_cons_of_mem _ h, hname⟩

/-- The pieces between separators have no separator, and only bytes of the string. -/
theorem mem_splitOn {x : Byte} {s piece : Str} (h : piece ∈ s.splitOn x) :
    x ∉ piece ∧ ∀ b ∈ piece, b ∈ s := by
  induction s generalizing piece with
  | nil =>
    obtain rfl : piece = [] := by simpa using h
    simp
  | cons a s ih =>
    rw [List.splitOn_cons_eq_if_modifyHead] at h
    by_cases ha : a = x
    · rw [if_pos (by simpa using ha)] at h
      rcases List.mem_cons.mp h with rfl | h
      · simp
      · obtain ⟨hfree, hbytes⟩ := ih h
        exact ⟨hfree, fun b hb => List.mem_cons_of_mem _ (hbytes b hb)⟩
    · rw [if_neg (by simpa using ha)] at h
      cases hsplit : s.splitOn x with
      | nil => exact absurd hsplit (List.splitOn_ne_nil x s)
      | cons first rest =>
        rw [hsplit, List.modifyHead_cons] at h
        rw [hsplit] at ih
        rcases List.mem_cons.mp h with rfl | h
        · obtain ⟨hfree, hbytes⟩ := ih List.mem_cons_self
          refine ⟨by simp [hfree, Ne.symm ha], ?_⟩
          intro b hb
          rcases List.mem_cons.mp hb with rfl | hb
          · exact List.mem_cons_self
          · exact List.mem_cons_of_mem _ (hbytes b hb)
        · obtain ⟨hfree, hbytes⟩ := ih (List.mem_cons_of_mem _ h)
          exact ⟨hfree, fun b hb => List.mem_cons_of_mem _ (hbytes b hb)⟩

/-- The normal form is the root, or components with bytes of the path. -/
theorem normalizePath_form (path : Str) : normalizePath path = [slash] ∨
    ∃ components, normalizePath path = joined components ∧
      ∀ c ∈ components, IsComponent c ∧ ∀ b ∈ c, b ∈ path := by
  rw [normalizePath_eq]
  split
  · exact .inl rfl
  · refine .inr ⟨_, rfl, ?_⟩
    intro c hc
    rcases mem_components hc with hnone | ⟨hpiece, hempty, hdot, hup⟩
    · cases hnone
    · obtain ⟨hslash, hbytes⟩ := mem_splitOn hpiece
      exact ⟨⟨hempty, hdot, hup, hslash⟩, hbytes⟩

theorem intercalate_joined (c : Str) (components : List Str) :
    [slash].intercalate (c :: components) = c ++ joined components := by
  induction components generalizing c with
  | nil => simp [joined]
  | cons c' rest ih => simp [joined, ih c']

theorem foldl_components {components pieces : List Str}
    (h : ∀ c ∈ pieces, c ≠ [] ∧ c ≠ [dot] ∧ c ≠ [dot, dot]) :
    pieces.foldl pushComponent components = components ++ pieces := by
  induction pieces generalizing components with
  | nil => simp
  | cons piece pieces ih =>
    obtain ⟨hempty, hdot, hup⟩ := h piece List.mem_cons_self
    have hpush : pushComponent components piece = components ++ [piece] := by
      simp [pushComponent, hempty, hdot, hup]
    rw [List.foldl_cons, hpush, ih (fun c hc => h c (List.mem_cons_of_mem _ hc))]
    simp

/-- A path of components is its own normal form. -/
theorem normalizePath_joined {components : List Str} (hne : components ≠ [])
    (h : ∀ c ∈ components, IsComponent c) : normalizePath (joined components) = joined components := by
  have hfree : ∀ piece ∈ [] :: components, slash ∉ piece := by
    intro piece hpiece
    rcases List.mem_cons.mp hpiece with rfl | hpiece
    · simp
    · exact (h piece hpiece).2.2.2
  have hsplit : (joined components).splitOn slash = [] :: components := by
    have hwritten := intercalate_joined [] components
    rw [List.nil_append] at hwritten
    rw [← hwritten, List.splitOn_intercalate slash hfree (List.cons_ne_nil _ _)]
  have hfold : ([] :: components).foldl pushComponent [] = components := by
    have hpush : pushComponent [] [] = [] := by simp [pushComponent]
    rw [List.foldl_cons, hpush, foldl_components, List.nil_append]
    intro c hc
    obtain ⟨hempty, hdot, hup, _⟩ := h c hc
    exact ⟨hempty, hdot, hup⟩
  have hsome : joined components ≠ [] := by
    cases components with
    | nil => exact absurd rfl hne
    | cons c rest => simp [joined]
  rw [normalizePath_eq, hsplit, hfold, if_neg hsome]

section Tests

variable {fs : FileSystem} {dir path : Str}

/-! ## What passes -/

/-- No byte of the path but those of the request, and slashes. -/
theorem noNul_normalOf (h : 0 ∉ urlDecode path) : 0 ∉ normalOf path := by
  have hslash : (0 : Byte) ≠ slash := by decide
  rcases normalizePath_form (urlDecode path) with hroot | ⟨components, hjoined, hall⟩
  · rw [normalOf, hroot]
    simpa using hslash
  · rw [normalOf, hjoined]
    intro hmem
    obtain ⟨c, hc, hin⟩ := List.mem_flatMap.mp hmem
    rcases List.mem_cons.mp hin with hzero | hin
    · exact hslash hzero
    · exact h ((hall c hc).2 0 hin)

/-- A path that `SafePath` returns begins with a slash, has no NUL and no two dots in a row, is
the root or has components that name something, and its name resolves to the resolved resource
directory or to something behind it and a slash, so never into a directory whose name only goes
on where that of the resource directory ends. -/
theorem safePath_safe (h : safePath fs dir path ≠ []) :
    (safePath fs dir path).head? = some slash ∧ 0 ∉ safePath fs dir path ∧
      ¬[dot, dot] <:+: safePath fs dir path ∧
      (safePath fs dir path = [slash] ∨ ∃ components,
        safePath fs dir path = joined components ∧ ∀ c ∈ components, IsComponent c) ∧
      ∃ root name, fs.realpath (cStr dir) = some root ∧
        fs.realpath (cStr (dir ++ safePath fs dir path)) = some name ∧
        (name = root ∨ root ++ [slash] <+: name) ∧
        ∀ b rest, b ≠ slash → name ≠ root ++ b :: rest := by
  have hpasses := passes_of_safePath h
  rw [safePath_of_passes hpasses]
  have hunder := under_directory hpasses.starts hpasses.boundary
  refine ⟨normalizePath_head _, noNul_normalOf hpasses.decoded,
    mt (contains_iff _ _).mpr hpasses.dots, ?_, _, _,
    getAbsolutePath_some hpasses.resolved, getAbsolutePath_some hpasses.found, hunder, ?_⟩
  · rcases normalizePath_form (urlDecode path) with hroot | ⟨components, hjoined, hall⟩
    · exact .inl hroot
    · exact .inr ⟨components, hjoined, fun c hc => (hall c hc).1⟩
  · intro b rest hb hname
    rw [hname] at hunder
    rcases hunder with hsame | ⟨behind, hbehind⟩
    · simp at hsame
    · rw [List.append_assoc] at hbehind
      have hnext := List.append_cancel_left hbehind
      exact hb (List.cons.inj hnext).1.symm

/-- An encoded path with an empty component, a dot and a way up, on a directory beside which
stands one with a longer name. -/
theorem safePath_safe_page :
    let fs := FileSystem.table [⟨lit "/w", lit "/w", none⟩, ⟨lit "/w-old", lit "/w-old", none⟩,
      ⟨lit "/w/a.txt", lit "/w/a.txt", some (lit "hello")⟩]
    let path := lit "//b/./%2e%2E/a%2Etxt"
    safePath fs (lit "/w") path = lit "/a.txt" ∧
      ∃ root name, fs.realpath (cStr (lit "/w")) = some root ∧
        fs.realpath (cStr (lit "/w" ++ safePath fs (lit "/w") path)) = some name ∧
        (name = root ∨ root ++ [slash] <+: name) := by
  intro fs path
  have hpath : safePath fs (lit "/w") path = lit "/a.txt" := by decide +kernel
  have hsome : safePath fs (lit "/w") path ≠ [] := by
    rw [hpath]
    decide
  obtain ⟨_, _, _, _, root, name, hroot, hname, hunder, _⟩ := safePath_safe hsome
  exact ⟨hpath, root, name, hroot, hname, hunder⟩

end Tests

/-! ## Files that are let through -/

section Files

variable {fs : FileSystem} {dir : Str}

/-- The bytes that may stand in a path as they are: letters, digits, marks, and the slash. -/
def pathByte (b : Byte) : Bool :=
  (48 ≤ b && b ≤ 57) || (65 ≤ b && b ≤ 90) || (97 ≤ b && b ≤ 122) ||
    (lit "-._~!$&'()*+,;=:@/").contains b

/-- The percent-encodings of a byte of a path. -/
def PathCode (b : Byte) (e : Str) : Prop := IsEscape b e ∨ (e = [b] ∧ pathByte b = true)

/-- A regular file under an existing directory, reached through these components without a
link: its name resolves to the resolved directory followed by the path. -/
structure FileBelow (fs : FileSystem) (dir : Str) where
  components : List Str
  root : Str
  nonempty : components ≠ []
  named : ∀ c ∈ components, IsComponent c ∧ 0 ∉ c
  directory : 0 ∉ dir ∧ fs.realpath dir = some root
  absolute : root.head? = some slash
  regular : (fs.stat (dir ++ joined components)).map (·.regular) = some true
  linkless : fs.realpath (dir ++ joined components) =
    some (if root = [slash] then joined components else root ++ joined components)

namespace FileBelow

def path (file : FileBelow fs dir) : Str := joined file.components

theorem noNul (file : FileBelow fs dir) : 0 ∉ file.path := by
  intro hmem
  obtain ⟨c, hc, hin⟩ := List.mem_flatMap.mp hmem
  rcases List.mem_cons.mp hin with hzero | hin
  · cases hzero
  · exact (file.named c hc).2 hin

theorem normal (file : FileBelow fs dir) : normalizePath file.path = file.path :=
  normalizePath_joined file.nonempty fun c hc => (file.named c hc).1

end FileBelow

theorem cStr_of_noNul {s : Str} (h : 0 ∉ s) : cStr s = s := by
  apply List.takeWhile_eq_self_iff.mpr
  intro b hb
  refine decide_eq_true ?_
  rintro rfl
  exact h hb

/-- Two dots in a row are in a component. -/
theorem dots_joined (components : List Str) :
    [dot, dot] <:+: joined components ↔ ∃ c ∈ components, [dot, dot] <:+: c := by
  have hne : dot ≠ slash := by decide
  have hstep : ∀ (c : Str) (rest : List Str),
      [dot, dot] <:+: joined (c :: rest) ↔ [dot, dot] <:+: c ++ joined rest := by
    intro c rest
    have hpair := pair_infix_iff hne [] (c ++ joined rest)
    simpa [joined] using hpair
  induction components with
  | nil => simp [joined]
  | cons c rest ih =>
    have hrest : [dot, dot] <:+: c ++ joined rest ↔
        [dot, dot] <:+: c ∨ [dot, dot] <:+: joined rest := by
      cases rest with
      | nil => simp [joined]
      | cons c' rest =>
        rw [hstep c' rest]
        have hpair := pair_infix_iff hne c (c' ++ joined rest)
        simpa [joined] using hpair
    rw [hstep, hrest, List.exists_mem_cons_iff]
    exact or_congr Iff.rfl ih

/-- Without a plus sign the encoded path is decoded. -/
theorem urlDecode_path {s e : Str} (h : Writes PathCode s e) (noPlus : plus ∉ e) :
    urlDecode e = s := by
  induction h with
  | nil => rfl
  | @cons b e s t hcode _ ih =>
    rw [List.mem_append, not_or] at noPlus
    obtain ⟨hfirst, hrest⟩ := noPlus
    rcases hcode with hcode | ⟨rfl, hb⟩
    · rw [urlDecode_escape hcode, ih hrest]
    · have hpercent : b ≠ percent := by
        rintro rfl
        revert hb
        decide
      have hplus : b ≠ plus := by
        rintro rfl
        exact hfirst (List.mem_singleton.mpr rfl)
      rw [List.singleton_append, urlDecode_itself hpercent hplus, ih hrest]

/-- The bytes of an encoded path are bytes of paths, percent signs and digits: never NUL. -/
theorem noNul_pathCode {s e : Str} (h : Writes PathCode s e) : 0 ∉ e := by
  refine not_mem_writes (c := 0) ?_ h
  intro b e hcode
  rcases hcode with hcode | ⟨rfl, hb⟩
  · intro hmem
    rcases mem_escape hcode hmem with hc | hc
    · revert hc
      decide
    · revert hc
      decide
  · rw [List.mem_singleton]
    rintro rfl
    revert hb
    decide

/-- A file that is reached without links is let through under its own name in every encoding
without a plus sign, unless a component contains two dots in a row: then it is refused. -/
theorem safePath_file (file : FileBelow fs dir) (notRoot : file.root ≠ [slash]) {encoded : Str}
    (h : Writes PathCode file.path encoded) (noPlus : plus ∉ encoded) :
    ((¬∃ c ∈ file.components, [dot, dot] <:+: c) → safePath fs dir encoded = file.path) ∧
      ((∃ c ∈ file.components, [dot, dot] <:+: c) → safePath fs dir encoded = []) := by
  have hdecoded : urlDecode encoded = file.path := urlDecode_path h noPlus
  have hnormal : normalOf encoded = file.path := by
    rw [normalOf, hdecoded, file.normal]
  have hdots := dots_joined file.components
  obtain ⟨hdir, hroot⟩ := file.directory
  have hfull : 0 ∉ dir ++ file.path := by
    rw [List.mem_append, not_or]
    exact ⟨hdir, file.noNul⟩
  have habs : getAbsolutePath fs dir = file.root :=
    getAbsolutePath_eq (by rw [cStr_of_noNul hdir, hroot])
  have hname : fs.realpath (dir ++ file.path) = some (file.root ++ file.path) := by
    have hlinkless := file.linkless
    rwa [if_neg notRoot] at hlinkless
  have hfile : getAbsolutePath fs (dir ++ file.path) = file.root ++ file.path :=
    getAbsolutePath_eq (by rw [cStr_of_noNul hfull, hname])
  have hne : file.root ≠ [] := by
    intro hnil
    have hhead := file.absolute
    rw [hnil] at hhead
    cases hhead
  constructor
  · intro hnone
    have hpasses : Passes fs dir encoded := by
      refine ⟨noNul_pathCode h, ?_, ?_, ?_, ?_, ?_, ?_⟩
      · rw [hdecoded]
        exact file.noNul
      · rw [hnormal, contains_iff]
        exact mt hdots.mp hnone
      · rw [habs]
        exact hne
      · rw [hnormal, hfile]
        simp [hne]
      · rw [hnormal, habs, hfile]
        exact find_append _ _
      · rw [hnormal, habs, hfile]
        rintro ⟨_, hnext⟩
        have hhead := normalizePath_head file.path
        rw [file.normal] at hhead
        apply hnext
        rw [List.getElem?_append_right (Nat.le_refl _), Nat.sub_self, ← List.head?_eq_getElem?]
        exact hhead
    rw [safePath_of_passes hpasses, hnormal]
  · intro hsome
    by_contra hpassed
    have hpasses := passes_of_safePath hpassed
    apply hpasses.dots
    rw [hnormal, contains_iff]
    exact hdots.mpr hsome

/-- A path may be written as it is. -/
theorem writes_itself {s : Str} (h : s.all pathByte = true) : Writes PathCode s s := by
  induction s with
  | nil => exact .nil
  | cons b s ih =>
    rw [List.all_cons, Bool.and_eq_true] at h
    have hcode : PathCode b [b] := .inr ⟨rfl, h.1⟩
    exact .cons hcode (ih h.2)

/-- A directory with one regular file of this name in it. -/
def oneFile (dir name : Str) : FileSystem :=
  .table [⟨dir, dir, none⟩, ⟨dir ++ slash :: name, if dir = [slash] then slash :: name else
    dir ++ slash :: name, some (lit "hello")⟩]

/-- The file in it, reached without links. -/
def fileIn (dir name : Str) (named : IsComponent name ∧ 0 ∉ name) (absolute : 0 ∉ dir ∧
    dir.head? = some slash) : FileBelow (oneFile dir name) dir where
  components := [name]
  root := dir
  nonempty := List.cons_ne_nil _ _
  named := by simpa using named
  directory := ⟨absolute.1, by simp [oneFile, FileSystem.table]⟩
  absolute := absolute.2
  regular := by simp [oneFile, FileSystem.table, joined]
  linkless := by simp [oneFile, FileSystem.table, joined]

theorem safePath_file_plain :
    safePath (oneFile (lit "/w") (lit "a.txt")) (lit "/w") (lit "/%61.txt") = lit "/a.txt" := by
  have hwrites : Writes PathCode (lit "/a.txt") ([slash] ++ ([percent, 54, 49] ++ lit ".txt")) :=
    .cons (.inr ⟨rfl, by decide⟩) (.cons (.inl ⟨54, 49, 6, 1, rfl, by decide, by decide, by decide⟩)
      (writes_itself (by decide)))
  have hfile := safePath_file (fileIn (lit "/w") (lit "a.txt") (by decide) (by decide)) (by decide)
    hwrites (by decide)
  exact hfile.1 (by decide)

/-- Two dots in a name and a plus sign are refused, and so is any file when the directory is the
root of the file system. -/
theorem legal_paths_refused :
    (∃ file : FileBelow (oneFile (lit "/w") (lit "a..b")) (lit "/w"),
      Writes PathCode file.path (lit "/a..b") ∧
        safePath (oneFile (lit "/w") (lit "a..b")) (lit "/w") (lit "/a..b") ≠ file.path) ∧
    (∃ file : FileBelow (oneFile (lit "/w") (lit "a+b")) (lit "/w"),
      Writes PathCode file.path (lit "/a+b") ∧
        safePath (oneFile (lit "/w") (lit "a+b")) (lit "/w") (lit "/a+b") ≠ file.path) ∧
    ∃ file : FileBelow (oneFile (lit "/") (lit "a")) (lit "/"),
      Writes PathCode file.path (lit "/a") ∧
        safePath (oneFile (lit "/") (lit "a")) (lit "/") (lit "/a") ≠ file.path := by
  refine ⟨⟨fileIn (lit "/w") (lit "a..b") (by decide) (by decide), ?_, ?_⟩,
    ⟨fileIn (lit "/w") (lit "a+b") (by decide) (by decide), ?_, ?_⟩,
    ⟨fileIn (lit "/") (lit "a") (by decide) (by decide), ?_, ?_⟩⟩
  · exact writes_itself (by decide)
  · decide +kernel
  · exact writes_itself (by decide)
  · decide +kernel
  · exact writes_itself (by decide)
  · decide +kernel

end Files

end WebServer
