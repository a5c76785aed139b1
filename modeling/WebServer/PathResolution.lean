import WebServer.PathFilter

/-!
# Resolving a path from the root

The reference is a walk through the tree of names: it starts at the root, an ordinary name
goes down, two dots go up, and at the root they stay there. The program keeps the names on
a stack instead, and reads the path with `std::getline`, which hands out no last piece when
the path ends in a slash.
-/

namespace WebServer

open PathUtil

/-! ## The tree of names -/

inductive Location where
  | root
  | child (parent : Location) (name : Str)
  deriving DecidableEq

namespace Location

def parent : Location → Location
  | root => root
  | child parent _ => parent

/-- One component of a path, seen from a directory. -/
def follow (d : Location) (component : Str) : Location :=
  if component = [] ∨ component = [dot] then d
  else if component = [dot, dot] then d.parent
  else d.child component

/-- The components between the slashes, from left to right. -/
def resolve (path : Str) : Location := (path.splitOn slash).foldl follow root

/-- The names on the way from the root. -/
def names : Location → List Str
  | root => []
  | child parent name => parent.names ++ [name]

def text (d : Location) : Str := if d = root then [slash] else joined d.names

theorem names_eq_nil_iff (d : Location) : d.names = [] ↔ d = root := by
  cases d with
  | root => simp [names]
  | child parent name => simp [names]

theorem names_parent (d : Location) : d.parent.names = d.names.dropLast := by
  cases d with
  | root => rfl
  | child parent name => simp [Location.parent, names]

end Location

open Location

/-- The stack holds the names on the way to where the walk is. -/
theorem pushComponent_names (d : Location) (component : Str) :
    pushComponent d.names component = (d.follow component).names := by
  unfold pushComponent follow
  split
  · rfl
  · split
    · exact (names_parent d).symm
    · rfl

theorem foldl_names (d : Location) (pieces : List Str) :
    pieces.foldl pushComponent d.names = (pieces.foldl follow d).names := by
  induction pieces generalizing d with
  | nil => rfl
  | cons piece rest ih =>
    rw [List.foldl_cons, List.foldl_cons, pushComponent_names]
    exact ih (d.follow piece)

theorem joined_eq_nil_iff (components : List Str) : joined components = [] ↔ components = [] := by
  cases components with
  | nil => simp [joined]
  | cons c rest => simp [joined]

theorem normalizePath_text (path : Str) : normalizePath path = (resolve path).text := by
  have hstack : (path.splitOn slash).foldl pushComponent [] = (resolve path).names :=
    foldl_names root (path.splitOn slash)
  rw [normalizePath_eq, hstack]
  exact if_congr ((joined_eq_nil_iff _).trans (names_eq_nil_iff _)) rfl rfl

/-! ## Reading with `getline` -/

/-- What `std::getline` hands out up to each slash; `piece` is what it has read. Where the
text ends right behind a slash, nothing more is handed out. -/
def getlines (piece : Str) : Str → List Str
  | [] => if piece = [] then [] else [piece]
  | b :: rest => if b = slash then piece :: getlines [] rest else getlines (piece ++ [b]) rest

/-- `NormalizePath` with its early return and its loop over the stream. -/
def normalizePathStream (path : Str) : Str :=
  if path = [] then [slash]
  else
    let components := (getlines [] path).foldl pushComponent []
    let result := components.flatMap fun comp => slash :: comp
    if result = [] then [slash] else result

/-- The pieces of the stream and those between the slashes differ in a last empty one. -/
theorem getlines_splitOn {piece : Str} (hfree : slash ∉ piece) (rest : Str) :
    (piece ++ rest).splitOn slash = getlines piece rest ∨
      (piece ++ rest).splitOn slash = getlines piece rest ++ [[]] := by
  induction rest generalizing piece with
  | nil =>
    rw [List.append_nil, List.splitOn_eq_singleton hfree, getlines]
    split
    next hempty =>
      right
      rw [hempty]
      rfl
    next _ =>
      left
      rfl
  | cons b rest ih =>
    by_cases hb : b = slash
    · subst hb
      have hpieces : (piece ++ slash :: rest).splitOn slash = piece :: rest.splitOn slash :=
        List.splitOn_append_cons_self_of_not_mem hfree rest
      have hrest := ih (show slash ∉ ([] : Str) by simp)
      rw [List.nil_append] at hrest
      rw [hpieces, getlines, if_pos rfl]
      rcases hrest with hsame | hmore
      · left
        rw [hsame]
      · right
        rw [hmore]
        rfl
    · have hfree' : slash ∉ piece ++ [b] := by
        simp [hfree, Ne.symm hb]
      have hrest := ih hfree'
      rw [List.append_assoc, List.singleton_append] at hrest
      rwa [getlines, if_neg hb]

/-- An empty piece changes nothing. -/
theorem pushComponent_empty (components : List Str) : pushComponent components [] = components := by
  simp [pushComponent]

theorem normalizePath_stream (path : Str) : normalizePathStream path = normalizePath path := by
  have hfold : (path.splitOn slash).foldl pushComponent [] =
      (getlines [] path).foldl pushComponent [] := by
    have hpieces := getlines_splitOn (show slash ∉ ([] : Str) by simp) path
    rw [List.nil_append] at hpieces
    rcases hpieces with hsame | hmore
    · rw [hsame]
    · rw [hmore, List.foldl_append]
      exact pushComponent_empty _
  by_cases hempty : path = []
  · rw [normalizePathStream, if_pos hempty, hempty]
    decide
  · rw [normalizePathStream, if_neg hempty, ← hfold]
    rfl

/-! ## The normal form -/

theorem normalizePath_idempotent (path : Str) :
    normalizePath (normalizePath path) = normalizePath path := by
  rcases normalizePath_form path with hroot | ⟨components, hjoined, hall⟩
  · rw [hroot]
    decide
  · have hne : components ≠ [] := by
      intro hnil
      have hhead := normalizePath_head path
      rw [hjoined, hnil] at hhead
      cases hhead
    rw [hjoined]
    exact normalizePath_joined hne fun c hc => (hall c hc).1

/-- The stream loop gives the root or components that name something, ends where the walk
from the root ends, and gives its own results back. -/
theorem normalizePath_resolves (path : Str) :
    (normalizePathStream path = [slash] ∨ ∃ components, components ≠ [] ∧
      normalizePathStream path = components.flatMap (fun c => slash :: c) ∧
      ∀ c ∈ components, c ≠ [] ∧ slash ∉ c ∧ c ≠ [dot] ∧ c ≠ [dot, dot]) ∧
    normalizePathStream path = (resolve path).text ∧
    normalizePathStream (normalizePathStream path) = normalizePathStream path := by
  rw [normalizePath_stream path, normalizePath_stream]
  refine ⟨?_, normalizePath_text path, normalizePath_idempotent path⟩
  rcases normalizePath_form path with hroot | ⟨components, hjoined, hall⟩
  · exact .inl hroot
  · refine .inr ⟨components, ?_, hjoined, ?_⟩
    · rintro rfl
      have hhead := normalizePath_head path
      rw [hjoined] at hhead
      cases hhead
    · intro c hc
      obtain ⟨hempty, hdot, hup, hfree⟩ := (hall c hc).1
      exact ⟨hempty, hfree, hdot, hup⟩

/-- Two dots at the root, empty components and a slash at the end. -/
example : normalizePathStream (lit "../a//./b/../../../c/d/") = lit "/c/d" := by decide +kernel

end WebServer
