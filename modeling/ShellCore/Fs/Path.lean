import Mathlib

/-!
# Paths

A path is UTF-8 text, taken as a list of characters. A lookup takes it apart at the slashes and leaves out the
empty components and `.`.
-/

namespace ShellCore.Fs

abbrev Name := List Char

abbrev Path := List Char

def dot : Name := ['.']

def dotdot : Name := ['.', '.']

variable (path : Path)

/-- `starts_with('/')`. -/
def isAbsolute : Bool := path.head? == some '/'

def components : List Name := (path.splitOn '/').filter fun s => s ≠ [] ∧ s ≠ dot

/-- A name that a directory entry can have. -/
structure ValidName (s : Name) : Prop where
  ne_nil : s ≠ []
  ne_dot : s ≠ dot
  ne_dotdot : s ≠ dotdot
  no_slash : '/' ∉ s

theorem components_nil : components [] = [] := by
  simp [components]

theorem components_append (p q : Path) : components (p ++ '/' :: q) = components p ++ components q := by
  rw [components, List.splitOn_append_cons_self, List.filter_append]
  rfl

theorem components_cons_slash (p : Path) : components ('/' :: p) = components p :=
  components_append [] p

theorem components_of_valid {s} (h : ValidName s) : components s = [s] := by
  have hsplit : s.splitOn '/' = [s] := List.splitOn_eq_singleton h.no_slash
  simp [components, hsplit, h.ne_nil, h.ne_dot]

theorem components_dot : components dot = [] := by
  decide

theorem components_dot_slash (p : Path) : components ('.' :: '/' :: p) = components p := by
  have h := components_append dot p
  rw [components_dot] at h
  exact h

/-- The text of the path with the components `parts`, from the root. -/
def joined (parts : List Name) : Path := if parts = [] then ['/'] else parts.flatMap fun s => '/' :: s

theorem components_joined {parts} (h : ∀ s ∈ parts, ValidName s) : components (joined parts) = parts := by
  have hflat : ∀ ps : List Name, (∀ s ∈ ps, ValidName s) → components (ps.flatMap fun s => '/' :: s) = ps := by
    intro ps
    induction ps with
    | nil => exact fun _ => components_nil
    | cons s ps ih =>
      intro hps
      have hs := components_of_valid (hps s List.mem_cons_self)
      have hrest := ih fun t ht => hps t (List.mem_cons_of_mem _ ht)
      rw [List.flatMap_cons, List.cons_append, components_cons_slash]
      cases ps with
      | nil => simpa using hs
      | cons t ps =>
        rw [List.flatMap_cons, List.cons_append] at hrest ⊢
        rw [components_append, hs, ← components_cons_slash, hrest]
        rfl
  by_cases hnil : parts = []
  · subst hnil
    decide
  · rw [joined, if_neg hnil]
    exact hflat parts h

/-! ## The last component -/

/-- `trim_end_matches('/')`. -/
def trimEnd : Path := path.rdropWhile (· == '/')

def parentPath : Path :=
  let path := trimEnd path
  if '/' ∈ path then
    let parent := (path.rdropWhile (· != '/')).dropLast
    if parent = [] then ['/'] else parent
  else dot

def fileName : Name :=
  let path := trimEnd path
  if path = [] then ['/'] else path.rtakeWhile (· != '/')

example : parentPath "/a/b/".toList = "/a".toList ∧ fileName "/a/b/".toList = "b".toList := by decide

end ShellCore.Fs
