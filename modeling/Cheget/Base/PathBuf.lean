-- SUMMARY: Paths as strings: joining a name to one, and the components that it is read as.
import Mathlib.Data.List.Basic

/-!
# Paths as strings

A path is read as the components between its separators: empty ones and single
dots count for nothing, but a separator or a single dot at the front. Joining an
absolute path replaces what it is joined to. So a string that is joined may lead
anywhere, unless it is a normal name.
-/

inductive Component where
  | rootDir
  | curDir
  | parentDir
  | normal (name : List Char)

structure PathBuf where
  chars : List Char

namespace PathBuf

/-- `Path::join` -/
def join (self : PathBuf) (path : String) : PathBuf where
  chars :=
    if path.toList.head? = some '/' then path.toList
    else if self.chars = [] ∨ self.chars.getLast? = some '/' then self.chars ++ path.toList
    else self.chars ++ '/' :: path.toList

/-- A component that is not at the front. -/
def parse : List Char → Option Component
  | [] => none
  | ['.'] => none
  | ['.', '.'] => some .parentDir
  | name => some (.normal name)

/-- What the front of a path stands for. -/
def front (chars : List Char) : Option Component :=
  if chars.head? = some '/' then some .rootDir
  else if (chars.splitOn '/').head? = some ['.'] then some .curDir
  else none

/-- `Path::components` -/
def components (self : PathBuf) : List Component :=
  (front self.chars).toList ++ (self.chars.splitOn '/').filterMap parse

/-- A name that stands for itself, and for one level. -/
structure Normal (name : String) : Prop where
  ne_empty : name.toList ≠ []
  ne_curDir : name.toList ≠ ['.']
  ne_parentDir : name.toList ≠ ['.', '.']
  slash : '/' ∉ name.toList
  backslash : '\\' ∉ name.toList

variable {name : String}

theorem Normal.parse (h : Normal name) : parse name.toList = some (.normal name.toList) := by
  unfold PathBuf.parse
  split
  · exact absurd (by assumption) h.ne_empty
  · exact absurd (by assumption) h.ne_curDir
  · exact absurd (by assumption) h.ne_parentDir
  · rfl

/-- What follows a separator does not change the front. -/
theorem front_slash (chars rest rest' : List Char) :
    front (chars ++ '/' :: rest) = front (chars ++ '/' :: rest') := by
  have hhead : (chars ++ '/' :: rest).head? = (chars ++ '/' :: rest').head? := by
    cases chars <;> rfl
  unfold front
  rw [hhead, List.splitOn_append_cons_self, List.splitOn_append_cons_self,
    List.head?_append_of_ne_nil _ (List.splitOn_ne_nil _ _),
    List.head?_append_of_ne_nil _ (List.splitOn_ne_nil _ _)]

theorem front_append_slash {chars rest : List Char} (h : chars ≠ []) :
    front (chars ++ '/' :: rest) = front chars := by
  unfold front
  rw [List.head?_append_of_ne_nil _ h, List.splitOn_append_cons_self,
    List.head?_append_of_ne_nil _ (List.splitOn_ne_nil _ _)]

/-- A normal name after a separator is one more component. -/
theorem components_append_slash {chars : List Char} (hname : Normal name) (h : chars ≠ []) :
    components ⟨chars ++ '/' :: name.toList⟩ = components ⟨chars⟩ ++ [.normal name.toList] := by
  simp only [components]
  rw [front_append_slash h, List.splitOn_append_cons_self, List.splitOn_eq_singleton hname.slash,
    List.filterMap_append, List.append_assoc]
  simp [hname.parse]

/-- Joining a normal name goes one level down, to that name. -/
theorem components_join (self : PathBuf) (h : Normal name) :
    (self.join name).components = self.components ++ [.normal name.toList] := by
  have hhead : name.toList.head? ≠ some '/' := fun hslash => h.slash (List.mem_of_head? hslash)
  obtain ⟨chars⟩ := self
  simp only [join, if_neg hhead]
  by_cases hempty : chars = []
  · subst hempty
    have hdot : ¬ name.toList = ['.'] := h.ne_curDir
    have hnil : PathBuf.parse [] = none := rfl
    simp [components, front, hhead, List.splitOn_eq_singleton h.slash, hdot, h.parse, hnil]
  · by_cases hlast : chars.getLast? = some '/'
    · obtain ⟨init, rfl⟩ := List.getLast?_eq_some_iff.mp hlast
      have hnil : [([] : List Char)].filterMap PathBuf.parse = [] := rfl
      rw [if_pos (Or.inr hlast), List.append_assoc, List.singleton_append]
      simp only [components]
      rw [front_slash init name.toList [], List.splitOn_append_cons_self, List.splitOn_append_cons_self,
        List.splitOn_eq_singleton h.slash, List.splitOn_nil, List.filterMap_append, List.filterMap_append,
        hnil, List.append_nil, List.append_assoc]
      simp [h.parse]
    · rw [if_neg (fun h => h.elim hempty hlast)]
      exact components_append_slash h hempty

/-- So do several of them. -/
theorem components_joins (self : PathBuf) {names : List String} (h : ∀ name ∈ names, Normal name) :
    (names.foldl join self).components = self.components ++ names.map (fun name => .normal name.toList) := by
  induction names generalizing self with
  | nil => simp
  | cons name names ih =>
      rw [List.foldl_cons, ih _ (fun x hx => h x (List.mem_cons_of_mem _ hx)),
        components_join self (h name List.mem_cons_self), List.map_cons, List.append_assoc,
        List.singleton_append]

end PathBuf
