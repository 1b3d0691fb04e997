import Mksh.Lib.CString

/-!
# Paths

Directories, given by the names that lead to them from the root, and paths,
followed from a directory component by component (`walk`). There are no symbolic
links: `..` leads back to the directory before.
-/

/-- A directory: the names that lead to it from the root. -/
abbrev Dir := List CString

namespace Dir

/-- Following a component of a path. -/
def enter (d : Dir) (name : CString) : Dir :=
  if name = [] ∨ name = ".".toList then d
  else if name = "..".toList then d.dropLast
  else d ++ [name]

/-- An absolute path. -/
def IsAbsolute (path : CString) : Prop := path.head? = some '/'

instance : DecidablePred IsAbsolute := fun path =>
  inferInstanceAs (Decidable (path.head? = some '/'))

/-- Following a path. -/
def walk (d : Dir) (path : CString) : Dir :=
  (path.splitOn '/').foldl enter (if IsAbsolute path then [] else d)

variable {d d' : Dir} {name path path' : CString}

theorem enter_dotdot (d : Dir) : enter d "..".toList = d.dropLast := by
  rw [enter, if_neg (by decide), if_pos rfl]

/-- An absolute path leads to the same directory from everywhere. -/
theorem walk_of_isAbsolute (h : IsAbsolute path) (d d' : Dir) : walk d path = walk d' path := by
  rw [walk, walk, if_pos h, if_pos h]

/-- The parent directory. -/
theorem walk_dotdot (d : Dir) : walk d "..".toList = d.dropLast := by
  rw [walk, if_neg (by decide), List.splitOn_eq_singleton (by decide)]
  exact enter_dotdot d

/-- The parent directory, with a slash. -/
theorem walk_dotdot_slash (d : Dir) : walk d "../".toList = d.dropLast := by
  have hsplit : "../".toList.splitOn '/' = ["..".toList, []] := by decide
  rw [walk, if_neg (by decide), hsplit, List.foldl_cons, List.foldl_cons, List.foldl_nil,
    enter_dotdot, enter, if_pos (.inl rfl)]

/-- A path in two parts: the second one is followed from where the first one leads. -/
theorem walk_append (h : path ≠ []) (h' : ¬IsAbsolute path') (d : Dir) :
    walk d (path ++ '/' :: path') = walk (walk d path) path' := by
  have habs : IsAbsolute (path ++ '/' :: path') ↔ IsAbsolute path := by
    obtain ⟨c, path, rfl⟩ := List.exists_cons_of_ne_nil h
    exact Iff.rfl
  rw [walk, List.splitOn_append_cons_self, List.foldl_append, walk, walk, if_neg h']
  simp only [habs]

/-- A path that leads to an immediate subdirectory, and is relative. -/
def IsChild (d : Dir) (path : CString) : Prop :=
  ¬IsAbsolute path ∧ walk d path ≠ [] ∧ (walk d path).dropLast = d

/-- A proper name leads to a subdirectory. -/
theorem walk_of_name (h : name ≠ []) (hdot : name ≠ ".".toList) (hdots : name ≠ "..".toList)
    (hslash : '/' ∉ name) (d : Dir) : walk d name = d ++ [name] := by
  have habs : ¬IsAbsolute name := fun ha => hslash (List.mem_of_head? ha)
  rw [walk, if_neg habs, List.splitOn_eq_singleton hslash, List.foldl_cons, List.foldl_nil, enter,
    if_neg (not_or.2 ⟨h, hdot⟩), if_neg hdots]

/-- A proper name is one of a child. -/
theorem isChild_of_name (h : name ≠ []) (hdot : name ≠ ".".toList) (hdots : name ≠ "..".toList)
    (hslash : '/' ∉ name) (d : Dir) : IsChild d name := by
  rw [IsChild, walk_of_name h hdot hdots hslash]
  exact ⟨fun ha => hslash (List.mem_of_head? ha), by simp, List.dropLast_concat⟩

end Dir
