import Mksh.Cmd.Session

/-!
# The walk at the start

The registry at the start is read off the directories below the root one: a
version for each of them, and a project for each directory in it. The walk
changes into the directories, and what it does there depends on its depth: the
callbacks are in a table, which ends with `NULL`.

`FileSystem`: what the calls on directories answer. `FileSystem.Readable`: below a
directory, they answer as they should. Then the walk ends, with the registry of
`Mksh.allVersionsInit` (`allVersionsInit_walk`).
-/

namespace Mksh

open CString Process

namespace Walk

/-! ## The file system -/

/-- The answers for a directory: the names in it, in the order of `readdir`, if
    it can be opened, whether there is one, if `lstat` can tell, and whether one
    can change into it. -/
structure FileSystem where
  opendir : Dir → Option (List CString)
  lstat : Dir → Option Bool
  chdir : Dir → Bool

namespace FileSystem

variable (fs : FileSystem)

/-- A name in a directory is that of a directory, and not hidden. -/
def IsSubdir (d : Dir) (name : CString) : Prop :=
  name.head? ≠ some '.' ∧ (fs.opendir (d ++ [name])).isSome

instance (d : Dir) : DecidablePred (fs.IsSubdir d) := fun name =>
  inferInstanceAs (Decidable (name.head? ≠ some '.' ∧ (fs.opendir (d ++ [name])).isSome))

/-- The directories in a directory that are not hidden, in the order of `readdir`. -/
def subdirs (d : Dir) : List CString :=
  ((fs.opendir d).getD []).filter fun name => fs.IsSubdir d name

/-- The directories in a directory, each with those in it. -/
def dirs (d : Dir) : List (CString × List CString) :=
  (fs.subdirs d).map fun name => (name, fs.subdirs (d ++ [name]))

/-- The answer of `lstat` for a name in a directory is right. -/
def LstatsAt (d : Dir) (name : CString) : Prop :=
  ∃ isDir, fs.lstat (d.walk name) = some isDir ∧
    (name.head? ≠ some '.' → isDir = (fs.opendir (d ++ [name])).isSome)

/-- From a directory on, the directories can be opened and changed into, and
    `lstat` tells what they are. -/
structure Readable (root : Dir) : Prop where
  chdir {d : Dir} {names : List CString} : root <+: d → fs.opendir d = some names → fs.chdir d
  name {d : Dir} {names : List CString} : root <+: d → fs.opendir d = some names →
    ∀ name ∈ names, name ≠ [] ∧ '/' ∉ name
  lstat {d : Dir} {names : List CString} : root <+: d → fs.opendir d = some names →
    ∀ name ∈ names, fs.LstatsAt d name

end FileSystem

/-- The current directory, and the registry. -/
structure Boot where
  cwd : Dir
  versions : List VersionInf

/-- What is handed down to a callback: the list of versions, or what has been
    created, by its place. -/
inductive Father
  | versions
  | version (i : ℕ)
  | project (i j : ℕ)

variable (fs : FileSystem)

/-- Changing the directory; its result is not looked at, and if there is no such directory,
    nothing changes. -/
def chdir (path : CString) : Process Boot Empty Unit :=
  modify fun s => if fs.chdir (s.cwd.walk path) then { s with cwd := s.cwd.walk path } else s

/-! ## Callbacks -/

/-- Creating a version, below the list of them. -/
def versionCreate (name : CString) : Father → Process Boot Empty (Option Father)
  | .versions => do
    let i := (← get).versions.length
    modify fun s => { s with versions := s.versions ++ [Mksh.versionCreate name] }
    return some (.version i)
  | _ => halt

/-- Creating a project, below a version. -/
def projectCreate (name : CString) : Father → Process Boot Empty (Option Father)
  | .version i => do
    match (← get).versions[i]? with
    | none => halt
    | some vi =>
      modify fun s =>
        { s with versions := s.versions.modify i (.addProject (Mksh.projectCreate name)) }
      return some (.project i vi.projects.length)
  | _ => halt

/-- What is called for a directory, given its name and what the call for its father returned. -/
abbrev Callback := CString → Father → Process Boot Empty (Option Father)

/-- What is called at each depth; below the projects, nothing. -/
def initCallbacks : List (Option Callback) := [some versionCreate, some projectCreate, none]

/-! ## The walk -/

/-- The loop over the names in a directory. The answer of `lstat` is in a buffer,
    in which there is the last one when it fails. -/
def dirLoop (nested : CString → Father → Process Boot Empty ℤ) (father : Father) (depth : ℕ) :
    Option Bool → List CString → Process Boot Empty Unit
  | _, [] => pure ()
  | statbuf, name :: names => do
    let cwd := (← get).cwd
    match (fs.lstat (cwd.walk name)).or statbuf with
    | none => halt
    | some false => dirLoop nested father depth (some false) names
    | some true =>
      if name.head? = some '.' then dirLoop nested father depth (some true) names
      else
        match initCallbacks[depth]? with
        | none => halt
        | some none => return
        | some (some callback) =>
          match ← callback name father with
          | none => return
          | some son =>
            let _ ← nested name son
            dirLoop nested father depth (some true) names

/-- The walk through a directory, with fuel for the calls nested in one another. -/
def forAllDirs : ℕ → CString → Father → ℕ → Process Boot Empty ℤ
  | 0, _, _, _ => halt
  | n + 1, path, father, depth => do
    match fs.opendir ((← get).cwd.walk path) with
    | none => return -1
    | some names =>
      -- cd path
      chdir fs path
      dirLoop fs (fun name son => forAllDirs n name son (depth + 1)) father depth none names
      -- cd back
      chdir fs "..".toList
      return 0

/-- Registering all versions and projects, starting with none. -/
def allVersionsInit (n : ℕ) : Process Boot Empty ℤ := do
  modify fun s => { s with versions := [] }
  let _ ← forAllDirs fs n rootDir .versions 0
  return 0

/-! ## What the walk does -/

variable {fs} {root d : Dir} {names : List CString} {name path : CString} {vs : List VersionInf}
  {nested : CString → Father → Process Boot Empty ℤ} {father : Father} {depth n : ℕ}
  {statbuf : Option Bool}

/-- A change to a directory that there is. -/
theorem achieves_chdir {Q : Unit → Boot → Prop} (h : fs.chdir (d.walk path)) :
    Achieves (chdir fs path) Q ⟨d, vs⟩ ↔ Q () ⟨d.walk path, vs⟩ := by
  rw [chdir, achieves_modify, if_pos h]

/-- A subdirectory is a directory below. -/
theorem FileSystem.IsSubdir.walk_eq (h : fs.IsSubdir d name) (hname : name ≠ [] ∧ '/' ∉ name) :
    d.walk name = d ++ [name] := by
  refine Dir.walk_of_name hname.1 ?_ ?_ hname.2 d
  · rintro rfl
    exact h.1 rfl
  · rintro rfl
    exact h.1 rfl

/-- Going through a directory in which nothing is created. -/
theorem achieves_dirLoop_of_null (hcallback : initCallbacks[depth]? = some none)
    (hnames : ∀ name ∈ names, fs.LstatsAt d name) :
    Achieves (dirLoop fs nested father depth statbuf names) (fun _ s => s = ⟨d, vs⟩) ⟨d, vs⟩ := by
  induction names generalizing statbuf with
  | nil => exact achieves_pure.2 rfl
  | cons name names ih =>
    obtain ⟨⟨isDir, hlstat, -⟩, hnames⟩ := List.forall_mem_cons.1 hnames
    rw [dirLoop, achieves_bind, achieves_get]
    simp only [hlstat, Option.some_or]
    cases isDir with
    | false => exact ih hnames
    | true =>
      rw [achieves_ite]
      split_ifs
      · exact ih hnames
      · rw [hcallback]
        exact achieves_pure.2 rfl

/-- Going through a directory, with the registry after each of the directories in
    it. -/
theorem achieves_dirLoop (callback : Callback) (registry : List CString → List VersionInf)
    (hcallback : initCallbacks[depth]? = some (some callback))
    (hnames : ∀ name ∈ names, fs.LstatsAt d name)
    (hstep : ∀ name ∈ names, fs.IsSubdir d name → ∀ done,
      Achieves (callback name father) (fun son s => ∃ f, son = some f ∧
        Achieves (nested name f) (fun _ s' => s' = ⟨d, registry (done ++ [name])⟩) s)
        ⟨d, registry done⟩)
    (done : List CString) :
    Achieves (dirLoop fs nested father depth statbuf names)
      (fun _ s => s = ⟨d, registry (done ++ names.filter fun name => fs.IsSubdir d name)⟩)
      ⟨d, registry done⟩ := by
  induction names generalizing statbuf done with
  | nil =>
    rw [List.filter_nil, List.append_nil]
    exact achieves_pure.2 rfl
  | cons name names ih =>
    obtain ⟨⟨isDir, hlstat, hdir⟩, hnames⟩ := List.forall_mem_cons.1 hnames
    obtain ⟨hname, hstep⟩ := List.forall_mem_cons.1 hstep
    rw [dirLoop, achieves_bind, achieves_get]
    simp only [hlstat, Option.some_or]
    -- A name is skipped if it is no directory or hidden. Else, the walk goes through it, and
    -- comes back to the same directory.
    cases isDir with
    | false =>
      have hnot : ¬ fs.IsSubdir d name := fun hsub => by
        have hfalse := hdir hsub.1
        rw [hsub.2] at hfalse
        cases hfalse
      rw [List.filter_cons_of_neg (by simpa using hnot)]
      exact ih hnames hstep done
    | true =>
      rw [achieves_ite]
      split_ifs with hhidden
      · have hnot : ¬ fs.IsSubdir d name := fun hsub => hsub.1 hhidden
        rw [List.filter_cons_of_neg (by simpa using hnot)]
        exact ih hnames hstep done
      · have hsub : fs.IsSubdir d name := ⟨hhidden, (hdir hhidden).symm⟩
        rw [List.filter_cons_of_pos (by simpa using hsub), ← List.singleton_append,
          ← List.append_assoc, hcallback, achieves_bind]
        refine (hname hsub done).mono ?_
        rintro _ s ⟨f, rfl, hnested⟩
        rw [achieves_bind]
        refine hnested.mono ?_
        rintro _ _ rfl
        exact ih hnames hstep _

section Nested

variable (h : fs.Readable root) (hd : root <+: d) (hnames : fs.opendir d = some names)
  (hname : name ∈ names) (hsub : fs.IsSubdir d name)

include h hd hnames hname hsub

/-- A nested call comes back to where it is made. -/
theorem achieves_nested {vs' : List VersionInf}
    (hloop : Achieves (dirLoop fs (fun name son => forAllDirs fs n name son (depth + 1)) father
      depth none ((fs.opendir (d ++ [name])).getD [])) (fun _ s => s = ⟨d ++ [name], vs'⟩)
      ⟨d ++ [name], vs⟩) :
    Achieves (forAllDirs fs (n + 1) name father depth) (fun _ s => s = ⟨d, vs'⟩) ⟨d, vs⟩ := by
  obtain ⟨names', hnames'⟩ := Option.isSome_iff_exists.1 hsub.2
  have hwalk := hsub.walk_eq (h.name hd hnames name hname)
  have hback : (d ++ [name]).walk "..".toList = d := by
    rw [Dir.walk_dotdot, List.dropLast_concat]
  have hchdir : fs.chdir (d ++ [name]) := h.chdir (hd.trans (List.prefix_append _ _)) hnames'
  rw [hnames', Option.getD_some] at hloop
  rw [forAllDirs, achieves_bind, achieves_get]
  simp only [hwalk, hnames']
  rw [achieves_bind, achieves_chdir (by rwa [hwalk]), hwalk, achieves_bind]
  refine hloop.mono ?_
  rintro _ _ rfl
  rw [achieves_bind, achieves_chdir (by rw [hback]; exact h.chdir hd hnames), hback, achieves_pure]

/-- In the directory of a project, nothing is created. -/
theorem achieves_forAllDirs_project :
    Achieves (forAllDirs fs (n + 1) name father 2) (fun _ s => s = ⟨d, vs⟩) ⟨d, vs⟩ := by
  refine achieves_nested h hd hnames hname hsub (achieves_dirLoop_of_null rfl ?_)
  obtain ⟨names', hnames'⟩ := Option.isSome_iff_exists.1 hsub.2
  rw [hnames', Option.getD_some]
  exact h.lstat (hd.trans (List.prefix_append _ _)) hnames'

/-- In the directory of a version, its projects are created. -/
theorem achieves_forAllDirs_version {vi : VersionInf} (hvi : vi.projects = []) :
    Achieves (forAllDirs fs (n + 2) name (.version vs.length) 1) (fun _ s => s = ⟨d, vs ++
      [{ vi with projects := (fs.subdirs (d ++ [name])).map Mksh.projectCreate }]⟩)
      ⟨d, vs ++ [vi]⟩ := by
  refine achieves_nested h hd hnames hname hsub ?_
  obtain ⟨names', hnames'⟩ := Option.isSome_iff_exists.1 hsub.2
  have hd' : root <+: d ++ [name] := hd.trans (List.prefix_append _ _)
  have hstart : vs ++ [vi] = vs ++ [{ vi with projects := [].map Mksh.projectCreate }] := by
    rw [List.map_nil, ← hvi]
  rw [FileSystem.subdirs, hnames', Option.getD_some, hstart]
  refine achieves_dirLoop projectCreate
    (fun done => vs ++ [{ vi with projects := done.map Mksh.projectCreate }])
    (show initCallbacks[1]? = _ from rfl) (h.lstat hd' hnames')
    (fun name' hname' hsub' done => ?_) []
  rw [projectCreate, achieves_bind, achieves_get]
  simp only [List.getElem?_concat_length, achieves_bind, achieves_modify, achieves_pure]
  refine ⟨_, rfl, ?_⟩
  -- The version is the last one, so that the project is added to it.
  have hmodify : (vs ++ [{ vi with projects := done.map Mksh.projectCreate }]).modify vs.length
      (.addProject (Mksh.projectCreate name')) =
      vs ++ [{ vi with projects := (done ++ [name']).map Mksh.projectCreate }] := by
    rw [List.modify_eq_take_cons_drop (by simp)]
    simp [VersionInf.addProject]
  rw [hmodify]
  exact achieves_forAllDirs_project h hd' hnames' hname' hsub'

end Nested

/-- From the root directory on, the versions are created. -/
theorem achieves_allVersionsInit (h : fs.Readable (d.walk rootDir))
    (hopen : (fs.opendir (d.walk rootDir)).isSome) :
    Achieves (allVersionsInit fs (n + 3)) (fun _ s =>
      s.versions = Mksh.allVersionsInit (fs.dirs (d.walk rootDir))) ⟨d, vs⟩ := by
  obtain ⟨names, hnames⟩ := Option.isSome_iff_exists.1 hopen
  have hd : d.walk rootDir <+: d.walk rootDir := List.prefix_rfl
  rw [allVersionsInit, achieves_bind, achieves_modify, achieves_bind, forAllDirs, achieves_bind,
    achieves_get]
  simp only [hnames]
  rw [achieves_bind, achieves_chdir (h.chdir hd hnames), achieves_bind]
  -- After each name, the registry has the versions of the names so far, with all their projects.
  refine (achieves_dirLoop versionCreate
    (fun done => done.map fun name => { Mksh.versionCreate name with
      projects := (fs.subdirs (d.walk rootDir ++ [name])).map Mksh.projectCreate })
    (show initCallbacks[0]? = _ from rfl) (h.lstat hd hnames) ?_ []).mono ?_
  · intro name hname hsub done
    rw [versionCreate, achieves_bind, achieves_get]
    simp only [achieves_bind, achieves_modify, achieves_pure, List.map_append, List.map_singleton]
    exact ⟨_, rfl, achieves_forAllDirs_version h hd hnames hname hsub rfl⟩
  · rintro _ _ rfl
    rw [achieves_bind, chdir, achieves_modify, achieves_pure, achieves_pure]
    have hversions : (names.filter fun name => fs.IsSubdir (d.walk rootDir) name).map (fun name =>
        { Mksh.versionCreate name with
          projects := (fs.subdirs (d.walk rootDir ++ [name])).map Mksh.projectCreate }) =
        Mksh.allVersionsInit (fs.dirs (d.walk rootDir)) := by
      rw [Mksh.allVersionsInit, FileSystem.dirs, List.map_map, FileSystem.subdirs, hnames,
        Option.getD_some]
      rfl
    split_ifs
    · exact hversions
    · exact hversions

/-! ## Where the walk is -/

/-- No callback changes the directory. -/
theorem ensures_callback {callback : Callback} (hmem : some callback ∈ initCallbacks) (s : Boot) :
    Ensures (callback name father) (fun _ s' => s'.cwd = s.cwd) s := by
  have hcase : callback = versionCreate ∨ callback = projectCreate := by
    simpa [initCallbacks] using hmem
  rcases hcase with rfl | rfl
  · cases father
    · simp [versionCreate]
    · simp [versionCreate]
    · simp [versionCreate]
  · rcases father with _ | i | _
    · simp [projectCreate]
    · rcases hi : s.versions[i]? with _ | vi
      · simp [projectCreate, hi]
      · simp [projectCreate, hi]
    · simp [projectCreate]

/-- Going through a directory, when the nested calls come back. -/
theorem ensures_dirLoop (hnames : ∀ name ∈ names, fs.LstatsAt d name)
    (hnested : ∀ name ∈ names, fs.IsSubdir d name → ∀ son vs,
      Ensures (nested name son) (fun _ s => s.cwd = d) ⟨d, vs⟩) :
    Ensures (dirLoop fs nested father depth statbuf names) (fun _ s => s.cwd = d) ⟨d, vs⟩ := by
  induction names generalizing statbuf vs with
  | nil => exact ensures_pure.2 rfl
  | cons name names ih =>
    obtain ⟨⟨isDir, hlstat, hdir⟩, hnames⟩ := List.forall_mem_cons.1 hnames
    obtain ⟨hname, hnested⟩ := List.forall_mem_cons.1 hnested
    have hrest (statbuf : Option Bool) (s : Boot) (hs : s.cwd = d) :
        Ensures (dirLoop fs nested father depth statbuf names) (fun _ s => s.cwd = d) s := by
      obtain ⟨cwd, vs⟩ := s
      cases hs
      exact ih hnames hnested
    rw [dirLoop, ensures_bind, ensures_get]
    simp only [hlstat, Option.some_or]
    cases isDir with
    | false => exact hrest _ _ rfl
    | true =>
      rw [ensures_ite]
      split_ifs with hhidden
      · exact hrest _ _ rfl
      · have hsub : fs.IsSubdir d name := ⟨hhidden, (hdir hhidden).symm⟩
        -- Below the table there is nothing to be called, and at its null the loop breaks off.
        rcases hcallback : initCallbacks[depth]? with _ | _ | callback
        · exact ensures_halt.2 trivial
        · exact ensures_pure.2 rfl
        · rw [ensures_bind]
          refine (ensures_callback (List.mem_of_getElem? hcallback) _).mono ?_
          rintro (_ | son) ⟨cwd, vs'⟩ ⟨⟩
          · exact ensures_pure.2 rfl
          · rw [ensures_bind]
            exact (hname hsub son vs').mono fun _ s' hs' => hrest _ _ hs'

/-- A call for a directory in the current one comes back to it, at any depth. -/
theorem ensures_forAllDirs (h : fs.Readable root) (hd : root <+: d)
    (hnames : fs.opendir d = some names) (hname : name ∈ names) (hsub : fs.IsSubdir d name) :
    Ensures (forAllDirs fs n name father depth) (fun _ s => s.cwd = d) ⟨d, vs⟩ := by
  induction n generalizing d names name father depth vs with
  | zero => exact ensures_halt.2 trivial
  | succ n ih =>
    obtain ⟨names', hnames'⟩ := Option.isSome_iff_exists.1 hsub.2
    have hd' : root <+: d ++ [name] := hd.trans (List.prefix_append _ _)
    have hwalk := hsub.walk_eq (h.name hd hnames name hname)
    have hback : (d ++ [name]).walk "..".toList = d := by
      rw [Dir.walk_dotdot, List.dropLast_concat]
    rw [forAllDirs, ensures_bind, ensures_get]
    simp only [hwalk, hnames']
    rw [ensures_bind, chdir, ensures_modify, hwalk, if_pos (h.chdir hd' hnames'), ensures_bind]
    refine (ensures_dirLoop (h.lstat hd' hnames') fun name' hname' hsub' son vs' =>
      ih hd' hnames' hname' hsub').mono ?_
    intro _ s hs
    rw [ensures_bind, chdir, ensures_modify, ensures_pure, hs, hback, if_pos (h.chdir hd hnames)]

/-- Creating a version from the name of its directory gives the same one. -/
theorem versionCreate_dirName (name : CString) :
    Mksh.versionCreate (Mksh.versionCreate name).dirName = Mksh.versionCreate name := by
  simp only [Mksh.versionCreate, List.map_map, VersionInf.mk.injEq, true_and, and_true]
  refine ⟨List.map_congr_left fun c _ => ?_, List.map_congr_left fun c _ => ?_⟩
  · rcases eq_or_ne c '/' with rfl | hc
    · rfl
    · simp [hc]
  · rcases eq_or_ne c '/' with rfl | hc
    · rfl
    · simp [hc]

/-- Started anywhere, the walk ends with a version for each directory below the
    root one, and a project for each directory in it; whatever call is made for a
    directory in the current one comes back to it; and a version that is created
    from the name of its directory is the same one. -/
theorem allVersionsInit_walk {cwd : Dir} (h : fs.Readable (cwd.walk rootDir))
    (hopen : (fs.opendir (cwd.walk rootDir)).isSome) (hn : 3 ≤ n) :
    Achieves (allVersionsInit fs n) (fun _ s =>
        s.versions = Mksh.allVersionsInit (fs.dirs (cwd.walk rootDir))) ⟨cwd, vs⟩ ∧
      (∀ d names name k father depth vs, cwd.walk rootDir <+: d → fs.opendir d = some names →
        name ∈ names → fs.IsSubdir d name →
        Ensures (forAllDirs fs k name father depth) (fun _ s => s.cwd = d) ⟨d, vs⟩) ∧
      ∀ name, Mksh.versionCreate (Mksh.versionCreate name).dirName = Mksh.versionCreate name := by
  obtain ⟨k, rfl⟩ := Nat.exists_eq_add_of_le' hn
  refine ⟨achieves_allVersionsInit h hopen, ?_, versionCreate_dirName⟩
  intro d names name k father depth vs hd hnames hname hsub
  exact ensures_forAllDirs h hd hnames hname hsub

/-- A file and a version, in which there are a project and a hidden directory. -/
def sampleDir (d : Dir) : Option (List CString) :=
  if d = Dir.walk [] rootDir then some ["..".toList, "README".toList, "2.6+soho".toList]
  else if d = Dir.walk [] rootDir ++ ["2.6+soho".toList] then
    some [".svn".toList, "kernel".toList]
  else if d = Dir.walk [] rootDir ++ ["2.6+soho".toList, "kernel".toList] then some []
  else none

/-- A file system with a version, a project and a file, in which directories can be entered. -/
def sample : FileSystem where
  opendir := sampleDir
  lstat d := some (sampleDir d).isSome
  chdir d := (sampleDir d).isSome

/-- The directories of the sample can be read. -/
theorem sample_readable : sample.Readable (Dir.walk [] rootDir) where
  chdir _ hopen := congrArg Option.isSome hopen
  name {d names} _ hopen := by
    simp only [sample, sampleDir] at hopen
    split_ifs at hopen
    · cases hopen
      decide
    · cases hopen
      decide
    · cases hopen
      decide
  lstat {d names} _ hopen name hname := by
    refine ⟨_, rfl, ?_⟩
    simp only [sample, sampleDir] at hopen
    split_ifs at hopen with hd hd hd
    · cases hopen
      subst hd
      revert name
      decide
    · cases hopen
      subst hd
      revert name
      decide
    · cases hopen
      cases hname

/-- Of the sample, the version is registered with its project. -/
theorem allVersionsInit_walk_sample : Achieves (allVersionsInit sample 3) (fun _ s =>
    s.versions = [⟨[], "2.6/soho".toList, "2.6+soho".toList, [⟨"kernel".toList⟩]⟩]) ⟨[], []⟩ :=
  (allVersionsInit_walk sample_readable rfl le_rfl).1

end Walk

end Mksh
