import Mksh.Cmd.Heap.Layout

/-!
# The registry at the start

`for_all_dirs` goes through the directories below the root one, and through those in
them, and creates a version or a project for each. Hidden directories are left out, and
so are those further down. What is in memory then is what the names of the directories
say (`achieves_allVersionsInit`).
-/

namespace Mksh

namespace Heap

open CString Process Memory

variable {W : Type} {reg : RegistryAt}

/-- The directories among some entries, with what they have, but for hidden ones. -/
def subdirs (entries : List Entry) : List (CString × Option (List Entry)) :=
  entries.filterMap fun
    | .file _ => none
    | .dir name dir => if name.head? = some '.' then none else some (name, dir)

/-- The names of the subdirectories, in the order in which they are read. -/
def dirNames (dir : Option (List Entry)) : List CString := (subdirs (dir.getD [])).map Prod.fst

/-- The directories below the root one, and the directories in them. -/
def registryDirs (root : Option (List Entry)) : List (CString × List CString) :=
  (subdirs (root.getD [])).map fun d => (d.1, dirNames d.2)

/-- Nothing is created below the projects. -/
theorem uses_forAllDirs_nil (dir : Option (List Entry)) (father : Option ℕ) :
    Uses 0 (forAllDirs [] dir father) fun _ s' => s' = 0 := by
  cases dir with
  | none => exact uses_pure rfl
  | some entries =>
    refine uses_bind ?_
    induction entries with
    | nil => exact uses_pure (uses_pure rfl)
    | cons e entries ih =>
      cases e with
      | file name => exact ih
      | dir name dir => exact uses_ite (fun _ => ih) fun _ => uses_pure (uses_pure rfl)

/-- The projects of a version are created. -/
theorem uses_dirLoop_project (entries : List Entry) (v : VersionAt) :
    Uses v.blocks (dirLoop (some projectCreate) (forAllDirs []) (some v.addr) entries) fun _ s' =>
      ∃ ps : List ProjectAt, ps.map ProjectAt.inf =
        ((subdirs entries).map Prod.fst).map Mksh.projectCreate ∧
          s' = VersionAt.blocks { v with projects := v.projects ++ ps } := by
  -- Each directory that is not hidden adds a project to the list of the version, so that the
  -- induction is over all versions.
  induction entries generalizing v with
  | nil => exact uses_pure ⟨[], rfl, by rw [List.append_nil]⟩
  | cons e entries ih =>
    cases e with
    | file name => exact ih v
    | dir name dir =>
      by_cases hhidden : name.head? = some '.'
      · have hsub : subdirs (.dir name dir :: entries) = subdirs entries :=
          List.filterMap_cons_none (if_pos hhidden)
        rw [hsub, dirLoop, if_pos hhidden]
        exact ih v
      · have hsub : subdirs (.dir name dir :: entries) = (name, dir) :: subdirs entries :=
          List.filterMap_cons_some (if_neg hhidden)
        rw [hsub, dirLoop, if_neg hhidden]
        refine uses_bind ((uses_projectCreate name v).mono ?_)
        rintro _ _ ⟨p, rfl, hp, rfl⟩
        -- There is no callback below a project.
        refine uses_bind ((uses_forAllDirs_nil dir (some p.addr)).frame (zero_add _).symm ?_)
        rintro _ _ rfl
        rw [zero_add]
        refine (ih { v with projects := v.projects ++ [p] }).mono ?_
        rintro _ _ ⟨ps, hps, rfl⟩
        refine ⟨p :: ps, ?_, ?_⟩
        · rw [List.map_cons, List.map_cons, List.map_cons, hp, hps]
        · simp only [List.append_assoc, List.singleton_append]

/-- The versions are created, with their projects. -/
theorem uses_dirLoop_version (entries : List Entry) (reg : RegistryAt) :
    Uses reg.blocks (dirLoop (some versionCreate) (forAllDirs [projectCreate]) (some reg.addr)
      entries) fun _ s' => ∃ vs : List VersionAt, vs.map VersionAt.inf =
        Mksh.allVersionsInit ((subdirs entries).map fun d => (d.1, dirNames d.2)) ∧
          s' = RegistryAt.blocks { reg with versions := reg.versions ++ vs } := by
  induction entries generalizing reg with
  | nil => exact uses_pure ⟨[], rfl, by rw [List.append_nil]⟩
  | cons e entries ih =>
    cases e with
    | file name => exact ih reg
    | dir name dir =>
      by_cases hhidden : name.head? = some '.'
      · have hsub : subdirs (.dir name dir :: entries) = subdirs entries :=
          List.filterMap_cons_none (if_pos hhidden)
        rw [hsub, dirLoop, if_pos hhidden]
        exact ih reg
      · have hsub : subdirs (.dir name dir :: entries) = (name, dir) :: subdirs entries :=
          List.filterMap_cons_some (if_neg hhidden)
        rw [hsub, dirLoop, if_neg hhidden]
        refine uses_bind ((uses_versionCreate name reg).mono ?_)
        rintro _ _ ⟨v, rfl, hv, rfl⟩
        -- The walk below adds the projects to the new version, which is still the last one of the
        -- list.
        have hprojects : Uses v.blocks (forAllDirs [projectCreate] dir (some v.addr)) fun _ s' =>
            ∃ v' : VersionAt, v'.inf = { Mksh.versionCreate name with
              projects := (dirNames dir).map Mksh.projectCreate } ∧
                v'.addr = v.addr ∧ v'.node = v.node ∧ s' = v'.blocks := by
          cases dir with
          | none => exact uses_pure ⟨v, hv, rfl, rfl, rfl⟩
          | some entries =>
            refine uses_bind ((uses_dirLoop_project entries v).mono ?_)
            rintro _ _ ⟨ps, hps, rfl⟩
            refine uses_pure ⟨{ v with projects := v.projects ++ ps }, ?_, rfl, rfl, rfl⟩
            have hnone : v.projects.map ProjectAt.inf = [] := congrArg VersionInf.projects hv
            change { v.inf with projects := (v.projects ++ ps).map ProjectAt.inf } = _
            rw [hv, List.map_append, hnone, List.nil_append, hps]
            rfl
        have hlast : RegistryAt.versions { reg with versions := reg.versions ++ [v] } =
            reg.versions ++ v :: [] := rfl
        refine uses_bind (Uses.mono (uses_version hlast hprojects) ?_)
        rintro _ _ ⟨v', hv', -, rfl⟩
        refine (ih { reg with versions := reg.versions ++ [v'] }).mono ?_
        rintro _ _ ⟨vs, hvs, rfl⟩
        -- What the rest of the walk appends comes behind this version.
        refine ⟨v' :: vs, ?_, ?_⟩
        · rw [List.map_cons, hv', hvs]
          rfl
        · simp only [List.append_assoc, List.singleton_append]

/-- The memory at the start, and the list of versions, which is not there. -/
def Mk.start (sys : Sys W) : Mk W := ⟨none, .empty, sys⟩

/-- What is done in memory logs nothing. -/
theorem log_heap {α : Type} (p : Option ℕ → HeapProcess α) (c : Mk W) : (heap p).log c = [] := by
  have hlog : (p c.versions).log c.memory = [] := List.eq_nil_iff_forall_not_mem.2 fun e _ => e.elim
  change ((p c.versions).log c.memory).map Empty.elim = []
  rw [hlog]
  rfl

theorem logs_heap {α : Type} {P : SysEvent → Prop} {p : Option ℕ → HeapProcess α} {c : Mk W} :
    Logs P (heap p) c ↔ True := by
  rw [Logs, log_heap]
  exact iff_true_intro fun _ h => absurd h List.not_mem_nil

/-- At the start, nothing is logged. -/
theorem log_allVersionsInit (root : Option (List Entry)) (c : Mk W) :
    (allVersionsInit root).log c = [] := by
  have hlogs : Logs (fun _ => False) (allVersionsInit root) c := by
    simp [allVersionsInit, logs_heap]
  exact List.eq_nil_iff_forall_not_mem.2 fun e he => hlogs e he

/-- What can be done with the blocks that the memory holds is achieved. -/
theorem achieves_heap {α : Type} {p : Option ℕ → HeapProcess α} {c : Mk W}
    {S : α → Multiset (ℕ × Block) → Prop} {s : Multiset (ℕ × Block)} (hm : c.memory.Holds s)
    (hp : Uses s (p c.versions) S) :
    Achieves (heap p) (fun a c' => ∃ t m, S a t ∧ m.Holds t ∧ c' = { c with memory := m }) c := by
  rw [← add_zero s] at hm
  rw [heap, achieves_zoom]
  refine (hp c.memory 0 hm).mono ?_
  rintro a m ⟨t, ht, hm⟩
  rw [add_zero] at hm
  exact ⟨t, m, ht, hm, rfl⟩

/-- What is in memory at the start. -/
theorem achieves_allVersionsInit (root : Option (List Entry)) (sys : Sys W) :
    Achieves (allVersionsInit root) (fun _ c => ∃ reg : RegistryAt, c.versions = some reg.addr ∧
      c.memory.Holds reg.blocks ∧ reg.infs = Mksh.allVersionsInit (registryDirs root) ∧
        c.sys = sys) (Mk.start sys) := by
  refine achieves_bind.2 ((achieves_heap (s := 0) holds_empty
    (uses_new (Q := fun ret t => ∃ a, ret = some a ∧
      t = (a, Block.list ⟨none, none, 0, none⟩) ::ₘ 0) fun a => ⟨a, rfl, rfl⟩)).mono ?_)
  rintro _ _ ⟨_, m, ⟨a, rfl, rfl⟩, hm, rfl⟩
  refine achieves_bind.2 (achieves_modify.2 (achieves_bind.2 ((achieves_heap hm
    (Kind.uses_update (k := listKind) (x := ⟨none, none, 0, none⟩) (Q := fun _ t =>
      t = RegistryAt.blocks ⟨a, []⟩) rfl rfl)).mono ?_)))
  rintro _ _ ⟨_, m, rfl, hm, rfl⟩
  have hdirs : Uses (RegistryAt.blocks ⟨a, []⟩) (forAllDirs initCallbacks root (some a))
      fun _ t => ∃ vs : List VersionAt, vs.map VersionAt.inf =
        Mksh.allVersionsInit (registryDirs root) ∧ t = RegistryAt.blocks ⟨a, vs⟩ := by
    cases root with
    | none => exact uses_pure ⟨[], rfl, rfl⟩
    | some entries => exact uses_bind ((uses_dirLoop_version entries ⟨a, []⟩).mono
        fun _ _ h => uses_pure h)
  refine achieves_bind.2 ((achieves_heap hm hdirs).mono ?_)
  rintro _ _ ⟨_, m, ⟨vs, hvs, rfl⟩, hm, rfl⟩
  exact achieves_pure.2 ⟨⟨a, vs⟩, rfl, hm, hvs, rfl⟩

end Heap

end Mksh
