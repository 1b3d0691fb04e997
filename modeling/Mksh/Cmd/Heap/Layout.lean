import Mksh.Cmd.Heap.Lists

/-!
# The blocks of the registry

Where the registry is in memory (`RegistryAt`): the addresses of its records, strings,
lists and nodes, with what the records say. Its blocks are determined by this. The
functions of `mk.c` need no other blocks, and what they leave are the blocks of the
registry after them: those that create append a record, those that find leave
everything as it is, and those that free leave nothing.
-/

namespace Mksh

namespace Heap

open CString Process Memory

/-- Where a project is: its record, the node that lists it, and its name. -/
structure ProjectAt where
  addr : ℕ
  node : ℕ
  str : ℕ
  inf : ProjectInf

/-- Where a version is, with its projects. -/
structure VersionAt where
  addr : ℕ
  node : ℕ
  nameStr : ℕ
  dirStr : ℕ
  list : ℕ
  arch : CString
  name : CString
  dirName : CString
  projects : List ProjectAt

/-- The registry with its addresses: that of the list, and the versions. -/
structure RegistryAt where
  addr : ℕ
  versions : List VersionAt

/-- The version without its addresses. -/
def VersionAt.inf (v : VersionAt) : VersionInf :=
  ⟨v.arch, v.name, v.dirName, v.projects.map ProjectAt.inf⟩

/-- The versions without their addresses. -/
def RegistryAt.infs (reg : RegistryAt) : List VersionInf := reg.versions.map VersionAt.inf

/-! ## Blocks -/

/-- The blocks of a project: its record and its name. -/
def ProjectAt.blocks (version : ℕ) (p : ProjectAt) : Multiset (ℕ × Block) :=
  (p.addr, .project ⟨some p.str, p.inf.attribute, some version⟩) ::ₘ
    (p.str, .string p.inf.name) ::ₘ 0

/-- What the block of a version holds. -/
def VersionAt.record (v : VersionAt) : Block :=
  .version ⟨v.arch, some v.nameStr, some v.dirStr, v.inf.attribute, some v.list⟩

/-- The blocks of the projects of a version, and of their list. -/
def VersionAt.projectBlocks (v : VersionAt) : Multiset (ℕ × Block) :=
  listBlocks v.list .projectFree (v.projects.map fun p => (p.node, p.addr)) +
    itemBlocks (ProjectAt.blocks v.addr) v.projects

/-- The blocks of a version: its record, its two names, and those of its projects. -/
def VersionAt.blocks (v : VersionAt) : Multiset (ℕ × Block) :=
  (v.addr, v.record) ::ₘ (v.nameStr, .string v.name) ::ₘ (v.dirStr, .string v.dirName) ::ₘ
    v.projectBlocks

/-- All the blocks of the registry. -/
def RegistryAt.blocks (reg : RegistryAt) : Multiset (ℕ × Block) :=
  listBlocks reg.addr .versionFree (reg.versions.map fun v => (v.node, v.addr)) +
    itemBlocks VersionAt.blocks reg.versions

variable {s : Multiset (ℕ × Block)} {p : ProjectAt} {v : VersionAt} {reg : RegistryAt}
  {name str : CString} {a n depth : ℕ} {c d : Char}

/-- The blocks of an item are among those of all. -/
theorem mem_itemBlocks {ι : Type} {blocks : ι → Multiset (ℕ × Block)} {items : List ι} {i : ι}
    {x : ℕ × Block} (hi : i ∈ items) (hx : x ∈ blocks i) : x ∈ itemBlocks blocks items := by
  obtain ⟨l, l', rfl⟩ := List.append_of_mem hi
  rw [itemBlocks_append, itemBlocks_cons]
  exact Multiset.mem_add.2 (.inr (Multiset.mem_add.2 (.inl hx)))

/-! ## Freeing -/

/-- Freeing a project frees its blocks, each once. -/
theorem uses_projectFree (version : ℕ) (p : ProjectAt) :
    Uses (p.blocks version) (projectFree (some p.addr)) fun _ s' => s' = 0 := by
  refine uses_bind (Kind.uses_read (k := projectKind) (Multiset.mem_cons_self _ _) ?_)
  refine uses_bind (uses_free (Multiset.cons_swap _ _ _) ?_)
  exact uses_free rfl rfl

/-- Freeing a version frees its blocks, each once, with those of its projects. -/
theorem uses_versionFree (depth : ℕ) (v : VersionAt) :
    Uses v.blocks (versionFree (callDel (depth + 1)) (some v.addr)) fun _ s' => s' = 0 := by
  have hprojects : Uses v.projectBlocks (listDelete (callDel (depth + 1)) (some v.list))
      fun _ s' => s' = 0 := uses_listDelete fun p _ => uses_projectFree v.addr p
  refine uses_bind (Kind.uses_read (k := versionKind) (Multiset.mem_cons_self _ _) ?_)
  refine uses_bind (uses_free (Multiset.cons_swap _ _ _) ?_)
  refine uses_bind (uses_free (Multiset.cons_swap _ _ _) ?_)
  refine uses_bind (hprojects.frame (r := {(v.addr, v.record)}) ?_ ?_)
  · rw [add_comm]
    rfl
  · rintro _ _ rfl
    exact uses_free rfl rfl

/-- Two calls inside each other are enough to free the registry. -/
theorem uses_finit (depth : ℕ) (reg : RegistryAt) :
    Uses reg.blocks (listDelete (callDel (depth + 2)) (some reg.addr)) fun _ s' => s' = 0 :=
  uses_listDelete fun v _ => uses_versionFree depth v

/-! ## Names -/

/-- The loop replaces the character in the rest of the string, as often as it is there. -/
theorem uses_replaceLoop (hcd : c ≠ d) {s t : CString} {r : Multiset (ℕ × Block)}
    (hn : t.count c < n) :
    Uses ((a, .string (s ++ t)) ::ₘ r) (replaceLoop c d (some a) n s.length) fun _ s' =>
      s' = (a, .string (s ++ t.map fun x => if x = c then d else x)) ::ₘ r := by
  induction n generalizing s t with
  | zero => exact absurd hn (Nat.not_lt_zero _)
  | succ n ih =>
    refine uses_bind (Kind.uses_read (k := stringKind) (Multiset.mem_cons_self _ _) ?_)
    rw [List.drop_left]
    by_cases hc : c ∈ t
    · -- The first one is replaced, and the search goes on there.
      obtain ⟨u, t, rfl, hu⟩ := List.eq_append_cons_of_mem hc
      rw [strchr_append hu]
      have hset : (s ++ (u ++ c :: t)).set (s.length + u.length) d = s ++ u ++ d :: t := by
        rw [← List.append_assoc, ← List.length_append, List.set_append_right _ _ le_rfl,
          Nat.sub_self, List.set_cons_zero]
      have hmap : (u ++ c :: t).map (fun x => if x = c then d else x) =
          u ++ (d :: t).map fun x => if x = c then d else x := by
        have hid : u.map (fun x => if x = c then d else x) = u :=
          (List.map_congr_left fun x hx => if_neg (ne_of_mem_of_not_mem hx hu)).trans
            (List.map_id u)
        rw [List.map_append, hid, List.map_cons, List.map_cons, if_pos rfl, if_neg hcd.symm]
      have hcount : (d :: t).count c < n := by
        rw [List.count_cons_of_ne hcd.symm]
        rw [List.count_append, List.count_cons_self] at hn
        omega
      have hrest := ih (s := s ++ u) hcount
      rw [List.length_append] at hrest
      refine uses_bind (Kind.uses_update (k := stringKind) rfl ?_)
      rw [hset, hmap, ← List.append_assoc s u]
      exact hrest
    · have hnone : strchr t c = none := List.findIdx?_eq_none_iff.2 fun x hx =>
        decide_eq_false (ne_of_mem_of_not_mem hx hc)
      have hid : t.map (fun x => if x = c then d else x) = t :=
        (List.map_congr_left fun x hx => if_neg (ne_of_mem_of_not_mem hx hc)).trans (List.map_id t)
      rw [hnone, hid]
      exact uses_pure rfl

/-- The character is replaced in the whole string. -/
theorem uses_replaceAll (hcd : c ≠ d) (str : CString) {r : Multiset (ℕ × Block)}
    {Q : Unit → Multiset (ℕ × Block) → Prop} (hs : s = (a, .string str) ::ₘ r)
    (h : Q () ((a, .string (str.map fun x => if x = c then d else x)) ::ₘ r)) :
    Uses s (replaceAll c d (some a)) Q := by
  subst hs
  refine uses_bind (Kind.uses_read (k := stringKind) (Multiset.mem_cons_self _ _) ?_)
  refine (uses_replaceLoop (s := []) hcd (Nat.lt_succ_of_le List.count_le_length)).mono ?_
  rintro _ _ rfl
  exact h

/-! ## Creating -/

/-- A project is created at the end of those of a version. -/
theorem uses_projectCreate (name : CString) (v : VersionAt) :
    Uses v.blocks (projectCreate name (some v.addr)) fun ret s' =>
      ∃ p : ProjectAt, ret = some p.addr ∧ p.inf = Mksh.projectCreate name ∧
        s' = VersionAt.blocks { v with projects := v.projects ++ [p] } := by
  refine uses_bind (uses_new fun pi => uses_bind (uses_new fun str => ?_))
  refine uses_bind (Kind.uses_update (k := projectKind) (Multiset.cons_swap _ _ _) ?_)
  refine uses_bind (Kind.uses_update rfl ?_)
  -- The list is found through the version that the project belongs to.
  refine uses_bind (Kind.uses_read (k := versionKind) (a := v.addr)
    (x := ⟨v.arch, some v.nameStr, some v.dirStr, v.inf.attribute, some v.list⟩) ?_ ?_)
  · exact Multiset.mem_cons_of_mem (Multiset.mem_cons_of_mem (Multiset.mem_cons_self _ _))
  refine uses_bind ((uses_listnodeAdd v.list pi .projectFree
    (v.projects.map fun p => (p.node, p.addr))
    (Q := fun _ s' => ∃ n, s' = listBlocks v.list .projectFree
      ((v.projects.map fun p => (p.node, p.addr)) ++ [(n, pi)])) fun n => ⟨n, rfl⟩).frame
    (r := (pi, .project ⟨some str, none, some v.addr⟩) ::ₘ (str, .string name) ::ₘ
      (v.addr, v.record) ::ₘ (v.nameStr, .string v.name) ::ₘ (v.dirStr, .string v.dirName) ::ₘ
        itemBlocks (ProjectAt.blocks v.addr) v.projects) ?_ ?_)
  · -- The list and its nodes are what `listnode_add` uses; the other blocks are the frame.
    rw [VersionAt.blocks, VersionAt.projectBlocks]
    simp only [← Multiset.singleton_add, projectKind]
    abel
  · rintro _ _ ⟨node, rfl⟩
    rw [add_comm, Multiset.cons_add, Multiset.cons_add]
    -- The family is found by the name, which is read back through the record.
    refine uses_bind (Kind.uses_read (k := projectKind) (Multiset.mem_cons_self _ _) ?_)
    refine uses_bind (Kind.uses_read (k := stringKind)
      (Multiset.mem_cons_of_mem (Multiset.mem_cons_self _ _)) ?_)
    refine uses_bind (Kind.uses_update rfl (uses_pure ?_))
    refine ⟨⟨pi, node, str, ⟨name⟩⟩, rfl, rfl, ?_⟩
    have hrecord : VersionAt.record { v with projects := v.projects ++ [⟨pi, node, str, ⟨name⟩⟩] } =
        v.record := rfl
    rw [VersionAt.blocks, VersionAt.projectBlocks, hrecord, List.map_append, itemBlocks_append,
      itemBlocks_cons, itemBlocks_nil]
    simp only [← Multiset.singleton_add, ProjectAt.blocks, ProjectInf.attribute, projectKind,
      List.map_cons, List.map_nil]
    abel

/-- A version is created at the end of the registry. -/
theorem uses_versionCreate (name : CString) (reg : RegistryAt) :
    Uses reg.blocks (versionCreate name (some reg.addr)) fun ret s' =>
      ∃ v : VersionAt, ret = some v.addr ∧ v.inf = Mksh.versionCreate name ∧
        s' = RegistryAt.blocks { reg with versions := reg.versions ++ [v] } := by
  refine uses_bind (uses_new fun vi => uses_bind (uses_new fun str => ?_))
  refine uses_bind (Kind.uses_update (k := versionKind) (Multiset.cons_swap _ _ _) ?_)
  refine uses_bind (uses_new fun dir => ?_)
  refine uses_bind (Kind.uses_update (k := versionKind) (Multiset.cons_swap _ _ _) ?_)
  refine uses_bind (uses_new fun l => ?_)
  refine uses_bind (Kind.uses_update (k := versionKind) (Multiset.cons_swap _ _ _) ?_)
  refine uses_bind (Kind.uses_update (k := listKind) (Multiset.cons_swap _ _ _) ?_)
  -- The names of the version.
  refine uses_bind (uses_bind (Kind.uses_read (k := versionKind)
    (Multiset.mem_cons_of_mem (Multiset.mem_cons_self _ _)) ?_))
  refine uses_bind (uses_replaceAll (by decide) name (a := str)
    (r := (dir, .string name) ::ₘ (l, listOf .projectFree []) ::ₘ
      (vi, .version ⟨[], some str, some dir, none, some l⟩) ::ₘ reg.blocks) ?_ ?_)
  · simp only [← Multiset.singleton_add, versionKind, listKind, listOf_nil]
    abel
  refine uses_replaceAll (by decide) name (Multiset.cons_swap _ _ _) ?_
  refine uses_bind ((uses_listnodeAdd reg.addr vi .versionFree
    (reg.versions.map fun v => (v.node, v.addr))
    (Q := fun _ s' => ∃ n, s' = listBlocks reg.addr .versionFree
      ((reg.versions.map fun v => (v.node, v.addr)) ++ [(n, vi)])) fun n => ⟨n, rfl⟩).frame
    (r := (vi, .version ⟨[], some str, some dir, none, some l⟩) ::ₘ
      (str, .string (Mksh.versionCreate name).name) ::ₘ
      (dir, .string (Mksh.versionCreate name).dirName) ::ₘ (l, listOf .projectFree []) ::ₘ
        itemBlocks VersionAt.blocks reg.versions) ?_ ?_)
  · rw [RegistryAt.blocks]
    simp only [← Multiset.singleton_add, Mksh.versionCreate]
    abel
  · rintro _ _ ⟨node, rfl⟩
    rw [add_comm, Multiset.cons_add, Multiset.cons_add]
    refine uses_bind (Kind.uses_read (k := versionKind) (Multiset.mem_cons_self _ _) ?_)
    refine uses_bind (Kind.uses_read (k := stringKind)
      (Multiset.mem_cons_of_mem (Multiset.mem_cons_self _ _)) ?_)
    refine uses_bind (Kind.uses_update rfl (uses_pure ?_))
    refine ⟨⟨vi, node, str, dir, l, [], (Mksh.versionCreate name).name,
      (Mksh.versionCreate name).dirName, []⟩, rfl, rfl, ?_⟩
    rw [RegistryAt.blocks, List.map_append, itemBlocks_append, itemBlocks_cons, itemBlocks_nil]
    simp only [← Multiset.singleton_add, VersionAt.blocks, VersionAt.projectBlocks, listBlocks,
      VersionAt.record, VersionAt.inf, VersionInf.attribute, versionKind, List.map_cons,
      List.map_nil, itemBlocks_nil, nodeSegment]
    abel

/-! ## Finding -/

theorem nodeSegment_subset {del : Del} {cells : List (ℕ × ℕ)} :
    nodeSegment nodeOf none cells none ⊆ listBlocks a del cells := fun _ => Multiset.mem_cons_of_mem

/-- The blocks of a project are among those of its version. -/
theorem projectBlocks_subset (hp : p ∈ v.projects) : p.blocks v.addr ⊆ v.blocks := fun _ hx =>
  Multiset.mem_cons_of_mem (Multiset.mem_cons_of_mem (Multiset.mem_cons_of_mem
    (Multiset.mem_add.2 (.inr (mem_itemBlocks hp hx)))))

/-- Looking for a project finds the first one of the name, and leaves the blocks. -/
theorem uses_projectFind (name : CString) (v : VersionAt) :
    Uses v.blocks (projectFind name (some v.addr)) fun ret s' =>
      ret = (v.projects.find? fun p => strcmp name p.inf.name = 0).map ProjectAt.addr ∧
        s' = v.blocks := by
  have hlist : listBlocks v.list .projectFree (v.projects.map fun p => (p.node, p.addr)) ⊆
      v.blocks := fun x hx => Multiset.mem_cons_of_mem (Multiset.mem_cons_of_mem
    (Multiset.mem_cons_of_mem (Multiset.mem_add.2 (.inl hx))))
  refine uses_bind (Kind.uses_read (k := versionKind) (Multiset.mem_cons_self _ _) ?_)
  refine uses_bind (Kind.uses_read (k := listKind) (hlist (Multiset.mem_cons_self _ _)) ?_)
  refine uses_get fun m hm => ?_
  refine uses_listLoop (p := fun p => decide (strcmp name p.inf.name = 0))
    (fun x hx => hlist (nodeSegment_subset hx)) (fun p hp => ?_) ?_ ⟨rfl, rfl⟩
  · refine uses_bind (Kind.uses_read (k := projectKind)
      (projectBlocks_subset hp (Multiset.mem_cons_self _ _)) ?_)
    refine uses_bind (Kind.uses_read (k := stringKind)
      (projectBlocks_subset hp (Multiset.mem_cons_of_mem (Multiset.mem_cons_self _ _)))
      (uses_pure ⟨?_, rfl⟩))
    simp only [decide_eq_true_eq]
  · rw [VersionAt.blocks, VersionAt.projectBlocks, listBlocks] at hm
    simp only [Multiset.card_cons, Multiset.card_add, card_nodeSegment, List.length_map] at hm
    omega

/-- Looking for a version finds the first one of the name, and leaves the blocks. -/
theorem uses_versionFind (name : CString) (reg : RegistryAt) :
    Uses reg.blocks (versionFind name (some reg.addr)) fun ret s' =>
      ret = (reg.versions.find? fun v => strcmp name v.name = 0).map VersionAt.addr ∧
        s' = reg.blocks := by
  have hlist : listBlocks reg.addr .versionFree (reg.versions.map fun v => (v.node, v.addr)) ⊆
      reg.blocks := fun x hx => Multiset.mem_add.2 (.inl hx)
  have hitem {v : VersionAt} (hv : v ∈ reg.versions) : v.blocks ⊆ reg.blocks := fun x hx =>
    Multiset.mem_add.2 (.inr (mem_itemBlocks hv hx))
  refine uses_bind (Kind.uses_read (k := listKind) (hlist (Multiset.mem_cons_self _ _)) ?_)
  refine uses_get fun m hm => ?_
  refine uses_listLoop (p := fun v => decide (strcmp name v.name = 0))
    (fun x hx => hlist (nodeSegment_subset hx)) (fun v hv => ?_) ?_ ⟨rfl, rfl⟩
  · refine uses_bind (Kind.uses_read (k := versionKind) (hitem hv (Multiset.mem_cons_self _ _)) ?_)
    refine uses_bind (Kind.uses_read (k := stringKind)
      (hitem hv (Multiset.mem_cons_of_mem (Multiset.mem_cons_self _ _))) (uses_pure ⟨?_, rfl⟩))
    simp only [decide_eq_true_eq]
  · rw [RegistryAt.blocks, listBlocks] at hm
    simp only [Multiset.card_cons, Multiset.card_add, card_nodeSegment, List.length_map] at hm
    omega

/-! ## One version of many -/

/-- The blocks of the registry, apart from those of one version. -/
def RegistryAt.others (reg : RegistryAt) (l l' : List VersionAt) : Multiset (ℕ × Block) :=
  listBlocks reg.addr .versionFree (reg.versions.map fun v => (v.node, v.addr)) +
    itemBlocks VersionAt.blocks (l ++ l')

/-- The blocks of one version, and those of the others. -/
theorem blocks_eq {l l' : List VersionAt} (h : reg.versions = l ++ v :: l') :
    reg.blocks = v.blocks + reg.others l l' := by
  rw [RegistryAt.blocks, RegistryAt.others, h, itemBlocks_append, itemBlocks_append,
    itemBlocks_cons]
  abel

/-- What a process does to the blocks of a version, it does to those of the registry. -/
theorem uses_version {α : Type} {q : HeapProcess α} {Q : α → VersionAt → Prop}
    {l l' : List VersionAt} (hv : reg.versions = l ++ v :: l')
    (h : Uses v.blocks q fun ret s' => ∃ v' : VersionAt, Q ret v' ∧ v'.addr = v.addr ∧
      v'.node = v.node ∧ s' = v'.blocks) :
    Uses reg.blocks q fun ret s' => ∃ v' : VersionAt, Q ret v' ∧ v'.addr = v.addr ∧
      s' = RegistryAt.blocks { reg with versions := l ++ v' :: l' } := by
  refine h.frame (blocks_eq hv) ?_
  rintro ret _ ⟨v', hQ, haddr, hnode, rfl⟩
  refine ⟨v', hQ, haddr, ?_⟩
  have hothers : RegistryAt.others { reg with versions := l ++ v' :: l' } l l' =
      reg.others l l' := by
    simp only [RegistryAt.others, hv, List.map_append, List.map_cons, haddr, hnode]
  have hv' : RegistryAt.versions { reg with versions := l ++ v' :: l' } = l ++ v' :: l' := rfl
  rw [blocks_eq hv', hothers]

/-- What a process finds among the blocks of a version. -/
theorem uses_version_read {α : Type} {q : HeapProcess α} {P : α → Prop} {l l' : List VersionAt}
    (hv : reg.versions = l ++ v :: l')
    (h : Uses v.blocks q fun ret s' => P ret ∧ s' = v.blocks) :
    Uses reg.blocks q fun ret s' => P ret ∧ s' = reg.blocks := by
  refine h.frame (blocks_eq hv) ?_
  rintro ret _ ⟨hP, rfl⟩
  exact ⟨hP, (blocks_eq hv).symm⟩

/-! ## Reading -/

/-- Reading a version gives what its blocks hold. -/
theorem uses_readVersion (v : VersionAt) :
    Uses v.blocks (readVersion (some v.addr)) fun ret s' =>
      ret = { v.inf with projects := [] } ∧ s' = v.blocks := by
  refine uses_bind (Kind.uses_read (k := versionKind) (Multiset.mem_cons_self _ _) ?_)
  refine uses_bind (Kind.uses_read (k := stringKind)
    (Multiset.mem_cons_of_mem (Multiset.mem_cons_self _ _)) ?_)
  exact uses_bind (Kind.uses_read (k := stringKind)
    (Multiset.mem_cons_of_mem (Multiset.mem_cons_of_mem (Multiset.mem_cons_self _ _)))
    (uses_pure ⟨rfl, rfl⟩))

/-- Reading a project gives what its record holds. -/
theorem uses_readProject (hp : p ∈ v.projects) :
    Uses v.blocks (projectKind.read (some p.addr) : HeapProcess ProjectBlock) fun ret s' =>
      ret = ⟨some p.str, p.inf.attribute, some v.addr⟩ ∧ s' = v.blocks :=
  Kind.uses_read (k := projectKind) (projectBlocks_subset hp (Multiset.mem_cons_self _ _))
    ⟨rfl, rfl⟩

/-- Reading the name of a project. -/
theorem uses_readProjectName (hp : p ∈ v.projects) :
    Uses v.blocks (stringKind.read (some p.str) : HeapProcess CString) fun ret s' =>
      ret = p.inf.name ∧ s' = v.blocks :=
  Kind.uses_read (k := stringKind)
    (projectBlocks_subset hp (Multiset.mem_cons_of_mem (Multiset.mem_cons_self _ _))) ⟨rfl, rfl⟩

/-- Setting the architecture of a version changes its record. -/
theorem uses_setArch (arch : CString) (v : VersionAt) :
    Uses v.blocks (versionKind.update (fun v => { v with arch }) (some v.addr) : HeapProcess Unit)
      fun _ s' => s' = VersionAt.blocks { v with arch } := Kind.uses_update rfl rfl

end Heap

end Mksh
