import Mksh.Cmd.Heap.Dirs
import Mksh.Lib.Refine

/-!
# The registry in memory is the registry

What is proved of the registry as a list holds of the one in memory. A client gets
pointers from the functions of the registry, and passes them to others (`Api.run`). It
cannot tell the two registries apart: with positions for pointers, it does the same on
the list as with addresses in memory (`client_refines`). So no pointer dangles, and when
the registry is deleted in the end, every block is freed once, and none is left
(`allVersionsFinit_frees`).
-/

namespace Mksh

open CString Process Memory

/-! ## Clients -/

/-- The functions of the registry, with `V` for the pointers to versions, and `P` for
    those to projects. -/
structure Api (σ ε V P : Type) where
  versionGet (name : CString) : Process σ ε (Option V)
  projectGet (name : CString) (vi : V) : Process σ ε (Option P)
  setArch (vi : V) (arch : CString) : Process σ ε Unit
  versionUrl (vi : V) : Process σ ε CString
  projectUrl (pi : P) : Process σ ε CString

/-- A call, with the pointer it passes, by when this was got. -/
inductive ApiCall
  | versionGet (name : CString)
  | projectGet (name : CString) (k : ℕ)
  | setArch (k : ℕ) (arch : CString)
  | versionUrl (k : ℕ)
  | projectUrl (k : ℕ)

namespace Api

variable {σ ε V P : Type} (api : Api σ ε V P)

/-- The calls one after the other, given the pointers that have been got. A call is not
    made when there is no pointer to pass. -/
def run : List ApiCall → List V → List P → Process σ ε (List V × List P)
  | [], vs, ps => return (vs, ps)
  | .versionGet name :: calls, vs, ps => do
    let vi ← api.versionGet name
    run calls (vs ++ vi.toList) ps
  | .projectGet name k :: calls, vs, ps =>
    match vs[k]? with
    | none => run calls vs ps
    | some vi => do
      let pi ← api.projectGet name vi
      run calls vs (ps ++ pi.toList)
  | .setArch k arch :: calls, vs, ps =>
    match vs[k]? with
    | none => run calls vs ps
    | some vi => do
      api.setArch vi (arch.take (mkArchStrLen - 1))
      run calls vs ps
  | .versionUrl k :: calls, vs, ps =>
    match vs[k]? with
    | none => run calls vs ps
    | some vi => do
      let _ ← api.versionUrl vi
      run calls vs ps
  | .projectUrl k :: calls, vs, ps =>
    match ps[k]? with
    | none => run calls vs ps
    | some pi => do
      let _ ← api.projectUrl pi
      run calls vs ps

/-! A call with a pointer is made if there is one. -/

variable (calls : List ApiCall) (vs : List V) (ps : List P) (k : ℕ)

/-- A project is asked for if there is a pointer to its version. -/
theorem run_projectGet (name : CString) : api.run (.projectGet name k :: calls) vs ps =
    vs[k]?.elim (api.run calls vs ps) (fun vi => do
      let pi ← api.projectGet name vi
      api.run calls vs (ps ++ pi.toList)) := by
  rw [run]
  cases vs[k]? <;> rfl

/-- An architecture is set if there is a pointer to its version. -/
theorem run_setArch (arch : CString) : api.run (.setArch k arch :: calls) vs ps =
    vs[k]?.elim (api.run calls vs ps) (fun vi => do
      api.setArch vi (arch.take (mkArchStrLen - 1))
      api.run calls vs ps) := by
  rw [run]
  cases vs[k]? <;> rfl

/-- The URL of a version is read if there is a pointer to it. -/
theorem run_versionUrl : api.run (.versionUrl k :: calls) vs ps =
    vs[k]?.elim (api.run calls vs ps) (fun vi => do
      let _ ← api.versionUrl vi
      api.run calls vs ps) := by
  rw [run]
  cases vs[k]? <;> rfl

/-- The URL of a project is read if there is a pointer to it. -/
theorem run_projectUrl : api.run (.projectUrl k :: calls) vs ps =
    ps[k]?.elim (api.run calls vs ps) (fun pi => do
      let _ ← api.projectUrl pi
      api.run calls vs ps) := by
  rw [run]
  cases ps[k]? <;> rfl

end Api

variable {W : Type} (os : Os W)

/-- The registry in memory. The pointers are addresses. -/
def heapApi : Api (Heap.Mk W) SysEvent ℕ ℕ where
  versionGet := Heap.versionGet os
  projectGet name vi := Heap.projectGet os name (some vi)
  setArch vi := Heap.setArch (some vi)
  versionUrl vi := Heap.versionUrl (some vi)
  projectUrl pi := Heap.projectUrl (some pi)

/-- The registry as a list. The pointers are positions. -/
def listApi : Api (State (Session W)) ToolEvent ℕ (ℕ × ℕ) where
  versionGet := versionGet os
  projectGet name i := do
    let j ← projectGet os name i
    return j.map fun j => (i, j)
  setArch := setArch
  versionUrl i := do
    let vi ← versionAt i
    sys (versionUrl vi)
  projectUrl ij := do
    let (vi, pi) ← projectAt ij.1 ij.2
    sys (projectUrl vi pi)

namespace Heap

variable {os} {reg reg' : RegistryAt} {c : Mk W} {s : State (Session W)} {a i j : ℕ}
  {name : CString} {α β γ δ : Type}

/-! ## What is represented -/

/-- The memory holds the registry, the list of versions is what it says, and the
    system is the same. -/
structure Represents (reg : RegistryAt) (c : Mk W) (s : State (Session W)) : Prop where
  versions : c.versions = some reg.addr
  holds : c.memory.Holds reg.blocks
  infs : s.world.versions = reg.infs
  sys : c.sys = s.world.sys

/-- The address of the version at a position. -/
def VersionPtr (reg : RegistryAt) (a i : ℕ) : Prop := ∃ v, reg.versions[i]? = some v ∧ v.addr = a

/-- The address of the project at a position. -/
def ProjectPtr (reg : RegistryAt) (a : ℕ) (ij : ℕ × ℕ) : Prop :=
  ∃ v, reg.versions[ij.1]? = some v ∧ ∃ p, v.projects[ij.2]? = some p ∧ p.addr = a

/-- What was there is there, at the same address. -/
structure Extends (reg reg' : RegistryAt) : Prop where
  version {a i : ℕ} : VersionPtr reg a i → VersionPtr reg' a i
  project {a : ℕ} {ij : ℕ × ℕ} : ProjectPtr reg a ij → ProjectPtr reg' a ij

theorem Extends.refl (reg : RegistryAt) : Extends reg reg := ⟨id, id⟩

/-- A registry is extended by another version. -/
theorem extends_append (reg : RegistryAt) (v : VersionAt) :
    Extends reg { reg with versions := reg.versions ++ [v] } := by
  have hv' {i : ℕ} {v' : VersionAt} (h : reg.versions[i]? = some v') :
      (reg.versions ++ [v])[i]? = some v' :=
    (List.getElem?_append_left (List.getElem?_eq_some_iff.1 h).1).trans h
  refine ⟨?_, ?_⟩
  · rintro a i ⟨v', hi, ha⟩
    exact ⟨v', hv' hi, ha⟩
  · rintro a ij ⟨v', hi, hp⟩
    exact ⟨v', hv' hi, hp⟩

/-- Putting a version with the same projects, or more of them, in the place of one. -/
theorem extends_update {l l' : List VersionAt} {v v' : VersionAt} {ps : List ProjectAt}
    (hv : reg.versions = l ++ v :: l') (haddr : v'.addr = v.addr)
    (hprojects : v'.projects = v.projects ++ ps) :
    Extends reg { reg with versions := l ++ v' :: l' } := by
  have hat {i : ℕ} {w : VersionAt} (h : reg.versions[i]? = some w) :
      ∃ w', (l ++ v' :: l')[i]? = some w' ∧ w'.addr = w.addr ∧
        ∃ ps', w'.projects = w.projects ++ ps' := by
    rw [hv] at h
    -- The version at the place is the updated one, the others are those of before.
    rcases lt_trichotomy i l.length with hlt | rfl | hgt
    · rw [List.getElem?_append_left hlt] at h ⊢
      exact ⟨w, h, rfl, [], (List.append_nil _).symm⟩
    · rw [List.getElem?_append_right le_rfl, Nat.sub_self] at h ⊢
      cases h
      exact ⟨v', rfl, haddr, ps, hprojects⟩
    · obtain ⟨k, rfl⟩ := Nat.exists_eq_add_of_lt hgt
      rw [List.getElem?_append_right hgt.le, Nat.add_assoc, Nat.add_sub_cancel_left] at h ⊢
      exact ⟨w, h, rfl, [], (List.append_nil _).symm⟩
  refine ⟨?_, ?_⟩
  · rintro a i ⟨w, hi, ha⟩
    obtain ⟨w', hw', hw, -⟩ := hat hi
    exact ⟨w', hw', hw.trans ha⟩
  · rintro a ij ⟨w, hi, p, hj, ha⟩
    obtain ⟨w', hw', -, ps', hps⟩ := hat hi
    refine ⟨w', hw', p, ?_, ha⟩
    rw [hps]
    exact (List.getElem?_append_left (List.getElem?_eq_some_iff.1 hj).1).trans hj

/-- What is found, and where. -/
theorem find?_cases {ι : Type} (p : ι → Bool) (l : List ι) :
    (l.findIdx? p = none ∧ l.find? p = none) ∨
      ∃ i x, l.findIdx? p = some i ∧ l[i]? = some x ∧ l.find? p = some x := by
  rw [List.find?_eq_bind_findIdx?_getElem?]
  rcases hi : l.findIdx? p with _ | i
  · exact .inl ⟨rfl, rfl⟩
  · have hlt := (List.findIdx?_eq_some_iff_getElem.1 hi).1
    exact .inr ⟨i, l[i], rfl, List.getElem?_eq_getElem hlt, List.getElem?_eq_getElem hlt⟩

/-! ## Steps -/

/-- What is left represents a registry that extends the one before, with results that
    `V` relates. -/
def Keeps (reg : RegistryAt) (V : RegistryAt → α → β → Prop) (a : α) (c' : Mk W) (b : β)
    (s' : State (Session W)) : Prop :=
  ∃ reg', Extends reg reg' ∧ Represents reg' c' s' ∧ V reg' a b

/-- What can be done with the blocks of the registry is achieved. -/
theorem Represents.achieves_heap (h : Represents reg c s) {p : Option ℕ → HeapProcess α}
    {S : α → Multiset (ℕ × Block) → Prop} (hp : Uses reg.blocks (p (some reg.addr)) S) :
    Achieves (heap p) (fun a c' => ∃ t m, S a t ∧ m.Holds t ∧ c' = { c with memory := m }) c :=
  Heap.achieves_heap h.holds (h.versions ▸ hp)

/-- A step in memory. -/
theorem Represents.left (h : Represents reg c s) {p : Option ℕ → HeapProcess α}
    {p' : α → MkProcess W β} {q : Handler W γ} {R : β → Mk W → γ → State (Session W) → Prop}
    {S : α → Multiset (ℕ × Block) → Prop} (hp : Uses reg.blocks (p (some reg.addr)) S)
    (h' : ∀ a t m, S a t → m.Holds t →
      Simulates ToolEvent.sys (p' a) q R { c with memory := m } s) :
    Simulates ToolEvent.sys (heap p >>= p') q R c s := by
  refine Simulates.left (log_heap p c) (h.achieves_heap hp) ?_
  rintro a _ ⟨t, m, ht, hm, rfl⟩
  exact h' a t m ht hm

/-- An action on the system. -/
theorem Represents.action (h : Represents reg c s) {p p' : Action W α} (hp : p' = p) :
    Simulates ToolEvent.sys (action p) (Mksh.sys p') (fun a c' b s' => a = b ∧ Represents reg c' s')
      c s := by
  refine Simulates.mono (simulates_zoom (fun _ => rfl) h.sys.symm hp) ?_
  rintro a _ b _ ⟨rfl, x, rfl, rfl⟩
  exact ⟨rfl, h.versions, h.holds, h.infs, rfl⟩

/-- Another memory with the same blocks represents the same. -/
theorem Represents.setMemory (h : Represents reg c s) {m : Memory Block}
    (hm : m.Holds reg.blocks) : Represents reg { c with memory := m } s :=
  ⟨h.versions, hm, h.infs, h.sys⟩

/-- Asking for a version: in memory it is found, or created, as in the list. -/
theorem versionGet_refines (h : Represents reg c s) (name : CString) :
    Simulates ToolEvent.sys (versionGet os name) (Mksh.versionGet os name)
      (Keeps reg fun reg' => Option.Rel (VersionPtr reg')) c s := by
  refine h.left (uses_versionFind name reg) ?_
  rintro ret _ m ⟨rfl, rfl⟩ hm
  have h := h.setMemory hm
  refine Simulates.right (rfl : (get : Handler W _) s = ([], some (s, s))) ?_
  dsimp only
  -- The search compares the strings in memory, which are the names of the list.
  have hfind : Mksh.versionFind name s.world.versions =
      reg.versions.findIdx? fun v => strcmp name v.name = 0 := by
    rw [h.infs, Mksh.versionFind, RegistryAt.infs, List.findIdx?_map]
    rfl
  rcases find?_cases (fun v : VersionAt => decide (strcmp name v.name = 0)) reg.versions with
    ⟨hi, hv⟩ | ⟨i, v, hi, hv, hfound⟩
  · rw [hfind, hi, hv]
    refine (h.action rfl).bind ?_
    rintro exist c' _ s' ⟨rfl, h'⟩
    cases exist with
    | false => exact simulates_pure ⟨reg, .refl reg, h', .none⟩
    | true =>
      -- Where subversion lists the version, both sides create it; its place is the end of the
      -- list.
      refine simulates_of_achieves (T := fun b t => b = some s.world.versions.length ∧
        t = s'.addVersion (Mksh.versionCreate name)) (log_heap _ c')
        (h'.achieves_heap (uses_versionCreate name reg)) rfl ?_ ?_
      · exact achieves_bind.2 (achieves_modify.2 (achieves_pure.2 ⟨rfl, rfl⟩))
      · rintro _ _ _ _ ⟨t, m, ⟨v, rfl, hv, rfl⟩, hm, rfl⟩ ⟨rfl, rfl⟩
        refine ⟨_, extends_append reg v, ⟨h'.versions, hm, ?_, h'.sys⟩, .some ⟨v, ?_, rfl⟩⟩
        · rw [State.addVersion, h'.infs, RegistryAt.infs, RegistryAt.infs, List.map_append, ← hv]
          rfl
        · rw [h.infs, RegistryAt.infs, List.length_map]
          exact List.getElem?_concat_length
  · rw [hfind, hi, hfound]
    exact simulates_pure ⟨reg, .refl reg, h, .some ⟨v, hv, rfl⟩⟩

/-! ## Calls with a version -/

/-- The version at an address, between the others. -/
theorem VersionPtr.exists_append (h : VersionPtr reg a i) :
    ∃ l v l', reg.versions = l ++ v :: l' ∧ v.addr = a ∧ l.length = i := by
  obtain ⟨v, hv, ha⟩ := h
  obtain ⟨hlt, hv⟩ := List.getElem?_eq_some_iff.1 hv
  refine ⟨reg.versions.take i, v, reg.versions.drop (i + 1), ?_, ha, List.length_take_of_le hlt.le⟩
  rw [← hv, List.getElem_cons_drop, List.take_append_drop]

variable {l l' : List VersionAt} {v v' : VersionAt}

/-- The version at a position is the one that its blocks hold. -/
theorem Represents.getElem? (h : Represents reg c s) (hv : reg.versions = l ++ v :: l') :
    s.world.versions[l.length]? = some v.inf := by
  rw [h.infs, RegistryAt.infs, hv, List.getElem?_map, List.getElem?_append_right le_rfl,
    Nat.sub_self]
  rfl

/-- Reading a version of the list. -/
theorem versionAt_eq {vi : VersionInf} (h : s.world.versions[i]? = some vi) :
    versionAt i s = ([], some (vi, s)) := by
  rw [versionAt, get_bind, h]
  rfl

/-- What it changes of a version. -/
theorem Represents.modify (h : Represents reg c s) (hv : reg.versions = l ++ v :: l')
    {m : Memory Block} (hm : m.Holds (RegistryAt.blocks { reg with versions := l ++ v' :: l' }))
    {f : VersionInf → VersionInf} (hf : v'.inf = f v.inf) :
    Represents { reg with versions := l ++ v' :: l' } { c with memory := m }
      (s.modifyVersion l.length f) := by
  refine ⟨h.versions, hm, ?_, h.sys⟩
  have hlen : l.length = (l.map VersionAt.inf).length + 0 := (List.length_map _).symm
  have hmodify := List.modifyTailIdx_add (List.modifyHead f) 0 (l.map VersionAt.inf)
    (v.inf :: l'.map VersionAt.inf)
  rw [← hlen] at hmodify
  change s.world.versions.modify l.length f = _
  rw [h.infs, RegistryAt.infs, RegistryAt.infs, hv, List.map_append, List.map_append, List.map_cons,
    List.map_cons, hf]
  exact hmodify

/-- Setting an architecture changes the record as it changes the list. -/
theorem setArch_refines (h : Represents reg c s) (hptr : VersionPtr reg a i) (arch : CString) :
    Simulates ToolEvent.sys (setArch (some a)  arch) (Mksh.setArch i arch)
      (Keeps reg fun _ _ _ => True) c s := by
  obtain ⟨l, v, l', hv, rfl, rfl⟩ := hptr.exists_append
  have huses : Uses v.blocks
      (versionKind.update (fun v => { v with arch }) (some v.addr) : HeapProcess Unit) fun _ s' =>
        ∃ v' : VersionAt, v' = { v with arch } ∧ v'.addr = v.addr ∧ v'.node = v.node ∧
          s' = v'.blocks :=
    (uses_setArch arch v).mono fun _ _ hs => ⟨_, rfl, rfl, rfl, hs⟩
  refine simulates_of_achieves (T := fun _ t =>
    t = s.modifyVersion l.length (VersionInf.setArch arch)) (log_heap _ c)
    (h.achieves_heap (uses_version hv huses)) rfl (achieves_modify.2 rfl) ?_
  rintro _ _ _ _ ⟨t, m, ⟨v', rfl, -, rfl⟩, hm, rfl⟩ rfl
  exact ⟨{ reg with versions := l ++ { v with arch } :: l' },
    extends_update hv rfl (List.append_nil _).symm, h.modify hv hm rfl, trivial⟩

/-- Asking for a project: in memory it is found, or created, as in the list. -/
theorem projectGet_refines (h : Represents reg c s) (hptr : VersionPtr reg a i) (name : CString) :
    Simulates ToolEvent.sys (projectGet os name (some a)) (Mksh.projectGet os name i)
      (Keeps reg fun reg' ret j => Option.Rel (ProjectPtr reg') ret (j.map fun j => (i, j)))
      c s := by
  obtain ⟨l, v, l', hv, rfl, rfl⟩ := hptr.exists_append
  have hat := h.getElem? hv
  have hi {v' : VersionAt} : (l ++ v' :: l')[l.length]? = some v' := by
    rw [List.getElem?_append_right le_rfl, Nat.sub_self]
    rfl
  have hfind : Mksh.projectFind name v.inf.projects =
      v.projects.findIdx? fun p => strcmp name p.inf.name = 0 := by
    rw [Mksh.projectFind, VersionAt.inf, List.findIdx?_map]
    rfl
  refine h.left (uses_version_read hv (uses_projectFind name v)) ?_
  rintro ret _ m ⟨rfl, rfl⟩ hm
  have h := h.setMemory hm
  refine Simulates.right (versionAt_eq hat) ?_
  rw [hfind]
  rcases find?_cases (fun p : ProjectAt => decide (strcmp name p.inf.name = 0)) v.projects with
    ⟨hj, hp⟩ | ⟨j, p, hj, hp, hfound⟩
  · rw [hj, hp]
    -- The project is not there yet. Its path is made of the strings of the version.
    refine h.left (uses_version_read hv (uses_readVersion v)) ?_
    rintro _ _ m' ⟨rfl, rfl⟩ hm'
    refine ((h.setMemory hm').action rfl).bind ?_
    rintro exist c' _ s' ⟨rfl, h'⟩
    cases exist with
    | false => exact simulates_pure ⟨reg, .refl reg, h', .none⟩
    | true =>
      -- The version is a different one afterwards, but stays where it was.
      have huses : Uses v.blocks (projectCreate name (some v.addr)) fun ret s' =>
          ∃ v' : VersionAt, (∃ p : ProjectAt, ret = some p.addr ∧
            p.inf = Mksh.projectCreate name ∧ v' = { v with projects := v.projects ++ [p] }) ∧
              v'.addr = v.addr ∧ v'.node = v.node ∧ s' = v'.blocks := by
        refine (uses_projectCreate name v).mono ?_
        rintro _ _ ⟨p, hret, hinf, hs⟩
        exact ⟨_, ⟨p, hret, hinf, rfl⟩, rfl, rfl, hs⟩
      change Simulates ToolEvent.sys (heap fun _ => projectCreate name (some v.addr)) _ _ _ _
      refine simulates_of_achieves (T := fun b t => b = some v.inf.projects.length ∧
        t = s'.modifyVersion l.length (VersionInf.addProject (Mksh.projectCreate name)))
        (log_heap _ c') (h'.achieves_heap (uses_version hv huses)) rfl
        (achieves_bind.2 (achieves_modify.2 (achieves_pure.2 ⟨rfl, rfl⟩))) ?_
      rintro _ _ _ _ ⟨t, m, ⟨v', ⟨p, rfl, hinf, rfl⟩, -, rfl⟩, hm, rfl⟩ ⟨rfl, rfl⟩
      refine ⟨{ reg with versions := l ++ { v with projects := v.projects ++ [p] } :: l' },
        extends_update hv rfl rfl, h'.modify hv hm ?_, .some ⟨_, hi, p, ?_, rfl⟩⟩
      · rw [VersionAt.inf, VersionInf.addProject, ← hinf, List.map_append]
        rfl
      · rw [VersionAt.inf, List.length_map]
        exact List.getElem?_concat_length
  · rw [hj, hfound]
    exact simulates_pure ⟨reg, .refl reg, h, .some ⟨v, hv ▸ hi, p, hp, rfl⟩⟩

/-- The same, with the position of the version in the pointer. -/
theorem listApi_projectGet_refines (h : Represents reg c s) (hptr : VersionPtr reg a i)
    (name : CString) : Simulates ToolEvent.sys (projectGet os name (some a))
      ((listApi os).projectGet name i)
      (Keeps reg fun reg' => Option.Rel (ProjectPtr reg')) c s :=
  Simulates.map_right (projectGet_refines h hptr name)

/-- Reading the URL of a version. -/
theorem versionUrl_refines (h : Represents reg c s) (hptr : VersionPtr reg a i) :
    Simulates ToolEvent.sys (versionUrl (some a)) ((listApi os).versionUrl i)
      (Keeps reg fun _ _ _ => True) c s := by
  obtain ⟨l, v, l', hv, rfl, rfl⟩ := hptr.exists_append
  refine h.left (uses_version_read hv (uses_readVersion v)) ?_
  rintro _ _ m ⟨rfl, rfl⟩ hm
  refine Simulates.right (versionAt_eq (h.getElem? hv)) ?_
  refine ((h.setMemory hm).action rfl).mono ?_
  rintro _ c' _ s' ⟨-, h'⟩
  exact ⟨reg, .refl reg, h', trivial⟩

/-- Reading the URL of a project, by the pointer to its version. -/
theorem projectUrl_refines {ij : ℕ × ℕ} (h : Represents reg c s) (hptr : ProjectPtr reg a ij) :
    Simulates ToolEvent.sys (projectUrl (some a)) ((listApi os).projectUrl ij)
      (Keeps reg fun _ _ _ => True) c s := by
  obtain ⟨v, hi, p, hj, rfl⟩ := hptr
  obtain ⟨l, v', l', hv, -, hlen⟩ := VersionPtr.exists_append ⟨v, hi, rfl⟩
  obtain rfl : v' = v := by
    rw [hv, ← hlen, List.getElem?_append_right le_rfl, Nat.sub_self] at hi
    exact Option.some.inj hi
  have hp : p ∈ v'.projects := List.mem_of_getElem? hj
  have hat : projectAt ij.1 ij.2 s = ([], some ((v'.inf, p.inf), s)) := by
    have hpi : v'.inf.projects[ij.2]? = some p.inf := by
      rw [VersionAt.inf, List.getElem?_map, hj]
      rfl
    have hversion := versionAt_eq (hlen ▸ h.getElem? hv)
    rw [projectAt, bind_of_some (congrArg Prod.snd hversion), log, hversion]
    dsimp only
    rw [hpi]
    rfl
  -- The project leads to its version, and both strings are read before the job is run.
  refine h.left (uses_version_read hv (uses_readProject hp)) ?_
  rintro _ _ m ⟨rfl, rfl⟩ hm
  have h := h.setMemory hm
  refine h.left (uses_version_read hv (uses_readVersion v')) ?_
  rintro _ _ m' ⟨rfl, rfl⟩ hm'
  have h := h.setMemory hm'
  refine h.left (uses_version_read hv (uses_readProjectName hp)) ?_
  rintro _ _ m'' ⟨rfl, rfl⟩ hm''
  refine Simulates.right hat ?_
  refine ((h.setMemory hm'').action rfl).mono ?_
  rintro _ c' _ s' ⟨-, h'⟩
  exact ⟨reg, .refl reg, h', trivial⟩

/-! ## Runs -/

/-- The registry is represented, and so are the pointers that have been got. -/
structure Corresponds (reg : RegistryAt) (got : List ℕ × List ℕ) (c : Mk W)
    (got' : List ℕ × List (ℕ × ℕ)) (s : State (Session W)) : Prop extends
    Represents reg c s where
  version : List.Forall₂ (VersionPtr reg) got.1 got'.1
  project : List.Forall₂ (ProjectPtr reg) got.2 got'.2

/-- Lists that correspond still do with what may have been got. -/
theorem forall₂_append_toList {R : α → β → Prop} {as : List α} {bs : List β} {a : Option α}
    {b : Option β} (h : List.Forall₂ R as bs) (hab : Option.Rel R a b) :
    List.Forall₂ R (as ++ a.toList) (bs ++ b.toList) := by
  cases hab with
  | none => simpa using h
  | some hab => exact List.rel_append h (.cons hab .nil)

/-- Lists that correspond do so at every place. -/
theorem rel_getElem? {R : α → β → Prop} {as : List α} {bs : List β} (h : List.Forall₂ R as bs)
    (k : ℕ) : Option.Rel R as[k]? bs[k]? := by
  induction h generalizing k with
  | nil => exact .none
  | cons hab _ ih =>
    cases k with
    | zero => exact .some hab
    | succ k => exact ih k

/-- Processes that take what is at a place of a list correspond, if they do for the members that
    the lists have there, and where there are none. -/
theorem simulates_getElem? {A B : Type} {R : A → B → Prop} {as : List A} {bs : List B}
    (h : List.Forall₂ R as bs) (k : ℕ) {p₀ : MkProcess W α} {q₀ : Handler W β}
    {p : A → MkProcess W α} {q : B → Handler W β} {Q : α → Mk W → β → State (Session W) → Prop}
    (hnone : Simulates ToolEvent.sys p₀ q₀ Q c s)
    (hsome : ∀ a b, R a b → Simulates ToolEvent.sys (p a) (q b) Q c s) :
    Simulates ToolEvent.sys (as[k]?.elim p₀ p) (bs[k]?.elim q₀ q) Q c s := by
  have hat := rel_getElem? h k
  generalize as[k]? = a, bs[k]? = b at hat
  cases hat with
  | none => exact hnone
  | some hab => exact hsome _ _ hab

/-- After a call, the pointers got before correspond still, and with what the call returns, those
    got then. -/
theorem Corresponds.call {got : List ℕ × List ℕ} {got' : List ℕ × List (ℕ × ℕ)}
    (h : Corresponds reg got c got' s) {p : MkProcess W α} {q : Handler W β}
    {V : RegistryAt → α → β → Prop} (hcall : Simulates ToolEvent.sys p q (Keeps reg V) c s)
    {p' : α → MkProcess W γ} {q' : β → Handler W δ}
    {Q : γ → Mk W → δ → State (Session W) → Prop}
    (hnext : ∀ reg' ret c' ret' s', V reg' ret ret' → Corresponds reg' got c' got' s' →
      Simulates ToolEvent.sys (p' ret) (q' ret') Q c' s') :
    Simulates ToolEvent.sys (p >>= p') (q >>= q') Q c s := by
  refine hcall.bind ?_
  rintro ret c' ret' s' ⟨reg', hext, hrep, hret⟩
  exact hnext reg' ret c' ret' s' hret
    ⟨hrep, h.version.imp fun _ _ => hext.version, h.project.imp fun _ _ => hext.project⟩

/-- A run on the memory does what one on the list does. -/
theorem run_refines (calls : List ApiCall) {got : List ℕ × List ℕ} {got' : List ℕ × List (ℕ × ℕ)}
    (h : Corresponds reg got c got' s) :
    Simulates ToolEvent.sys ((heapApi os).run calls got.1 got.2)
      ((listApi os).run calls got'.1 got'.2)
      (fun got c' got' s' => ∃ reg', Corresponds reg' got c' got' s') c s := by
  -- What was got so far corresponds, so that each further call is made with pointers to the same
  -- things.
  induction calls generalizing reg c s got got' with
  | nil => exact simulates_pure ⟨reg, h⟩
  | cons call calls ih =>
    cases call with
    | versionGet name =>
      refine h.call (versionGet_refines h.toRepresents name) fun reg' ret c' ret' s' hret h' => ?_
      have hgot : Corresponds reg' (got.1 ++ ret.toList, got.2) c' (got'.1 ++ ret'.toList, got'.2)
          s' := ⟨h'.toRepresents, forall₂_append_toList h'.version hret, h'.project⟩
      exact ih hgot
    | projectGet name k =>
      rw [Api.run_projectGet, Api.run_projectGet]
      refine simulates_getElem? h.version k (ih h) fun a i hptr => ?_
      refine h.call (listApi_projectGet_refines h.toRepresents hptr name)
        fun reg' ret c' ret' s' hret h' => ?_
      have hgot : Corresponds reg' (got.1, got.2 ++ ret.toList) c' (got'.1, got'.2 ++ ret'.toList)
          s' := ⟨h'.toRepresents, h'.version, forall₂_append_toList h'.project hret⟩
      exact ih hgot
    | setArch k arch =>
      rw [Api.run_setArch, Api.run_setArch]
      refine simulates_getElem? h.version k (ih h) fun a i hptr => ?_
      exact h.call (setArch_refines h.toRepresents hptr _) fun _ _ _ _ _ _ => ih
    | versionUrl k =>
      rw [Api.run_versionUrl, Api.run_versionUrl]
      refine simulates_getElem? h.version k (ih h) fun a i hptr => ?_
      exact h.call (versionUrl_refines h.toRepresents hptr) fun _ _ _ _ _ _ => ih
    | projectUrl k =>
      rw [Api.run_projectUrl, Api.run_projectUrl]
      refine simulates_getElem? h.project k (ih h) fun a ij hptr => ?_
      exact h.call (projectUrl_refines h.toRepresents hptr) fun _ _ _ _ _ _ => ih

/-- The program, from its start on. -/
def client (os : Os W) (root : Option (List Entry)) (calls : List ApiCall) :
    MkProcess W (List ℕ × List ℕ) := do
  allVersionsInit root
  (heapApi os).run calls [] []

/-- The registry at the start, before any pointer has been got. -/
theorem achieves_corresponds (root : Option (List Entry)) (sys : Sys W) :
    Achieves (allVersionsInit root) (fun _ c => ∃ reg, Corresponds reg ([], []) c ([], [])
      (bootState (registryDirs root) sys)) (Mk.start sys) := by
  refine (achieves_allVersionsInit root sys).mono ?_
  rintro _ c ⟨reg, hversions, hholds, hinfs, hsys⟩
  exact ⟨reg, ⟨hversions, hholds, hinfs.symm, hsys⟩, .nil, .nil⟩

/-- No client can tell the registry in memory from the list. -/
theorem client_refines (root : Option (List Entry)) (calls : List ApiCall) (sys : Sys W) :
    Simulates ToolEvent.sys (client os root calls) ((listApi os).run calls [] [])
      (fun got c got' s => ∃ reg, Corresponds reg got c got' s) (Mk.start sys)
      (bootState (registryDirs root) sys) := by
  refine Simulates.left (log_allVersionsInit root _) (achieves_corresponds root sys) ?_
  rintro _ c ⟨reg, h⟩
  exact run_refines calls h

/-- After any client, the registry can be deleted, and no block is left. -/
theorem allVersionsFinit_frees (root : Option (List Entry)) (calls : List ApiCall) (sys : Sys W)
    (depth : ℕ) : Ensures (client os root calls) (fun _ c => Achieves (allVersionsFinit (depth + 2))
      (fun _ c' => ∀ a, c'.memory.block a = none) c) (Mk.start sys) := by
  refine ensures_bind.2 ((achieves_corresponds root sys).ensures.mono ?_)
  rintro _ c₀ ⟨reg₀, h₀⟩ got c hr
  obtain ⟨_, _, -, reg, h⟩ := (run_refines calls h₀).exists_result hr
  refine (h.achieves_heap (p := listDelete (callDel (depth + 2))) (uses_finit depth reg)).mono ?_
  rintro _ _ ⟨_, m, rfl, hm, rfl⟩
  exact hm.block_eq_none

end Heap

end Mksh
