import Mksh.Cmd.Version

/-!
# Versions are registered once

`versionGet` looks for the name it is given, and registers the version under the
name with slashes for pluses. So a name with a plus is never found. In a run of
such calls (`Gets`), no version is registered twice just when this does not show:
a name with a plus is only accepted if the one with slashes is not there yet, and
it is not asked for again (`gets_unique_iff`).
-/

namespace Mksh

open CString Process

variable {W : Type} {os : Os W} {dirs : List (CString × List CString)} {name name' : CString}
  {s s' : State (Session W)} {ret : Option ℕ} {versions versions' : List VersionInf} {i : ℕ}
  {vi : VersionInf}

/-! ## One call -/

/-- The server lists the version. -/
def Listed (os : Os W) (name : CString) (s : State (Session W)) : Prop :=
  ∃ t, (job os fun site => site.versionExists name).result s.world.sys = some (true, t)

/-- What a call returns, and the registry after it. -/
inductive Gotten (os : Os W) (name : CString) (s : State (Session W)) :
    Option ℕ → List VersionInf → Prop
  | found {i : ℕ} : versionFind name s.world.versions = some i →
      Gotten os name s (some i) s.world.versions
  | refused : versionFind name s.world.versions = none → ¬ Listed os name s →
      Gotten os name s none s.world.versions
  | created : versionFind name s.world.versions = none → Listed os name s →
      Gotten os name s (some s.world.versions.length)
        (s.world.versions ++ [versionCreate name])

/-- What `versionGet` returns. -/
theorem versionGet_gotten (name : CString) (s : State (Session W)) :
    Ensures (versionGet os name) (fun ret s' => Gotten os name s ret s'.world.versions) s := by
  simp only [versionGet, ensures_bind, ensures_get]
  rcases hf : versionFind name s.world.versions with _ | i
  · simp only [ensures_bind, ensures_sys]
    intro exist t ht
    cases exist with
    | false =>
      rw [ensures_ite, if_pos (by rfl), ensures_pure]
      refine .refused hf ?_
      rintro ⟨t', ht'⟩
      cases ht.symm.trans ht'
    | true =>
      rw [ensures_ite, if_neg (by decide), ensures_bind, ensures_addVersion, ensures_pure]
      exact .created hf ⟨t, ht⟩
  · exact ensures_pure.2 (.found hf)

/-- Versions are added at the end. -/
theorem Gotten.isPrefix (h : Gotten os name s ret versions) : s.world.versions <+: versions := by
  cases h with
  | found => exact List.prefix_rfl
  | refused => exact List.prefix_rfl
  | created => exact List.prefix_append _ _

/-! ## Names -/

/-- The name under which a version is registered. -/
def fixedName (name : CString) : CString := (versionCreate name).name

/-- A name that has been fixed has no plus. -/
theorem plus_notMem_fixedName (name : CString) : '+' ∉ fixedName name := by
  intro hmem
  obtain ⟨c, -, hc⟩ := List.mem_map.1 hmem
  split_ifs at hc with h
  · cases hc
  · exact h hc

/-- A name without plus stays as it is. -/
theorem fixedName_of_notMem (h : '+' ∉ name) : fixedName name = name := by
  refine (List.map_congr_left fun c hc => ?_).trans (List.map_id name)
  refine if_neg ?_
  rintro rfl
  exact h hc

/-- The names of a version that has been created. -/
def Created (vi : VersionInf) : Prop :=
  ∃ name, vi.name = (versionCreate name).name ∧ vi.dirName = (versionCreate name).dirName

/-- The name of the directory tells the name, and the other way round. -/
theorem Created.dirName_inj {vi vi' : VersionInf} (h : Created vi) (h' : Created vi') :
    vi.dirName = vi'.dirName ↔ vi.name = vi'.name := by
  have hname {vi : VersionInf} (h : Created vi) :
      vi.name = vi.dirName.map fun c => if c = '+' then '/' else c := by
    obtain ⟨name, hn, hd⟩ := h
    rw [hn, hd]
    simp only [versionCreate, List.map_map]
    refine List.map_congr_left fun c _ => ?_
    rcases eq_or_ne c '/' with rfl | hc
    · rfl
    · simp [hc]
  have hdirName {vi : VersionInf} (h : Created vi) :
      vi.dirName = vi.name.map fun c => if c = '/' then '+' else c := by
    obtain ⟨name, hn, hd⟩ := h
    rw [hn, hd]
    simp only [versionCreate, List.map_map]
    refine List.map_congr_left fun c _ => ?_
    rcases eq_or_ne c '+' with rfl | hc
    · rfl
    · simp [hc]
  -- Each name is read off the other one, as a directory has no slash and a name no plus.
  constructor
  · intro heq
    rw [hname h, hname h', heq]
  · intro heq
    rw [hdirName h, hdirName h', heq]

/-- The name of a version has no plus. -/
theorem Created.plus_notMem (h : Created vi) : '+' ∉ vi.name := by
  obtain ⟨name, hn, -⟩ := h
  rw [hn]
  exact plus_notMem_fixedName name

theorem created_versionCreate (name : CString) : Created (versionCreate name) := ⟨name, rfl, rfl⟩

/-- No version has the name. -/
theorem versionFind_eq_none : versionFind name versions = none ↔
    ∀ vi ∈ versions, vi.name ≠ name := by
  rw [versionFind, List.findIdx?_eq_none_iff]
  simp only [decide_eq_false_iff_not, strcmp_eq_zero]
  exact forall₂_congr fun vi _ => ne_comm

/-- What is found stays there. -/
theorem versionFind_of_prefix (h : versions <+: versions')
    (hf : versionFind name versions = some i) : versionFind name versions' = some i := by
  obtain ⟨l, rfl⟩ := h
  rw [versionFind, List.findIdx?_append]
  exact (congrArg (Option.or · _) hf).trans rfl

/-- A version that has been created is found by its name, if this has no plus. -/
theorem versionFind_created (hf : versionFind name versions = none) (hname : '+' ∉ name) :
    versionFind name (versions ++ [versionCreate name]) = some versions.length := by
  have hfixed : (versionCreate name).name = name := fixedName_of_notMem hname
  have hzero : strcmp name name = 0 := strcmp_eq_zero.2 rfl
  rw [versionFind] at hf
  rw [versionFind, List.findIdx?_append, hf, List.findIdx?_singleton, hfixed, hzero]
  simp

/-- A version whose name has a plus is not found. -/
theorem versionFind_of_mem (hcreated : ∀ vi ∈ versions, Created vi) (hname : '+' ∈ name) :
    versionFind name versions = none := by
  refine versionFind_eq_none.2 fun vi hvi heq => ?_
  exact (hcreated vi hvi).plus_notMem (heq ▸ hname)

/-! ## Runs -/

/-- A call that has returned. -/
structure Get (W : Type) where
  name : CString
  before : State (Session W)
  ret : Option ℕ
  after : State (Session W)

/-- The calls made since the registry was read off the directories, and the registry
    after them. Between them, the rest of the state may change. -/
inductive Gets (os : Os W) (dirs : List (CString × List CString)) :
    List (Get W) → List VersionInf → Prop
  | start : Gets os dirs [] (allVersionsInit dirs)
  | get {gets : List (Get W)} {s s' : State (Session W)} {name : CString} {ret : Option ℕ} :
      Gets os dirs gets s.world.versions → (versionGet os name).result s = some (ret, s') →
      Gets os dirs (gets ++ [⟨name, s, ret, s'⟩]) s'.world.versions

/-- No name and no directory is there twice, and a name for which there is an entry
    gets the same one again. -/
structure Unique (gets : List (Get W)) (versions : List VersionInf) : Prop where
  names : (versions.map VersionInf.name).Nodup
  dirNames : (versions.map VersionInf.dirName).Nodup
  again : gets.Pairwise fun g g' => g'.name = g.name → ∀ i, g.ret = some i →
    g'.ret = some i ∧ g'.after.world.versions = g'.before.world.versions

/-- When a name with a plus is asked for, and the server lists it, the one with
    slashes is not there, and it is not asked for again. -/
structure Fresh (os : Os W) (gets : List (Get W)) : Prop where
  unregistered : ∀ g ∈ gets, '+' ∈ g.name → Listed os g.name g.before →
    ∀ vi ∈ g.before.world.versions, vi.name ≠ fixedName g.name
  once : gets.Pairwise fun g g' => '+' ∈ g.name → Listed os g.name g.before → g'.name ≠ g.name

variable {gets : List (Get W)}

/-- All versions have been created. -/
theorem Gets.created (h : Gets os dirs gets versions) : ∀ vi ∈ versions, Created vi := by
  induction h with
  | start =>
    intro vi hvi
    obtain ⟨dir, -, rfl⟩ := List.mem_map.1 hvi
    exact ⟨dir.1, rfl, rfl⟩
  | @get gets s s' name ret _ hr ih =>
    have hgotten : Gotten os name s ret s'.world.versions := versionGet_gotten name s ret s' hr
    generalize s'.world.versions = versions' at hgotten ⊢
    cases hgotten with
    | found => exact ih
    | refused => exact ih
    | created =>
      refine List.forall_mem_append.2 ⟨ih, List.forall_mem_singleton.2 ?_⟩
      exact created_versionCreate name

/-- What each call returned, in the list as it is in the end. -/
theorem Gets.gotten (h : Gets os dirs gets versions) : ∀ g ∈ gets,
    Gotten os g.name g.before g.ret g.after.world.versions ∧
      g.after.world.versions <+: versions := by
  induction h with
  | start => exact fun g hg => absurd hg List.not_mem_nil
  | @get gets s s' name ret _ hr ih =>
    have hgotten : Gotten os name s ret s'.world.versions := versionGet_gotten name s ret s' hr
    refine List.forall_mem_append.2 ⟨fun g hg => ?_, List.forall_mem_singleton.2 ?_⟩
    · exact ⟨(ih g hg).1, (ih g hg).2.trans hgotten.isPrefix⟩
    · exact ⟨hgotten, List.prefix_rfl⟩

/-- The list of versions only grows. -/
theorem Gets.pairwise (h : Gets os dirs gets versions) :
    gets.Pairwise fun g g' => g.after.world.versions <+: g'.before.world.versions := by
  induction h with
  | start => exact .nil
  | @get gets s s' name ret h hr ih =>
    refine List.pairwise_append.2 ⟨ih, List.pairwise_singleton _ _, fun g hg g' hg' => ?_⟩
    obtain rfl := List.mem_singleton.1 hg'
    exact (h.gotten g hg).2

/-- The versions that were there before a call had been created. -/
theorem Gets.created_before (h : Gets os dirs gets versions) {g : Get W} (hg : g ∈ gets) :
    ∀ vi ∈ g.before.world.versions, Created vi := fun vi hvi =>
  have hgotten := h.gotten g hg
  h.created vi (hgotten.2.subset (hgotten.1.isPrefix.subset hvi))

/-- The directories at the start have different names, none with a slash. -/
theorem nodup_allVersionsInit (hdirs : (dirs.map Prod.fst).Nodup)
    (hslash : ∀ dir ∈ dirs, '/' ∉ dir.1) :
    ((allVersionsInit dirs).map VersionInf.name).Nodup := by
  have hinj : ∀ dir ∈ dirs, ∀ dir' ∈ dirs, fixedName dir.1 = fixedName dir'.1 → dir.1 = dir'.1 := by
    intro dir hdir dir' hdir' heq
    have hback {name : CString} (h : '/' ∉ name) : (versionCreate name).dirName = name := by
      refine (List.map_congr_left fun c hc => ?_).trans (List.map_id name)
      refine if_neg ?_
      rintro rfl
      exact h hc
    rw [← hback (hslash dir hdir), ← hback (hslash dir' hdir')]
    exact ((created_versionCreate dir.1).dirName_inj (created_versionCreate dir'.1)).2 heq
  simp only [allVersionsInit, List.map_map, List.Nodup, List.pairwise_map] at hdirs ⊢
  exact hdirs.imp_of_mem fun {dir dir'} hdir hdir' hne heq => hne (hinj dir hdir dir' hdir' heq)

/-- Names are there once when those with pluses come in time. -/
theorem Gets.nodup_iff (h : Gets os dirs gets versions) (hdirs : (dirs.map Prod.fst).Nodup)
    (hslash : ∀ dir ∈ dirs, '/' ∉ dir.1) : (versions.map VersionInf.name).Nodup ↔
      ∀ g ∈ gets, '+' ∈ g.name → Listed os g.name g.before →
        ∀ vi ∈ g.before.world.versions, vi.name ≠ fixedName g.name := by
  induction h with
  | start =>
    exact iff_of_true (nodup_allVersionsInit hdirs hslash) fun g hg => absurd hg List.not_mem_nil
  | @get gets s s' name ret h hr ih =>
    have hgotten : Gotten os name s ret s'.world.versions := versionGet_gotten name s ret s' hr
    rw [List.forall_mem_append, List.forall_mem_singleton, ← ih]
    generalize s'.world.versions = versions' at hgotten ⊢
    cases hgotten with
    | found hf =>
      refine (and_iff_left fun hplus => ?_).symm
      rw [versionFind_of_mem h.created hplus] at hf
      cases hf
    | refused hf hnot => exact (and_iff_left fun _ hlisted => absurd hlisted hnot).symm
    | created hf hlisted =>
      rw [List.map_append, List.map_singleton, (List.perm_append_singleton _ _).nodup_iff,
        List.nodup_cons, and_comm]
      refine and_congr_right fun _ => ?_
      have hmem : (versionCreate name).name ∉ s.world.versions.map VersionInf.name ↔
          ∀ vi ∈ s.world.versions, vi.name ≠ fixedName name := by
        simp [fixedName]
      rw [hmem]
      refine ⟨fun h _ _ => h, fun hplus => ?_⟩
      by_cases hname : '+' ∈ name
      · exact hplus hname hlisted
      · rw [fixedName_of_notMem hname]
        exact versionFind_eq_none.1 hf

/-- Names that are there once are those of directories that are there once. -/
theorem nodup_dirNames_iff (h : ∀ vi ∈ versions, Created vi) :
    (versions.map VersionInf.dirName).Nodup ↔ (versions.map VersionInf.name).Nodup := by
  simp only [List.Nodup, List.pairwise_map]
  exact List.Pairwise.iff_of_mem fun hvi hvi' =>
    not_congr ((h _ hvi).dirName_inj (h _ hvi'))

/-- A name for which there is an entry gets the same one again, unless it has a
    plus. -/
theorem again_iff {g g' : Get W} (hg : Gotten os g.name g.before g.ret g.after.world.versions)
    (hg' : Gotten os g'.name g'.before g'.ret g'.after.world.versions)
    (hcreated : ∀ vi ∈ g'.before.world.versions, Created vi)
    (hle : g.after.world.versions <+: g'.before.world.versions) :
    (g'.name = g.name → ∀ i, g.ret = some i →
      g'.ret = some i ∧ g'.after.world.versions = g'.before.world.versions) ↔
    ('+' ∈ g.name → Listed os g.name g.before → g'.name ≠ g.name) := by
  obtain ⟨name, s, ret, s'⟩ := g
  obtain ⟨name', t, ret', t'⟩ := g'
  simp only at hg hg' hcreated hle ⊢
  generalize s'.world.versions = versions at hg hle
  generalize t'.world.versions = versions' at hg' ⊢
  constructor
  · rintro hagain hplus hlisted rfl
    have hcreated' : ∀ vi ∈ s.world.versions, Created vi := fun vi hvi =>
      hcreated vi (hle.subset (hg.isPrefix.subset hvi))
    cases hg with
    | found hf =>
      rw [versionFind_of_mem hcreated' hplus] at hf
      cases hf
    | refused _ hnot => exact hnot hlisted
    | created =>
      obtain ⟨hret, hsame⟩ := hagain rfl _ rfl
      cases hg' with
      | found hf =>
        rw [versionFind_of_mem hcreated hplus] at hf
        cases hf
      | refused => cases hret
      | created => simp at hsame
  · rintro honce rfl i hret
    -- What the first call returns is what is found from then on.
    have hfind : versionFind name' versions = some i := by
      cases hg with
      | found hf =>
        cases hret
        exact hf
      | refused => cases hret
      | created hf hlisted =>
        cases hret
        exact versionFind_created hf fun hplus => honce hplus hlisted rfl
    have hfind' := versionFind_of_prefix hle hfind
    cases hg' with
    | found hf => exact ⟨hf.symm.trans hfind', rfl⟩
    | refused hf =>
      rw [hf] at hfind'
      cases hfind'
    | created hf =>
      rw [hf] at hfind'
      cases hfind'

/-- Versions are registered once, and found again, just when names with pluses come
    in time, and once. -/
theorem gets_unique_iff (h : Gets os dirs gets versions) (hdirs : (dirs.map Prod.fst).Nodup)
    (hslash : ∀ dir ∈ dirs, '/' ∉ dir.1) : Unique gets versions ↔ Fresh os gets := by
  have hnames := h.nodup_iff hdirs hslash
  have hdirNames := nodup_dirNames_iff h.created
  have hagain {g g' : Get W} (hg : g ∈ gets) (hg' : g' ∈ gets) :=
    again_iff (h.gotten g hg).1 (h.gotten g' hg').1 (h.created_before hg')
  constructor
  · rintro ⟨hn, -, ha⟩
    refine ⟨hnames.1 hn, (h.pairwise.and ha).imp_of_mem ?_⟩
    intro g g' hg hg' hpair
    exact (hagain hg hg' hpair.1).1 hpair.2
  · rintro ⟨hu, ho⟩
    refine ⟨hnames.2 hu, hdirNames.2 (hnames.2 hu), (h.pairwise.and ho).imp_of_mem ?_⟩
    intro g g' hg hg' hpair
    exact (hagain hg hg' hpair.1).2 hpair.2

/-- Asking for a name with a slash twice. -/
theorem gets_slash_twice : ∃ (gets : List (Get Unit)) (versions : List VersionInf),
    Gets Os.permissive [] gets versions ∧ gets.map Get.name = ["a/b".toList, "a/b".toList] ∧
    Unique gets versions := by
  let s : State (Session Unit) := bootState [] ⟨[], fun _ => none, ()⟩
  let s₁ := s.addVersion (versionCreate "a/b".toList)
  have hrun : Gets Os.permissive [] ([] ++ [⟨"a/b".toList, s, some 0, s₁⟩] ++
      [⟨"a/b".toList, s₁, some 0, s₁⟩]) s₁.world.versions := .get (.get .start rfl) rfl
  refine ⟨_, _, hrun, rfl, (gets_unique_iff hrun (by decide) (by decide)).2 ⟨?_, ?_⟩⟩
  · intro g hg hplus
    have hname : g.name = "a/b".toList := by
      rcases List.mem_cons.1 hg with rfl | hg
      · rfl
      · rw [List.mem_singleton.1 hg]
    rw [hname] at hplus
    exact absurd hplus (by decide)
  · exact .cons (fun g' _ hplus => absurd hplus (by decide)) (List.pairwise_singleton _ _)

/-- Asking for a name with a plus twice. -/
theorem gets_plus_twice : ∃ (gets : List (Get Unit)) (versions : List VersionInf),
    Gets Os.permissive [] gets versions ∧
    versions.map VersionInf.name = ["a/b".toList, "a/b".toList] ∧ ¬ Unique gets versions := by
  let s : State (Session Unit) := bootState [] ⟨[], fun _ => none, ()⟩
  let s₁ := s.addVersion (versionCreate "a+b".toList)
  let s₂ := s₁.addVersion (versionCreate "a+b".toList)
  have hrun : Gets Os.permissive [] ([] ++ [⟨"a+b".toList, s, some 0, s₁⟩] ++
      [⟨"a+b".toList, s₁, some 1, s₂⟩]) s₂.world.versions := .get (.get .start rfl) rfl
  refine ⟨_, _, hrun, rfl, fun hunique => ?_⟩
  exact absurd hunique.names (by decide)

end Mksh
