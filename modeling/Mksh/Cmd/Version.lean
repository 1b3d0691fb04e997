import Mksh.Cmd.Session

/-!
# What the handlers change

Most handlers only change the world (`OnlyWorld`), or else the system
(`OnlySys`): not where the `vty`s are, nor the registry. The functions of the
registry that the others are made of are specified here.
-/

namespace Mksh

open CString Process

variable {W α : Type} {os : Os W}

/-! ## Frames -/

/-- Only the system has changed. -/
def OnlySys (s s' : State (Session W)) : Prop := ∃ t, s' = { s with world.sys := t }

/-- Only the world has changed. -/
def OnlyWorld (s s' : State (Session W)) : Prop := ∃ w, s' = { s with world.sys.world := w }

instance : IsPreorder (State (Session W)) OnlySys where
  refl s := ⟨s.world.sys, rfl⟩
  trans := by
    rintro _ _ _ ⟨_, rfl⟩ ⟨t, rfl⟩
    exact ⟨t, rfl⟩

instance : IsPreorder (State (Session W)) OnlyWorld where
  refl s := ⟨s.world.sys.world, rfl⟩
  trans := by
    rintro _ _ _ ⟨_, rfl⟩ ⟨w, rfl⟩
    exact ⟨w, rfl⟩

/-- The world of the child processes is a part of the system. -/
theorem OnlyWorld.onlySys {s s' : State (Session W)} (h : OnlyWorld s s') : OnlySys s s' := by
  obtain ⟨w, rfl⟩ := h
  exact ⟨{ s.world.sys with world := w }, rfl⟩

/-- An action of the system only changes the system. -/
theorem moves_sys (p : Action W α) : Moves OnlySys (sys p) := fun _ =>
  ensures_sys.2 fun _ t _ => ⟨t, rfl⟩

/-- Child processes only change their world. -/
theorem moves_job (f : Site W → Job W α) : Moves OnlyWorld (sys (job os f)) := by
  intro s
  rw [ensures_sys, ensures_job]
  exact fun _ w _ => ⟨w, rfl⟩

/-! ## Environments -/

/-- Setting up the environment does not fail. -/
theorem ensures_initEnv (vi : VersionInf) (attr : VersionAttr) (t : Sys W) :
    Ensures (attr.initEnv vi) (fun ret _ => ret = 0) t := by
  rcases attr with _ | _
  · simp only [VersionAttr.initEnv, version3602InitEnv, ensures_bind, ensures_ite, ensures_pure,
      ite_self, ensures_true]
  · simp only [VersionAttr.initEnv, versionAppctlInitEnv, ensures_bind, ensures_pure, ensures_true]

/-- The version after a change to it. -/
theorem getElem?_modifyVersion {i : ℕ} {f : VersionInf → VersionInf} {s : State (Session W)}
    {vi : VersionInf} (h : s.world.versions[i]? = some vi) :
    (s.modifyVersion i f).world.versions[i]? = some (f vi) := by
  rw [State.modifyVersion, List.getElem?_modify_eq, h]
  rfl

/-! ## Entering a version -/

/-- The architecture is found in one of the lists. -/
def Accepted (arch : CString) : Prop := arch <:+: version3602Args ∨ arch <:+: version3609Args

instance : DecidablePred Accepted := fun arch =>
  decidable_of_iff ((strstr version3602Args arch).isSome ∨ (strstr version3609Args arch).isSome)
    (or_congr strstr_isSome strstr_isSome)

/-- An architecture that is not invalid is accepted. -/
theorem ensures_versionArchInvalid {site : Site W} (arch : CString) (w : W) :
    Ensures (site.versionArchInvalid arch) (fun ret _ => ret = 0 → Accepted arch) w := by
  rw [Site.versionArchInvalid]
  split_ifs with h h'
  · exact fun _ _ _ _ => .inl (strstr_isSome.1 h)
  · exact fun _ _ _ _ => .inr (strstr_isSome.1 h')
  · rw [ensures_pure]
    exact fun h => absurd h (by decide)

/-- What is accepted fits in the buffer for it. -/
theorem Accepted.length_lt {arch : CString} (h : Accepted arch) : arch.length < mkArchStrLen := by
  rcases h with h | h
  · exact h.length_le.trans_lt (by decide)
  · exact h.length_le.trans_lt (by decide)

/-- An architecture that is accepted fits in its buffer. -/
theorem Accepted.take_eq {arch : CString} (h : Accepted arch) :
    arch.take (mkArchStrLen - 1) = arch :=
  List.take_of_length_le (Nat.le_sub_one_of_lt h.length_lt)

/-- Setting up the environment of a version, if it has an attribute. -/
def SetsUp (vi : VersionInf) (t t' : Sys W) : Prop :=
  match vi.attribute with
  | none => t' = t
  | some attr => (attr.initEnv vi).result t = some (0, t')

/-- Tearing it down. -/
def TearsDown (vi : VersionInf) (t t' : Sys W) : Prop :=
  match vi.attribute with
  | none => t' = t
  | some attr => (attr.finitEnv vi).result t = some ((), t')

/-- What `versionInit` does: it stays where it is, or gets to the directory of the
    version, where the architecture is refused or the version is entered. -/
inductive Inits (os : Os W) (i : ℕ) (arch : CString) (vi : VersionInf) (s : State (Session W)) :
    ℤ → State (Session W) → Prop
  | stays (w : W) : Inits os i arch vi s (-1) { s with world.sys.world := w }
  | refused {d : Dir} {w : W} (w' : W) :
      os.chdir s.world.sys.cwd (rootDir ++ '/' :: vi.dirName) w = some d →
      Inits os i arch vi s (-mkErrVerArchInval)
        { s with world.sys := ⟨d, s.world.sys.env, w'⟩ }
  | entered {d : Dir} {w : W} {t : Sys W} (w' : W) :
      os.chdir s.world.sys.cwd (rootDir ++ '/' :: vi.dirName) w = some d → Accepted arch →
      SetsUp (vi.setArch arch) ⟨d, s.world.sys.env, w'⟩ t →
      Inits os i arch vi s 0
        { s.modifyVersion i (VersionInf.setArch arch) with world.sys := t }

/-- What entering a version does, exit by exit. -/
theorem versionInit_spec (i : ℕ) (arch : CString) (s : State (Session W)) :
    Ensures (versionInit os i arch) (fun ret s' =>
      ∃ vi, s.world.versions[i]? = some vi ∧ Inits os i arch vi s ret s') s := by
  simp only [versionInit, ensures_bind, ensures_versionAt, ensures_strcatName, ensures_sys,
    ensures_ite, ensures_pure, ensures_setArch, ensures_versionInstallDir, ensures_job, enterDir,
    ensures_chdir]
  intro vi hvi _ _ w _
  rcases hd : os.chdir s.world.sys.cwd (rootDir ++ '/' :: vi.dirName) w with _ | d
  · rw [if_pos (by rfl)]
    exact ⟨vi, hvi, .stays w⟩
  rw [if_neg (by simp)]
  intro ret w' hret
  split_ifs with hr
  · exact ⟨vi, hvi, .refused w' hd⟩
  -- What has been accepted is copied whole, so that reading the version again gives
  -- `vi.setArch arch`, which is what the environment is set up for.
  have hacc := ensures_versionArchInvalid arch w ret w' hret (not_not.1 hr)
  rw [hacc.take_eq]
  intro vi' hvi' _ _ w'' _
  have heq : vi' = vi.setArch arch :=
    Option.some.inj (hvi'.symm.trans (getElem?_modifyVersion hvi))
  rcases hattr : vi'.attribute with _ | attr
  · refine ensures_pure.2 ⟨vi, hvi, .entered w'' hd hacc ?_⟩
    rw [SetsUp, ← heq, hattr]
    rfl
  · refine ensures_sys.2 fun ret t hret => ?_
    obtain rfl := ensures_initEnv vi' attr _ ret t hret
    refine ⟨vi, hvi, .entered w'' hd hacc ?_⟩
    rw [SetsUp, ← heq, hattr]
    exact hret

/-- What `versionInit` does when it succeeds. -/
theorem versionInit_entered {i : ℕ} {arch : CString} {s s' : State (Session W)}
    (hr : (versionInit os i arch).result s = some (0, s')) :
    ∃ vi d w w' t, s.world.versions[i]? = some vi ∧
      os.chdir s.world.sys.cwd (rootDir ++ '/' :: vi.dirName) w = some d ∧ Accepted arch ∧
      SetsUp (vi.setArch arch) ⟨d, s.world.sys.env, w'⟩ t ∧
      s' = { s.modifyVersion i (VersionInf.setArch arch) with world.sys := t } := by
  obtain ⟨vi, hvi, hinit⟩ := versionInit_spec i arch s 0 s' hr
  generalize hret : (0 : ℤ) = ret at hinit
  cases hinit with
  | stays w => exact absurd hret (by decide)
  | refused w' hd => exact absurd hret (by decide)
  | @entered d w t w' hd hacc hsets => exact ⟨vi, d, w, w', t, hvi, hd, hacc, hsets, rfl⟩

/-- What `versionFinit` does: the environment is torn down, the version has no
    architecture any more, and its directory is left. -/
theorem versionFinit_spec (i : ℕ) (s : State (Session W)) :
    Ensures (versionFinit os i) (fun _ s' => ∃ vi t, s.world.versions[i]? = some vi ∧
      TearsDown vi s.world.sys t ∧ s' = { s.modifyVersion i (VersionInf.setArch []) with
        world.sys := { t with cwd := (os.chdir t.cwd "..".toList t.world).getD t.cwd } }) s := by
  simp only [versionFinit, ensures_bind, ensures_versionAt, ensures_setArch, ensures_sys,
    ensures_chdir, ensures_pure]
  intro vi hvi
  rcases hattr : vi.attribute with _ | attr
  · refine ensures_pure.2 ⟨vi, s.world.sys, hvi, ?_, rfl⟩
    rw [TearsDown, hattr]
  · refine ensures_sys.2 fun _ t ht => ⟨vi, t, hvi, ?_, rfl⟩
    rw [TearsDown, hattr]
    exact ht

/-- What `versionGet` does: it finds the version in the registry, or adds it. -/
theorem versionGet_spec (name : CString) (s : State (Session W)) :
    Ensures (versionGet os name) (fun r s' =>
      (r = none ∧ OnlyWorld s s') ∨ (∃ i, r = some i ∧ s' = s ∧
        versionFind name s.world.versions = some i) ∨
      (r = some s.world.versions.length ∧ OnlyWorld (s.addVersion (versionCreate name)) s')) s := by
  simp only [versionGet, ensures_bind, ensures_get]
  rcases hf : versionFind name s.world.versions with _ | i
  · simp only [ensures_bind, ensures_sys, ensures_job, ensures_ite, ensures_addVersion,
      ensures_pure]
    intro exist w _
    split_ifs
    · exact .inl ⟨trivial, _, rfl⟩
    · exact .inr (.inr ⟨trivial, _, rfl⟩)
  · exact ensures_pure.2 (.inr (.inl ⟨i, rfl, rfl, rfl⟩))

/-- What `projectGet` does: it finds the project in the list, or adds it. -/
theorem projectGet_spec (name : CString) (i : ℕ) (s : State (Session W)) :
    Ensures (projectGet os name i) (fun r s' => ∃ vi, s.world.versions[i]? = some vi ∧
      ((r = none ∧ OnlyWorld s s') ∨ (∃ j, r = some j ∧ s' = s ∧
          projectFind name vi.projects = some j) ∨
        (r = some vi.projects.length ∧ OnlyWorld
          (s.modifyVersion i (VersionInf.addProject (projectCreate name))) s'))) s := by
  simp only [projectGet, ensures_bind, ensures_versionAt]
  intro vi hvi
  rcases hf : projectFind name vi.projects with _ | j
  · simp only [ensures_bind, ensures_sys, ensures_job, ensures_ite, ensures_addProject,
      ensures_pure]
    intro exist w _
    split_ifs
    · exact ⟨vi, hvi, .inl ⟨trivial, w, rfl⟩⟩
    · exact ⟨vi, hvi, .inr (.inr ⟨rfl, w, rfl⟩)⟩
  · exact ensures_pure.2 ⟨vi, hvi, .inr (.inl ⟨j, rfl, rfl, hf⟩)⟩

end Mksh
