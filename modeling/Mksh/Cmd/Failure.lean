import Mksh.Cmd.Directory

/-!
# Failing to enter a version

What a `version` command that does not enter the version leaves behind: the
session is as it was (`Unchanged`), unless the directory of the version has been
entered (`getVersion_unchanged_iff`). Refusing the architecture does not leave
the directory; a failing refresh leaves it for the one above, and with the
environment torn down.
-/

namespace Mksh

open CString Process

variable {W : Type} {os : Os W} {vi : VersionInf} {argv : List CString}
  {s s' s₁ : State (Session W)} {i : ℕ} {arch : CString} {t t₁ t₂ : Sys W} {ret : ℤ} {w : W}

/-- The session is the same, but for versions that have been added. -/
structure Unchanged (s s' : State (Session W)) : Prop where
  node : s'.shell.node = s.shell.node
  index : s'.world.shellIndex = s.world.shellIndex
  cwd : s'.world.sys.cwd = s.world.sys.cwd
  env : s'.world.sys.env = s.world.sys.env
  arch : ∀ (k : ℕ) (vi : VersionInf), s.world.versions[k]? = some vi →
    ∃ vi' : VersionInf, s'.world.versions[k]? = some vi' ∧ vi'.arch = vi.arch

/-- Setting up the environment of a version, and tearing it down, leave it as it
    is: the version has no architecture, the variables are not set, and the path
    does not have the cross compiler. -/
structure Clean (vi : VersionInf) (arch : CString) (env : Env) : Prop where
  unset : vi.arch = []
  vars : ∀ attr, vi.attribute = some attr → ∀ v ∈ attr.vars, env v = none
  path : ∀ attr, vi.attribute = some attr → Crosses attr (vi.setArch arch) →
    ∀ path, env pathVar = some path → ¬crossarmBin <:+: path

/-- The directory, and the environment, of the session are those that the command
    leaves, when initialising the version returns `ret`, and the world is `w` in
    the end: that of the version if the architecture is refused; the one to which
    `..` leads from there if the version cannot be refreshed. -/
structure Restores (os : Os W) (vi : VersionInf) (arch : CString) (w : W) (t : Sys W) (ret : ℤ) :
    Prop where
  refused : ret = -mkErrVerArchInval → t.cwd = versionDir vi
  cwd : ret = 0 → t.cwd = (os.chdir (versionDir vi) "..".toList w).getD (versionDir vi)
  clean : ret = 0 → Clean vi arch t.env

/-! ## Getting a version -/

/-- What getting a version changes: it may be added. -/
structure Adds (s s₁ : State (Session W)) : Prop extends Unchanged s s₁ where
  versions : ∀ (k : ℕ) (vi : VersionInf), s.world.versions[k]? = some vi →
    s₁.world.versions[k]? = some vi
  added : ∀ (k : ℕ) (vi : VersionInf), s₁.world.versions[k]? = some vi →
    s.world.versions[k]? = some vi ∨ vi.arch = []

/-- What only concerns the system adds no version. -/
theorem adds_of_onlyWorld (h : OnlyWorld s s₁) : Adds s s₁ := by
  obtain ⟨w, rfl⟩ := h
  exact ⟨⟨rfl, rfl, rfl, rfl, fun _ vi hvi => ⟨vi, hvi, rfl⟩⟩, fun _ _ => id, fun _ _ => .inl⟩

/-- Asking for a version adds one at most. -/
theorem adds_versionGet {name : CString} {r : Option ℕ}
    (hr : (versionGet os name).result s = some (r, s₁)) : Adds s s₁ := by
  rcases versionGet_spec name s r s₁ hr with ⟨-, hs⟩ | ⟨i, -, rfl, -⟩ | ⟨-, w, rfl⟩
  · exact adds_of_onlyWorld hs
  · exact adds_of_onlyWorld (refl s₁)
  · have hold (k : ℕ) (vi : VersionInf) (hvi : s.world.versions[k]? = some vi) :
        (s.world.versions ++ [versionCreate name])[k]? = some vi := by
      rw [List.getElem?_append_left (List.getElem?_eq_some_iff.1 hvi).1]
      exact hvi
    refine ⟨⟨rfl, rfl, rfl, rfl, fun k vi hvi => ⟨vi, hold k vi hvi, rfl⟩⟩, hold, ?_⟩
    intro k vi hvi
    change (s.world.versions ++ [versionCreate name])[k]? = some vi at hvi
    rcases Nat.lt_or_ge k s.world.versions.length with hlt | hge
    · rw [List.getElem?_append_left hlt] at hvi
      exact .inl hvi
    · rw [List.getElem?_append_right hge] at hvi
      obtain rfl := List.mem_singleton.1 (List.mem_of_getElem? hvi)
      exact .inr rfl

/-! ## Setting up and tearing down -/

/-- The environment is as it was, if it is clean. -/
theorem setsUp_tearsDown (hset : SetsUp (vi.setArch arch) t t₁)
    (htear : TearsDown (vi.setArch arch) { t₁ with world := w } t₂) :
    t₂.cwd = t.cwd ∧ t₂.world = w ∧ (vi.arch = [] → (t₂.env = t.env ↔ Clean vi arch t.env)) := by
  rw [SetsUp] at hset
  rw [TearsDown] at htear
  -- A version of no family sets no variables, and thus unsets none.
  rcases hattr : vi.attribute with _ | attr
  · have hattr' : (vi.setArch arch).attribute = none := hattr
    rw [hattr'] at hset htear
    obtain rfl : t₁ = t := hset
    obtain rfl : t₂ = { t₁ with world := w } := htear
    refine ⟨rfl, rfl, fun hnone => iff_of_true rfl ⟨hnone, ?_, ?_⟩⟩
    · simp [hattr]
    · simp [hattr]
  · have hattr' : (vi.setArch arch).attribute = some attr := hattr
    rw [hattr'] at hset htear
    obtain ⟨hcwd, -, henv⟩ := ensures_initEnv_env attr _ t 0 t₁ hset
    obtain rfl := ensures_finitEnv_env attr _ _ () t₂ htear
    refine ⟨hcwd, rfl, fun hnone => ?_⟩
    change mask attr.vars (finitPath attr (vi.setArch arch) t₁.env) = t.env ↔ _
    -- Unsetting masks the variables of the family, and cuts the path that was set up.
    rw [mask_finitPath henv, mask_finitPath_initPath_eq_iff]
    constructor
    · rintro ⟨hvars, hpath⟩
      refine ⟨hnone, fun attr' h => ?_, fun attr' h => ?_⟩
      · obtain rfl := Option.some.inj (hattr.symm.trans h)
        exact hvars
      · obtain rfl := Option.some.inj (hattr.symm.trans h)
        exact hpath
    · intro h
      exact ⟨h.vars attr hattr, h.path attr hattr⟩

/-! ## The exits -/

/-- A version that is not initialised. -/
theorem unchanged_failed_iff (hos : os.Lexical) (hadds : Adds s s₁)
    (hinit : (versionInit os i arch).result s₁ = some (ret, s')) (hret : ret ≠ 0)
    (hvi : s₁.world.versions[i]? = some vi) :
    Unchanged s s' ↔ Restores os vi arch s'.world.sys.world s.world.sys ret := by
  obtain ⟨vi', hvi', hinit⟩ := versionInit_spec i arch s₁ ret s' hinit
  obtain rfl := Option.some.inj (hvi.symm.trans hvi')
  cases hinit with
  | stays w =>
    refine iff_of_true ⟨hadds.node, hadds.index, hadds.cwd, hadds.env, hadds.arch⟩ ⟨?_, ?_, ?_⟩
    · exact fun h => absurd h (by decide)
    · exact fun h => absurd h hret
    · exact fun h => absurd h hret
  | refused w' hd =>
    -- The directory of the version is not left again.
    have hdir := chdir_versionDir hos hd
    constructor
    · intro h
      exact ⟨fun _ => h.cwd.symm.trans hdir, fun h => absurd h hret, fun h => absurd h hret⟩
    · intro h
      exact ⟨hadds.node, hadds.index, hdir.trans (h.refused rfl).symm, hadds.env, hadds.arch⟩
  | entered w' hd hacc hsets => exact absurd rfl hret

/-- A version that is initialised, but not refreshed. -/
theorem unchanged_left_iff (hos : os.Lexical) {s₂ s₃ : State (Session W)} (hadds : Adds s s₁)
    (hinit : (versionInit os i arch).result s₁ = some (0, s₂)) (hworld : OnlyWorld s₂ s₃)
    (hfinit : (versionFinit os i).result s₃ = some ((), s'))
    (hvi : s₁.world.versions[i]? = some vi) :
    Unchanged s s' ↔ Restores os vi arch s'.world.sys.world s.world.sys 0 := by
  obtain ⟨vi', d, w, w', t, hvi', hd, -, hset, rfl⟩ := versionInit_entered hinit
  obtain rfl := Option.some.inj (hvi.symm.trans hvi')
  obtain ⟨w'', rfl⟩ := hworld
  obtain ⟨vi', t', hvi', htear, rfl⟩ := versionFinit_spec i _ () s' hfinit
  obtain rfl := Option.some.inj ((getElem?_modifyVersion hvi).symm.trans hvi')
  obtain ⟨hcwd, hw, henv⟩ := setsUp_tearsDown hset htear
  -- `..` starts from the directory of the version.
  have hback : (os.chdir t'.cwd "..".toList t'.world).getD t'.cwd =
      (os.chdir (versionDir vi) "..".toList t'.world).getD (versionDir vi) := by
    rw [hcwd, chdir_versionDir hos hd]
  change vi.arch = [] → (t'.env = s₁.world.sys.env ↔ Clean vi arch s₁.world.sys.env) at henv
  rw [hadds.env] at henv
  have hleft := getElem?_modifyVersion (f := VersionInf.setArch [])
    (getElem?_modifyVersion (f := VersionInf.setArch arch) hvi)
  constructor
  · intro h
    -- A version that was in the registry before has no architecture now, so that it
    -- had none, and one that has been added had none either.
    have hunset : vi.arch = [] := by
      rcases hadds.added i vi hvi with hold | hnew
      · obtain ⟨vi', hvi', harch⟩ := h.arch i vi hold
        obtain rfl := Option.some.inj (hleft.symm.trans hvi')
        exact harch.symm
      · exact hnew
    exact ⟨fun h => absurd h (by decide), fun _ => h.cwd.symm.trans hback,
      fun _ => (henv hunset).1 h.env⟩
  · intro h
    have hclean := h.clean rfl
    refine ⟨hadds.node, hadds.index, hback.trans (h.cwd rfl).symm, (henv hclean.unset).2 hclean, ?_⟩
    intro k vi' hk
    have hk₁ := hadds.versions k vi' hk
    by_cases hik : i = k
    · subst hik
      obtain rfl := Option.some.inj (hvi.symm.trans hk₁)
      exact ⟨_, hleft, hclean.unset.symm⟩
    · refine ⟨vi', ?_, rfl⟩
      change ((s₁.world.versions.modify i _).modify i _)[k]? = some vi'
      rw [List.getElem?_modify_ne _ _ hik, List.getElem?_modify_ne _ _ hik, hk₁]

/-- What the command does with its arguments is determined. -/
theorem forall_exit_iff {P : VersionInf → CString → ℤ → Prop} {name : CString}
    {s₂ : State (Session W)} (hname : argv[0]? = some name) (harch : argv[1]? = some arch)
    (hget : (versionGet os (name.rdropWhile (· = '/'))).result s = some (some i, s₁))
    (hinit : (versionInit os i arch).result s₁ = some (ret, s₂))
    (hvi : s₁.world.versions[i]? = some vi) :
    (∀ name arch i s₁ r s₂ vi, argv[0]? = some name → argv[1]? = some arch →
      (versionGet os (name.rdropWhile (· = '/'))).result s = some (some i, s₁) →
      (versionInit os i arch).result s₁ = some (r, s₂) → s₁.world.versions[i]? = some vi →
        P vi arch r) ↔ P vi arch ret := by
  refine ⟨fun h => h name arch i s₁ ret s₂ vi hname harch hget hinit hvi, fun h => ?_⟩
  intro name' arch' i' s₁' ret' s₂' vi' hname' harch' hget' hinit' hvi'
  obtain rfl := Option.some.inj (hname.symm.trans hname')
  obtain rfl := Option.some.inj (harch.symm.trans harch')
  obtain ⟨hi, rfl⟩ := Prod.mk.inj (Option.some.inj (hget.symm.trans hget'))
  obtain rfl := Option.some.inj hi
  obtain ⟨rfl, -⟩ := Prod.mk.inj (Option.some.inj (hinit.symm.trans hinit'))
  obtain rfl := Option.some.inj (hvi.symm.trans hvi')
  exact h

/-- A `version` command that does not enter the version leaves the session as it
    was if and only if what it leaves of the version is what there was. -/
theorem getVersion_unchanged_iff (hos : os.Lexical)
    (hr : (getVersion os .shell argv).result s = some (ret, s'))
    (hfail : s'.shell.node ≠ .version) :
    Unchanged s s' ↔ ∀ name arch i s₁ r s₂ vi, argv[0]? = some name → argv[1]? = some arch →
      (versionGet os (name.rdropWhile (· = '/'))).result s = some (some i, s₁) →
      (versionInit os i arch).result s₁ = some (r, s₂) → s₁.world.versions[i]? = some vi →
        Restores os vi arch s'.world.sys.world s.world.sys r := by
  obtain ⟨-, name, hname, hget⟩ := getVersion_spec s ret s' hr
  cases hget with
  | unknown hget =>
    refine iff_of_true (adds_versionGet hget).toUnchanged ?_
    intro name' arch i s₁ r s₂ vi hname' harch hget'
    obtain rfl := Option.some.inj (hname.symm.trans hname')
    cases hget.symm.trans hget'
  | @failed i arch s₁ _ r hget harch hinit hret =>
    obtain ⟨vi, hvi, -⟩ := versionInit_spec i arch s₁ r s' hinit
    rw [forall_exit_iff hname harch hget hinit hvi]
    exact unchanged_failed_iff hos (adds_versionGet hget) hinit hret hvi
  | @left i arch s₁ s₂ _ _ hget harch hinit hworld hfinit =>
    obtain ⟨vi, hvi, -⟩ := versionInit_spec i arch s₁ 0 s₂ hinit
    rw [forall_exit_iff hname harch hget hinit hvi]
    exact unchanged_left_iff hos (adds_versionGet hget) hinit hworld hfinit hvi
  | entered hget harch hinit hworld => exact absurd rfl hfail

/-- A system in which nothing is found in a file. -/
def grepless : Os Unit :=
  .scripted (fun _ _ _ => 0) (fun command _ => if "grep".toList <+: command then 1 else 0)
    fun _ => true

/-- Where `fwbuild` has not the architectures, the directory is changed, but not the node. -/
theorem getVersion_grepless : ∃ ret s', (getVersion grepless .shell
    (words ["trunk", "soho"])).result permissiveBoot = some (ret, s') ∧
      s'.shell.node = .enable ∧ s'.world.sys.cwd = words ["home", "Bane", "src", "trunk"] := by
  have hany : ((getVersion grepless .shell (words ["trunk", "soho"])).result permissiveBoot).any
      fun r => r.2.shell.node = .enable ∧
        r.2.world.sys.cwd = words ["home", "Bane", "src", "trunk"] := by decide +kernel
  obtain ⟨⟨ret, s'⟩, hr, h⟩ := (Option.any_eq_true _ _).1 hany
  exact ⟨ret, s', hr, of_decide_eq_true h⟩

/-- What decides there whether the state is what it was. -/
theorem getVersion_unchanged_iff_grepless : ∃ ret s', (getVersion grepless .shell
    (words ["trunk", "soho"])).result permissiveBoot = some (ret, s') ∧
      (Unchanged permissiveBoot s' ↔ ∀ name arch i s₁ r s₂ vi,
        (words ["trunk", "soho"])[0]? = some name → (words ["trunk", "soho"])[1]? = some arch →
        (versionGet grepless (name.rdropWhile (· = '/'))).result permissiveBoot =
          some (some i, s₁) → (versionInit grepless i arch).result s₁ = some (r, s₂) →
          s₁.world.versions[i]? = some vi →
            Restores grepless vi arch s'.world.sys.world permissiveBoot.world.sys r) := by
  obtain ⟨ret, s', hr, hnode, -⟩ := getVersion_grepless
  exact ⟨ret, s', hr, getVersion_unchanged_iff (Os.scripted_lexical _ _ _) hr
    (hnode ▸ by decide)⟩

/-- Refusing the architecture does not leave the directory of the version. -/
theorem getVersion_refused : ∃ ret s', (getVersion grepless .shell
    (words ["trunk", "soho"])).result permissiveBoot = some (ret, s') ∧
      s'.shell.node ≠ .version ∧ ¬Unchanged permissiveBoot s' := by
  obtain ⟨ret, s', hr, hnode, hcwd⟩ := getVersion_grepless
  refine ⟨ret, s', hr, hnode ▸ by decide, fun h => ?_⟩
  have hsame := h.cwd
  rw [hcwd] at hsame
  exact absurd hsame (by decide)

end Mksh
