import Mksh.Cmd.Version

/-!
# Architectures

A version is entered for one of six architectures (`IsArch`), and what is done
for it later compares whole names. `versionInit` accepts any part of the lists
in which these are written, and it is only for the names themselves that the
version gets a real architecture (`versionInit_realArch_iff`).
-/

namespace Mksh

open CString Process

variable {W : Type} {os : Os W} {i : ℕ} {arch : CString} {s s' : State (Session W)}

/-- The architectures of the two families of versions. -/
def archs3602 : List CString := ["soho".toList, "themis".toList, "sag".toList]

/-- The architectures of 3.6.0.9. -/
def archs3609 : List CString := ["x86_32".toList, "x86_64".toList, "arm_32".toList]

/-- The string is the name of an architecture. -/
def IsArch (arch : CString) : Prop := arch ∈ archs3602 ∨ arch ∈ archs3609

instance : DecidablePred IsArch := fun arch =>
  inferInstanceAs (Decidable (arch ∈ archs3602 ∨ arch ∈ archs3609))

/-- The version has an architecture, and the type that goes with it. -/
def RealArch (vi : VersionInf) : Prop :=
  (vi.arch ∈ archs3602 ∧ versionType vi = .v3602) ∨
    (vi.arch ∈ archs3609 ∧ versionType vi = .v3609)

/-- The architectures of 3.6.0.2 are parts of its string. -/
theorem versionType_of_mem_archs3602 {vi : VersionInf} (h : vi.arch ∈ archs3602) :
    versionType vi = .v3602 := by
  rw [versionType]
  generalize vi.arch = arch at h ⊢
  revert arch
  decide

/-- The architectures of 3.6.0.9 are parts of its string, and of no other. -/
theorem versionType_of_mem_archs3609 {vi : VersionInf} (h : vi.arch ∈ archs3609) :
    versionType vi = .v3609 := by
  rw [versionType]
  generalize vi.arch = arch at h ⊢
  revert arch
  decide

/-- The type goes with the architecture. -/
theorem realArch_iff {vi : VersionInf} : RealArch vi ↔ IsArch vi.arch :=
  or_congr (and_iff_left_of_imp versionType_of_mem_archs3602)
    (and_iff_left_of_imp versionType_of_mem_archs3609)

/-- A version that is initialised has a real architecture if and only if the
    argument is the name of one. -/
theorem versionInit_realArch_iff (h : (versionInit os i arch).result s = some (0, s')) :
    (∃ vi, s'.world.versions[i]? = some vi ∧ RealArch vi) ↔ IsArch arch := by
  obtain ⟨vi, -, -, -, t, hvi, -, -, -, rfl⟩ := versionInit_entered h
  have harch : (s.modifyVersion i (VersionInf.setArch arch)).world.versions[i]? =
      some (vi.setArch arch) := getElem?_modifyVersion hvi
  constructor
  · rintro ⟨vi', hvi', hreal⟩
    obtain rfl := Option.some.inj (harch.symm.trans hvi')
    exact realArch_iff.1 hreal
  · intro ha
    exact ⟨vi.setArch arch, harch, realArch_iff.2 ha⟩

/-- A version is entered for `soho`. -/
theorem versionInit_realArch_iff_soho :
    ∃ s', (versionInit Os.permissive 0 "soho".toList).result
        (bootState [("V".toList, [])] ⟨[], fun _ => none, ()⟩) = some (0, s') ∧
      ((∃ vi, s'.world.versions[0]? = some vi ∧ RealArch vi) ↔ IsArch "soho".toList) := by
  have h : (versionInit Os.permissive 0 "soho".toList).result
      (bootState [("V".toList, [])] ⟨[], fun _ => none, ()⟩) = some (0, _) := rfl
  exact ⟨_, h, versionInit_realArch_iff h⟩

/-- `so` is accepted as an architecture. -/
theorem versionInit_so :
    ∃ s' vi, (versionInit Os.permissive 0 "so".toList).result
        (bootState [("V".toList, [])] ⟨[], fun _ => none, ()⟩) = some (0, s') ∧
      s'.world.versions[0]? = some vi ∧ vi.arch = "so".toList ∧ ¬RealArch vi := by
  refine ⟨_, _, rfl, rfl, rfl, ?_⟩
  rw [realArch_iff]
  decide

end Mksh
