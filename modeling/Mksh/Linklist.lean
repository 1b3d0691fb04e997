import Mathlib.Algebra.Order.Ring.Int
import Mathlib.Data.List.Perm.Basic
import Mksh.Lib.CString

/-!
# Lists

A list as the sequence of its data. Adding to a list with a `cmp` puts the data
before the first one that is greater, which keeps the list sorted
(`sortedBy_addSortLoop`). A sorted list is determined by its data, when those that
compare equal are equal (`SortedBy.eq_of_perm`).
-/

namespace Mksh

open CString

variable {α : Type*}

/-- The loop of `listnodeAddSort`: `val` comes before the first data that is greater. -/
def addSortLoop (cmp : α → α → ℤ) (val : α) : List α → List α
  | [] => [val]
  | n :: list => if cmp val n < 0 then val :: n :: list else n :: addSortLoop cmp val list

/-- Adding `val` before the first greater data, or at the end if there is none, or no
    `cmp`. -/
def listnodeAddSort (cmp : Option (α → α → ℤ)) (val : α) (list : List α) : List α :=
  match cmp with
  | none => list ++ [val]
  | some cmp => addSortLoop cmp val list

/-- A comparison: its signs are those of a total preorder. -/
structure Compares (cmp : α → α → ℤ) : Prop where
  flip {a b : α} : 0 ≤ cmp a b → cmp b a ≤ 0
  trans {a b c : α} : cmp a b ≤ 0 → cmp b c ≤ 0 → cmp a c ≤ 0

/-- A comparison whose signs are opposite one way and the other. -/
structure TotalPreorder (cmp : α → α → ℤ) : Prop extends Compares cmp where
  asymm {a b : α} : cmp a b < 0 → 0 < cmp b a

/-- The data are in order. -/
def SortedBy (cmp : α → α → ℤ) (list : List α) : Prop := list.Pairwise fun a b => cmp a b ≤ 0

variable {cmp : α → α → ℤ} {val : α} {list list' : List α}

theorem addSortLoop_perm (cmp : α → α → ℤ) (val : α) (list : List α) :
    (addSortLoop cmp val list).Perm (val :: list) := by
  induction list with
  | nil => exact .refl _
  | cons n list ih =>
    rw [addSortLoop]
    split_ifs
    · exact .refl _
    · exact (ih.cons n).trans (.swap val n list)

theorem listnodeAddSort_perm (cmp : Option (α → α → ℤ)) (val : α) (list : List α) :
    (listnodeAddSort cmp val list).Perm (val :: list) := by
  rcases cmp with _ | cmp
  · exact List.perm_append_singleton val list
  · exact addSortLoop_perm cmp val list

theorem sortedBy_addSortLoop (hcmp : Compares cmp) (h : SortedBy cmp list) (val : α) :
    SortedBy cmp (addSortLoop cmp val list) := by
  induction list with
  | nil => exact List.pairwise_singleton _ val
  | cons n list ih =>
    obtain ⟨hn, hlist⟩ := List.pairwise_cons.1 h
    rw [addSortLoop]
    split_ifs with hlt
    · refine List.pairwise_cons.2 ⟨fun b hb => ?_, h⟩
      rcases List.mem_cons.1 hb with rfl | hb
      · exact hlt.le
      · exact hcmp.trans hlt.le (hn b hb)
    · refine List.pairwise_cons.2 ⟨fun b hb => ?_, ih hlist⟩
      rcases List.mem_cons.1 ((addSortLoop_perm cmp val list).mem_iff.1 hb) with rfl | hb
      · exact hcmp.flip (Int.not_lt.1 hlt)
      · exact hn b hb

theorem TotalPreorder.trans_lt (hcmp : TotalPreorder cmp) {a b c : α} (hab : cmp a b < 0)
    (hbc : cmp b c ≤ 0) : cmp a c < 0 := by
  refine lt_of_le_of_ne (hcmp.trans hab.le hbc) fun hac => ?_
  -- Otherwise `c` is not above `a`, and so `b` is not.
  have hba : cmp b a ≤ 0 := hcmp.trans hbc (hcmp.flip hac.ge)
  exact absurd (hcmp.asymm hab) (not_lt.2 hba)

/-- The comparison only matters on the data. -/
theorem SortedBy.congr {cmp' : α → α → ℤ} (h : SortedBy cmp list)
    (hcmp : ∀ a ∈ list, ∀ b ∈ list, cmp' a b = cmp a b) : SortedBy cmp' list :=
  List.Pairwise.imp_of_mem (fun ha hb hab => (hcmp _ ha _ hb).le.trans hab) h

/-! ## Strings -/

theorem strcmp_swap (s t : CString) : strcmp t s = -strcmp s t := by
  induction s generalizing t with
  | nil => cases t <;> simp [strcmp]
  | cons a s ih =>
    cases t with
    | nil => simp [strcmp]
    | cons b t =>
      rw [strcmp, strcmp]
      rcases eq_or_ne a b with rfl | hab
      · rw [if_pos rfl, if_pos rfl, ih]
      · rw [if_neg hab.symm, if_neg hab, neg_sub]

theorem compares_strcmp : Compares strcmp where
  flip {s t} h := by
    rw [strcmp_swap]
    omega
  trans := strcmp_nonpos_trans

/-- Strings with the same sorting are the same. -/
theorem strcmp_antisymm {s t : CString} (h : strcmp s t ≤ 0) (h' : strcmp t s ≤ 0) : s = t := by
  rw [strcmp_swap] at h'
  exact strcmp_eq_zero.1 (by omega)

/-- A sorted list of strings is determined by its strings. -/
theorem SortedBy.eq_of_perm {lines lines' : List CString} (h : SortedBy strcmp lines)
    (h' : SortedBy strcmp lines') (hperm : lines.Perm lines') : lines = lines' :=
  hperm.eq_of_pairwise (fun _ _ _ _ => strcmp_antisymm) h h'

end Mksh
