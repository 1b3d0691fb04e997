import Mathlib.Data.List.Sort
import Mksh.Command.Argv

/-!
# Order of the commands

Dispatch does not depend on the order in which the commands of a node are
installed, nor on that of the alternatives of an item: the elements of two
nodes that only differ in these are related (`Reordered`), the rounds of the
words agree on related elements (`cmdRound_rel`), and so do the arguments
(`cmdArgLoop_reordered`). Hence what a line does is the same, up to the order of
the alternatives of the element selected (`cmdExecuteCommand_reordered`). In
particular, `cmd_sort_node`, which sorts the elements and the alternatives of
their last items, changes nothing.
-/

namespace Mksh

open CString Elimination

variable {F : Type*} {cls : CString → CString → MatchType} {table table' : List (CmdElement F)}
  {e e' : CmdElement F}

/-- The elements are the same, up to the order of the alternatives. -/
structure Reordered (e e' : CmdElement F) : Prop where
  string : e.string = e'.string
  func : e.func = e'.func
  doc : e.doc = e'.doc
  daemon : e.daemon = e'.daemon
  strvec : List.Forall₂ List.Perm e.strvec e'.strvec
  cmdsize : e.cmdsize = e'.cmdsize

theorem Reordered.refl (e : CmdElement F) : Reordered e e :=
  ⟨rfl, rfl, rfl, rfl, List.forall₂_same.2 fun _ _ => .refl _, rfl⟩

/-- Equal outcomes, up to the order of the alternatives of the element. -/
inductive Outcome.Rel : Outcome F → Outcome F → Prop
  | returns (ret : ℤ) : Rel (.returns ret) (.returns ret)
  | daemon {e e' : CmdElement F} (argv : List CString) : Reordered e e' →
      Rel (.daemon e argv) (.daemon e' argv)
  | call {e e' : CmdElement F} (argv : List CString) : Reordered e e' →
      Rel (.call e argv) (.call e' argv)
  | fault (f : Fault) : Rel (.fault f) (.fault f)

/-! ## Sorting -/

/-- The results of `qsort`, which are not unique: the comparison may not tell
    elements apart. -/
def QSort {α : Type*} (cmp : α → α → ℤ) (l l' : List α) : Prop :=
  l.Perm l' ∧ l'.Pairwise fun a b => cmp a b ≤ 0

/-- Elements are in the order of their strings. -/
def cmpNode (a b : CmdElement F) : ℤ := strcmp a.string b.string

/-- Alternatives are in the order of their spellings. -/
def cmpDesc (a b : Desc) : ℤ := strcmp a.cmd b.cmd

/-- The alternatives of the last item sorted. -/
def SortLast (e e' : CmdElement F) : Prop :=
  ∃ items descvec descvec', e.strvec = items ++ [descvec] ∧ QSort cmpDesc descvec descvec' ∧
    e' = { e with strvec := items ++ [descvec'] }

/-- Sort each node's command element according to command string. -/
def CmdSortNode (table table' : List (CmdElement F)) : Prop :=
  ∃ sorted, QSort cmpNode table sorted ∧ List.Forall₂ SortLast sorted table'

/-- A result of `qsort`. -/
def qsort {α : Type*} (cmp : α → α → ℤ) (l : List α) : List α :=
  l.insertionSort fun a b => cmp a b ≤ 0

/-- `qsort` permutes, and the result is ordered by the keys. -/
theorem qsort_spec {α : Type*} (key : α → CString) (l : List α) :
    QSort (fun a b => strcmp (key a) (key b)) l (qsort (fun a b => strcmp (key a) (key b)) l) := by
  have htotal : Std.Total fun a b => strcmp (key a) (key b) ≤ 0 :=
    ⟨fun a b => strcmp_nonpos_total (key a) (key b)⟩
  have htrans : IsTrans α fun a b => strcmp (key a) (key b) ≤ 0 :=
    ⟨fun _ _ _ => strcmp_nonpos_trans⟩
  exact ⟨(List.perm_insertionSort _ l).symm, List.pairwise_insertionSort _ l⟩

/-- Sorting a node. -/
def cmdSortNode (table : List (CmdElement F)) : List (CmdElement F) :=
  (qsort cmpNode table).map fun e =>
    { e with strvec := e.strvec.dropLast ++ (e.strvec.getLast?.map (qsort cmpDesc)).toList }

/-- The sorting of a node meets its specification, if every element has an item. -/
theorem cmdSortNode_spec (h : ∀ e ∈ table, e.strvec ≠ []) :
    CmdSortNode table (cmdSortNode table) := by
  have hsort : QSort cmpNode table (qsort cmpNode table) := qsort_spec CmdElement.string table
  refine ⟨qsort cmpNode table, hsort, List.forall₂_map_right_iff.2 (List.forall₂_same.2 ?_)⟩
  intro e he
  have hne := h e (hsort.1.mem_iff.2 he)
  refine ⟨e.strvec.dropLast, e.strvec.getLast hne, qsort cmpDesc (e.strvec.getLast hne),
    (List.dropLast_append_getLast hne).symm, qsort_spec Desc.cmd _, ?_⟩
  rw [List.getLast?_eq_getLast_of_ne_nil hne]
  rfl

/-- Sorting the last item reorders its alternatives. -/
theorem SortLast.reordered (h : SortLast e e') : Reordered e e' := by
  obtain ⟨items, descvec, descvec', hs, ⟨hperm, -⟩, rfl⟩ := h
  refine ⟨rfl, rfl, rfl, rfl, ?_, rfl⟩
  rw [hs]
  exact List.rel_append (List.forall₂_same.2 fun l _ => .refl l) (.cons hperm .nil)

/-- Sorting a node reorders the elements and their alternatives. -/
theorem CmdSortNode.reordered (h : CmdSortNode table table') :
    PermRel Reordered table table' := by
  obtain ⟨sorted, ⟨hperm, -⟩, hlast⟩ := h
  exact List.perm_comp_forall₂ hperm (hlast.imp fun _ _ => SortLast.reordered)

/-! ## Rounds -/

/-- The items are permuted, each in itself. -/
theorem Reordered.item (h : Reordered e e') (i : ℕ) : (e.item i).Perm (e'.item i) := by
  have hs := h.strvec
  rw [CmdElement.item, CmdElement.item]
  generalize e.strvec = s, e'.strvec = s' at hs
  induction hs generalizing i with
  | nil => exact .refl _
  | cons hab _ ih =>
    rcases i with _ | i
    · exact hab
    · exact ih i

/-- The class of an element does not depend on the order of its alternatives. -/
theorem Reordered.classAt_eq (h : Reordered e e') (cls : CString → MatchType) (i : ℕ) :
    classAt cls i e = classAt cls i e' :=
  top_perm (h.item i)

/-- Nor does the top class. -/
theorem topClass_eq {l l' : List (CmdElement F)} (h : PermRel Reordered l l') (w : CString)
    (i : ℕ) : topClass cls w i l = topClass cls w i l' :=
  h.top_eq fun _ _ hr => hr.classAt_eq (cls w) i

/-- The early return only depends on which alternatives hit. -/
theorem conflict_congr {w : CString} {t : MatchType} {hs hs' : List CString}
    (h : ∀ s, s ∈ hs ↔ s ∈ hs') : conflict w t none hs = conflict w t none hs' := by
  have hnil : hs = [] ↔ hs' = [] := by
    simp only [List.eq_nil_iff_forall_not_mem, h]
  by_cases hp : isPartial w t
  · simp [conflict, hp, hnil]
  · have hagree : Agree (Option.toList none ++ hs) ↔ Agree (Option.toList none ++ hs') :=
      agree_congr h
    rw [conflict, conflict, if_neg hp, if_neg hp]
    exact if_congr (and_congr_right fun _ => not_congr hagree) rfl rfl

/-- Whether hits conflict does not depend on their order. -/
theorem roundConflict_eq {l l' : List (CmdElement F)} (h : PermRel Reordered l l') (w : CString)
    (i : ℕ) : roundConflict cls w i l = roundConflict cls w i l' := by
  rw [roundConflict, roundConflict, topClass_eq h]
  refine conflict_congr fun s => ?_
  have hm : PermRel Reordered (matching cls w i l) (matching cls w i l') :=
    h.filter fun a b hr => by rw [hr.classAt_eq]
  rw [mem_liveHits, mem_liveHits]
  refine hm.exists_mem fun a b hr => and_congr_left fun _ => ?_
  exact exists_congr fun d => and_congr_left fun _ => (hr.item i).mem_iff

/-- The rounds of a word agree on related elements. -/
theorem cmdRound_rel (w : CString) (i : ℕ) :
    Round.Rel (Reordered (F := F)) (cmdRound cls w i) (cmdRound cls w i) where
  halts h := congrArg (fun t => decide (t = MatchType.varargMatch)) (topClass_eq h w i)
  fail h := congrArg (Option.map ambiguousStatus) (roundConflict_eq h w i)
  keep {l k} h a b hr := by
    rw [Bool.eq_iff_iff, keep_iff, keep_iff, hr.classAt_eq, topClass_eq h]
    refine and_congr_right fun _ => or_congr_right ?_
    exact exists_congr fun d => and_congr_left fun _ => (hr.item i).mem_iff

/-- The rounds of a line respect reordering. -/
theorem cmdRounds_rel (i : ℕ) (ws : List CString) :
    List.Forall₂ (Round.Rel (Reordered (F := F))) (cmdRounds cls i ws) (cmdRounds cls i ws) := by
  induction ws generalizing i with
  | nil => exact .nil
  | cons w ws ih => exact .cons (cmdRound_rel w i) (ih (i + 1))

/-! ## Executing -/

/-- The same error, or elements that are the same up to order. -/
inductive FindRel : Except ℤ (CmdElement F) → Except ℤ (CmdElement F) → Prop
  | error (ret : ℤ) : FindRel (.error ret) (.error ret)
  | ok {e e' : CmdElement F} : Reordered e e' → FindRel (.ok e) (.ok e')

/-- What is selected only depends on how many candidates there are. -/
theorem cmdSelect_rel (n : ℕ) {vd vd' : Verdict (CmdElement F) ℤ} (h : vd.Rel Reordered vd') :
    FindRel (cmdSelect n vd) (cmdSelect n vd') := by
  cases h with
  | fail => exact .error _
  | halt h =>
    rcases h.trichotomy with ⟨rfl, rfl⟩ | ⟨a, b, rfl, rfl, hab⟩ | ⟨⟨_, _, _, rfl⟩, _, _, _, rfl⟩
    · exact .error _
    · exact .ok hab
    · exact .error _
  | @go l k h =>
    have hnil : l = [] ↔ k = [] := by
      rw [← List.length_eq_zero_iff, h.length_eq, List.length_eq_zero_iff]
    have hc : PermRel Reordered (l.filter fun e => n ≥ e.cmdsize)
        (k.filter fun e => n ≥ e.cmdsize) := h.filter fun a b hr => by rw [hr.cmdsize]
    rw [cmdSelect, cmdSelect]
    generalize (l.filter fun e => n ≥ e.cmdsize) = lc,
      (k.filter fun e => n ≥ e.cmdsize) = kc at hc
    rcases hc.trichotomy with ⟨rfl, rfl⟩ | ⟨a, b, rfl, rfl, hab⟩ | ⟨⟨_, _, _, rfl⟩, _, _, _, rfl⟩
    · simp only [hnil]
      exact .error _
    · exact .ok hab
    · exact .error _

/-- An item tells whether its word is an argument whatever the order. -/
theorem argItem_reordered {s s' : List (List Desc)} (h : List.Forall₂ List.Perm s s') (i : ℕ)
    (varflag : Bool) : argItem s i varflag = argItem s' i varflag := by
  induction h generalizing i with
  | nil => rfl
  | @cons a b _ _ hab _ ih =>
    rcases i with _ | i
    · have hlen := hab.length_eq
      rcases a with _ | ⟨d, _ | ⟨d', a⟩⟩
      · obtain rfl := hab.nil_eq
        rfl
      · obtain rfl := List.perm_singleton.1 hab.symm
        rfl
      · rcases b with _ | ⟨c, _ | ⟨c', b⟩⟩
        · cases hlen
        · cases hlen
        · rfl
    · exact ih i

/-- The arguments depend on the number of alternatives only. -/
theorem cmdArgLoop_reordered {s s' : List (List Desc)} (h : List.Forall₂ List.Perm s s')
    (ws : List CString) (i : ℕ) (varflag : Bool) (argv : List CString) :
    cmdArgLoop s ws i varflag argv = cmdArgLoop s' ws i varflag argv := by
  induction ws generalizing i varflag argv with
  | nil => rfl
  | cons w ws ih => simp only [cmdArgLoop, argItem_reordered h, ih]

/-- So do both executors. -/
theorem cmdExecuteWith_reordered (h : PermRel Reordered table table') (vline : List CString) :
    (cmdExecuteWith (filterBy cls) table vline).Rel
      (cmdExecuteWith (filterBy cls) table' vline) := by
  have hfind : FindRel (cmdFindElement (filterBy cls) table vline)
      (cmdFindElement (filterBy cls) table' vline) := by
    rw [cmdFindElement_eq, cmdFindElement_eq]
    exact cmdSelect_rel _ (run_rel (cmdRounds_rel 0 vline) h)
  rw [cmdExecuteWith, cmdExecuteWith]
  generalize cmdFindElement (filterBy cls) table vline = r,
    cmdFindElement (filterBy cls) table' vline = r' at hfind
  cases hfind with
  | error ret => exact .returns ret
  | @ok e e' hr =>
    dsimp only
    rw [cmdCallElement, cmdCallElement, cmdArgLoop_reordered hr.strvec, hr.daemon]
    cases cmdArgLoop e'.strvec vline 0 false [] with
    | error ret => exact .returns ret
    | fault f => exact .fault f
    | ok argv =>
      dsimp only
      split_ifs
      · exact .daemon argv hr
      · exact .call argv hr

/-- Dispatch does not depend on the order of the elements of the node, nor on
    that of the alternatives of their items; sorting the node changes nothing. -/
theorem cmdExecuteCommand_reordered (vline : List CString) :
    (PermRel Reordered table table' →
      (cmdExecuteCommand table vline).Rel (cmdExecuteCommand table' vline)) ∧
    (CmdSortNode table table' →
      (cmdExecuteCommand table vline).Rel (cmdExecuteCommand table' vline)) :=
  ⟨fun h => cmdExecuteWith_reordered h vline, fun h => cmdExecuteWith_reordered h.reordered vline⟩

/-- `make (install|clean)`, its alternatives sorted. -/
def projectMakeInstallOrCleanSorted : CmdElement ToolFunc :=
  { projectMakeInstallOrCleanCmd with
    strvec := projectMakeInstallOrCleanCmd.strvec.map List.reverse }

/-- `make ins`, with the two commands in either order. -/
theorem cmdExecuteCommand_reordered_make :
    (cmdExecuteCommand [projectMake2Cmd, projectMakeInstallOrCleanCmd] (words ["make", "ins"])).Rel
      (cmdExecuteCommand [projectMakeInstallOrCleanCmd, projectMake2Cmd]
        (words ["make", "ins"])) ∧
    (cmdExecuteCommand [projectMake2Cmd, projectMakeInstallOrCleanCmd] (words ["make", "ins"])).Rel
      (cmdExecuteCommand [projectMakeInstallOrCleanSorted, projectMake2Cmd]
        (words ["make", "ins"])) := by
  have hperm : PermRel Reordered [projectMake2Cmd, projectMakeInstallOrCleanCmd]
      [projectMakeInstallOrCleanCmd, projectMake2Cmd] :=
    ⟨_, List.forall₂_same.2 fun e _ => .refl e, .swap _ _ _⟩
  have hmake : SortLast projectMakeInstallOrCleanCmd projectMakeInstallOrCleanSorted :=
    ⟨[projectMakeInstallOrCleanCmd.item 0], projectMakeInstallOrCleanCmd.item 1,
      (projectMakeInstallOrCleanCmd.item 1).reverse, rfl,
      ⟨(List.reverse_perm _).symm, by decide⟩, rfl⟩
  have hmake2 : SortLast projectMake2Cmd projectMake2Cmd :=
    ⟨[projectMake2Cmd.item 0], projectMake2Cmd.item 1, projectMake2Cmd.item 1, rfl,
      ⟨.refl _, by decide⟩, rfl⟩
  have hsort : CmdSortNode [projectMake2Cmd, projectMakeInstallOrCleanCmd]
      [projectMakeInstallOrCleanSorted, projectMake2Cmd] :=
    ⟨[projectMakeInstallOrCleanCmd, projectMake2Cmd], ⟨.swap _ _ _, by decide⟩,
      .cons hmake (.cons hmake2 .nil)⟩
  exact ⟨(cmdExecuteCommand_reordered (words ["make", "ins"])).1 hperm,
    (cmdExecuteCommand_reordered (words ["make", "ins"])).2 hsort⟩

end Mksh
