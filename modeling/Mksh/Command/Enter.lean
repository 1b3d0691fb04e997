import Mksh.Cmd.Tool
import Mksh.Command.Complete

/-!
# What `<cr>` promises

`?` shows `<cr>` for an element left by the words of the line that has no more
items, whereas an executor takes any that has no more mandatory items. The two
agree on a line (`cmdDescribeCommand_cr_iff`) if some element left has as many
items as the line has words, or none left could be executed. (An alternative may
be spelled `<cr>` itself.)
-/

namespace Mksh

open CString Elimination

variable {F : Type*} {table : List (CmdElement F)} {ws : List CString}

/-! ## The elements left -/

/-- The elimination of which the loop over the preceding words is a part. -/
def DescribeEnd.verdict : DescribeEnd F → Verdict (CmdElement F) ℤ
  | error status => .fail status
  | vararg v => .halt v.reduceOption
  | words v => .go v.reduceOption

/-- The loop of the help plays the rounds of the words that it is given. -/
theorem verdict_cmdDescribeLoop (ws : List CString) (index : ℕ) (v : CmdVector F) :
    (cmdDescribeLoop ws index v).verdict =
      run (cmdRounds completionClass index ws) v.reduceOption := by
  induction ws generalizing index v with
  | nil => rfl
  | cons w ws ih =>
    rw [cmdDescribeLoop, cmdRounds, run]
    simp only [cmdFilterByCompletion, filterBy_fst, isCmdAmbiguous_fst]
    by_cases hv : topClass completionClass w index v.reduceOption = .varargMatch
    · rw [if_pos hv, play_of_vararg hv]
      rfl
    rw [if_neg hv]
    rcases hc : roundConflict completionClass w index v.reduceOption with _ | ret
    · rw [play_of_agree hv hc]
      exact ih _ _
    · rw [play_of_conflict hv hc]
      rcases conflict_eq_some hc with rfl | rfl
      · rfl
      · rfl

/-- The elements left are those of the elimination. -/
theorem run_of_describe {v' : CmdVector F}
    (h : cmdDescribeLoop ws 0 (vectorCopy table) = .words v') :
    run (cmdRounds completionClass 0 ws) table = .go v'.reduceOption := by
  have hverdict := verdict_cmdDescribeLoop ws 0 (vectorCopy table)
  rw [reduceOption_vectorCopy, h] at hverdict
  exact hverdict.symm

/-! ## Description -/

/-- On a new word, `?` shows every alternative. -/
theorem cmdEntryFunctionDesc_none (dst : CString) : cmdEntryFunctionDesc none dst = some dst := by
  rw [cmdEntryFunctionDesc]
  split_ifs with _ _ hr _ h6 _ h6p _ h4 _ h4p
  · rfl
  · rfl
  · exact absurd rfl hr
  · rfl
  · exact absurd (by decide) h6
  · rfl
  · exact absurd (by decide) h6p
  · rfl
  · exact absurd (by decide) h4
  · rfl
  · exact absurd (by decide) h4p
  · rfl
  · rfl

/-- The description has an entry spelled `s`. -/
def Shows (matchvec : List Desc) (s : CString) : Prop := ∃ d ∈ matchvec, d.cmd = s

/-- What two lists of descriptors show is what each of them shows. -/
theorem shows_append {m m' : List Desc} {s : CString} :
    Shows (m ++ m') s ↔ Shows m s ∨ Shows m' s := by
  simp only [Shows, List.mem_append, or_and_right, exists_or]

/-- A single descriptor shows its own text. -/
theorem shows_singleton {d : Desc} {s : CString} : Shows [d] s ↔ d.cmd = s := by
  simp [Shows]

/-- Adding an entry, unless there is one like it. -/
theorem shows_add {m : List Desc} {d : Desc} {s : CString} :
    Shows (if descUniqueString m d.cmd then m else m ++ [d]) s ↔ Shows m s ∨ d.cmd = s := by
  split_ifs with h
  · refine ⟨.inl, fun hs => hs.elim id fun hd => ?_⟩
    simp only [descUniqueString, List.any_eq_true, decide_eq_true_eq, strcmp_eq_zero] at h
    obtain ⟨d', hd', heq⟩ := h
    exact ⟨d', hd', heq.trans hd⟩
  · rw [shows_append, shows_singleton]

/-- The help of an item shows what it showed before, and the alternatives. -/
theorem shows_describeDescvec {descvec m : List Desc} {s : CString} :
    Shows (describeDescvec none descvec m) s ↔ Shows m s ∨ Shows descvec s := by
  induction descvec generalizing m with
  | nil => simp [describeDescvec, Shows]
  | cons d descvec ih =>
    rw [describeDescvec, cmdEntryFunctionDesc_none]
    dsimp only
    rw [ih, shows_add, or_assoc, ← List.singleton_append, shows_append, shows_singleton]

/-- The entries shown on a new word: the alternatives of the elements left, and
    `<cr>` for those without any. -/
theorem shows_describeVector {index : ℕ} {v : CmdVector F} {matchvec m : List Desc}
    (h : describeVector none index v matchvec = some m) (s : CString) :
    Shows m s ↔ Shows matchvec s ∨ ∃ e ∈ v.reduceOption,
      (e.strvec.length = index ∧ descCr.cmd = s) ∨ Shows (e.item index) s := by
  induction v generalizing matchvec with
  | nil =>
    obtain rfl := Option.some.inj h
    simp
  | cons slot v ih =>
    rcases slot with _ | e
    · rw [List.reduceOption_cons_of_none]
      exact ih h
    rw [describeVector, if_neg (by simp)] at h
    simp only [List.reduceOption_cons_of_some, List.exists_mem_cons_iff]
    by_cases hcr : index = e.strvec.length
    · -- The element has no more items.
      rw [if_pos ⟨rfl, hcr⟩] at h
      have hitem : ¬Shows (e.item index) s := by
        rw [CmdElement.item, List.getElem?_eq_none hcr.ge]
        rintro ⟨_, hd, -⟩
        exact absurd hd List.not_mem_nil
      rw [ih h, shows_add, or_assoc]
      simp only [hcr.symm, true_and, hitem, or_false]
    · rw [if_neg fun hn => hcr hn.2] at h
      rcases hd : e.strvec[index]? with _ | descvec
      · rw [hd] at h
        cases h
      · rw [hd] at h
        rw [ih h, shows_describeDescvec, or_assoc, CmdElement.item, hd, Option.getD_some]
        simp only [Ne.symm hcr, false_and, false_or]

/-! ## Execution -/

/-- What the argument treatment returns by itself. -/
theorem eq_of_cmdCallElement {e : CmdElement F} {vline : List CString} {ret : ℤ}
    (h : cmdCallElement e vline = .returns ret) : ret = cmdErrExeedArgcMax := by
  rw [cmdCallElement] at h
  split at h
  next hl => exact eq_of_cmdArgLoop (hl.trans (congrArg _ (Outcome.returns.inj h)))
  · cases h
  · split_ifs at h

/-- The executor neither asks for more words, nor finds no match, if and only if
    some element left is complete. -/
theorem cmdExecuteCommand_works_iff {left : List (CmdElement F)}
    (h : run (cmdRounds completionClass 0 ws) table = .go left) :
    (cmdExecuteCommand table ws ≠ .returns cmdErrIncomplete ∧
      cmdExecuteCommand table ws ≠ .returns cmdErrNoMatch) ↔
      ∃ e ∈ left, ws.length ≥ e.cmdsize := by
  have hfind : cmdFindElement cmdFilterByCompletion table ws =
    cmdSelect ws.length (run (cmdRounds completionClass 0 ws) table) := cmdFindElement_eq table ws
  rw [h, cmdSelect] at hfind
  have hex : (∃ e ∈ left, ws.length ≥ e.cmdsize) ↔
      left.filter (fun e => ws.length ≥ e.cmdsize) ≠ [] := by
    simp [List.filter_eq_nil_iff]
  rw [hex, cmdExecuteCommand, cmdExecuteWith, hfind]
  generalize left.filter (fun e => ws.length ≥ e.cmdsize) = l
  rcases l with _ | ⟨e, _ | ⟨e', l⟩⟩
  · refine iff_of_false (fun hr => ?_) (fun hl => hl rfl)
    -- Nothing is complete: there is no match, or an incomplete one.
    by_cases hleft : left = []
    · exact hr.2 (congrArg Outcome.returns (if_pos hleft))
    · exact hr.1 (congrArg Outcome.returns (if_neg hleft))
  · refine iff_of_true ⟨fun hr => ?_, fun hr => ?_⟩ (List.cons_ne_nil _ _)
    · exact absurd (eq_of_cmdCallElement hr) (by decide)
    · exact absurd (eq_of_cmdCallElement hr) (by decide)
  · refine iff_of_true ⟨fun hr => ?_, fun hr => ?_⟩ (List.cons_ne_nil _ _)
    · -- Several elements are complete, which is the remaining error.
      exact absurd (Outcome.returns.inj hr) (by decide)
    · exact absurd (Outcome.returns.inj hr) (by decide)

/-! ## Agreement -/

/-- At most every item is mandatory. -/
theorem cmdCmdsize_le (strvec : List (List Desc)) : cmdCmdsize strvec ≤ strvec.length := by
  induction strvec using cmdCmdsize.induct with
  | case1 => exact Nat.le_refl 0
  | case2 strvec desc h =>
    rw [cmdCmdsize, if_pos h]
    exact Nat.zero_le _
  | case3 strvec desc h ih =>
    rw [cmdCmdsize, if_neg h, List.length_cons]
    exact Nat.succ_le_succ ih
  | case4 item strvec h ih =>
    rw [cmdCmdsize]
    · exact Nat.succ_le_succ ih
    · exact h

/-- `<cr>` is shown exactly when the line could be executed, if and only if some
    element left has as many items as there are words; or, else, some element
    left has had all its mandatory items exactly when some alternative there is
    spelled `<cr>`. -/
theorem cmdDescribeCommand_cr_iff {matchvec : List Desc} (hinst : ∀ e ∈ table, e.Installed)
    (h : cmdDescribeCommand table ws none = .success matchvec) :
    ∃ left, run (cmdRounds completionClass 0 ws) table = .go left ∧
      ((Shows matchvec descCr.cmd ↔
          cmdExecuteCommand table ws ≠ .returns cmdErrIncomplete ∧
            cmdExecuteCommand table ws ≠ .returns cmdErrNoMatch) ↔
        (∃ e ∈ left, e.strvec.length = ws.length) ∨
          ((∃ e ∈ left, ws.length ≥ e.cmdsize) ↔
            ∃ e ∈ left, Shows (e.item ws.length) descCr.cmd)) := by
  rw [cmdDescribeCommand] at h
  rcases hl : cmdDescribeLoop ws 0 (vectorCopy table) with status | v | v
  · rw [hl] at h
    cases h
  · rw [hl] at h
    dsimp only at h
    split at h
    · cases h
    · cases h
  rw [hl] at h
  dsimp only [filterCurrent] at h
  have hm : describeVector none ws.length v [] = some matchvec := by
    split at h
    · cases h
    · cases h
    next m hm => exact hm.trans (congrArg some (Description.success.inj h))
  have hrun := run_of_describe hl
  -- An element without any items left is complete, so that the two agree if there is
  -- one: `<cr>` is shown for it, and it can be executed.
  have hcomplete : ∀ e ∈ v.reduceOption, e.strvec.length = ws.length → ws.length ≥ e.cmdsize := by
    intro e he hlen
    rw [live_eq_filter (congrArg Verdict.live hrun)] at he
    have hmem : e ∈ table := (List.mem_filter.1 he).1
    rw [← hlen, (hinst e hmem).2]
    exact cmdCmdsize_le e.strvec
  refine ⟨v.reduceOption, hrun, ?_⟩
  rw [cmdExecuteCommand_works_iff hrun, shows_describeVector hm]
  simp only [and_true, and_or_left, exists_or]
  have hnil : ¬Shows [] descCr.cmd := by
    rintro ⟨_, hd, -⟩
    exact absurd hd List.not_mem_nil
  have hlen : (∃ e ∈ v.reduceOption, e.strvec.length = ws.length) →
      ∃ e ∈ v.reduceOption, ws.length ≥ e.cmdsize := by
    rintro ⟨e, he, hlen⟩
    exact ⟨e, he, hcomplete e he hlen⟩
  by_cases ha : ∃ e ∈ v.reduceOption, e.strvec.length = ws.length
  · exact iff_of_true (iff_of_true (.inr (.inl ha)) (hlen ha)) (.inl ha)
  · simp only [ha, hnil, false_or]
    exact iff_comm

/-- The help of `ls` shows `<cr>` and its argument, and `ls` alone can be executed. -/
theorem cmdDescribeCommand_cr_iff_ls :
    ∃ left, run (cmdRounds completionClass 0 (words ["ls"])) versionNode = .go left ∧
      ((Shows [⟨"<cr>".toList, some []⟩, ⟨"WORD".toList, some "Directories".toList⟩]
            descCr.cmd ↔
          cmdExecuteCommand versionNode (words ["ls"]) ≠ .returns cmdErrIncomplete ∧
            cmdExecuteCommand versionNode (words ["ls"]) ≠ .returns cmdErrNoMatch) ↔
        (∃ e ∈ left, e.strvec.length = 1) ∨
          ((∃ e ∈ left, 1 ≥ e.cmdsize) ↔ ∃ e ∈ left, Shows (e.item 1) descCr.cmd)) :=
  cmdDescribeCommand_cr_iff installed_of_mem_versionNode (by decide +kernel)

/-- `project X` is executed, but `?` only shows the option after it. -/
theorem cmdDescribeCommand_cr_project :
    cmdDescribeCommand versionNode (words ["project", "X"]) none =
      .success [⟨"[refresh]".toList, some "Refresh the project.".toList⟩] ∧
    ¬Shows [⟨"[refresh]".toList, some "Refresh the project.".toList⟩] descCr.cmd ∧
    cmdExecuteCommand versionNode (words ["project", "X"]) =
      .call getProjectCmd (words ["X"]) := by
  refine ⟨by decide +kernel, ?_, by decide +kernel⟩
  rw [shows_singleton]
  decide

end Mksh
