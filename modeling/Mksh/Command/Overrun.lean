import Mksh.Command.Argv

/-!
# Items read by the argument loop

The argument loop reads an item for each word, until it has met a lone vararg. The matching
loop breaks at any vararg, also at one in a choice, and does not look at the words after it.
So the two disagree on an element whose varargs all stand in choices: with more words than
items, its argument loop reads past its last item, unless there are too many arguments before
(`cmdArgLoop_fault_iff`). For both executors, nothing else makes it do so
(`cmdExecuteCommand_inside_iff`).
-/

namespace Mksh

open CString Elimination

variable {F : Type*} {cls : CString → CString → MatchType} {table : List (CmdElement F)}
  {vline : List CString} {e : CmdElement F} {strvec : List (List Desc)}

/-- The loops disagree on `e`: the word at `k` breaks the matching loop, where only `e` is left,
    and `e` has fewer items than the line has words, none of them a lone vararg, and room for
    the arguments at all of them. -/
structure Overruns (cls : CString → CString → MatchType) (table : List (CmdElement F))
    (vline : List CString) (k : ℕ) (e : CmdElement F) : Prop where
  breaks : ∃ w l, vline[k]? = some w ∧ run (cmdRounds cls 0 (vline.take k)) table = .go l ∧
    topClass cls w k l = .varargMatch ∧ matching cls w k l = [e]
  longer : e.strvec.length < vline.length
  no_vararg : ∀ item ∈ e.strvec, ¬varargItem item
  room : argIndex e.strvec e.strvec.length < cmdArgcMax

/-! ## The argument loop -/

variable (strvec) in
/-- The loop over some words, and then over others. -/
theorem cmdArgLoop_append (ws ws' : List CString) (i : ℕ) (argv : List CString) :
    cmdArgLoop strvec (ws ++ ws') i ((strvec.take i).any varargItem) argv =
      match cmdArgLoop strvec ws i ((strvec.take i).any varargItem) argv with
      | .ok argv' => cmdArgLoop strvec ws' (i + ws.length)
          ((strvec.take (i + ws.length)).any varargItem) argv'
      | r => r := by
  induction ws generalizing i argv with
  | nil => rfl
  | cons w ws ih =>
    rw [List.cons_append, cmdArgLoop, cmdArgLoop, List.length_cons, ← Nat.add_assoc,
      Nat.add_right_comm]
    by_cases hi : i < strvec.length ∨ (strvec.take i).any varargItem
    · rw [argItem_eq hi]
      dsimp only
      split_ifs
      · rfl
      · rfl
      · exact ih (i + 1) _
      · rfl
      · exact ih (i + 1) _
    · rw [not_or, Nat.not_lt] at hi
      rw [argItem, if_neg hi.2, List.getElem?_eq_none hi.1]

/-- With more words than items, none of which is a vararg alone, the loop comes to the first word
    that has no item, unless there are too many arguments before it. -/
theorem cmdArgLoop_beyond (hlt : strvec.length < vline.length)
    (hvar : ∀ item ∈ strvec, ¬varargItem item) : cmdArgLoop strvec vline 0 false [] =
      if argIndex strvec strvec.length < cmdArgcMax then .fault .strvec
      else .error cmdErrExeedArgcMax := by
  have hany : ¬strvec.any varargItem := by
    rw [List.any_eq_true]
    exact fun ⟨item, hitem, hv⟩ => hvar item hitem hv
  -- The words that have an item, and then one that has none.
  have hlen : (vline.take strvec.length).length = strvec.length := List.length_take_of_le hlt.le
  have hloop : cmdArgLoop strvec (vline.take strvec.length) 0
      ((strvec.take 0).any varargItem) [] =
      if argIndex strvec strvec.length < cmdArgcMax then
        .ok (consumed strvec 0 (vline.take strvec.length))
      else .error cmdErrExeedArgcMax := by
    rw [cmdArgLoop_eq _ 0 [] (by decide) fun j hj => .inl (by omega), List.nil_append,
      length_consumed, hlen]
  have hsplit := cmdArgLoop_append strvec (vline.take strvec.length)
    (vline.drop strvec.length) 0 []
  rw [List.take_append_drop, hloop, Nat.zero_add, hlen, List.take_length, List.take_zero,
    List.any_nil] at hsplit
  rw [hsplit]
  split_ifs with hargc
  · rw [List.drop_eq_getElem_cons hlt]
    dsimp only
    rw [cmdArgLoop, argItem, if_neg hany, List.getElem?_eq_none le_rfl]
  · rfl

/-- When the loop reads past the last item. -/
theorem cmdArgLoop_fault_iff : cmdArgLoop strvec vline 0 false [] = .fault .strvec ↔
    strvec.length < vline.length ∧ (∀ item ∈ strvec, ¬varargItem item) ∧
      argIndex strvec strvec.length < cmdArgcMax := by
  by_cases hin : ∀ j < vline.length, j < strvec.length ∨ (strvec.take j).any varargItem
  · have hloop : cmdArgLoop strvec vline 0 ((strvec.take 0).any varargItem) [] =
        if (consumed strvec 0 vline).length < cmdArgcMax then .ok (consumed strvec 0 vline)
        else .error cmdErrExeedArgcMax :=
      cmdArgLoop_eq vline 0 [] (by decide) (by simpa using hin)
    rw [List.take_zero, List.any_nil] at hloop
    rw [hloop]
    refine iff_of_false (by split_ifs <;> simp) ?_
    rintro ⟨hlen, hvar, -⟩
    rcases hin strvec.length hlen with hlt | hany
    · omega
    · obtain ⟨item, hitem, hv⟩ := List.any_eq_true.1 hany
      exact hvar item (List.mem_of_mem_take hitem) hv
  · -- Some word stands behind the items, and no vararg before it.
    push Not at hin
    obtain ⟨j, hj, hle, hany⟩ := hin
    rw [List.take_of_length_le hle] at hany
    have hvar : ∀ item ∈ strvec, ¬varargItem item := fun item hitem hv =>
      hany (List.any_eq_true.2 ⟨item, hitem, hv⟩)
    have hlt : strvec.length < vline.length := by omega
    rw [cmdArgLoop_beyond hlt hvar, and_iff_right hlt, and_iff_right hvar]
    split_ifs with hargc
    · exact iff_of_true rfl hargc
    · exact iff_of_false (by simp) hargc

/-! ## The executors -/

/-- A round that halts keeps all the elements that match. -/
theorem filter_keep_of_halts {w : CString} {i : ℕ} {l : List (CmdElement F)}
    (h : topClass cls w i l = .varargMatch) :
    l.filter ((cmdRound cls w i).keep l) = matching cls w i l :=
  List.filter_congr fun a _ => by simp [cmdRound, h]

/-- Where the matching loop breaks, and which element is left then. -/
theorem run_halt_singleton_iff : run (cmdRounds cls 0 vline) table = .halt [e] ↔
    ∃ k w l, vline[k]? = some w ∧ run (cmdRounds cls 0 (vline.take k)) table = .go l ∧
      topClass cls w k l = .varargMatch ∧ matching cls w k l = [e] := by
  rw [run_halt_iff]
  refine exists_congr fun k => ?_
  rw [cmdRounds_take]
  constructor
  · rintro ⟨r, l, hr, hgo, hh, hl⟩
    rw [cmdRounds_getElem?, Nat.zero_add] at hr
    obtain ⟨w, hw, rfl⟩ := Option.map_eq_some_iff.1 hr
    have htop := halts_iff.1 hh
    exact ⟨w, l, hw, hgo, htop, by rw [← filter_keep_of_halts htop, hl]⟩
  · rintro ⟨w, l, hw, hgo, htop, hl⟩
    refine ⟨cmdRound cls w k, l, ?_, hgo, halts_iff.2 htop, ?_⟩
    · rw [cmdRounds_getElem?, hw, Option.map_some, Nat.zero_add]
    · rw [filter_keep_of_halts htop, hl]

theorem cmdExecuteWith_fault_strvec_iff :
    cmdExecuteWith (filterBy cls) table vline = .fault .strvec ↔
      ∃ k e, Overruns cls table vline k e := by
  rw [cmdExecuteWith_fault_iff]
  constructor
  · rintro ⟨e, hfind, hloop⟩
    obtain ⟨hlen, hvar, hargc⟩ := cmdArgLoop_fault_iff.1 hloop
    rw [cmdFindElement_eq] at hfind
    -- The loop only goes wrong where matching has been broken off.
    rcases hrun : run (cmdRounds cls 0 vline) table with l | l | ret
    · -- The line has been matched to its end, so there is an item for each word.
      rw [hrun, cmdSelect_go] at hfind
      have he : e ∈ l := (List.mem_filter.1 (hfind ▸ List.mem_singleton_self e)).1
      have hitem : vline.length - 1 < e.strvec.length := by
        refine lt_length_of_live (congrArg Verdict.live hrun) he ?_
        rw [length_played_of_go hrun, length_cmdRounds]
        omega
      omega
    · rw [hrun, cmdSelect_halt] at hfind
      subst hfind
      obtain ⟨k, hk⟩ := run_halt_singleton_iff.1 hrun
      exact ⟨k, e, hk, hlen, hvar, hargc⟩
    · rw [hrun] at hfind
      cases hfind
  · rintro ⟨k, e, hk⟩
    refine ⟨e, ?_, cmdArgLoop_fault_iff.2 ⟨hk.longer, hk.no_vararg, hk.room⟩⟩
    rw [cmdFindElement_eq, run_halt_singleton_iff.2 ⟨k, hk.breaks⟩]
    exact cmdSelect_halt.2 rfl

/-- When the argument loop stays inside the element selected, for both executors. -/
theorem cmdExecuteCommand_inside_iff (table : List (CmdElement F)) (vline : List CString) :
    (cmdExecuteCommand table vline ≠ .fault .strvec ↔
      ∀ k e, ¬Overruns completionClass table vline k e) ∧
    (cmdExecuteCommandStrict table vline ≠ .fault .strvec ↔
      ∀ k e, ¬Overruns stringClass table vline k e) := by
  simp only [← not_exists]
  exact ⟨not_congr cmdExecuteWith_fault_strvec_iff, not_congr cmdExecuteWith_fault_strvec_iff⟩

/-- A command with a choice between a vararg and a keyword. -/
def showLineCmd : CmdElement Unit where
  string := "show (.LINE|foo)".toList
  func := some ()
  doc := none
  daemon := 0
  strvec := [[⟨"show".toList, none⟩], [⟨".LINE".toList, none⟩, ⟨"foo".toList, none⟩]]
  cmdsize := 2

/-- On `show a b`, the loop reads a third item, of two. -/
theorem cmdExecuteCommand_overrun : showLineCmd.Installed ∧
    cmdExecuteCommand [showLineCmd] (words ["show", "a", "b"]) = .fault .strvec ∧
    cmdExecuteCommandStrict [showLineCmd] (words ["show", "a", "b"]) = .fault .strvec := by
  decide

end Mksh
