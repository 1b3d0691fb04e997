import Mksh.Command.Agree
import Mksh.Command.Describe
import Mksh.Vtysh.Tab

/-!
# What `?` prints

When `?` is typed, `vtyshRlDescribe` prints a line for each entry of a description, with the
helps in one column, or else an error.

* Whatever element `Enter` finds for a line, `?` prints its alternatives for the current word
  after the words before (`vtyshRlDescribe_of_find`).
* One can find one's way by `?` alone: the keywords that it prints, one after the other, lead
  through the keywords of an element, of any element, and never to an error (`followed_iff`,
  `vtyshRlDescribe_of_followed`).
-/

namespace Mksh

open CString Elimination

variable {F W : Type}

/-! ## Printing -/

/-- The words before the current one, and the current one, unless it has not been begun. -/
def describeInput (rlLineBuffer : CString) : List CString × Option CString :=
  -- In case of '> ?'.
  (completionInput rlLineBuffer).getD ([], none)

/-- A command as it is printed. -/
def shownCmd (cmd : CString) : CString := if cmd.head? = some '.' then cmd.tail else cmd

/-- Get width of command string. -/
def describeWidth : List Desc → ℕ → ℕ
  | [], width => width
  | desc :: describe, width =>
    if desc.cmd = [] then describeWidth describe width
    else
      let len := if desc.cmd.head? = some '.' then desc.cmd.length - 1 else desc.cmd.length
      describeWidth describe (if width < len then len else width)

/-- The line of an entry: what is typed, filled up to the width, and its help, if it has one. -/
def describeLine (width : ℕ) (desc : Desc) : CString :=
  match desc.str with
  | none => "  ".toList ++ shownCmd desc.cmd ++ "\n".toList
  | some str =>
    "  ".toList ++ (shownCmd desc.cmd).rightpad width ' ' ++ "  ".toList ++ str ++ "\n".toList

/-- The lines of all the entries that have a text. -/
def describeLines (describe : List Desc) : List CString :=
  (describe.filter fun desc => desc.cmd ≠ []).map (describeLine (describeWidth describe 0))

/-- What is printed; `none` if this crashes. The status was `ret`, and may be left as it was. -/
def vtyshRlDescribe (sh : Shell F W) (node : NodeType) (rlLineBuffer : CString) (ret : ℤ) :
    Option (List CString) :=
  let (ws, command) := describeInput rlLineBuffer
  (sh.cmdvec node).bind fun table =>
    let describe := cmdDescribeCommand table ws command
    if describe = .fault then none
    else
      let ret := describe.status.getD ret
      if ret = cmdErrAmbiguous then some ["\n".toList, "% Ambiguous command.\n".toList]
      else if ret = cmdErrNoMatch then
        some ["\n".toList, "% There is no matched command.\n".toList]
      else describe.vector.map fun describe => "\n".toList :: describeLines describe

variable {sh : Shell F W} {node : NodeType} {line : CString} {table : List (CmdElement F)}
  {ws rest : List CString} {command : Option CString} {describe : List Desc} {e : CmdElement F}
  {d : Desc} {s : CString} {i : ℕ}

/-! ## Entries -/

/-- An entry is shown, and no other entry like it. -/
theorem nodup_add {m : List Desc} (hm : (m.map Desc.cmd).Nodup) :
    ((if descUniqueString m d.cmd then m else m ++ [d]).map Desc.cmd).Nodup := by
  split_ifs with h
  · exact hm
  · rw [List.map_append, List.map_singleton]
    refine List.nodup_append.2 ⟨hm, List.nodup_singleton _, fun s hs t ht => ?_⟩
    rw [List.mem_singleton.1 ht]
    rintro rfl
    obtain ⟨d', hd', heq⟩ := List.mem_map.1 hs
    refine h (List.any_eq_true.2 ⟨d', hd', ?_⟩)
    rw [decide_eq_true_eq, strcmp_eq_zero]
    exact heq

/-- The help of an item has no text twice. -/
theorem nodup_describeDescvec {descvec m : List Desc} (hm : (m.map Desc.cmd).Nodup) :
    ((describeDescvec command descvec m).map Desc.cmd).Nodup := by
  induction descvec generalizing m with
  | nil => exact hm
  | cons d descvec ih =>
    rw [describeDescvec]
    rcases hs : cmdEntryFunctionDesc command d.cmd with _ | s
    · exact ih hm
    · obtain rfl := cmdEntryFunctionDesc_eq hs
      exact ih (nodup_add hm)

/-- Nor has that of all elements. -/
theorem nodup_describeVector {v : CmdVector F} {m m' : List Desc}
    (h : describeVector command i v m = some m') (hm : (m.map Desc.cmd).Nodup) :
    (m'.map Desc.cmd).Nodup := by
  induction v generalizing m with
  | nil =>
    obtain rfl := Option.some.inj h
    exact hm
  | cons slot v ih =>
    rcases slot with _ | e
    · exact ih h hm
    rw [describeVector] at h
    split_ifs at h with hpast hcr hu
    · exact ih h hm
    · exact ih h hm
    · refine ih h ?_
      have hadd := nodup_add (d := descCr) hm
      rwa [if_neg hu] at hadd
    · rcases hd : e.strvec[i]? with _ | descvec
      · rw [hd] at h
        cases h
      · rw [hd] at h
        exact ih h (nodup_describeDescvec hm)

/-- The help of an item shows the alternatives that the command starts. -/
theorem shows_describeDescvec_command {descvec m : List Desc} :
    Shows (describeDescvec command descvec m) s ↔
      Shows m s ∨ ∃ d ∈ descvec, cmdEntryFunctionDesc command d.cmd = some s := by
  induction descvec generalizing m with
  | nil => simp [describeDescvec]
  | cons d descvec ih =>
    rw [describeDescvec, List.exists_mem_cons_iff]
    rcases hs : cmdEntryFunctionDesc command d.cmd with _ | t
    · simp [ih]
    · obtain rfl := cmdEntryFunctionDesc_eq hs
      dsimp only
      rw [ih, shows_add, or_assoc, Option.some.injEq]

/-- The entries for a word: the alternatives that it may be the start of. -/
theorem shows_describeVector_command {v : CmdVector F} {m m' : List Desc}
    (h : describeVector command i v m = some m') :
    Shows m' s ↔ Shows m s ∨ ∃ e ∈ v.reduceOption,
      (command = none ∧ e.strvec.length = i ∧ descCr.cmd = s) ∨
        ∃ d ∈ e.item i, cmdEntryFunctionDesc command d.cmd = some s := by
  induction v generalizing m with
  | nil =>
    obtain rfl := Option.some.inj h
    simp
  | cons slot v ih =>
    rcases slot with _ | e
    · exact ih h
    rw [List.reduceOption_cons_of_some, List.exists_mem_cons_iff]
    rw [describeVector] at h
    by_cases hlen : i < e.strvec.length
    · rw [if_neg fun hn => absurd hlen hn.2.not_gt, if_neg fun hn => absurd hlen hn.2.not_lt,
        List.getElem?_eq_getElem hlen] at h
      rw [ih h, shows_describeDescvec_command, or_assoc, CmdElement.item,
        List.getElem?_eq_getElem hlen, Option.getD_some]
      refine or_congr_right (or_congr_left (or_iff_right ?_).symm)
      exact fun hcr => absurd hcr.2.1 hlen.ne'
    · have hitem : ¬∃ d ∈ e.item i, cmdEntryFunctionDesc command d.cmd = some s := by
        rw [CmdElement.item, List.getElem?_eq_none (not_lt.1 hlen)]
        rintro ⟨_, hd, -⟩
        exact absurd hd List.not_mem_nil
      rw [or_iff_left hitem]
      rcases command with _ | w
      · rw [if_neg fun hn => hn.1 rfl] at h
        by_cases hcr : i = e.strvec.length
        · rw [if_pos ⟨rfl, hcr⟩] at h
          rw [ih h, shows_add, or_assoc]
          simp only [hcr.symm, true_and]
        · rw [if_neg fun hn => hcr hn.2, List.getElem?_eq_none (not_lt.1 hlen)] at h
          cases h
      · rw [if_pos ⟨by simp, not_lt.1 hlen⟩] at h
        rw [ih h]
        simp

/-- A begun word matches an alternative as the filter has it. -/
theorem cmdEntryFunctionDesc_eq_some_iff {w : CString} :
    cmdEntryFunctionDesc (some w) s = some s ↔ completionClass w s ≠ .noMatch := by
  rw [cmdEntryFunctionDesc, completionClass]
  split_ifs <;> simp_all

/-! ## The preceding words -/

/-- The elements that the preceding words leave are all those that `Enter` may find. -/
theorem cmdDescribeLoop_of_find (hvararg : ∀ i, ¬TakesVararg table ws i)
    (hfind : cmdFindElement cmdFilterByCompletion table (ws ++ rest) = .ok e) :
    ∃ v, cmdDescribeLoop ws 0 (vectorCopy table) = .words v ∧ e ∈ v.reduceOption := by
  have hverdict := verdict_cmdDescribeLoop ws 0 (vectorCopy table)
  rw [reduceOption_vectorCopy] at hverdict
  have hselect : cmdSelect (ws ++ rest).length (run (cmdRounds completionClass 0 (ws ++ rest))
      table) = .ok e := (cmdFindElement_eq table (ws ++ rest)).symm.trans hfind
  rw [cmdRounds_append, run_append, ← hverdict] at hselect
  rcases hl : cmdDescribeLoop ws 0 (vectorCopy table) with status | v | v
  · rw [hl] at hselect
    cases hselect
  · exact absurd (exists_takesVararg_iff.2 ⟨v, hl⟩) (not_exists.2 hvararg)
  · rw [hl] at hselect
    refine ⟨v, rfl, ?_⟩
    change cmdSelect _ (run (cmdRounds completionClass (0 + ws.length) rest) v.reduceOption) =
      .ok e at hselect
    -- The rounds of the other words leave the element, and it was there before.
    rcases hrun : run (cmdRounds completionClass (0 + ws.length) rest) v.reduceOption with
      l | l | ret
    · rw [hrun, cmdSelect_go] at hselect
      have hmem : e ∈ l.filter fun e => (ws ++ rest).length ≥ e.cmdsize :=
        hselect ▸ List.mem_singleton_self e
      exact mem_of_mem_run (congrArg Verdict.live hrun) (List.mem_of_mem_filter hmem)
    · rw [hrun, cmdSelect_halt] at hselect
      exact mem_of_mem_run (congrArg Verdict.live hrun) (hselect ▸ List.mem_singleton_self e)
    · rw [hrun] at hselect
      cases hselect

/-- What is described where the preceding words leave some elements, if there is an entry. -/
theorem exists_describe {v : CmdVector F}
    (hloop : cmdDescribeLoop ws 0 (vectorCopy table) = .words v)
    (hentry : ∃ e ∈ (filterCurrent command v ws.length).reduceOption,
      (command = none ∧ e.strvec.length = ws.length) ∨
        ∃ d ∈ e.item ws.length, cmdEntryFunctionDesc command d.cmd = some d.cmd) :
    ∃ describe, cmdDescribeCommand table ws command = .success describe ∧
      (describe.map Desc.cmd).Nodup ∧
      ∀ s, Shows describe s ↔ ∃ e ∈ (filterCurrent command v ws.length).reduceOption,
        (command = none ∧ e.strvec.length = ws.length ∧ descCr.cmd = s) ∨
          ∃ d ∈ e.item ws.length, cmdEntryFunctionDesc command d.cmd = some s := by
  have hleft : ∀ e ∈ (filterCurrent command v ws.length).reduceOption,
      ws.length ≤ e.strvec.length := by
    rcases command with _ | w
    · exact fun e he => length_le_of_words hloop he
    · intro e he
      rw [filterCurrent, cmdFilterByCompletion, reduceOption_filterBy] at he
      exact length_le_of_words hloop (List.mem_of_mem_filter he)
  obtain ⟨m, hm⟩ := describeVector_isSome command hleft []
  have hnil (s : CString) : ¬Shows [] s := by
    rintro ⟨_, hd, -⟩
    exact List.not_mem_nil hd
  have hshows (s : CString) := (shows_describeVector_command (s := s) hm).trans
    (or_iff_right (hnil s))
  -- An empty help vector would be no success, but the entry is shown.
  have hne : m ≠ [] := by
    rintro rfl
    obtain ⟨e, he, ⟨hcommand, hlen⟩ | ⟨d, hd, heq⟩⟩ := hentry
    · exact hnil _ ((hshows descCr.cmd).2 ⟨e, he, .inl ⟨hcommand, hlen, rfl⟩⟩)
    · exact hnil _ ((hshows d.cmd).2 ⟨e, he, .inr ⟨d, hd, heq⟩⟩)
  refine ⟨m, ?_, nodup_describeVector hm List.nodup_nil, hshows⟩
  rw [cmdDescribeCommand, hloop]
  dsimp only
  rw [hm]
  rcases m with _ | ⟨d, m⟩
  · exact absurd rfl hne
  · rfl

/-- Where there is a help vector, its lines are printed, whatever the status was. -/
theorem vtyshRlDescribe_of_success (htable : sh.cmdvec node = some table)
    (hline : describeInput line = (ws, command))
    (h : cmdDescribeCommand table ws command = .success describe) (ret : ℤ) :
    vtyshRlDescribe sh node line ret = some ("\n".toList :: describeLines describe) := by
  rw [vtyshRlDescribe, hline, htable]
  dsimp only [Option.bind_some]
  rw [h]
  rfl

/-- In a table without varargs, no word is taken for one. -/
theorem not_takesVararg (h : ∀ e ∈ table, ∀ item ∈ e.strvec, ∀ d ∈ item, ¬cmdVararg d.cmd) (i : ℕ) :
    ¬TakesVararg table ws i := by
  rintro ⟨w, l, -, hgo, ⟨e, he, d, hd, hvararg⟩, -⟩
  rw [CmdElement.item] at hd
  rcases hitem : e.strvec[i]? with _ | item
  · rw [hitem] at hd
    exact List.not_mem_nil hd
  · rw [hitem] at hd
    exact h e (mem_of_mem_run (congrArg Verdict.live hgo) he) item (List.mem_of_getElem? hitem) d hd
      hvararg

/-- Whatever element `Enter` finds for a line, `?` prints its alternatives for the current word,
    once the words before are there. -/
theorem vtyshRlDescribe_of_find (htable : sh.cmdvec node = some table)
    (hline : describeInput line = (ws, command)) (hvararg : ∀ i, ¬TakesVararg table ws i)
    (hfind : cmdFindElement cmdFilterByCompletion table (ws ++ rest) = .ok e)
    (hd : d ∈ e.item ws.length) (hmatch : ∀ w ∈ command, completionClass w d.cmd ≠ .noMatch) :
    ∃ describe, (∀ ret, vtyshRlDescribe sh node line ret =
        some ("\n".toList :: describeLines describe)) ∧
      (describe.map Desc.cmd).Nodup ∧ ∃ d' ∈ describe, d'.cmd = d.cmd := by
  obtain ⟨v, hloop, he⟩ := cmdDescribeLoop_of_find hvararg hfind
  have hentry : cmdEntryFunctionDesc command d.cmd = some d.cmd := by
    rcases command with _ | w
    · exact cmdEntryFunctionDesc_none d.cmd
    · exact cmdEntryFunctionDesc_eq_some_iff.2 (hmatch w rfl)
  have he' : e ∈ (filterCurrent command v ws.length).reduceOption := by
    rcases command with _ | w
    · exact he
    · -- The filter by the last word keeps the element, as the alternative matches.
      rw [filterCurrent, cmdFilterByCompletion, reduceOption_filterBy, matching, List.mem_filter]
      refine ⟨he, decide_eq_true fun hno => hmatch w rfl ?_⟩
      have hle : completionClass w d.cmd ≤ classAt (completionClass w) ws.length e :=
        cls_le_classAt hd
      rw [hno] at hle
      exact le_bot_iff.1 hle
  obtain ⟨m, hsuccess, hnodup, hshows⟩ := exists_describe hloop ⟨e, he', .inr ⟨d, hd, hentry⟩⟩
  exact ⟨m, vtyshRlDescribe_of_success htable hline hsuccess, hnodup,
    (hshows d.cmd).2 ⟨e, he', .inr ⟨d, hd, hentry⟩⟩⟩

/-- A shell at the node of a project. -/
def projectShell : Shell ToolFunc Unit where
  cmdvec _ := some projectNode
  handler _ _ _ _ _ := none
  crypt _ _ := none

/-- The help of `make i` shows `install`. -/
theorem vtyshRlDescribe_of_find_make :
    ∃ describe, (∀ ret, vtyshRlDescribe projectShell .project "make i".toList ret =
        some ("\n".toList :: describeLines describe)) ∧
      (describe.map Desc.cmd).Nodup ∧ ∃ d ∈ describe, d.cmd = "install".toList := by
  have hfind : cmdFindElement cmdFilterByCompletion projectNode
      (words ["make"] ++ words ["install"]) = .ok projectMakeInstallOrCleanCmd := by
    decide +kernel
  have hline : describeInput "make i".toList = (words ["make"], some "i".toList) := by
    decide +kernel
  have hinstall : ⟨"install".toList, some "Export the binary files.".toList⟩ ∈
      projectMakeInstallOrCleanCmd.item 1 := by
    decide
  exact vtyshRlDescribe_of_find rfl hline (not_takesVararg (by decide)) hfind hinstall (by decide)

/-! ## Following the keywords -/

/-- Parsing a specification makes no empty item. -/
theorem nil_notMem_cmdMakeDescvecLoop {fuel multiple : ℕ} {cp : CString} {dp : Option CString}
    {allvec strvec : List (List Desc)}
    (h : cmdMakeDescvecLoop fuel multiple cp dp allvec = .ok strvec) (hall : [] ∉ allvec) :
    [] ∉ strvec := by
  induction fuel generalizing multiple cp dp allvec with
  | zero => cases h
  | succ fuel ih =>
    rw [cmdMakeDescvecLoop] at h
    rcases hskip : skipPunctuation multiple cp with error | ⟨multiple', cp'⟩
    · rw [hskip] at h
      cases h
    rw [hskip] at h
    dsimp only at h
    split_ifs at h with hnil hm hm
    · exact Except.ok.inj h ▸ hall
    · exact ih h (by simp [hall])
    · exact ih h (by simp [hall])
    · refine ih h fun hmem => ?_
      rcases List.mem_append.1 hmem with hmem | hmem
      · exact hall (List.mem_of_mem_dropLast hmem)
      · simp at hmem

/-- No item is empty. -/
theorem CmdElement.Installed.nil_notMem (h : e.Installed) : [] ∉ e.strvec :=
  nil_notMem_cmdMakeDescvecLoop h.1 List.not_mem_nil

/-- The words that one gets by typing a keyword that is shown after the words before, again and
    again. -/
inductive Followed (table : List (CmdElement F)) : List CString → Prop
  | nil : Followed table []
  | snoc {ws : List CString} {describe : List Desc} {s : CString} (h : Followed table ws)
    (hdescribe : cmdDescribeCommand table ws none = .success describe)
    (hshows : Shows describe s) (hkey : IsKeyword s) (hne : s ≠ []) : Followed table (ws ++ [s])

/-- With keywords spelled out, the elements that have them are left. -/
theorem cmdDescribeLoop_of_hasKeywords (h : ∃ e ∈ table, HasKeywords ws e) :
    ∃ v, cmdDescribeLoop ws 0 (vectorCopy table) = .words v ∧
      v.reduceOption = table.filter fun e => HasKeywords ws e := by
  obtain ⟨e, he, hkeys⟩ := h
  have hspelled : SpelledOutLine table ws := fun i hi => ⟨e, he, fun j hj => by
    rw [List.getElem_take]
    exact hkeys j (lt_of_lt_of_le hj (List.length_take_le' _ _)), hkeys i hi⟩
  have hverdict := verdict_cmdDescribeLoop ws 0 (vectorCopy table)
  rw [reduceOption_vectorCopy, run_of_spelledOut completionClass_classifies hspelled] at hverdict
  rcases hl : cmdDescribeLoop ws 0 (vectorCopy table) with status | v | v
  · rw [hl] at hverdict
    cases hverdict
  · rw [hl] at hverdict
    cases hverdict
  · rw [hl] at hverdict
    exact ⟨v, rfl, Verdict.go.inj hverdict⟩

/-- After keywords of an element, all the alternatives of all the elements with these keywords are
    described. -/
theorem describe_of_hasKeywords (hinst : ∀ e ∈ table, e.Installed)
    (h : ∃ e ∈ table, HasKeywords ws e) :
    ∃ describe, cmdDescribeCommand table ws none = .success describe ∧
      (describe.map Desc.cmd).Nodup ∧
      ∀ s, Shows describe s ↔ ∃ e ∈ table, HasKeywords ws e ∧
        (Shows (e.item ws.length) s ∨ e.strvec.length = ws.length ∧ descCr.cmd = s) := by
  obtain ⟨v, hloop, hv⟩ := cmdDescribeLoop_of_hasKeywords h
  obtain ⟨e, he, hkeys⟩ := h
  have hmem (e : CmdElement F) : e ∈ (filterCurrent none v ws.length).reduceOption ↔
      e ∈ table ∧ HasKeywords ws e := by
    rw [filterCurrent, hv, List.mem_filter, decide_eq_true_eq]
  -- The element has an item there, or ends.
  have hentry : ((none : Option CString) = none ∧ e.strvec.length = ws.length) ∨
      ∃ d ∈ e.item ws.length, cmdEntryFunctionDesc none d.cmd = some d.cmd := by
    have hle : ws.length ≤ e.strvec.length :=
      length_le_of_words hloop (hv ▸ List.mem_filter.2 ⟨he, decide_eq_true hkeys⟩)
    rcases hle.eq_or_lt with heq | hlt
    · exact .inl ⟨rfl, heq.symm⟩
    · rw [CmdElement.item, List.getElem?_eq_getElem hlt, Option.getD_some]
      rcases hitem : e.strvec[ws.length] with _ | ⟨d, item⟩
      · exact absurd (hitem ▸ List.getElem_mem hlt) (hinst e he).nil_notMem
      · exact .inr ⟨d, List.mem_cons_self, cmdEntryFunctionDesc_none d.cmd⟩
  obtain ⟨describe, hsuccess, hnodup, hshows⟩ := exists_describe hloop ⟨e, (hmem e).2 ⟨he, hkeys⟩,
    hentry⟩
  refine ⟨describe, hsuccess, hnodup, fun s => (hshows s).trans (exists_congr fun e => ?_)⟩
  rw [hmem, and_assoc, or_comm]
  simp only [cmdEntryFunctionDesc_none, Option.some.injEq, true_and, Shows]

/-- By the keywords shown, one gets from keyword to keyword of an element, of any element. -/
theorem followed_iff (hinst : ∀ e ∈ table, e.Installed) (hne : table ≠ []) :
    Followed table ws ↔ (∀ w ∈ ws, w ≠ []) ∧ ∃ e ∈ table, HasKeywords ws e := by
  constructor
  · intro h
    -- Each word that is followed is a keyword of the help, and thus of an element that has those
    -- before it.
    induction h with
    | nil =>
      obtain ⟨e, he⟩ := List.exists_mem_of_ne_nil table hne
      exact ⟨fun w hw => absurd hw List.not_mem_nil, e, he,
        fun j hj => absurd hj (Nat.not_lt_zero j)⟩
    | snoc _ hdescribe hshows hkey hs ih =>
      obtain ⟨hwords, hkeys⟩ := ih
      obtain ⟨describe', hsuccess, -, hiff⟩ := describe_of_hasKeywords hinst hkeys
      obtain rfl := Description.success.inj (hdescribe.symm.trans hsuccess)
      refine ⟨fun w hw => ?_, ?_⟩
      · rcases List.mem_append.1 hw with hw | hw
        · exact hwords w hw
        · exact List.mem_singleton.1 hw ▸ hs
      · obtain ⟨e, he, hkeys, ⟨d, hd, heq⟩ | ⟨-, heq⟩⟩ := (hiff _).1 hshows
        · exact ⟨e, he, hasKeywords_append.2 ⟨hkeys, d, hd, heq ▸ hkey, heq⟩⟩
        · exact absurd (heq ▸ hkey) (by decide)
  · rintro ⟨hwords, e, he, hkeys⟩
    -- The help after the first words shows the next one.
    induction ws using List.reverseRecOn with
    | nil => exact .nil
    | append_singleton ws s ih =>
      obtain ⟨hbefore, d, hd, hkey, rfl⟩ := hasKeywords_append.1 hkeys
      obtain ⟨describe, hsuccess, -, hiff⟩ := describe_of_hasKeywords hinst ⟨e, he, hbefore⟩
      have hfollowed : Followed table ws :=
        ih (fun w hw => hwords w (List.mem_append_left _ hw)) hbefore
      exact hfollowed.snoc hsuccess ((hiff d.cmd).2 ⟨e, he, hbefore, .inl ⟨d, hd, rfl⟩⟩) hkey
        (hwords d.cmd (by simp))

/-- `Enter` does not refuse keywords that lead to the end of an element. -/
theorem cmdExecuteCommand_of_hasKeywords (hinst : ∀ e ∈ table, e.Installed)
    (h : ∃ e ∈ table, HasKeywords ws e ∧ e.strvec.length = ws.length) :
    cmdExecuteCommand table ws ≠ .returns cmdErrIncomplete ∧
      cmdExecuteCommand table ws ≠ .returns cmdErrNoMatch := by
  obtain ⟨e, he, hkeys, hlen⟩ := h
  obtain ⟨v, hloop, hv⟩ := cmdDescribeLoop_of_hasKeywords ⟨e, he, hkeys⟩
  refine (cmdExecuteCommand_works_iff (run_of_describe hloop)).2 ⟨e, ?_, ?_⟩
  · rw [hv, List.mem_filter]
    exact ⟨he, decide_eq_true hkeys⟩
  · rw [← hlen, (hinst e he).2]
    exact cmdCmdsize_le e.strvec

/-- The keywords that `?` prints, one after the other, are those of an element, of any element.
    It never prints an error after them, but all the alternatives that there are, each of them
    once; and once they are those of all the items of an element, `<cr>`, and `Enter` then does
    not refuse them. -/
theorem vtyshRlDescribe_of_followed (htable : sh.cmdvec node = some table)
    (hinst : ∀ e ∈ table, e.Installed) (hne : table ≠ []) (ws : List CString) :
    (Followed table ws ↔ (∀ w ∈ ws, w ≠ []) ∧ ∃ e ∈ table, HasKeywords ws e) ∧
    (Followed table ws →
      (∀ line, describeInput line = (ws, none) → ∃ describe,
        (∀ ret, vtyshRlDescribe sh node line ret =
          some ("\n".toList :: describeLines describe)) ∧
        (describe.map Desc.cmd).Nodup ∧
        ∀ s, Shows describe s ↔ ∃ e ∈ table, HasKeywords ws e ∧
          (Shows (e.item ws.length) s ∨ e.strvec.length = ws.length ∧ descCr.cmd = s)) ∧
      ((∃ e ∈ table, HasKeywords ws e ∧ e.strvec.length = ws.length) →
        cmdExecuteCommand table ws ≠ .returns cmdErrIncomplete ∧
          cmdExecuteCommand table ws ≠ .returns cmdErrNoMatch)) := by
  refine ⟨followed_iff hinst hne, fun h => ⟨fun line hline => ?_, fun hend =>
    cmdExecuteCommand_of_hasKeywords hinst hend⟩⟩
  obtain ⟨describe, hsuccess, hshows⟩ :=
    describe_of_hasKeywords hinst ((followed_iff hinst hne).1 h).2
  exact ⟨describe, vtyshRlDescribe_of_success htable hline hsuccess, hshows⟩

/-- `make install` is followed by nothing, and can be executed. -/
theorem vtyshRlDescribe_of_followed_make :
    Followed projectNode (words ["make", "install"]) ∧
      cmdExecuteCommand projectNode (words ["make", "install"]) ≠ .returns cmdErrIncomplete := by
  obtain ⟨hiff, hall⟩ := vtyshRlDescribe_of_followed
    (rfl : projectShell.cmdvec .project = some projectNode) installed_of_mem_projectNode
    (by decide) (words ["make", "install"])
  have hfollowed := hiff.2 (by decide +kernel)
  exact ⟨hfollowed, ((hall hfollowed).2 (by decide +kernel)).1⟩

end Mksh
