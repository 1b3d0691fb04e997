import Mksh.Command.Enter

/-!
# The status of a description

The caller of `cmdDescribeCommand` decides from the status whether to use the vector, and
to free it. All but one way to return set the status, and to `cmdSuccess` exactly if
there is a vector with something in it; where a preceding word is taken for an argument of
a vararg, the vector is returned without a status (`cmdDescribeCommand_reports_iff`).
-/

namespace Mksh

open CString Elimination

variable {F : Type*} {table : List (CmdElement F)} {ws : List CString}

/-- What the status has been set to. -/
def Description.status : Description → Option ℤ
  | null status => some status
  | vararg _ => none
  | freed => some cmdErrNoMatch
  | success _ => some cmdSuccess
  | fault => none

/-- The vector that is returned, if it has not been freed. -/
def Description.vector : Description → Option (List Desc)
  | null _ => none
  | vararg matchvec => some matchvec
  | freed => none
  | success matchvec => some matchvec
  | fault => none

/-- The status is set, and tells whether there is a vector with some description. -/
structure Description.Reports (d : Description) : Prop where
  isStatus : d.status = some cmdSuccess ∨ d.status = some cmdErrAmbiguous ∨
    d.status = some cmdErrNoMatch
  success_iff : d.status = some cmdSuccess ↔ ∃ matchvec, d.vector = some matchvec ∧ matchvec ≠ []

/-- The word at `i` is taken for an argument of a vararg: it is not the start of a keyword of an
    element left by the words before it, and some such element has a vararg there. -/
def TakesVararg (table : List (CmdElement F)) (ws : List CString) (i : ℕ) : Prop :=
  ∃ w l, ws[i]? = some w ∧ run (cmdRounds completionClass 0 (ws.take i)) table = .go l ∧
    (∃ e ∈ l, ∃ d ∈ e.item i, cmdVararg d.cmd) ∧
      ∀ e ∈ l, ∀ d ∈ e.item i, IsKeyword d.cmd → ¬w <+: d.cmd

/-! ## The preceding words -/

/-- A word is taken for a vararg iff an element has one there, and the word starts no keyword.
    -/
theorem topClass_eq_varargMatch_iff {w : CString} {i : ℕ} {l : List (CmdElement F)} :
    topClass completionClass w i l = .varargMatch ↔
      (∃ e ∈ l, ∃ d ∈ e.item i, cmdVararg d.cmd) ∧
        ∀ e ∈ l, ∀ d ∈ e.item i, IsKeyword d.cmd → ¬w <+: d.cmd := by
  have hle {e : CmdElement F} (he : e ∈ l) {d : Desc} (hd : d ∈ e.item i) :
      completionClass w d.cmd ≤ topClass completionClass w i l :=
    (cls_le_classAt hd).trans (classAt_le_topClass he)
  constructor
  · intro h
    constructor
    · obtain ⟨e, he, d, hd, hdc, -⟩ := exists_cls_eq_topClass (h.trans_ne (by decide))
      exact ⟨e, he, d, hd, completionClass_classifies.vararg.1 (hdc.trans h)⟩
    · intro e he d hd hkey hw
      have hle := hle he hd
      -- A keyword that the word starts has a higher class than a vararg.
      rw [h, completionClass_of_isKeyword hkey, if_pos hw] at hle
      split_ifs at hle
      · exact absurd hle (by decide)
      · exact absurd hle (by decide)
  · rintro ⟨⟨e, he, d, hd, hv⟩, hnot⟩
    have hle := hle he hd
    rw [completionClass_of_cmdVararg hv] at hle
    have hne : topClass completionClass w i l ≠ .noMatch := by
      intro h
      rw [h] at hle
      exact absurd hle (by decide)
    obtain ⟨e', he', d', hd', hdc, -⟩ := exists_cls_eq_topClass hne
    have hspec := completionClass_spec w d'.cmd
    rw [hdc] at hspec
    -- The class is at least that of a vararg, and above that there are only the two classes of
    -- keywords.
    cases htop : topClass completionClass w i l with
    | varargMatch => rfl
    | partlyMatch =>
      rw [htop] at hspec
      exact absurd hspec.2 (hnot e' he' d' hd' hspec.1)
    | exactMatch =>
      rw [htop] at hspec
      exact absurd (hspec.2 ▸ List.prefix_rfl) (hnot e' he' d' hd' hspec.1)
    | _ =>
      rw [htop] at hle
      exact absurd hle (by decide)

/-- The loop over the preceding words ends at a vararg exactly if one of them is taken for an
    argument. -/
theorem exists_takesVararg_iff : (∃ i, TakesVararg table ws i) ↔
    ∃ v, cmdDescribeLoop ws 0 (vectorCopy table) = .vararg v := by
  have hverdict := verdict_cmdDescribeLoop ws 0 (vectorCopy table)
  rw [reduceOption_vectorCopy] at hverdict
  have hhalt : (∃ l, run (cmdRounds completionClass 0 ws) table = .halt l) ↔
      ∃ v, cmdDescribeLoop ws 0 (vectorCopy table) = .vararg v := by
    rw [← hverdict]
    rcases cmdDescribeLoop ws 0 (vectorCopy table) with status | v | v
    · simp [DescribeEnd.verdict]
    · simp [DescribeEnd.verdict]
    · simp [DescribeEnd.verdict]
  rw [← hhalt, exists_run_halt_iff]
  refine exists_congr fun i => ?_
  rw [cmdRounds_take]
  constructor
  · rintro ⟨w, l, hw, hgo, hv⟩
    have hh := halts_iff.2 (topClass_eq_varargMatch_iff.2 hv)
    refine ⟨cmdRound completionClass w i, l, ?_, hgo, hh⟩
    rw [cmdRounds_getElem?, hw, Option.map_some, Nat.zero_add]
  · rintro ⟨r, l, hr, hgo, hh⟩
    rw [cmdRounds_getElem?, Nat.zero_add] at hr
    obtain ⟨w, hw, rfl⟩ := Option.map_eq_some_iff.1 hr
    exact ⟨w, l, hw, hgo, topClass_eq_varargMatch_iff.1 (halts_iff.1 hh)⟩

/-! ## Descriptions -/

/-- On a vararg, there is an item to read for each element. -/
theorem describeVararg_isSome {v : CmdVector F} (hv : ∀ e ∈ v.reduceOption, e.strvec ≠ [])
    (matchvec : List Desc) : ∃ m, describeVararg v matchvec = some (m ++ [descCr]) := by
  induction v generalizing matchvec with
  | nil => exact ⟨matchvec, rfl⟩
  | cons slot v ih =>
    rcases slot with _ | e
    · exact ih hv matchvec
    · rw [List.reduceOption_cons_of_some] at hv
      obtain ⟨he, hv⟩ := List.forall_mem_cons.1 hv
      rw [describeVararg, List.getLast?_eq_some_getLast he]
      exact ih hv _

/-- An element has an item for the current word, or ends with the one before it. -/
theorem describeVector_isSome {index : ℕ} {v : CmdVector F} (command : Option CString)
    (hv : ∀ e ∈ v.reduceOption, index ≤ e.strvec.length) (matchvec : List Desc) :
    ∃ m, describeVector command index v matchvec = some m := by
  induction v generalizing matchvec with
  | nil => exact ⟨matchvec, rfl⟩
  | cons slot v ih =>
    rcases slot with _ | e
    · exact ih hv matchvec
    · rw [List.reduceOption_cons_of_some] at hv
      obtain ⟨he, hv⟩ := List.forall_mem_cons.1 hv
      rw [describeVector]
      -- The test of the source is made for a command only. Without one, the index is in bounds
      -- but for `<cr>`, which is shown before the item is read.
      by_cases hpast : command ≠ none ∧ index ≥ e.strvec.length
      · rw [if_pos hpast]
        exact ih hv _
      rw [if_neg hpast]
      by_cases hcr : command = none ∧ index = e.strvec.length
      · rw [if_pos hcr]
        exact ih hv _
      · have hlt : index < e.strvec.length := by
          rcases command with _ | w
          · exact lt_of_le_of_ne he fun heq => hcr ⟨rfl, heq⟩
          · exact not_le.1 fun hle => hpast ⟨by simp, hle⟩
        rw [if_neg hcr, List.getElem?_eq_getElem hlt]
        exact ih hv _

/-- Where the loop over the preceding words goes through, each element left has an item for each
    of them. -/
theorem length_le_of_words {v : CmdVector F} {e : CmdElement F}
    (h : cmdDescribeLoop ws 0 (vectorCopy table) = .words v) (he : e ∈ v.reduceOption) :
    ws.length ≤ e.strvec.length := by
  have hrun := run_of_describe h
  rcases hlen : ws.length with _ | n
  · exact Nat.zero_le _
  · refine lt_length_of_live (congrArg Verdict.live hrun) he ?_
    rw [length_played_of_go hrun, length_cmdRounds]
    omega

/-- Where it ends at a vararg, each element left has one. -/
theorem ne_nil_of_vararg {v : CmdVector F} {e : CmdElement F}
    (h : cmdDescribeLoop ws 0 (vectorCopy table) = .vararg v) (he : e ∈ v.reduceOption) :
    e.strvec ≠ [] := by
  have hverdict := verdict_cmdDescribeLoop ws 0 (vectorCopy table)
  rw [reduceOption_vectorCopy, h] at hverdict
  obtain ⟨i, r, m, hp, -⟩ := exists_halts hverdict.symm
  have hlt := lt_length_of_live (congrArg Verdict.live hverdict.symm) he
    (List.getElem?_eq_some_iff.1 hp).1
  exact List.ne_nil_of_length_pos (by omega)

/-- An error of the loop over the preceding words is one of two. -/
theorem eq_of_error {index : ℕ} {v : CmdVector F} {status : ℤ}
    (h : cmdDescribeLoop ws index v = .error status) :
    status = cmdErrAmbiguous ∨ status = cmdErrNoMatch := by
  induction ws generalizing index v with
  | nil => cases h
  | cons w ws ih =>
    rw [cmdDescribeLoop] at h
    dsimp only at h
    split_ifs at h
    · exact .inl (DescribeEnd.error.inj h).symm
    · exact .inr (DescribeEnd.error.inj h).symm
    · exact ih h

/-- When the status that the caller relies on is reported. -/
theorem cmdDescribeCommand_reports_iff (table : List (CmdElement F)) (ws : List CString)
    (command : Option CString) :
    (cmdDescribeCommand table ws command).Reports ↔ ∀ i, ¬TakesVararg table ws i := by
  rw [← not_exists, exists_takesVararg_iff, cmdDescribeCommand]
  rcases hl : cmdDescribeLoop ws 0 (vectorCopy table) with status | v | v
  · refine iff_of_true ⟨?_, ?_⟩ (by simp)
    · rcases eq_of_error hl with rfl | rfl
      · exact .inr (.inl rfl)
      · exact .inr (.inr rfl)
    · rcases eq_of_error hl with rfl | rfl
      · simp [Description.status, Description.vector, cmdErrAmbiguous, cmdSuccess]
      · simp [Description.status, Description.vector, cmdErrNoMatch, cmdSuccess]
  · -- The status is left as it was.
    obtain ⟨m, hm⟩ := describeVararg_isSome (fun e he => ne_nil_of_vararg hl he) []
    dsimp only
    rw [hm]
    refine iff_of_false (fun h => ?_) (by simp)
    rcases h.isStatus with h | h | h
    · cases h
    · cases h
    · cases h
  · have hleft : ∀ e ∈ (filterCurrent command v ws.length).reduceOption,
        ws.length ≤ e.strvec.length := by
      rcases command with _ | w
      · exact fun e he => length_le_of_words hl he
      · intro e he
        rw [filterCurrent, cmdFilterByCompletion, reduceOption_filterBy] at he
        exact length_le_of_words hl (List.mem_of_mem_filter he)
    obtain ⟨m, hm⟩ := describeVector_isSome command hleft []
    dsimp only
    rw [hm]
    rcases m with _ | ⟨d, m⟩
    · refine iff_of_true ⟨.inr (.inr rfl), ?_⟩ (by simp)
      simp [Description.status, Description.vector, cmdErrNoMatch, cmdSuccess]
    · refine iff_of_true ⟨.inl rfl, ?_⟩ (by simp)
      simp [Description.status, Description.vector]

/-- A command with a vararg. -/
def echoCmd : CmdElement Unit where
  string := "echo .LINE".toList
  func := some ()
  doc := none
  daemon := 0
  strvec := [[⟨"echo".toList, none⟩], [⟨".LINE".toList, none⟩]]
  cmdsize := 2

/-- On `echo a ?`, the status is not set, although `echo` is installed as any command is. -/
theorem cmdDescribeCommand_vararg : echoCmd.Installed ∧
    (cmdDescribeCommand [echoCmd] (words ["echo", "a"]) none).status = none ∧
    ¬(cmdDescribeCommand [echoCmd] (words ["echo", "a"]) none).Reports := by
  have hstatus : (cmdDescribeCommand [echoCmd] (words ["echo", "a"]) none).status = none := by
    decide
  refine ⟨by decide, hstatus, fun h => ?_⟩
  have hset := h.isStatus
  rw [hstatus] at hset
  simp at hset

end Mksh
