import Mksh.Command.Argv

/-!
# Lines spelled out

The two executors on a line spelled out, i.e., such that each word is a keyword
of an element whose keywords, too, the words before it are (`SpelledOutLine`).
Whatever the filter, the elements left after some words are then those with
these words as their keywords (`run_of_spelledOut`): the other elements, with
variables or longer keywords, are of a lower class. Hence the executors do the
same (`cmdExecuteCommandStrict_eq_of_spelledOut`).
-/

namespace Mksh

open CString Elimination

variable {F : Type*} {cls : CString → CString → MatchType} {table : List (CmdElement F)}
  {vline : List CString}

/-- The item has the word as a keyword. -/
def HasKeyword (w : CString) (item : List Desc) : Prop := ∃ d ∈ item, IsKeyword d.cmd ∧ d.cmd = w

instance (w : CString) : DecidablePred (HasKeyword w) := fun item =>
  inferInstanceAs (Decidable (∃ d ∈ item, IsKeyword d.cmd ∧ d.cmd = w))

/-- The first items of the element have the words as keywords. -/
def HasKeywords (ws : List CString) (e : CmdElement F) : Prop :=
  ∀ j (h : j < ws.length), HasKeyword ws[j] (e.item j)

instance (ws : List CString) : DecidablePred (HasKeywords (F := F) ws) := fun e =>
  inferInstanceAs (Decidable (∀ j (h : j < ws.length), HasKeyword ws[j] (e.item j)))

/-- Each word of the line is a keyword of an element which has the words before
    it as keywords. -/
def SpelledOutLine (table : List (CmdElement F)) (vline : List CString) : Prop :=
  ∀ i (h : i < vline.length), ∃ e ∈ table,
    HasKeywords (vline.take i) e ∧ HasKeyword vline[i] (e.item i)

instance (table : List (CmdElement F)) : DecidablePred (SpelledOutLine table) := fun vline =>
  inferInstanceAs (Decidable (∀ i (h : i < vline.length), ∃ e ∈ table,
    HasKeywords (vline.take i) e ∧ HasKeyword vline[i] (e.item i)))

/-- A round on a word that some live element has as a keyword keeps the elements
    that have it as a keyword. -/
theorem play_of_hasKeyword (hcls : Classifies cls) {w : CString} {i : ℕ}
    {l : List (CmdElement F)} (h : ∃ e ∈ l, HasKeyword w (e.item i)) :
    (cmdRound cls w i).play l = .go (l.filter fun e => HasKeyword w (e.item i)) := by
  obtain ⟨e, he, d, hd, hkey, rfl⟩ := h
  -- The keyword is of the highest class there is.
  have htop : topClass cls d.cmd i l = .exactMatch := by
    have hle : MatchType.exactMatch ≤ topClass cls d.cmd i l :=
      calc MatchType.exactMatch = cls d.cmd d.cmd := (hcls.exact.2 ⟨hkey, rfl⟩).symm
        _ ≤ classAt (cls d.cmd) i e := cls_le_classAt hd
        _ ≤ topClass cls d.cmd i l := classAt_le_topClass he
    cases ht : topClass cls d.cmd i l <;> first | rfl | exact absurd (ht ▸ hle) (by decide)
  have hh : ¬(cmdRound cls d.cmd i).halts l := by
    rw [halts_iff, htop]
    decide
  have hf : (cmdRound cls d.cmd i).fail l = none := by
    rw [fail_eq_none_iff, roundConflict, htop]
    rfl
  rw [Round.play_go_iff]
  refine ⟨hh, hf, List.filter_congr fun a ha => ?_⟩
  rw [Bool.eq_iff_iff, decide_eq_true_iff, keep_iff, htop]
  constructor
  · rintro ⟨d', hd', hkey', heq⟩
    have hc : cls d.cmd d'.cmd = .exactMatch := hcls.exact.2 ⟨hkey', heq.symm⟩
    refine ⟨fun hno => ?_, .inr ⟨d', hd', hcls.hit hc (by decide) (by decide)⟩⟩
    exact absurd (hc ▸ hno ▸ cls_le_classAt hd') (by decide)
  · rintro ⟨-, hk⟩
    obtain ⟨d', hd', hhit⟩ := hk.resolve_left (by decide)
    have heq : d.cmd = d'.cmd := by
      simp only [hits, Bool.and_eq_true, decide_eq_true_eq, strcmp_eq_zero] at hhit
      exact hhit.2
    exact ⟨d', hd', heq ▸ hkey, heq.symm⟩

/-- One more word has to spell out an item at its own position. -/
theorem hasKeywords_append {ws : List CString} {w : CString} {e : CmdElement F} :
    HasKeywords (ws ++ [w]) e ↔ HasKeywords ws e ∧ HasKeyword w (e.item ws.length) := by
  constructor
  · intro h
    constructor
    · intro j hj
      have hw := h j (by simp; omega)
      rwa [List.getElem_append_left hj] at hw
    · have hw := h ws.length (by simp)
      rwa [List.getElem_concat_length rfl] at hw
  · rintro ⟨h, hw⟩ j hj
    rw [List.length_append, List.length_singleton] at hj
    rcases Nat.lt_succ_iff_lt_or_eq.1 hj with hlt | rfl
    · rw [List.getElem_append_left hlt]
      exact h j hlt
    · rw [List.getElem_concat_length rfl]
      exact hw

/-- After words spelled out, the elements left are those that have them as keywords. -/
theorem run_of_spelledOut (hcls : Classifies cls) (h : SpelledOutLine table vline) :
    run (cmdRounds cls 0 vline) table = .go (table.filter fun e => HasKeywords vline e) := by
  induction vline using List.reverseRecOn with
  | nil =>
    have hall : ∀ e ∈ table, decide (HasKeywords [] e) = true := fun e _ =>
      decide_eq_true fun j hj => absurd hj (Nat.not_lt_zero j)
    exact congrArg Verdict.go (List.filter_eq_self.2 hall).symm
  | append_singleton ws w ih =>
    have hws : SpelledOutLine table ws := by
      intro i hi
      obtain ⟨e, he, hkeys, hkey⟩ := h i (by simp; omega)
      rw [List.take_append_of_le_length hi.le] at hkeys
      rw [List.getElem_append_left hi] at hkey
      exact ⟨e, he, hkeys, hkey⟩
    obtain ⟨e, he, hkeys, hkey⟩ := h ws.length (by simp)
    rw [List.take_left] at hkeys
    rw [List.getElem_concat_length rfl] at hkey
    have hlive : ∃ e ∈ table.filter fun e => HasKeywords ws e, HasKeyword w (e.item ws.length) :=
      ⟨e, List.mem_filter.2 ⟨he, decide_eq_true hkeys⟩, hkey⟩
    rw [cmdRounds_append, run_append_of_go (ih hws), Nat.zero_add, cmdRounds, cmdRounds, run,
      play_of_hasKeyword hcls hlive, List.filter_filter]
    simp only [run, hasKeywords_append, Bool.decide_and, Bool.and_comm]

/-- The executors do the same with a line spelled out. -/
theorem cmdExecuteCommandStrict_eq_of_spelledOut (h : SpelledOutLine table vline) :
    cmdExecuteCommandStrict table vline = cmdExecuteCommand table vline := by
  have hfind : cmdFindElement cmdFilterByString table vline =
      cmdFindElement cmdFilterByCompletion table vline := by
    calc cmdFindElement cmdFilterByString table vline
        = cmdSelect vline.length (run (cmdRounds stringClass 0 vline) table) :=
          cmdFindElement_eq table vline
      _ = cmdSelect vline.length (run (cmdRounds completionClass 0 vline) table) := by
          rw [run_of_spelledOut stringClass_classifies h,
            run_of_spelledOut completionClass_classifies h]
      _ = cmdFindElement cmdFilterByCompletion table vline := (cmdFindElement_eq table vline).symm
  rw [cmdExecuteCommandStrict, cmdExecuteCommand, cmdExecuteWith, hfind, cmdExecuteWith]

/-- `make install` is spelled out, so both executors run the same element. -/
theorem cmdExecuteCommandStrict_eq_of_spelledOut_make :
    cmdExecuteCommandStrict projectNode (words ["make", "install"]) =
      cmdExecuteCommand projectNode (words ["make", "install"]) :=
  cmdExecuteCommandStrict_eq_of_spelledOut (by decide +kernel)

end Mksh
