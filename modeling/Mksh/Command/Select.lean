import Mksh.Cmd.Tool
import Mksh.Command.Dispatch

/-!
# The element selected

What is known of the element a line selects, from the elimination its words
play (`MatchEnd`): it was kept in every round played, and any other element was
dropped in one, or is incomplete. For the interactive executor, it follows that
dispatch never guesses: the most specific match wins
(`cmdExecuteCommand_selects_best`).
-/

namespace Mksh

open CString Elimination

variable {F : Type*} {cls : CString → CString → MatchType} {table : List (CmdElement F)}
  {vline : List CString} {e : CmdElement F}

/-- Where one element is left, all others are filtered out. -/
theorem filter_eq_singleton {α : Type*} {p : α → Bool} {l : List α} {a : α}
    (h : l.filter p = [a]) : p a ∧ ∃ l₁ l₂, l = l₁ ++ a :: l₂ ∧ ∀ b ∈ l₁ ++ l₂, p b = false := by
  obtain ⟨l₁, l₂, rfl, h₁, ha, h₂⟩ := List.filter_eq_cons_iff.1 h
  refine ⟨ha, l₁, l₂, rfl, fun b hb => ?_⟩
  rcases List.mem_append.1 hb with hb | hb
  · exact Bool.eq_false_iff.2 (h₁ b hb)
  · exact Bool.eq_false_iff.2 (List.filter_eq_nil_iff.1 h₂ b hb)

/-- How many words the matching loop has filtered the vector by. -/
def processed (index : ℕ) (type : MatchType) : ℕ :=
  if type = .varargMatch then index + 1 else index

/-- The end of the matching loop, for a line that selects `e`: either it met a
    vararg, and only `e` is left, or `e` is the only complete element left. -/
structure MatchEnd (cls : CString → CString → MatchType) (table : List (CmdElement F))
    (vline : List CString) (e : CmdElement F) (index : ℕ) (type : MatchType)
    (v : CmdVector F) : Prop where
  loop : cmdMatchLoop (filterBy cls) vline 0 .noMatch (vectorCopy table) = .ok (index, type, v)
  live : (run (cmdRounds cls 0 vline) table).live = some v.reduceOption
  played : (played (cmdRounds cls 0 vline) table).length = processed index type
  select : (type = .varargMatch ∧ v.reduceOption = [e] ∧
      run (cmdRounds cls 0 vline) table = .halt [e]) ∨
    (type ≠ .varargMatch ∧ index = vline.length ∧
      run (cmdRounds cls 0 vline) table = .go v.reduceOption ∧
      (v.reduceOption.filter fun a => vline.length ≥ a.cmdsize) = [e])

/-- What is found is what the matching loop ends with. -/
theorem exists_matchEnd (h : cmdFindElement (filterBy cls) table vline = .ok e) :
    ∃ (index : ℕ) (type : MatchType) (v : CmdVector F),
      MatchEnd cls table vline e index type v := by
  have hr := cmdMatchLoop_refines cls vline 0 .noMatch (vectorCopy table) (by decide)
  rw [reduceOption_vectorCopy] at hr
  rw [cmdFindElement_eq] at h
  generalize hl : cmdMatchLoop (filterBy cls) vline 0 .noMatch (vectorCopy table) = r at hr
  generalize hv : run (cmdRounds cls 0 vline) table = vd at hr h
  cases hr with
  | fail => cases h
  | @halt k v hk =>
    have hve : v.reduceOption = [e] := cmdSelect_halt.1 h
    refine ⟨k, .varargMatch, v, hl, by rw [hv]; rfl, ?_, .inl ⟨rfl, hve, by rw [hv, hve]⟩⟩
    rw [processed, if_pos rfl]
    omega
  | @go type v htype =>
    refine ⟨0 + vline.length, type, v, hl, by rw [hv]; rfl, ?_,
      .inr ⟨htype, Nat.zero_add _, hv, cmdSelect_go.1 h⟩⟩
    rw [processed, if_neg htype, length_played_of_go hv, length_cmdRounds, Nat.zero_add]

/-- A round played is that of a word. -/
theorem exists_word {i : ℕ} {r : Round (CmdElement F) ℤ} {m : List (CmdElement F)}
    (h : (played (cmdRounds cls 0 vline) table)[i]? = some (r, m)) :
    ∃ w, vline[i]? = some w ∧ r = cmdRound cls w i := by
  have hr := (played_getElem? h).1
  rw [cmdRounds_getElem?, Nat.zero_add] at hr
  obtain ⟨w, hw, rfl⟩ := Option.map_eq_some_iff.1 hr
  exact ⟨w, hw, rfl⟩

/-- An element left has an item for each round played. -/
theorem lt_length_of_live {l : List (CmdElement F)}
    (h : (run (cmdRounds cls 0 vline) table).live = some l) (he : e ∈ l) {i : ℕ}
    (hi : i < (played (cmdRounds cls 0 vline) table).length) : i < e.strvec.length := by
  obtain ⟨⟨r, m⟩, hp⟩ : ∃ p, (played (cmdRounds cls 0 vline) table)[i]? = some p :=
    ⟨_, List.getElem?_eq_getElem hi⟩
  obtain ⟨w, -, rfl⟩ := exists_word hp
  by_contra hlt
  refine (keep_iff.1 (kept_of_mem_live h he hp).2).1 ?_
  rw [classAt, CmdElement.item, List.getElem?_eq_none (not_lt.1 hlt)]
  rfl

namespace MatchEnd

variable {index : ℕ} {type : MatchType} {v : CmdVector F}

/-- The element selected is left in the end. -/
theorem mem_live (h : MatchEnd cls table vline e index type v) : e ∈ v.reduceOption := by
  rcases h.select with ⟨-, hv, -⟩ | ⟨-, -, -, hv⟩
  · exact hv ▸ List.mem_singleton_self e
  · exact List.mem_of_mem_filter (hv ▸ List.mem_singleton_self e)

/-- For each word processed, there is a round played. -/
theorem exists_played (h : MatchEnd cls table vline e index type v) {i : ℕ}
    (hi : i < processed index type) : ∃ (w : CString) (m : List (CmdElement F)),
      vline[i]? = some w ∧
      (Elimination.played (cmdRounds cls 0 vline) table)[i]? = some (cmdRound cls w i, m) := by
  rw [← h.played] at hi
  obtain ⟨⟨r, m⟩, hp⟩ : ∃ p, (Elimination.played (cmdRounds cls 0 vline) table)[i]? = some p :=
    ⟨_, List.getElem?_eq_getElem hi⟩
  obtain ⟨w, hw, rfl⟩ := exists_word hp
  exact ⟨w, m, hw, hp⟩

/-- A word before the end of matching is that of a round which went on, keeping
    the element selected. -/
theorem exists_round (h : MatchEnd cls table vline e index type v) {i : ℕ} (hi : i < index)
    {w : CString} (hw : vline[i]? = some w) : ∃ m : List (CmdElement F), e ∈ m ∧
      ¬(cmdRound cls w i).halts m ∧ (cmdRound cls w i).fail m = none ∧
      (cmdRound cls w i).keep m e := by
  have hp : i < processed index type := by rw [processed]; split_ifs <;> omega
  obtain ⟨w', m, hw', hm⟩ := h.exists_played hp
  cases Option.some.inj (hw.symm.trans hw')
  obtain ⟨hem, hk⟩ := kept_of_mem_live h.live h.mem_live hm
  -- The only round that halts is the last one, where the loop breaks.
  have hh : ¬(cmdRound cls w i).halts m := by
    intro hh
    obtain ⟨hrun, hlen⟩ := run_of_halts hm hh
    rcases h.select with ⟨rfl, -, -⟩ | ⟨-, -, hgo, -⟩
    · rw [h.played, processed, if_pos rfl] at hlen
      omega
    · rw [hgo] at hrun
      cases hrun
  exact ⟨m, hem, hh, fail_eq_none_of_live h.live (List.mem_of_getElem? hm) hh, hk⟩

/-- The element selected has an item for each word processed. -/
theorem index_le (h : MatchEnd cls table vline e index type v) : index ≤ e.strvec.length := by
  rcases index with _ | index
  · exact Nat.zero_le _
  · refine lt_length_of_live h.live h.mem_live ?_
    rw [h.played, processed]
    split_ifs <;> omega

/-- Where the loop breaks on a vararg, it is one of the element selected. -/
theorem exists_vararg (h : MatchEnd cls table vline e index .varargMatch v) :
    ∃ w, vline[index]? = some w ∧ classAt (cls w) index e = .varargMatch := by
  obtain ⟨-, -, hhalt⟩ : _ ∧ _ ∧ run (cmdRounds cls 0 vline) table = .halt [e] :=
    h.select.resolve_right fun hr => hr.1 rfl
  obtain ⟨i, r, m, hm, hh⟩ := exists_halts hhalt
  obtain ⟨hrun, hlen⟩ := run_of_halts hm hh
  obtain ⟨w, hw, rfl⟩ := exists_word hm
  have hi : i = index := by
    rw [h.played, processed, if_pos rfl] at hlen
    omega
  subst hi
  refine ⟨w, hw, ?_⟩
  -- An element with the vararg is live there, so it is kept, but only `e` is left.
  have htop : topClass cls w i m = .varargMatch := halts_iff.1 hh
  obtain ⟨a, ha, -, -, -, hat⟩ := exists_cls_eq_topClass (htop.trans_ne (by decide))
  have hka : a ∈ m.filter ((cmdRound cls w i).keep m) := by
    refine List.mem_filter.2 ⟨ha, keep_iff.2 ⟨?_, .inl htop⟩⟩
    rw [hat, htop]
    decide
  rw [hhalt, Verdict.halt.injEq] at hrun
  rw [← hrun, List.mem_singleton] at hka
  rw [← hka, hat, htop]

/-- The other elements are dropped in some round, or incomplete. -/
theorem others (h : MatchEnd cls table vline e index type v) :
    ∃ l₁ l₂, table = l₁ ++ e :: l₂ ∧ ∀ a ∈ l₁ ++ l₂,
      (∃ (i : ℕ) (r : Round (CmdElement F) ℤ) (m : List (CmdElement F)),
        (Elimination.played (cmdRounds cls 0 vline) table)[i]? = some (r, m) ∧ a ∈ m ∧
          r.keep m a = false) ∨
      (type ≠ .varargMatch ∧ some a ∈ v ∧ vline.length < a.cmdsize) := by
  have hlive := live_eq_filter h.live
  rcases h.select with ⟨-, hv, -⟩ | ⟨htype, -, -, hv⟩
  · rw [hlive] at hv
    obtain ⟨-, l₁, l₂, rfl, hall⟩ := filter_eq_singleton hv
    refine ⟨l₁, l₂, rfl, fun a ha => .inl (exists_dropped ?_ (hall a ha))⟩
    simp only [List.mem_append, List.mem_cons] at ha ⊢
    tauto
  · rw [hlive, List.filter_filter] at hv
    obtain ⟨-, l₁, l₂, rfl, hall⟩ := filter_eq_singleton hv
    refine ⟨l₁, l₂, rfl, fun a ha => ?_⟩
    have hmem : a ∈ l₁ ++ e :: l₂ := by
      simp only [List.mem_append, List.mem_cons] at ha ⊢
      tauto
    -- Another element is dropped in a round, or it is not complete at the end.
    rcases Bool.and_eq_false_iff.1 (hall a ha) with hc | hd
    · by_cases hd : ((Elimination.played (cmdRounds cls 0 vline) (l₁ ++ e :: l₂)).all
          fun p => p.1.keep p.2 a) = true
      · refine .inr ⟨htype, ?_, by simpa using hc⟩
        rw [← List.reduceOption_mem_iff, hlive]
        exact List.mem_filter.2 ⟨hmem, hd⟩
      · exact .inl (exists_dropped hmem (by simpa using hd))
    · exact .inl (exists_dropped hmem hd)

end MatchEnd

/-- Dispatch never guesses: any other element of the node does not match some
    word processed, or matches one with a lower class than the element selected,
    or is left in the end, but incomplete. -/
theorem cmdExecuteCommand_selects_best {argv : List CString}
    (h : (cmdExecuteCommand table vline).Selects e argv) :
    ∃ (index : ℕ) (type : MatchType) (v : CmdVector F),
      cmdMatchLoop cmdFilterByCompletion vline 0 .noMatch (vectorCopy table) =
        .ok (index, type, v) ∧
      ∃ l₁ l₂, table = l₁ ++ e :: l₂ ∧ ∀ e' ∈ l₁ ++ l₂,
        (∃ i w, i < processed index type ∧ vline[i]? = some w ∧
          classAt (completionClass w) i e' = .noMatch) ∨
        (∃ i w, i < processed index type ∧ vline[i]? = some w ∧
          classAt (completionClass w) i e' < classAt (completionClass w) i e) ∨
        (type ≠ .varargMatch ∧ some e' ∈ v ∧ vline.length < e'.cmdsize) := by
  obtain ⟨index, type, v, hend⟩ := exists_matchEnd (cmdExecuteWith_selects.1 h).1
  obtain ⟨l₁, l₂, htable, hall⟩ := hend.others
  refine ⟨index, type, v, hend.loop, l₁, l₂, htable, fun e' he' => ?_⟩
  rcases hall e' he' with ⟨i, r, m, hp, hm, hk⟩ | hinc
  · obtain ⟨w, hw, rfl⟩ := exists_word hp
    have hi : i < processed index type := hend.played ▸ (List.getElem?_eq_some_iff.1 hp).1
    by_cases hne : classAt (completionClass w) i e' = .noMatch
    · exact .inl ⟨i, w, hi, hw, hne⟩
    refine .inr (.inl ⟨i, w, hi, hw, ?_⟩)
    obtain ⟨hmem, hke⟩ := kept_of_mem_live hend.live hend.mem_live hp
    -- Where the loop breaks, all the elements that match are kept.
    have hh : ¬(cmdRound completionClass w i).halts m := fun hh =>
      Bool.eq_false_iff.1 hk (keep_iff.2 ⟨hne, .inl (halts_iff.1 hh)⟩)
    exact classAt_lt_of_keep completionClass_classifies hh
      (fail_eq_none_of_live hend.live (List.mem_of_getElem? hp) hh) hmem hke hm hne
      (Bool.eq_false_iff.1 hk)
  · exact .inr (.inr hinc)

/-- `make ins` is for `make (install|clean)`, and not for `make WORD`. -/
theorem cmdExecuteCommand_selects_best_make :
    ∃ (index : ℕ) (type : MatchType) (v : CmdVector ToolFunc),
      cmdMatchLoop cmdFilterByCompletion (words ["make", "ins"]) 0 .noMatch
        (vectorCopy projectNode) = .ok (index, type, v) ∧
      ∃ l₁ l₂, projectNode = l₁ ++ projectMakeInstallOrCleanCmd :: l₂ ∧ ∀ e' ∈ l₁ ++ l₂,
        (∃ i w, i < processed index type ∧ (words ["make", "ins"])[i]? = some w ∧
          classAt (completionClass w) i e' = .noMatch) ∨
        (∃ i w, i < processed index type ∧ (words ["make", "ins"])[i]? = some w ∧
          classAt (completionClass w) i e' <
            classAt (completionClass w) i projectMakeInstallOrCleanCmd) ∨
        (type ≠ .varargMatch ∧ some e' ∈ v ∧ (words ["make", "ins"]).length < e'.cmdsize) := by
  have h : (cmdExecuteCommand projectNode (words ["make", "ins"])).Selects
      projectMakeInstallOrCleanCmd (words ["ins"]) := by decide +kernel
  exact cmdExecuteCommand_selects_best h

end Mksh
